import Mathlib.Algebra.BigOperators.Group.Finset.Piecewise
import Mathlib.Algebra.GroupWithZero.Nat
import Mathlib.Algebra.Order.BigOperators.Group.Finset
import Mathlib.Logic.Function.Basic

/-!
# Ledgers

Accounts hold amounts, own contents and give orders. An order that the ledger
permits moves an amount or a content, one that it refuses is only counted.
-/

namespace Lib

/-- How many orders each account gave, what it holds, and who owns each content. -/
@[ext] structure Ledger (A C : Type) where
  spent : A → ℕ
  holds : A → ℕ
  owner : C → Option A

namespace Ledger

/-- What an order asks for. -/
inductive Command (A C : Type) where
  | pay (recipient : A) (amount : ℕ)
  | claim (content : C)
  | revoke (content : C)

/-- A command and who gives it. -/
structure Order (A C : Type) where
  signer : A
  command : Command A C

variable {A C : Type} {cap : ℕ}

/-- The signer can afford what it pays and nobody gets to hold `cap`; a content is claimed once,
and revoked by its owner. -/
def Permits (cap : ℕ) (l : Ledger A C) (o : Order A C) : Prop :=
  match o.command with
  | .pay recipient amount => amount ≤ l.holds o.signer ∧ l.holds recipient + amount < cap
  | .claim content => l.owner content = none
  | .revoke content => l.owner content = some o.signer

@[simp] theorem permits_pay (l : Ledger A C) (a recipient : A) (amount : ℕ) :
    l.Permits cap ⟨a, .pay recipient amount⟩ ↔
      amount ≤ l.holds a ∧ l.holds recipient + amount < cap := Iff.rfl

@[simp] theorem permits_claim (l : Ledger A C) (a : A) (content : C) :
    l.Permits cap ⟨a, .claim content⟩ ↔ l.owner content = none := Iff.rfl

@[simp] theorem permits_revoke (l : Ledger A C) (a : A) (content : C) :
    l.Permits cap ⟨a, .revoke content⟩ ↔ l.owner content = some a := Iff.rfl

variable [DecidableEq A] [DecidableEq C]

instance (l : Ledger A C) (o : Order A C) : Decidable (l.Permits cap o) :=
  match o with
  | ⟨_, .pay _ _⟩ => inferInstanceAs (Decidable (_ ∧ _))
  | ⟨_, .claim _⟩ => inferInstanceAs (Decidable (_ = _))
  | ⟨_, .revoke _⟩ => inferInstanceAs (Decidable (_ = _))

/-- One more order of the account. -/
def count (l : Ledger A C) (a : A) : Ledger A C :=
  { l with spent := Function.update l.spent a (l.spent a + 1) }

omit [DecidableEq C] in
/-- What anybody holds and owns decides, not what was counted. -/
@[simp] theorem permits_count (l : Ledger A C) (a : A) (o : Order A C) :
    (l.count a).Permits cap o ↔ l.Permits cap o := Iff.rfl

/-- Carry a permitted order out. -/
def carry (l : Ledger A C) (o : Order A C) : Ledger A C :=
  match o.command with
  | .pay recipient amount =>
      { l with holds := fun a =>
          l.holds a + (if recipient = a then amount else 0) - if o.signer = a then amount else 0 }
  | .claim content => { l with owner := Function.update l.owner content (some o.signer) }
  | .revoke content => { l with owner := Function.update l.owner content none }

/-- An order is counted, and carried out if it is permitted. -/
def step (cap : ℕ) (l : Ledger A C) (o : Order A C) : Ledger A C :=
  if l.Permits cap o then (l.count o.signer).carry o else l.count o.signer

/-- The orders one after the other. -/
def replay (cap : ℕ) (os : List (Order A C)) (l : Ledger A C) : Ledger A C :=
  os.foldl (step cap) l

/-- Which of the orders go through. -/
def verdicts (cap : ℕ) : List (Order A C) → Ledger A C → List Bool
  | [], _ => []
  | o :: os, l => decide (l.Permits cap o) :: verdicts cap os (l.step cap o)

@[simp] theorem replay_concat (os : List (Order A C)) (o : Order A C) (l : Ledger A C) :
    replay cap (os ++ [o]) l = (replay cap os l).step cap o := by
  rw [replay, List.foldl_append]
  rfl

@[simp] theorem verdicts_concat (os : List (Order A C)) (o : Order A C) (l : Ledger A C) :
    verdicts cap (os ++ [o]) l =
      verdicts cap os l ++ [decide ((replay cap os l).Permits cap o)] := by
  induction os generalizing l with
  | nil => rfl
  | cons o' os ih =>
      rw [List.cons_append, verdicts, ih]
      rfl

/-- The two ends of an order. -/
def Order.parties (o : Order A C) : List A :=
  match o.command with
  | .pay recipient _ => [o.signer, recipient]
  | _ => [o.signer]

/-- What an order that goes through takes from its signer and gives to its recipient. -/
theorem holds_carry {l : Ledger A C} {o : Order A C} {recipient : A} {amount : ℕ}
    (ho : o.command = .pay recipient amount) (h : amount ≤ l.holds o.signer) (a : A) :
    (l.carry o).holds a + (if o.signer = a then amount else 0) =
      l.holds a + if recipient = a then amount else 0 := by
  rw [carry, ho]
  dsimp only
  split_ifs with hrecipient hsigner hsigner
  · omega
  · omega
  · rw [hsigner] at h
    omega
  · omega

/-- An order keeps the total of its parties and of anybody else. -/
theorem sum_step (s : Finset A) {o : Order A C} (hs : ∀ a ∈ o.parties, a ∈ s) (l : Ledger A C) :
    ∑ a ∈ s, (l.step cap o).holds a = ∑ a ∈ s, l.holds a := by
  rw [step]
  split_ifs with hpermits
  · cases ho : o.command with
    | pay recipient amount =>
        rw [Order.parties, ho] at hs
        rw [Permits, ho] at hpermits
        have hmoved := Finset.sum_congr (rfl : s = s) fun a _ =>
          holds_carry (l := l.count o.signer) ho hpermits.1 a
        rw [Finset.sum_add_distrib, Finset.sum_add_distrib, Finset.sum_ite_eq, Finset.sum_ite_eq,
          if_pos (hs _ List.mem_cons_self),
          if_pos (hs _ (List.mem_cons_of_mem _ List.mem_cons_self))] at hmoved
        exact Nat.add_right_cancel hmoved
    | claim content => rw [carry, ho]; rfl
    | revoke content => rw [carry, ho]; rfl
  · rfl

/-- Orders keep the total of whoever takes part in them. -/
theorem sum_replay (s : Finset A) {os : List (Order A C)} (hs : ∀ o ∈ os, ∀ a ∈ o.parties, a ∈ s)
    (l : Ledger A C) : ∑ a ∈ s, (replay cap os l).holds a = ∑ a ∈ s, l.holds a := by
  induction os generalizing l with
  | nil => rfl
  | cons o os ih =>
      calc ∑ a ∈ s, (replay cap (o :: os) l).holds a
          = ∑ a ∈ s, (l.step cap o).holds a :=
            ih (fun o' ho' => hs o' (List.mem_cons_of_mem _ ho')) _
        _ = ∑ a ∈ s, l.holds a := sum_step s (hs o List.mem_cons_self) l

end Ledger

end Lib
