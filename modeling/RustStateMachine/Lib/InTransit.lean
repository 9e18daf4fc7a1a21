import Mathlib.Algebra.BigOperators.Group.List.Basic
import Mathlib.Algebra.GroupWithZero.Nat
import RustStateMachine.Lib.Network

/-!
# What is in transit

Messages carry a weight. A party that handles a message, or sends one of its own
to everyone else, rises by that weight. Then a party's level, what is on its way
to it and what was lost on that way grow together by what anybody sends.
-/

namespace Lib.Network

variable {n : ℕ} {ε σ μ : Type}

/-- The weight of the messages on their way to a party. -/
def inTransit (weight : μ → ℕ) (i : Fin n) (net : Network n ε σ μ) : ℕ :=
  ((net.inFlight.filter fun p => p.1 = i).map fun p => weight p.2).sum

/-- The weight of some messages. -/
def totalWeight (weight : μ → ℕ) (ms : List μ) : ℕ := (ms.map weight).sum

section Transit

variable {weight : μ → ℕ} {sent : List ε → List μ} {i j : Fin n} {x : Exec ε σ Unit}
  {net : Network n ε σ μ}

@[simp] theorem totalWeight_append (ms ms' : List μ) :
    totalWeight weight (ms ++ ms') = totalWeight weight ms + totalWeight weight ms' := by
  simp [totalWeight]

/-- Everyone but the sender is sent one copy of each message. -/
theorem sum_broadcast (i j : Fin n) (ms : List μ) :
    (((broadcast j ms).filter fun p => p.1 = i).map fun p => weight p.2).sum =
      if i = j then 0 else totalWeight weight ms := by
  induction ms with
  | nil => simp [totalWeight]
  | cons m ms ih =>
      have hone : (((others j).map fun k => (k, m)).filter fun p => p.1 = i) =
          if i = j then [] else [(i, m)] := by
        rw [List.filter_map]
        have hpick : (others j).filter ((fun p : Fin n × μ => decide (p.1 = i)) ∘ fun k => (k, m)) =
            if i = j then [] else [i] := by
          split_ifs with hij
          · rw [List.filter_eq_nil_iff]
            intro k hk
            have hne := mem_others.mp hk
            simpa [hij] using hne
          · have heq : (others j).filter ((fun p : Fin n × μ => decide (p.1 = i)) ∘
                fun k => (k, m)) = (others j).filter fun k => k == i :=
              List.filter_congr fun k _ => rfl
            rw [heq, List.filter_beq, (others_nodup j).count, if_pos (mem_others.mpr hij)]
            rfl
        rw [hpick]
        split_ifs <;> rfl
      have hsplit : broadcast j (m :: ms) =
          ((others j).map fun k => (k, m)) ++ broadcast j ms := rfl
      rw [hsplit, List.filter_append, List.map_append, List.sum_append, ih, hone]
      split_ifs with hij
      · rfl
      · simp [totalWeight]

theorem inTransit_act (hawake : net.halted j = false) :
    inTransit weight i (net.act sent j x) = inTransit weight i net +
      if i = j then 0 else totalWeight weight (sent (x (net.party j)).log) := by
  rw [inTransit, act_inFlight hawake, List.filter_append, List.map_append, List.sum_append,
    sum_broadcast]
  rfl

/-- A message is taken off the way to its addressee. -/
theorem inTransit_take [DecidableEq μ] {m : μ} (hmem : (j, m) ∈ net.inFlight) :
    inTransit weight i net = inTransit weight i (net.take j m) + if i = j then weight m else 0 := by
  have hperm := (List.perm_cons_erase hmem).filter fun p => p.1 = i
  have hsum := (hperm.map fun p => weight p.2).sum_eq
  rw [inTransit, hsum, List.filter_cons]
  by_cases hij : j = i
  · subst hij
    rw [if_pos (decide_eq_true rfl), if_pos rfl, List.map_cons, List.sum_cons, Nat.add_comm]
    rfl
  · rw [if_neg (by simpa using hij), if_neg fun h => hij h.symm]
    rfl

end Transit

/-! ## The balance -/

/-- What has been sent in all, by the log. -/
def sentWeight (weight : μ → ℕ) (sent : List ε → List μ) (net : Network n ε σ μ) : ℕ :=
  totalWeight weight (sent (net.log.map Prod.snd))

/-- A party that is still running stands, with what is on its way to it and what was lost on that
way, where it stood at the start plus what has been sent. -/
def InBalance (level : σ → ℕ) (weight : μ → ℕ) (sent : List ε → List μ) (base : Fin n → ℕ)
    (lost : Fin n → ℕ) (net : Network n ε σ μ) : Prop :=
  ∀ i, net.halted i = false →
    level (net.party i) + inTransit weight i net + lost i = base i + sentWeight weight sent net

section Balance

variable [DecidableEq μ] {level : σ → ℕ} {weight : μ → ℕ} {sent : List ε → List μ}
  {base lost : Fin n → ℕ} {j : Fin n} {x : Exec ε σ Unit} {net : Network n ε σ μ}

omit [DecidableEq μ] in
theorem sentWeight_act (hsent : ∀ l l', sent (l ++ l') = sent l ++ sent l')
    (hawake : net.halted j = false) :
    sentWeight weight sent (net.act sent j x) =
      sentWeight weight sent net + totalWeight weight (sent (x (net.party j)).log) := by
  have hlog : (net.act sent j x).log = net.log ++ (x (net.party j)).log.map (Prod.mk j) := by
    simp [act, hawake]
  rw [sentWeight, hlog, List.map_append, List.map_map, hsent, totalWeight_append]
  congr 3
  exact List.map_id _

omit [DecidableEq μ] in
theorem halted_act (hawake : net.halted j = false) (i : Fin n) :
    (net.act sent j x).halted i = false ↔
      net.halted i = false ∧ (i = j → (x (net.party j)).outcome.Returns) := by
  by_cases hij : i = j
  · subst hij
    simp [act, hawake]
  · simp [act, hawake, hij]

omit [DecidableEq μ] in
/-- A party that acts rises by what it has received for the action and what it sends in it. -/
theorem InBalance.act (hsent : ∀ l l', sent (l ++ l') = sent l ++ sent l')
    {got : ℕ} (h : InBalance level weight sent base
      (fun i => lost i + if i = j then got else 0) net) (hawake : net.halted j = false)
    (hlevel : (x (net.party j)).outcome.Returns → level (x (net.party j)).state =
      level (net.party j) + got + totalWeight weight (sent (x (net.party j)).log)) :
    InBalance level weight sent base lost (net.act sent j x) := by
  intro i hi
  obtain ⟨hi, hret⟩ := (halted_act hawake i).mp hi
  have hbefore : level (net.party i) + inTransit weight i net +
      (lost i + if i = j then got else 0) = base i + sentWeight weight sent net := h i hi
  rw [sentWeight_act hsent hawake, inTransit_act hawake, act_party hawake]
  by_cases hij : i = j
  · subst hij
    have hrise := hlevel (hret rfl)
    rw [if_pos rfl] at hbefore ⊢
    rw [if_pos rfl]
    omega
  · rw [if_neg hij] at hbefore ⊢
    rw [if_neg hij]
    omega

/-- A message is taken off the network; its addressee has it to its credit. -/
theorem InBalance.take {m : μ} (h : InBalance level weight sent base lost net)
    (hmem : (j, m) ∈ net.inFlight) :
    InBalance level weight sent base (fun i => lost i + if i = j then weight m else 0)
      (net.take j m) := by
  intro i hi
  have hbefore := h i hi
  rw [inTransit_take hmem] at hbefore
  change level (net.party i) + inTransit weight i (net.take j m) +
    (lost i + if i = j then weight m else 0) = base i + sentWeight weight sent net
  omega

end Balance

end Lib.Network
