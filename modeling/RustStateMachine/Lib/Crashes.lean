import Mathlib.Data.List.Infix

/-!
# Crashes and lives

A process logs what it does, and some entries change what is durable. It may
stop after any entry; the next life starts from what is durable then. A property
that each life keeps at every point of its log survives any number of lives.
-/

namespace Lib.Crashes

variable {δ ε ι σ : Type} (apply : ε → δ → δ)

/-- What is durable after a log. -/
def durable (d : δ) (log : List ε) : δ := log.foldl (fun d e => apply e d) d

@[simp] theorem durable_nil (d : δ) : durable apply d [] = d := rfl

@[simp] theorem durable_cons (d : δ) (e : ε) (log : List ε) :
    durable apply d (e :: log) = durable apply (apply e d) log := rfl

@[simp] theorem durable_append (d : δ) (l l' : List ε) :
    durable apply d (l ++ l') = durable apply (durable apply d l) l' := List.foldl_append

/-- The property holds of what is durable at every point of the log. -/
def Throughout (P : δ → Prop) (d : δ) (log : List ε) : Prop :=
  ∀ cut, cut <+: log → P (durable apply d cut)

section Throughout

variable {apply} {P : δ → Prop} {d : δ} {l l' : List ε}

theorem throughout_nil : Throughout apply P d [] ↔ P d := by
  constructor
  · intro h
    exact h [] List.prefix_rfl
  · intro h cut hcut
    rwa [List.prefix_nil.mp hcut]

theorem throughout_cons {e : ε} :
    Throughout apply P d (e :: l) ↔ P d ∧ Throughout apply P (apply e d) l := by
  constructor
  · intro h
    refine ⟨h [] List.nil_prefix, fun cut hcut => ?_⟩
    exact h (e :: cut) (List.cons_prefix_cons.mpr ⟨rfl, hcut⟩)
  · rintro ⟨hd, hl⟩ cut hcut
    cases cut with
    | nil => exact hd
    | cons e' cut =>
        obtain ⟨rfl, hrest⟩ := List.cons_prefix_cons.mp hcut
        exact hl cut hrest

theorem throughout_append :
    Throughout apply P d (l ++ l') ↔
      Throughout apply P d l ∧ Throughout apply P (durable apply d l) l' := by
  induction l generalizing d with
  | nil =>
      rw [throughout_nil]
      exact ⟨fun h => ⟨h [] List.nil_prefix, h⟩, And.right⟩
  | cons e l ih => rw [List.cons_append, throughout_cons, throughout_cons, ih, and_assoc]; rfl

theorem Throughout.start (h : Throughout apply P d l) : P d := h [] List.nil_prefix

end Throughout

/-! ## One life -/

/-- The state of the process and what is durable are related by `R`, and `P` has held of what is
durable all along. -/
def Recoverable (R : σ → δ → Prop) (P : δ → Prop) (d : δ) (s : σ) (log : List ε) : Prop :=
  R s (durable apply d log) ∧ Throughout apply P d log

theorem Recoverable.extend {apply : ε → δ → δ} {R : σ → δ → Prop} {P : δ → Prop} {d : δ} {s s' : σ}
    {log more : List ε} (h : Recoverable apply R P d s log)
    (hmore : R s (durable apply d log) → R s' (durable apply (durable apply d log) more) ∧
      Throughout apply P (durable apply d log) more) :
    Recoverable apply R P d s' (log ++ more) := by
  obtain ⟨hR, hP⟩ := hmore h.1
  refine ⟨?_, throughout_append.mpr ⟨h.2, hP⟩⟩
  rw [durable_append]
  exact hR

/-! ## Many lives -/

/-- What is durable after some lives, each cut off after a number of its entries. -/
def outlived (life : ι → δ → List ε) : List (ι × ℕ) → δ → δ
  | [], d => d
  | (i, k) :: lives, d => outlived life lives (durable apply d ((life i d).take k))

/-- What every life keeps at every point of its log. -/
theorem outlived_keeps {apply : ε → δ → δ} {life : ι → δ → List ε} {P : δ → Prop}
    (hlife : ∀ i d, P d → Throughout apply P d (life i d)) (lives : List (ι × ℕ)) {d : δ}
    (hd : P d) :
    P (outlived apply life lives d) := by
  induction lives generalizing d with
  | nil => exact hd
  | cons l lives ih =>
      obtain ⟨i, k⟩ := l
      exact ih (hlife i d hd _ (List.take_prefix k _))

end Lib.Crashes
