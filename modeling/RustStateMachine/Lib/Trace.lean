import Mathlib.Data.List.Induction

/-!
# Runs of a step function

A state moves by a function of an action. What the steps that meet a condition
keep holds after every run all of whose steps meet it, and a property that no
step restores holds at the end exactly if every step meets a condition that the
property asks of the first step to break it.
-/

namespace Lib.Trace

variable {α σ : Type} (next : α → σ → σ)

/-- The state after some actions. -/
def run (acts : List α) (s : σ) : σ := acts.foldl (fun s a => next a s) s

@[simp] theorem run_nil (s : σ) : run next [] s = s := rfl

theorem run_concat (acts : List α) (a : α) (s : σ) :
    run next (acts ++ [a]) s = next a (run next acts s) := by
  rw [run, List.foldl_append]
  rfl

/-- What one more step adds to what a run has brought in. -/
theorem filterMap_concat {β : Type} (f : α → Option β) (acts : List α) (a : α) :
    (acts ++ [a]).filterMap f = acts.filterMap f ++ (f a).toList := by
  rw [List.filterMap_append]
  cases h : f a with
  | none => rw [List.filterMap_cons_none h]; rfl
  | some b => rw [List.filterMap_cons_some h]; rfl

/-- Every step of a run meets the condition, in the state it is taken from. -/
def AtEachStep (P : α → σ → Prop) (acts : List α) (s : σ) : Prop :=
  ∀ pre a, pre ++ [a] <+: acts → P a (run next pre s)

variable {next} {P Q : α → σ → Prop} {acts : List α} {s : σ}

theorem atEachStep_nil (P : α → σ → Prop) (s : σ) : AtEachStep next P [] s := by
  intro pre a h
  have hnil := List.prefix_nil.mp h
  exact absurd hnil (List.append_ne_nil_of_right_ne_nil _ (List.cons_ne_nil a []))

theorem atEachStep_concat {a : α} :
    AtEachStep next P (acts ++ [a]) s ↔ AtEachStep next P acts s ∧ P a (run next acts s) := by
  constructor
  · intro h
    refine ⟨?_, h acts a List.prefix_rfl⟩
    intro pre b hpre
    exact h pre b (hpre.trans (List.prefix_append acts [a]))
  · rintro ⟨h, hlast⟩ pre b hpre
    rcases List.prefix_concat_iff.mp hpre with heq | hpre
    · obtain ⟨rfl, hb⟩ := List.append_inj' heq rfl
      rw [List.singleton_inj.mp hb]
      exact hlast
    · exact h pre b hpre

/-- What the start has and the steps that meet the condition keep. -/
theorem AtEachStep.invariant {I : σ → Prop} (h : AtEachStep next P acts s) (hs : I s)
    (hstep : ∀ a t, P a t → I t → I (next a t)) : I (run next acts s) := by
  induction acts using List.reverseRecOn with
  | nil => exact hs
  | append_singleton acts a ih =>
      obtain ⟨hacts, hlast⟩ := atEachStep_concat.mp h
      rw [run_concat]
      exact hstep a _ hlast (ih hacts)

/-- What every step keeps holds after every run. -/
theorem run_keeps {I : σ → Prop} (hstep : ∀ a t, I t → I (next a t)) (acts : List α) (hs : I s) :
    I (run next acts s) := by
  induction acts generalizing s with
  | nil => exact hs
  | cons a acts ih => exact ih (hstep a s hs)

/-- With `Q` at each step, a property that no step restores holds after the run exactly if `P` is
met at each step: `P` keeps an invariant that implies the property, and from the invariant only a
step that meets `P` leaves the property. -/
theorem AtEachStep.iff_of_step {I G : σ → Prop} (hQ : AtEachStep next Q acts s) (hs : I s)
    (hgood : ∀ t, I t → G t) (hback : ∀ a t, G (next a t) → G t)
    (hkeep : ∀ a t, I t → Q a t → P a t → I (next a t))
    (hneed : ∀ a t, I t → Q a t → G (next a t) → P a t) :
    G (run next acts s) ↔ AtEachStep next P acts s := by
  have hrun : ∀ {acts : List α}, AtEachStep next Q acts s → AtEachStep next P acts s →
      I (run next acts s) := by
    intro acts hQ hP
    refine AtEachStep.invariant (P := fun a t => Q a t ∧ P a t) ?_ hs ?_
    · intro pre a hpre
      exact ⟨hQ pre a hpre, hP pre a hpre⟩
    · intro a t hboth ht
      exact hkeep a t ht hboth.1 hboth.2
  constructor
  · intro h
    induction acts using List.reverseRecOn with
    | nil => exact atEachStep_nil P s
    | append_singleton acts a ih =>
        obtain ⟨hacts, hlast⟩ := atEachStep_concat.mp hQ
        rw [run_concat] at h
        have hpast := ih hacts (hback a _ h)
        exact atEachStep_concat.mpr ⟨hpast, hneed a _ (hrun hacts hpast) hlast h⟩
  · intro h
    exact hgood _ (hrun hQ h)

end Lib.Trace
