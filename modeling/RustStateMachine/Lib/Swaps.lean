import Mathlib.Data.List.Perm.Basic
import Mathlib.Logic.Relation

/-!
# Swapping neighbours

Lists that go over into each other by swapping neighbours which are related. Two
lists with the same elements of each key, in the same order, do so by swapping
neighbours of different keys; what no such swap changes is the same for both.
-/

namespace Lib.Swaps

variable {α : Type}

/-- Two neighbours that are related change places. -/
inductive Swap (R : α → α → Prop) : List α → List α → Prop
  | neighbours (pre post : List α) {a b : α} (h : R a b) :
      Swap R (pre ++ a :: b :: post) (pre ++ b :: a :: post)

/-- Any number of swaps. -/
def Rearranged (R : α → α → Prop) : List α → List α → Prop := Relation.ReflTransGen (Swap R)

variable {R : α → α → Prop} {l l' : List α}

theorem Swap.cons (x : α) (h : Swap R l l') : Swap R (x :: l) (x :: l') := by
  obtain ⟨pre, post, hab⟩ := h
  exact .neighbours (x :: pre) post hab

theorem Swap.perm (h : Swap R l l') : l.Perm l' := by
  obtain ⟨pre, post, hab⟩ := h
  exact (List.Perm.swap _ _ post).append_left pre

namespace Rearranged

theorem cons (x : α) (h : Rearranged R l l') : Rearranged R (x :: l) (x :: l') := by
  induction h with
  | refl => exact .refl
  | tail _ hswap ih => exact ih.tail (hswap.cons x)

theorem perm (h : Rearranged R l l') : l.Perm l' := by
  induction h with
  | refl => exact .refl _
  | tail _ hswap ih => exact ih.trans hswap.perm

/-- An element goes past the ones before it. -/
theorem to_front {u : List α} {b : α} (h : ∀ a ∈ u, R a b) (v : List α) :
    Rearranged R (u ++ b :: v) (b :: (u ++ v)) := by
  induction u with
  | nil => exact .refl
  | cons a u ih =>
      have hrest : Rearranged R (u ++ b :: v) (b :: (u ++ v)) :=
        ih fun c hc => h c (List.mem_cons_of_mem a hc)
      have hfirst := h a List.mem_cons_self
      exact (hrest.cons a).tail (.neighbours [] (u ++ v) hfirst)

/-- What a swap of related neighbours does not change, in a list with the same elements. -/
theorem congr {β : Type} {f : List α → β} (h : Rearranged R l l')
    (hswap : ∀ pre post a b, (pre ++ a :: b :: post).Perm l → R a b →
      f (pre ++ b :: a :: post) = f (pre ++ a :: b :: post)) : f l' = f l := by
  induction h with
  | refl => rfl
  | tail hfront hlast ih =>
      have hperm := Rearranged.perm hfront
      obtain ⟨pre, post, hab⟩ := hlast
      exact (hswap pre post _ _ hperm.symm hab).trans ih

end Rearranged

section Keys

variable {κ : Type} [DecidableEq κ] (key : α → κ)

/-- Lists that are the same key by key. -/
theorem rearranged_of_filter
    (h : ∀ k, (l.filter fun a => key a = k) = l'.filter fun a => key a = k) :
    Rearranged (fun a b => key a ≠ key b) l l' := by
  induction l' generalizing l with
  | nil =>
      have hnil : l = [] := by
        rw [List.eq_nil_iff_forall_not_mem]
        intro a ha
        have hmem : a ∈ l.filter fun b => key b = key a :=
          List.mem_filter.mpr ⟨ha, decide_eq_true rfl⟩
        rw [h (key a)] at hmem
        cases hmem
      rw [hnil]
      exact .refl
  | cons b l' ih =>
      have hkeep : ((b :: l').filter fun a => key a = key b) =
          b :: l'.filter fun a => key a = key b := by simp
      have hb := (h (key b)).trans hkeep
      rw [List.filter_eq_cons_iff] at hb
      obtain ⟨u, v, rfl, hu, -, hv⟩ := hb
      have hother : ∀ a ∈ u, key a ≠ key b := fun a ha heq => hu a ha (decide_eq_true heq)
      refine (Rearranged.to_front hother v).trans ((ih fun k => ?_).cons b)
      have hk := h k
      rw [List.filter_append] at hk ⊢
      by_cases heq : key b = k
      · subst heq
        have hnone : (u.filter fun a => key a = key b) = [] :=
          List.filter_eq_nil_iff.mpr hu
        rw [hnone, List.nil_append]
        exact hv
      · have hskip : ∀ rest : List α, ((b :: rest).filter fun a => key a = k) =
            rest.filter fun a => key a = k :=
          fun rest => List.filter_cons_of_neg fun hpos => heq (of_decide_eq_true hpos)
        rw [hskip, hskip] at hk
        exact hk

end Keys

end Lib.Swaps
