import Mathlib.Tactic.Abel
import RustStateMachine.Lib.Trace
import RustStateMachine.Support

/-!
# Mempool accounting

The pool next to a history of what was taken in and what left it, and by which
way. Nothing is lost or doubled, and what is drained leaves in arrival order.
-/

namespace RustStateMachine.Support.Mempool

open Lib

variable {Extrinsic : Type}

/-- What a closure keeps that is shown some extrinsics one after the other. Its answer may depend on
what it was shown before. -/
def keptBy (f : List Extrinsic → Extrinsic → Bool) (shown : List Extrinsic) :
    List Extrinsic → List Extrinsic
  | [] => []
  | ext :: exts =>
      if f shown ext then ext :: keptBy f (shown ++ [ext]) exts
      else keptBy f (shown ++ [ext]) exts

/-- `retain` with a closure that has a state of its own. -/
def retainMut (f : List Extrinsic → Extrinsic → Bool) (self : Mempool Extrinsic) :
    Mempool Extrinsic :=
  { self with pending := keptBy f [] self.pending }

theorem keptBy_const (f : Extrinsic → Bool) (shown exts : List Extrinsic) :
    keptBy (fun _ => f) shown exts = exts.filter f := by
  induction exts generalizing shown with
  | nil => rfl
  | cons ext exts ih => rw [keptBy, ih, List.filter_cons]

/-- A closure without a state is the special case. -/
theorem retain_eq_retainMut (f : Extrinsic → Bool) (self : Mempool Extrinsic) :
    retain f self = retainMut (fun _ => f) self := by
  rw [retain, retainMut, keptBy_const]

theorem keptBy_sublist (f : List Extrinsic → Extrinsic → Bool) (shown exts : List Extrinsic) :
    (keptBy f shown exts).Sublist exts := by
  induction exts generalizing shown with
  | nil => exact List.Sublist.refl _
  | cons ext exts ih =>
      rw [keptBy]
      split_ifs
      · exact (ih _).cons_cons ext
      · exact (ih _).cons ext

/-- Each extrinsic is kept or not, by the same answer of the closure. -/
theorem keptBy_perm (f : List Extrinsic → Extrinsic → Bool) (shown exts : List Extrinsic) :
    (keptBy (fun shown ext => !f shown ext) shown exts ++ keptBy f shown exts).Perm exts := by
  induction exts generalizing shown with
  | nil => exact List.Perm.refl _
  | cons ext exts ih =>
      cases hf : f shown ext with
      | true =>
          simp only [keptBy, hf, Bool.not_true, Bool.false_eq_true, if_false, if_true]
          exact List.perm_middle.trans ((ih _).cons ext)
      | false =>
          simp only [keptBy, hf, Bool.not_false, Bool.false_eq_true, if_false, if_true]
          exact (ih _).cons ext

/-- A submission changes nothing, or appends the extrinsic within the bound. -/
theorem submit_cases (self : Mempool Extrinsic) (ext : Extrinsic) :
    self.submit ext = (.error .mempoolFull, self) ∨
      (∀ max, self.maxCapacity = some max → self.pending.length < max) ∧
        self.submit ext = (.ok (), { self with pending := self.pending ++ [ext] }) := by
  rw [submit]
  cases hcap : self.maxCapacity with
  | none =>
      refine .inr ⟨?_, rfl⟩
      intro max hmax
      cases hmax
  | some m =>
      by_cases hfull : m ≤ self.pending.length
      · exact .inl (if_pos hfull)
      · refine .inr ⟨?_, if_neg hfull⟩
        rintro max ⟨⟩
        exact Nat.not_le.mp hfull

/-! ## Histories -/

/-- The operations that change a pool. -/
inductive Operation (Extrinsic : Type) where
  | submit (ext : Extrinsic)
  | drainForBlock (n : ℕ)
  | remove (index : ℕ)
  | retain (f : List Extrinsic → Extrinsic → Bool)

/-- A pool, the extrinsics whose submission it accepted, the drained batches and what was removed
and evicted, each in order of time. -/
structure History (Extrinsic : Type) where
  pool : Mempool Extrinsic
  submitted : List Extrinsic
  drained : List (List Extrinsic)
  removed : List Extrinsic
  evicted : List Extrinsic

namespace History

/-- An empty pool of any configuration. -/
def start (maxCapacity blockLimit : Option ℕ) : History Extrinsic :=
  ⟨⟨[], maxCapacity, blockLimit⟩, [], [], [], []⟩

/-- Run an operation on the pool and record what it takes in or hands out. -/
def apply : Operation Extrinsic → History Extrinsic → History Extrinsic
  | .submit ext, h =>
      match h.pool.submit ext with
      | (.ok (), pool) => { h with pool, submitted := h.submitted ++ [ext] }
      | (.error _, pool) => { h with pool }
  | .drainForBlock n, h =>
      let (exts, pool) := h.pool.drainForBlock n
      { h with pool, drained := h.drained ++ [exts] }
  | .remove index, h =>
      let (ext, pool) := h.pool.remove index
      { h with pool, removed := h.removed ++ ext.toList }
  | .retain f, h =>
      { h with
        pool := h.pool.retainMut f
        evicted := h.evicted ++ keptBy (fun shown ext => !f shown ext) [] h.pool.pending }

/-- Every accepted extrinsic is in one place, and the pool keeps their order and its bound. -/
structure Accounted (maxCapacity : Option ℕ) (h : History Extrinsic) : Prop where
  capacity : h.pool.maxCapacity = maxCapacity
  places : (h.submitted : Multiset Extrinsic) =
    h.drained.flatten + h.removed + h.evicted + h.pool.pending
  order : (h.drained.flatten ++ h.pool.pending).Sublist h.submitted
  length_le : ∀ max, maxCapacity = some max → h.pool.pending.length ≤ max

theorem accounted_start (maxCapacity blockLimit : Option ℕ) :
    Accounted maxCapacity (start maxCapacity blockLimit : History Extrinsic) where
  capacity := rfl
  places := by simp [start]
  order := List.Sublist.refl _
  length_le := fun max _ => Nat.zero_le max

namespace Accounted

variable {maxCapacity : Option ℕ} {h : History Extrinsic}

theorem submit (hacc : Accounted maxCapacity h) (ext : Extrinsic) :
    Accounted maxCapacity (apply (.submit ext) h) := by
  rw [apply]
  rcases submit_cases h.pool ext with hrun | ⟨hroom, hrun⟩
  · rw [hrun]
    exact hacc
  · rw [hrun]
    constructor
    · exact hacc.capacity
    · dsimp only
      rw [← Multiset.coe_add, ← Multiset.coe_add, hacc.places]
      abel
    · dsimp only
      rw [← List.append_assoc]
      exact hacc.order.append_right [ext]
    · intro max hmax
      rw [List.length_append, List.length_singleton]
      exact hroom max (hacc.capacity.trans hmax)

theorem drainForBlock (hacc : Accounted maxCapacity h) (n : ℕ) :
    Accounted maxCapacity (apply (.drainForBlock n) h) := by
  rw [apply, drainForBlock_eq]
  constructor
  · exact hacc.capacity
  · have hsplit : (h.pool.pending : Multiset Extrinsic) =
        (h.pool.pending.take n : List Extrinsic) + (h.pool.pending.drop n : List Extrinsic) := by
      rw [Multiset.coe_add, List.take_append_drop]
    dsimp only
    rw [List.flatten_concat, ← Multiset.coe_add, hacc.places, hsplit]
    abel
  · dsimp only
    rw [List.flatten_concat, List.append_assoc, List.take_append_drop]
    exact hacc.order
  · intro max hmax
    exact (List.drop_sublist n _).length_le.trans (hacc.length_le max hmax)

theorem remove (hacc : Accounted maxCapacity h) (index : ℕ) :
    Accounted maxCapacity (apply (.remove index) h) := by
  rw [apply, Mempool.remove]
  split_ifs with hlt
  · constructor
    · exact hacc.capacity
    · have hsplit : (h.pool.pending : Multiset Extrinsic) =
          ([h.pool.pending[index]] : List Extrinsic) +
            (h.pool.pending.eraseIdx index : List Extrinsic) := by
        rw [Multiset.coe_add, Multiset.coe_eq_coe]
        exact (List.getElem_cons_eraseIdx_perm hlt).symm
      dsimp only
      rw [List.getElem?_eq_getElem hlt, Option.toList_some, ← Multiset.coe_add, hacc.places,
        hsplit]
      abel
    · exact (List.Sublist.append_left (List.eraseIdx_sublist _ _) _).trans hacc.order
    · intro max hmax
      exact (List.eraseIdx_sublist _ _).length_le.trans (hacc.length_le max hmax)
  · dsimp only
    rw [Option.toList_none, List.append_nil]
    exact hacc

theorem retain (hacc : Accounted maxCapacity h) (f : List Extrinsic → Extrinsic → Bool) :
    Accounted maxCapacity (apply (.retain f) h) := by
  have hkept := keptBy_sublist f [] h.pool.pending
  constructor
  · exact hacc.capacity
  · have hsplit : (h.pool.pending : Multiset Extrinsic) =
        (keptBy (fun shown ext => !f shown ext) [] h.pool.pending : List Extrinsic) +
          (keptBy f [] h.pool.pending : List Extrinsic) := by
      rw [Multiset.coe_add, Multiset.coe_eq_coe]
      exact (keptBy_perm f [] h.pool.pending).symm
    dsimp only [apply, retainMut]
    rw [← Multiset.coe_add, hacc.places]
    nth_rewrite 1 [hsplit]
    abel
  · exact (List.Sublist.append_left hkept _).trans hacc.order
  · intro max hmax
    exact hkept.length_le.trans (hacc.length_le max hmax)

theorem apply (hacc : Accounted maxCapacity h) (op : Operation Extrinsic) :
    Accounted maxCapacity (apply op h) := by
  cases op with
  | submit ext => exact hacc.submit ext
  | drainForBlock n => exact hacc.drainForBlock n
  | remove index => exact hacc.remove index
  | retain f => exact hacc.retain f

end Accounted

theorem accounted_run (maxCapacity blockLimit : Option ℕ) (ops : List (Operation Extrinsic)) :
    Accounted maxCapacity (Trace.run apply ops (start maxCapacity blockLimit)) := by
  induction ops using List.reverseRecOn with
  | nil => exact accounted_start maxCapacity blockLimit
  | append_singleton ops op ih =>
      rw [Trace.run_concat]
      exact ih.apply op

end History

/-- A pool loses and doubles nothing: what it accepted is, each as often as it was accepted,
drained, removed, evicted or pending. What is pending, and what was drained followed by it, is in
the order of submission; the pool stays within its bound; a rejected submission changes nothing. -/
theorem mempool_accounting (maxCapacity blockLimit : Option ℕ)
    (ops : List (Operation Extrinsic)) :
    let h := Trace.run History.apply ops (History.start maxCapacity blockLimit)
    h.submitted.Perm (h.drained.flatten ++ h.removed ++ h.evicted ++ h.pool.pending) ∧
      h.pool.pending.Sublist h.submitted ∧
      (h.drained.flatten ++ h.pool.pending).Sublist h.submitted ∧
      (∀ max, maxCapacity = some max → h.pool.pending.length ≤ max) ∧
      ∀ ext, (h.pool.submit ext).1 ≠ .ok () → (h.pool.submit ext).2 = h.pool := by
  intro h
  have hacc : History.Accounted maxCapacity h :=
    History.accounted_run maxCapacity blockLimit ops
  refine ⟨?_, ?_, hacc.order, hacc.length_le, ?_⟩
  · have hplaces := hacc.places
    rwa [Multiset.coe_add, Multiset.coe_add, Multiset.coe_add, Multiset.coe_eq_coe] at hplaces
  · exact (List.sublist_append_right _ _).trans hacc.order
  · intro ext hne
    rcases submit_cases h.pool ext with hrun | ⟨-, hrun⟩
    · rw [hrun]
    · rw [hrun] at hne
      exact absurd rfl hne

end RustStateMachine.Support.Mempool
