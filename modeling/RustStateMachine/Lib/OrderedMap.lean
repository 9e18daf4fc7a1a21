import Mathlib.Algebra.Order.BigOperators.Group.Finset
import Mathlib.Algebra.GroupWithZero.Nat
import Mathlib.Tactic.Common

/-!
# Ordered maps: lookups, last keys and totals

The standard extensional tree map stands for an ordered map. Lookups after one
change are stated with equality of keys, and a total of weights is related to
the lookup of the key that changes.
-/

namespace Lib.OrderedMap

open Std

variable {κ ν : Type} [Ord κ] [TransOrd κ] [LawfulEqOrd κ]

theorem getElem?_insert [DecidableEq κ] (m : ExtTreeMap κ ν) (k a : κ) (v : ν) :
    (m.insert k v)[a]? = if k = a then some v else m[a]? := by
  simp [ExtTreeMap.getElem?_insert]

theorem getElem?_erase [DecidableEq κ] (m : ExtTreeMap κ ν) (k a : κ) :
    (m.erase k)[a]? = if k = a then none else m[a]? := by
  simp [ExtTreeMap.getElem?_erase]

theorem getD_insert [DecidableEq κ] (m : ExtTreeMap κ ν) (k a : κ) (v d : ν) :
    (m.insert k v).getD a d = if k = a then v else m.getD a d := by
  simp [ExtTreeMap.getD_insert]

/-- The last key of the ordered key list is the greatest key. -/
theorem keys_getLast?_eq_some_iff (m : ExtTreeMap κ ν) (k : κ) :
    m.keys.getLast? = some k ↔ (∃ v, m[k]? = some v) ∧
      ∀ k' v', m[k']? = some v' → (compare k' k).isLE := by
  rw [← ExtTreeMap.maxKey?_eq_getLast?_keys, ExtTreeMap.maxKey?_eq_some_iff_mem_and_forall]
  constructor
  · rintro ⟨hk, hmax⟩
    refine ⟨⟨m[k], ExtTreeMap.getElem?_eq_some_iff.mpr ⟨hk, rfl⟩⟩, ?_⟩
    intro k' v' hk'
    exact hmax k' (ExtTreeMap.getElem?_eq_some_iff.mp hk').1
  · rintro ⟨⟨v, hv⟩, hmax⟩
    refine ⟨(ExtTreeMap.getElem?_eq_some_iff.mp hv).1, ?_⟩
    intro k' hk'
    exact hmax k' m[k'] (ExtTreeMap.getElem?_eq_some_iff.mpr ⟨hk', rfl⟩)

omit [LawfulEqOrd κ] in
/-- A map that was just written to has a last key. -/
theorem exists_last_key_insert (m : ExtTreeMap κ ν) (k : κ) (v : ν) :
    ∃ last, (m.insert k v).keys.getLast? = some last := by
  rw [← ExtTreeMap.maxKey?_eq_getLast?_keys]
  exact Option.isSome_iff_exists.mp ExtTreeMap.isSome_maxKey?_insert

/-! ## Local changes -/

section Local

/-- A change of a map that reads and writes nothing outside a set of keys. -/
structure LocalOn (s : Set κ) (f : ExtTreeMap κ ν → ExtTreeMap κ ν) : Prop where
  frame : ∀ m, ∀ k ∉ s, (f m)[k]? = m[k]?
  reads : ∀ m m', (∀ k ∈ s, m[k]? = m'[k]?) → ∀ k ∈ s, (f m)[k]? = (f m')[k]?

/-- Changes that share no key commute. -/
theorem LocalOn.comm {s t : Set κ} {f g : ExtTreeMap κ ν → ExtTreeMap κ ν} (hf : LocalOn s f)
    (hg : LocalOn t g) (hst : ∀ k ∈ s, k ∉ t) (m : ExtTreeMap κ ν) : f (g m) = g (f m) := by
  apply ExtTreeMap.ext_getElem?
  intro k
  by_cases hs : k ∈ s
  · have hread := hf.reads (g m) m (fun a ha => hg.frame m a (hst a ha)) k hs
    rw [hread, hg.frame (f m) k (hst k hs)]
  · rw [hf.frame (g m) k hs]
    by_cases ht : k ∈ t
    · have hread := hg.reads (f m) m (fun a ha => hf.frame m a fun has => hst a has ha) k ht
      exact hread.symm
    · rw [hg.frame m k ht, hg.frame (f m) k ht, hf.frame m k hs]

theorem insert_comm {k k' : κ} (h : k ≠ k') (m : ExtTreeMap κ ν) (v v' : ν) :
    (m.insert k v).insert k' v' = (m.insert k' v').insert k v := by
  classical
  apply ExtTreeMap.ext_getElem?
  intro a
  simp only [getElem?_insert]
  by_cases hk : k = a
  · have hk' : ¬ k' = a := fun heq => h (hk.trans heq.symm)
    simp only [if_pos hk, if_neg hk']
  · simp only [if_neg hk]

/-- A later value of a key replaces an earlier one. -/
theorem insert_insert (m : ExtTreeMap κ ν) (k : κ) (v v' : ν) :
    (m.insert k v).insert k v' = m.insert k v' := by
  classical
  apply ExtTreeMap.ext_getElem?
  intro a
  simp only [getElem?_insert]
  by_cases hk : k = a
  · simp only [if_pos hk]
  · simp only [if_neg hk]

end Local

/-! ## Totals -/

/-- The sum of the weights of all stored values. -/
def total (weight : ν → ℕ) (m : ExtTreeMap κ ν) : ℕ :=
  (m.toList.map fun p => weight p.2).sum

/-- The weight stored under a key; an absent key weighs nothing. -/
def weightAt (weight : ν → ℕ) (m : ExtTreeMap κ ν) (k : κ) : ℕ := (m[k]?).elim 0 weight

/-- The total as a sum over any finite set of keys that covers the map. -/
theorem total_eq_sum [DecidableEq κ] (weight : ν → ℕ) (m : ExtTreeMap κ ν) (s : Finset κ)
    (hs : ∀ k v, m[k]? = some v → k ∈ s) :
    total weight m = ∑ k ∈ s, weightAt weight m k := by
  have hnodup : m.keys.Nodup := by
    have h := @ExtTreeMap.distinct_keys κ ν compare m _
    exact h.imp fun hne heq => hne (compare_eq_iff_eq.mpr heq)
  have hkeys : total weight m = ∑ k ∈ m.keys.toFinset, weightAt weight m k := by
    rw [List.sum_toFinset _ hnodup, total, ← ExtTreeMap.map_fst_toList_eq_keys, List.map_map]
    congr 1
    apply List.map_congr_left
    intro p hp
    have hlookup := ExtTreeMap.mem_toList_iff_getElem?_eq_some.mp hp
    simp [weightAt, hlookup]
  rw [hkeys]
  apply Finset.sum_subset
  · intro k hk
    have hmem : k ∈ m := ExtTreeMap.mem_keys.mp (List.mem_toFinset.mp hk)
    exact hs k m[k] (ExtTreeMap.getElem?_eq_some_iff.mpr ⟨hmem, rfl⟩)
  · intro k _ hk
    have hnone : m[k]? = none := by
      apply ExtTreeMap.getElem?_eq_none
      intro hmem
      exact hk (List.mem_toFinset.mpr (ExtTreeMap.mem_keys.mpr hmem))
    simp [weightAt, hnone]

/-- The weights of some keys are part of the total. -/
theorem sum_weightAt_le_total [DecidableEq κ] (weight : ν → ℕ) (m : ExtTreeMap κ ν)
    (s : Finset κ) : ∑ k ∈ s, weightAt weight m k ≤ total weight m := by
  have hcover : ∀ k v, m[k]? = some v → k ∈ s ∪ m.keys.toFinset := by
    intro k v hk
    have hmem : k ∈ m := (ExtTreeMap.getElem?_eq_some_iff.mp hk).1
    exact Finset.mem_union_right s (List.mem_toFinset.mpr (ExtTreeMap.mem_keys.mpr hmem))
  rw [total_eq_sum weight m _ hcover]
  exact Finset.sum_le_sum_of_subset Finset.subset_union_left

/-- Writing a key trades the weight it had for the new one. -/
theorem total_insert (weight : ν → ℕ) (m : ExtTreeMap κ ν) (k : κ) (v : ν) :
    total weight (m.insert k v) + weightAt weight m k = total weight m + weight v := by
  classical
  let s := insert k m.keys.toFinset
  have hcover : ∀ a w, m[a]? = some w → a ∈ s := by
    intro a w ha
    have hmem : a ∈ m := (ExtTreeMap.getElem?_eq_some_iff.mp ha).1
    exact Finset.mem_insert_of_mem (List.mem_toFinset.mpr (ExtTreeMap.mem_keys.mpr hmem))
  have hcover' : ∀ a w, (m.insert k v)[a]? = some w → a ∈ s := by
    intro a w ha
    rw [getElem?_insert] at ha
    split_ifs at ha with hk
    · exact hk ▸ Finset.mem_insert_self k _
    · exact hcover a w ha
  have hk : k ∈ s := Finset.mem_insert_self k _
  rw [total_eq_sum weight m s hcover, total_eq_sum weight _ s hcover',
    ← Finset.add_sum_erase s _ hk, ← Finset.add_sum_erase s (weightAt weight m) hk]
  have hrest : ∑ a ∈ s.erase k, weightAt weight (m.insert k v) a =
      ∑ a ∈ s.erase k, weightAt weight m a := by
    apply Finset.sum_congr rfl
    intro a ha
    have hne : k ≠ a := (Finset.ne_of_mem_erase ha).symm
    simp [weightAt, getElem?_insert, hne]
  have hself : weightAt weight (m.insert k v) k = weight v := by
    simp [weightAt]
  rw [hrest, hself]
  omega

end Lib.OrderedMap
