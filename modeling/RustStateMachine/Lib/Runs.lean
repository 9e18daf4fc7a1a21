import Mathlib.Data.List.Dedup
import Mathlib.Data.List.Sort
import Mathlib.Tactic.Common

/-!
# Grouping by a key and consecutive runs

A list is taken apart by a key, its groups in any order of the keys, and of each
sorted group only the run of consecutive numbers from a given one on is taken.
Elements inserted into a list change its runs where they come first.
-/

namespace Lib.Runs

section Runs

variable {α : Type} (num : α → ℕ)

/-- The beginning of the list that carries the numbers `n`, `n + 1`, and so on. -/
def takeRun : ℕ → List α → List α
  | _, [] => []
  | n, a :: as => if num a = n then a :: takeRun (n + 1) as else []

theorem takeRun_isPrefix (n : ℕ) (l : List α) : takeRun num n l <+: l := by
  induction l generalizing n with
  | nil => exact List.prefix_rfl
  | cons a as ih =>
      rw [takeRun]
      split_ifs with h
      · exact List.cons_prefix_cons.mpr ⟨rfl, ih (n + 1)⟩
      · exact List.nil_prefix

theorem map_takeRun (n : ℕ) (l : List α) :
    (takeRun num n l).map num = List.range' n (takeRun num n l).length := by
  induction l generalizing n with
  | nil => rfl
  | cons a as ih =>
      rw [takeRun]
      split_ifs with h
      · rw [List.map_cons, List.length_cons, List.range'_succ, h, ih]
      · rfl

/-- A list that carries consecutive numbers is taken whole. -/
theorem takeRun_eq_self {n : ℕ} {l : List α} (h : l.map num = List.range' n l.length) :
    takeRun num n l = l := by
  induction l generalizing n with
  | nil => rfl
  | cons a as ih =>
      rw [List.map_cons, List.length_cons, List.range'_succ, List.cons.injEq] at h
      rw [takeRun, if_pos h.1, ih h.2]

/-- A run does not get past a number the list lacks. -/
theorem num_lt_of_mem_takeRun {n v : ℕ} {l : List α} (hn : n ≤ v) (hv : v ∉ l.map num) {a : α}
    (ha : a ∈ takeRun num n l) : num a < v := by
  have hrange : v ∉ List.range' n (takeRun num n l).length := by
    rw [← map_takeRun]
    exact fun h => hv (((takeRun_isPrefix num n l).map num).subset h)
  have hmem : num a ∈ List.range' n (takeRun num n l).length := by
    rw [← map_takeRun]
    exact List.mem_map_of_mem ha
  rw [List.mem_range'_1] at hrange hmem
  omega

/-- A sorted list whose numbers are consecutive up to order carries them in order. -/
theorem map_eq_range'_of_perm {n : ℕ} {l : List α} (hsorted : l.Pairwise fun a b => num a ≤ num b)
    (hperm : (l.map num).Perm (List.range' n l.length)) :
    l.map num = List.range' n l.length := by
  apply hperm.eq_of_pairwise
  · intro a b _ _ hab hba
    exact Nat.le_antisymm hab hba
  · exact List.pairwise_map.mpr hsorted
  · exact List.pairwise_le_range'

/-- A run ends with the list or before an element that does not carry the next number. -/
theorem takeRun_append (n : ℕ) (l : List α) : ∃ rest, l = takeRun num n l ++ rest ∧
    ∀ b ∈ rest.head?, num b ≠ n + (takeRun num n l).length := by
  induction l generalizing n with
  | nil => exact ⟨[], rfl, fun b hb => by cases hb⟩
  | cons a as ih =>
      rw [takeRun]
      split_ifs with h
      · obtain ⟨rest, hrest, hnext⟩ := ih (n + 1)
        refine ⟨rest, ?_, ?_⟩
        · rw [List.cons_append, ← hrest]
        · intro b hb
          rw [List.length_cons, Nat.add_comm _ 1, ← Nat.add_assoc]
          exact hnext b hb
      · refine ⟨a :: as, rfl, ?_⟩
        intro b hb
        cases hb
        exact h

/-- What a run leaves behind does not come before the element that stopped it. -/
theorem exists_stop [DecidableEq α] {n : ℕ} {l : List α}
    (hsorted : l.Pairwise fun a b => num a ≤ num b) {a : α}
    (ha : (takeRun num n l).count a < l.count a) :
    ∃ b ∈ l, num b ≤ num a ∧ num b ≠ n + (takeRun num n l).length := by
  obtain ⟨rest, hrest, hnext⟩ := takeRun_append num n l
  have hmem : a ∈ rest := by
    have hcount : l.count a = (takeRun num n l).count a + rest.count a := by
      rw [← List.count_append, ← hrest]
    exact List.count_pos_iff.mp (by omega)
  cases rest with
  | nil => cases hmem
  | cons b rest =>
      have htail : (b :: rest).Pairwise fun a b => num a ≤ num b := by
        rw [hrest] at hsorted
        exact (List.pairwise_append.mp hsorted).2.1
      refine ⟨b, ?_, ?_, hnext b rfl⟩
      · rw [hrest]
        exact List.mem_append_right _ List.mem_cons_self
      · rcases List.mem_cons.mp hmem with rfl | hmem
        · exact le_rfl
        · exact (List.pairwise_cons.mp htail).1 a hmem

/-- Distinct numbers from `n` on without a number missing below any of them. -/
theorem perm_range'_of_forall_lt {n : ℕ} {l : List ℕ} (hnodup : l.Nodup) (hge : ∀ v ∈ l, n ≤ v)
    (hdown : ∀ v ∈ l, ∀ w, n ≤ w → w < v → w ∈ l) : l.Perm (List.range' n l.length) := by
  have hsub : ∀ v ∈ l, v ∈ List.range' n l.length := by
    intro v hv
    have hbelow : List.range' n (v + 1 - n) ⊆ l := by
      intro w hw
      rw [List.mem_range'_1] at hw
      rcases Nat.lt_or_ge w v with hlt | hle
      · exact hdown v hv w hw.1 hlt
      · have hw' : w = v := by omega
        rw [hw']
        exact hv
    have hcount := (List.subperm_of_subset List.nodup_range' hbelow).length_le
    rw [List.length_range'] at hcount
    have hv' := hge v hv
    rw [List.mem_range'_1]
    omega
  apply (List.subperm_of_subset hnodup hsub).perm_of_length_le
  rw [List.length_range']

end Runs

section SortedRuns

variable {α : Type} (num : α → ℕ)

/-- What puts an element into the run of the sorted list: nothing lies below the beginning of the
run, every number before its own is carried exactly once, and it is the first to carry its own. -/
structure InRun (n : ℕ) (l : List α) (a : α) : Prop where
  ge : ∀ b ∈ l, n ≤ num b
  once : ∀ v, n ≤ v → v < num a → (l.map num).count v = 1
  first : l.find? (fun b => num b = num a) = some a

theorem InRun.mem {num : α → ℕ} {n : ℕ} {l : List α} {a : α} (h : InRun num n l a) : a ∈ l :=
  List.mem_of_find?_eq_some h.first

/-- Everything with a smaller number than an element of the run is in the run. -/
theorem InRun.of_lt {num : α → ℕ} {n : ℕ} {l : List α} {a b : α} (h : InRun num n l a)
    (hb : b ∈ l) (hlt : num b < num a) : InRun num n l b := by
  refine ⟨h.ge, fun v hv hvb => h.once v hv (hvb.trans hlt), ?_⟩
  have hcount := h.once (num b) (h.ge b hb) hlt
  rw [List.count_eq_countP, List.countP_map, List.countP_eq_length_filter,
    List.length_eq_one_iff] at hcount
  obtain ⟨c, hc⟩ := hcount
  have hbc : b ∈ [c] := hc ▸ List.mem_filter.mpr ⟨hb, beq_self_eq_true _⟩
  rw [← List.head?_filter]
  change (l.filter ((fun x => x == num b) ∘ num)).head? = some b
  rw [hc, List.mem_singleton.mp hbc]
  rfl

/-- One element of the run at a time. -/
theorem inRun_cons {n : ℕ} {l : List α} {a b : α} (hb : num b = n) (hl : ∀ c ∈ l, n ≤ num c) :
    InRun num n (b :: l) a ↔ a = b ∨ InRun num (n + 1) l a := by
  constructor
  · intro h
    by_cases hab : num b = num a
    · have hfirst := h.first
      simp only [List.find?_cons, hab, decide_true, Option.some.injEq] at hfirst
      exact .inl hfirst.symm
    · have hlt : n < num a := by
        have hle := h.ge a h.mem
        omega
      refine .inr ⟨?_, ?_, ?_⟩
      · have hcount := h.once n (Nat.le_refl n) hlt
        rw [List.map_cons, hb, List.count_cons_self, Nat.add_eq_right, List.count_eq_zero] at hcount
        intro c hc
        have hle := hl c hc
        have hne : num c ≠ n := fun hcn => hcount (hcn ▸ List.mem_map_of_mem hc)
        omega
      · intro v hv hlt
        have hcount := h.once v (Nat.le_of_succ_le hv) hlt
        rwa [List.map_cons, List.count_cons_of_ne (by omega)] at hcount
      · have hfirst := h.first
        rwa [List.find?_cons_of_neg (by simpa using hab)] at hfirst
  · rintro (rfl | h)
    · refine ⟨?_, ?_, ?_⟩
      · exact List.forall_mem_cons.mpr ⟨hb.ge, hl⟩
      · intro v hv hlt
        omega
      · exact List.find?_cons_of_pos (decide_eq_true rfl)
    · have hlt : n < num a := h.ge a h.mem
      refine ⟨?_, ?_, ?_⟩
      · exact List.forall_mem_cons.mpr ⟨hb.ge, hl⟩
      · intro v hv hva
        by_cases hvn : v = n
        · have hnone : n ∉ l.map num := by
            intro hmem
            obtain ⟨c, hc, hcn⟩ := List.mem_map.mp hmem
            have hle := h.ge c hc
            omega
          rw [List.map_cons, hb, hvn, List.count_cons_self, List.count_eq_zero.mpr hnone]
        · rw [List.map_cons, List.count_cons_of_ne (by omega)]
          exact h.once v (by omega) hva
      · have hne : num b ≠ num a := by omega
        rw [List.find?_cons_of_neg (by simpa using hne)]
        exact h.first

theorem mem_takeRun {n : ℕ} {l : List α} (hsorted : l.Pairwise fun a b => num a ≤ num b)
    {a : α} : a ∈ takeRun num n l ↔ InRun num n l a := by
  induction l generalizing n with
  | nil =>
      constructor
      · intro h
        cases h
      · intro h
        cases h.mem
  | cons b l ih =>
      obtain ⟨hb, hsorted⟩ := List.pairwise_cons.mp hsorted
      rw [takeRun]
      split_ifs with hn
      · rw [List.mem_cons, ih hsorted, inRun_cons num hn fun c hc => hn ▸ hb c hc]
      · constructor
        · intro h
          cases h
        · intro h
          exfalso
          -- every element lies above `n`, so nothing carries `n`
          have hlt : n < num b := Nat.lt_of_le_of_ne (h.ge b List.mem_cons_self) (Ne.symm hn)
          have hall : ∀ c ∈ b :: l, n < num c := by
            rw [List.forall_mem_cons]
            exact ⟨hlt, fun c hc => Nat.lt_of_lt_of_le hlt (hb c hc)⟩
          have hcount := h.once n (Nat.le_refl n) (hall a h.mem)
          have hmem : n ∈ (b :: l).map num := by
            rw [← List.count_pos_iff, hcount]
            exact Nat.one_pos
          obtain ⟨c, hc, hcn⟩ := List.mem_map.mp hmem
          exact (hall c hc).ne hcn.symm

/-- Being in the run only depends on the elements of each number and their order. -/
theorem inRun_congr {n : ℕ} {l l' : List α} {a : α}
    (hfilter : ∀ v, (l.filter fun b => num b = v) = l'.filter fun b => num b = v)
    (h : InRun num n l a) : InRun num n l' a := by
  have hcount : ∀ v, (l'.map num).count v = (l.map num).count v := by
    intro v
    have hv := congrArg List.length (hfilter v)
    rw [List.count_eq_countP, List.count_eq_countP, List.countP_map, List.countP_map,
      List.countP_eq_length_filter, List.countP_eq_length_filter]
    exact hv.symm
  refine ⟨?_, ?_, ?_⟩
  · intro b hb
    have hmem : b ∈ l'.filter fun c => num c = num b :=
      List.mem_filter.mpr ⟨hb, decide_eq_true rfl⟩
    rw [← hfilter] at hmem
    exact h.ge b (List.mem_filter.mp hmem).1
  · intro v hv hlt
    rw [hcount]
    exact h.once v hv hlt
  · rw [← List.head?_filter, ← hfilter, List.head?_filter]
    exact h.first

/-- A stable sort by number keeps the elements of each number in order. -/
theorem filter_insertionSort {r : α → α → Prop} [DecidableRel r] (hr : ∀ a b, num a = num b → r a b)
    (l : List α) (v : ℕ) :
    ((l.insertionSort r).filter fun a => num a = v) = l.filter fun a => num a = v := by
  have hpairs : (l.filter fun a => num a = v).Pairwise r := by
    rw [List.pairwise_iff_forall_sublist]
    intro a b hab
    have ha := (List.mem_filter.mp (hab.subset List.mem_cons_self)).2
    have hb := (List.mem_filter.mp (hab.subset (List.mem_cons_of_mem a List.mem_cons_self))).2
    exact hr a b ((of_decide_eq_true ha).trans (of_decide_eq_true hb).symm)
  have hsub := (List.sublist_insertionSort hpairs List.filter_sublist).filter fun a => num a = v
  rw [List.filter_filter] at hsub
  simp only [Bool.and_self] at hsub
  exact (hsub.eq_of_length ((List.perm_insertionSort r l).filter _).length_eq.symm).symm

theorem takeRun_pairwise (n : ℕ) (l : List α) :
    (takeRun num n l).Pairwise fun a b => num a < num b := by
  have hrange : ((takeRun num n l).map num).Pairwise (· < ·) := by
    rw [map_takeRun]
    exact List.pairwise_lt_range'
  exact List.pairwise_map.mp hrange

/-- Of a list in ascending order, the beginning that passes a check ends at the least element that
fails it. -/
theorem mem_takeWhile_of_pairwise {l : List α} (h : l.Pairwise fun a b => num a < num b)
    (p : α → Bool) {a : α} :
    a ∈ l.takeWhile p ↔ a ∈ l ∧ p a ∧ ∀ b ∈ l, num b < num a → p b := by
  induction l with
  | nil => simp
  | cons c l ih =>
      obtain ⟨hc, h⟩ := List.pairwise_cons.mp h
      by_cases hpc : p c
      · rw [List.takeWhile_cons_of_pos hpc, List.mem_cons, ih h]
        constructor
        · rintro (rfl | ⟨ha, hpa, hall⟩)
          · refine ⟨List.mem_cons_self, hpc, ?_⟩
            rw [List.forall_mem_cons]
            exact ⟨fun _ => hpc, fun b hb hlt => absurd hlt (hc b hb).asymm⟩
          · refine ⟨List.mem_cons_of_mem c ha, hpa, ?_⟩
            rw [List.forall_mem_cons]
            exact ⟨fun _ => hpc, hall⟩
        · rintro ⟨ha, hpa, hall⟩
          rw [List.forall_mem_cons] at hall
          rcases List.mem_cons.mp ha with rfl | ha
          · exact .inl rfl
          · exact .inr ⟨ha, hpa, hall.2⟩
      · rw [List.takeWhile_cons_of_neg hpc]
        constructor
        · intro ha
          cases ha
        · rintro ⟨ha, hpa, hall⟩
          rcases List.mem_cons.mp ha with rfl | ha
          · exact absurd hpa hpc
          · exact absurd (hall c List.mem_cons_self (hc a ha)) hpc

end SortedRuns

section Advance

/-- A counter that moves on whenever the next number is its own. -/
def advance : ℕ → List ℕ → ℕ
  | n, [] => n
  | n, v :: vs => if v = n then advance (n + 1) vs else advance n vs

theorem advance_range' (n k : ℕ) : advance n (List.range' n k) = n + k := by
  induction k generalizing n with
  | zero => rfl
  | succ k ih =>
      rw [List.range'_succ, advance, if_pos rfl, ih]
      omega

/-- The numbers up to `m` and those from there on. -/
theorem range'_append_of_le {n m p : ℕ} (hm : n ≤ m) (hp : m ≤ p) :
    List.range' n (m - n) ++ List.range' m (p - m) = List.range' n (p - n) := by
  have happend := @List.range'_append_1 n (m - n) (p - m)
  rw [Nat.add_sub_cancel' hm] at happend
  rw [happend]
  congr 1
  omega

theorem range'_filter_ge {n m k : ℕ} (hm : n ≤ m) (hk : m ≤ n + k) :
    ((List.range' n k).filter fun v => m ≤ v) = List.range' m (n + k - m) := by
  have hsplit : List.range' n k = List.range' n (m - n) ++ List.range' m (n + k - m) := by
    rw [range'_append_of_le hm hk, Nat.add_sub_cancel_left]
  have hbelow : ∀ v ∈ List.range' n (m - n), ¬ decide (m ≤ v) = true := by
    intro v hv
    rw [List.mem_range'_1] at hv
    rw [decide_eq_true_iff]
    omega
  have habove : ∀ v ∈ List.range' m (n + k - m), decide (m ≤ v) = true := by
    intro v hv
    exact decide_eq_true (List.mem_range'_1.mp hv).1
  rw [hsplit, List.filter_append, List.filter_eq_nil_iff.mpr hbelow,
    List.filter_eq_self.mpr habove, List.nil_append]

/-- The counter gets past `k` numbers exactly when they come up in order. -/
theorem add_le_advance_iff {n k : ℕ} {vs : List ℕ} :
    n + k ≤ advance n vs ↔ (List.range' n k).Sublist vs := by
  induction vs generalizing n k with
  | nil =>
      rw [advance, List.sublist_nil, List.range'_eq_nil_iff]
      omega
  | cons v vs ih =>
      cases k with
      | zero =>
          have hle : n + 0 ≤ advance n (v :: vs) := by
            rw [advance]
            split_ifs
            · have hnext := (ih (n := n + 1) (k := 0)).mpr (List.nil_sublist vs)
              omega
            · exact ih.mpr (List.nil_sublist vs)
          exact ⟨fun _ => List.nil_sublist _, fun _ => hle⟩
      | succ k =>
          rw [advance, List.range'_succ]
          split_ifs with hv
          · rw [hv, List.cons_sublist_cons, ← ih, Nat.add_right_comm, Nat.add_assoc]
          · rw [ih, List.range'_succ, List.sublist_cons_iff]
            constructor
            · exact .inl
            · rintro (h | ⟨r, hr, -⟩)
              · exact h
              · exact absurd (List.cons.inj hr).1.symm hv

end Advance

section Insertions

variable {α : Type}

/-- The second list is the first one with elements of a kind inserted anywhere. -/
inductive Inserted (p : α → Prop) : List α → List α → Prop
  | nil : Inserted p [] []
  | keep {l l' : List α} (a : α) (h : Inserted p l l') : Inserted p (a :: l) (a :: l')
  | insert {l l' : List α} {a : α} (ha : p a) (h : Inserted p l l') : Inserted p l (a :: l')

namespace Inserted

variable {p : α → Prop} {l l' : List α}

theorem sublist (h : Inserted p l l') : l.Sublist l' := by
  induction h with
  | nil => exact List.Sublist.slnil
  | keep a _ ih => exact ih.cons_cons a
  | insert _ _ ih => exact ih.cons _

theorem mem_or (h : Inserted p l l') {a : α} (ha : a ∈ l') : a ∈ l ∨ p a := by
  induction h with
  | nil => cases ha
  | keep b _ ih =>
      rcases List.mem_cons.mp ha with rfl | ha
      · exact .inl List.mem_cons_self
      · exact (ih ha).imp_left (List.mem_cons_of_mem b)
  | insert hb _ ih =>
      rcases List.mem_cons.mp ha with rfl | ha
      · exact .inr hb
      · exact ih ha

/-- Insertions that miss a filter are not seen through it. -/
theorem filter_eq (h : Inserted p l l') {q : α → Bool} (hq : ∀ a ∈ l', p a → q a = false) :
    l'.filter q = l.filter q := by
  induction h with
  | nil => rfl
  | keep a _ ih =>
      rw [List.filter_cons, List.filter_cons, ih fun b hb => hq b (List.mem_cons_of_mem a hb)]
  | insert ha _ ih =>
      rw [List.filter_cons, hq _ List.mem_cons_self ha,
        ih fun b hb => hq b (List.mem_cons_of_mem _ hb)]
      rfl

/-- Insertions carry over to what a filter keeps. -/
theorem filter (h : Inserted p l l') (q : α → Bool) : Inserted p (l.filter q) (l'.filter q) := by
  induction h with
  | nil => exact .nil
  | keep a _ ih =>
      rw [List.filter_cons, List.filter_cons]
      split_ifs
      · exact .keep a ih
      · exact ih
  | insert ha _ ih =>
      rw [List.filter_cons]
      split_ifs
      · exact .insert ha ih
      · exact ih

/-- What is found first and was not inserted was found first before. -/
theorem find?_eq (h : Inserted p l l') {q : α → Bool} {a : α} (hfind : l'.find? q = some a)
    (ha : ¬ p a) : l.find? q = some a := by
  induction h with
  | nil => exact hfind
  | keep b _ ih =>
      cases hb : q b with
      | true =>
          rw [List.find?_cons_of_pos hb] at hfind ⊢
          exact hfind
      | false =>
          rw [List.find?_cons_of_neg (by simp [hb])] at hfind ⊢
          exact ih hfind
  | @insert _ _ b hpb _ ih =>
      cases hb : q b with
      | true =>
          rw [List.find?_cons_of_pos hb, Option.some.injEq] at hfind
          exact absurd (hfind ▸ hpb) ha
      | false =>
          rw [List.find?_cons_of_neg (by simp [hb])] at hfind
          exact ih hfind

end Inserted

end Insertions

section Windows

variable {α κ : Type}

/-- In a list with distinct keys, a key found in a window of the list stands in that window. -/
theorem index_of_mem_window {key : α → κ} {l : List α} (hkeys : (l.map key).Nodup) {d k i : ℕ}
    (hi : i < l.length) {a : α} (ha : a ∈ (l.drop d).take k) (h : key a = key l[i]) :
    d ≤ i ∧ i < d + k := by
  obtain ⟨j, hj, hja⟩ := List.mem_take_iff_getElem.mp ha
  rw [List.length_drop] at hj
  rw [List.getElem_drop] at hja
  have hlt : d + j < l.length := by omega
  have hsame : (l.map key)[d + j]? = (l.map key)[i]? := by
    rw [List.getElem?_map, List.getElem?_map, List.getElem?_eq_getElem hlt,
      List.getElem?_eq_getElem hi, hja, Option.map_some, Option.map_some, h]
  have hij := (List.getElem?_inj (by rwa [List.length_map]) hkeys).mp hsame
  omega

end Windows

section Groups

variable {α κ : Type} [DecidableEq κ] (key : α → κ)

/-- The groups of distinct keys, one after the other, are the elements with these keys. -/
theorem flatMap_filter_perm {keys : List κ} (hkeys : keys.Nodup) (l : List α) :
    (keys.flatMap fun k => l.filter fun a => key a = k).Perm
      (l.filter fun a => key a ∈ keys) := by
  induction keys with
  | nil => simp
  | cons k keys ih =>
      obtain ⟨hk, hkeys⟩ := List.nodup_cons.mp hkeys
      have hsplit := List.filter_append_perm (fun a => decide (key a = k))
        (l.filter fun a => key a ∈ k :: keys)
      have hthis : (l.filter fun a => key a ∈ k :: keys).filter (fun a => decide (key a = k)) =
          l.filter fun a => key a = k := by
        rw [List.filter_filter]
        apply List.filter_congr
        intro a _
        by_cases ha : key a = k <;> simp [ha]
      have hrest : (l.filter fun a => key a ∈ k :: keys).filter
          (fun a => !decide (key a = k)) = l.filter fun a => key a ∈ keys := by
        rw [List.filter_filter]
        apply List.filter_congr
        intro a _
        by_cases ha : key a = k
        · simp [ha, hk]
        · simp [ha]
      rw [hthis, hrest] at hsplit
      rw [List.flatMap_cons]
      exact (List.Perm.append_left _ (ih hkeys)).trans hsplit

/-- Groups keep to their key: picking one key out of parts of the groups gives that part. -/
theorem filter_flatMap {keys : List κ} (hkeys : keys.Nodup) (part : κ → List α)
    (hpart : ∀ k, ∀ a ∈ part k, key a = k) (k : κ) :
    ((keys.flatMap part).filter fun a => key a = k) = if k ∈ keys then part k else [] := by
  induction keys with
  | nil => simp
  | cons k' keys ih =>
      obtain ⟨hk', hkeys⟩ := List.nodup_cons.mp hkeys
      rw [List.flatMap_cons, List.filter_append, ih hkeys]
      by_cases h : k' = k
      · subst h
        have hall : (part k').filter (fun a => key a = k') = part k' := by
          rw [List.filter_eq_self]
          intro a ha
          exact decide_eq_true (hpart k' a ha)
        simp [hall, hk']
      · have hnone : (part k').filter (fun a => key a = k) = [] := by
          rw [List.filter_eq_nil_iff]
          intro a ha hak
          exact h ((hpart k' a ha).symm.trans (of_decide_eq_true hak))
        have hmem : k ∈ k' :: keys ↔ k ∈ keys := by
          simp [Ne.symm h]
        simp [hnone, hmem]

end Groups

end Lib.Runs
