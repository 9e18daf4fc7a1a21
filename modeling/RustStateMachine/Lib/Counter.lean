import Mathlib.Data.Set.Function
import RustStateMachine.Lib.KeyValue

/-!
# Counters in a store that loses writes

A counter is written under one key each time it goes up. Whichever of the writes
are lost, the store holds a value the counter has had since the start, and the
current one exactly if the last write went through.
-/

namespace Lib.KeyValue

/-- The value that is put; a delete has none. -/
def Write.value? : Write → Option Bytes
  | .put _ value => some value
  | .delete _ => none

/-- What the writes leave at a key, one after the other. -/
def valuesAt (key : Bytes) (ws : List Write) : List (Option Bytes) :=
  (ws.filter fun w => w.key = key).map Write.value?

theorem valuesAt_append (key : Bytes) (ws vs : List Write) :
    valuesAt key (ws ++ vs) = valuesAt key ws ++ valuesAt key vs := by
  rw [valuesAt, List.filter_append, List.map_append]
  rfl

theorem valuesAt_of_ne {key : Bytes} {ws : List Write} (h : ∀ w ∈ ws, w.key ≠ key) :
    valuesAt key ws = [] := by
  have hnone : (ws.filter fun w => w.key = key) = [] := by
    rw [List.filter_eq_nil_iff]
    intro w hw hkey
    exact h w hw (of_decide_eq_true hkey)
  rw [valuesAt, hnone]
  rfl

theorem valuesAt_sublist (key : Bytes) {vs ws : List Write} (h : vs.Sublist ws) :
    (valuesAt key vs).Sublist (valuesAt key ws) := (h.filter _).map _

theorem mem_valuesAt_some {key value : Bytes} {ws : List Write} :
    some value ∈ valuesAt key ws ↔ Write.put key value ∈ ws := by
  rw [valuesAt, List.mem_map]
  constructor
  · rintro ⟨w, hw, hvalue⟩
    obtain ⟨hmem, hkey⟩ := List.mem_filter.mp hw
    cases w with
    | put k v =>
        cases hvalue
        obtain rfl : k = key := of_decide_eq_true hkey
        exact hmem
    | delete k => cases hvalue
  · intro hmem
    exact ⟨_, List.mem_filter.mpr ⟨hmem, decide_eq_true rfl⟩, rfl⟩

theorem apply_getElem?_self {w : Write} {key : Bytes} (h : w.key = key) (db : Entries) :
    (w.apply db)[key]? = w.value? := by
  subst h
  cases w with
  | put k v => simp [Write.apply, Write.key, Write.value?]
  | delete k => simp [Write.apply, Write.key, Write.value?]

/-- A key holds what was written to it last. -/
theorem replay_getElem?_eq_getLast (db : Entries) (ws : List Write) (key : Bytes) :
    (replay db ws)[key]? = (valuesAt key ws).getLast?.getD db[key]? := by
  induction ws using List.reverseRecOn with
  | nil => rfl
  | append_singleton ws w ih =>
      rw [replay_append, valuesAt_append, replay_cons, replay_nil]
      by_cases hw : w.key = key
      · have hlast : valuesAt key [w] = [w.value?] := by simp [valuesAt, hw]
        rw [apply_getElem?_self hw, hlast, List.getLast?_concat]
        rfl
      · have hnone : valuesAt key [w] = [] := valuesAt_of_ne (by simpa using hw)
        rw [Write.apply_getElem?_of_ne hw, hnone, List.append_nil, ih]

/-- A key of a mirrored map holds the entry, encoded. -/
theorem Mirrors.getElem?_eq {κ ν : Type} [Ord κ] [Std.TransOrd κ] [Encode κ] [Decode κ]
    [PrefixCodec κ] [Encode ν] {pre : Bytes} {db : Entries} {m : Std.ExtTreeMap κ ν}
    (h : Mirrors pre db m) (k : κ) : db[pre ++ encode k]? = m[k]?.map encode := by
  cases hk : m[k]? with
  | some v => exact h.stored k v hk
  | none =>
      cases hdb : db[pre ++ encode k]? with
      | none => rfl
      | some value =>
          obtain ⟨k', v, hkey, -, hlook⟩ := h.only _ value (List.prefix_append _ _) hdb
          obtain rfl := Codec.encode_injective (List.append_cancel_left hkey)
          rw [hk] at hlook
          cases hlook

/-- The writes at a key put the codes of the numbers after `start` up to `now`, in order. -/
structure CountsUp (code : ℕ → Bytes) (key : Bytes) (start now : ℕ) (ws : List Write) : Prop where
  le : start ≤ now
  values : valuesAt key ws = (List.range' (start + 1) (now - start)).map fun n => some (code n)

namespace CountsUp

variable {code : ℕ → Bytes} {key : Bytes} {start now : ℕ} {ws vs : List Write}

theorem refl (code : ℕ → Bytes) (key : Bytes) (start : ℕ) : CountsUp code key start start [] := by
  refine ⟨le_rfl, ?_⟩
  rw [Nat.sub_self]
  rfl

/-- Writes to other keys. -/
theorem skip (h : CountsUp code key start now ws) (hvs : ∀ w ∈ vs, w.key ≠ key) :
    CountsUp code key start now (ws ++ vs) := by
  refine ⟨h.le, ?_⟩
  rw [valuesAt_append, valuesAt_of_ne hvs, List.append_nil]
  exact h.values

/-- The counter goes up by one, and is written. -/
theorem succ (h : CountsUp code key start now ws) :
    CountsUp code key start (now + 1) (ws ++ [.put key (code (now + 1))]) := by
  refine ⟨h.le.trans (Nat.le_succ now), ?_⟩
  have hput : valuesAt key [.put key (code (now + 1))] = [some (code (now + 1))] := by
    simp [valuesAt, Write.key, Write.value?]
  have hle := h.le
  have hnext : start + 1 + (now - start) = now + 1 := by omega
  rw [valuesAt_append, hput, h.values, Nat.sub_add_comm h.le, List.range'_1_concat, hnext,
    List.map_append]
  rfl

/-- Whichever of the writes go through, the key holds what it held at the start or a number the
counter has had since, which is the current one exactly if that was written last. -/
theorem lossy (h : CountsUp code key start now ws) (hcode : Set.InjOn code (Set.Iic now))
    (hvs : vs.Sublist ws) (db : Entries) :
    ∃ m, start ≤ m ∧ m ≤ now ∧
      ((replay db vs)[key]? = some (code m) ∨ m = start ∧ (replay db vs)[key]? = db[key]?) ∧
      (m = now ↔ start = now ∨ .put key (code now) ∈ vs) := by
  have hvalues := valuesAt_sublist key hvs
  rw [h.values, List.sublist_map_iff] at hvalues
  obtain ⟨js, hjs, heq⟩ := hvalues
  have hrange : ∀ j ∈ js, start < j ∧ j ≤ now := by
    intro j hj
    have hmem := List.mem_range'_1.mp (hjs.subset hj)
    omega
  have hwritten : .put key (code now) ∈ vs ↔ now ∈ js := by
    rw [← mem_valuesAt_some, heq, List.mem_map]
    constructor
    · rintro ⟨j, hj, hcodes⟩
      obtain rfl := hcode (hrange j hj).2 Set.self_mem_Iic (Option.some.inj hcodes)
      exact hj
    · intro hj
      exact ⟨now, hj, rfl⟩
  rw [hwritten, replay_getElem?_eq_getLast, heq]
  rcases List.eq_nil_or_concat' js with rfl | ⟨before, m, rfl⟩
  · refine ⟨start, le_rfl, h.le, .inr ⟨rfl, rfl⟩, ?_⟩
    simp
  · have hm := hrange m (List.mem_append_right _ List.mem_cons_self)
    refine ⟨m, hm.1.le, hm.2, .inl ?_, ?_⟩
    · rw [List.map_append, List.map_singleton, List.getLast?_concat]
      rfl
    · constructor
      · rintro rfl
        exact .inr (List.mem_append_right _ List.mem_cons_self)
      · rintro (rfl | hnow)
        · exact absurd hm.1 hm.2.not_gt
        · have hsorted := List.Pairwise.sublist hjs List.pairwise_lt_range'
          rcases List.mem_append.mp hnow with hbefore | hlast
          · have hlt := (List.pairwise_append.mp hsorted).2.2 now hbefore m List.mem_cons_self
            exact absurd hm.2 hlt.not_ge
          · exact (List.mem_singleton.mp hlast).symm

end CountsUp

end Lib.KeyValue
