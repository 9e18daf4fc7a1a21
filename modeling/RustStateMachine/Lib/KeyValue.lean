import RustStateMachine.Lib.Codec
import RustStateMachine.Lib.OrderedMap

/-!
# Byte-keyed stores and typed maps under a key prefix

A store is an ordered map from byte keys to byte values, changed by writes that
can be replayed in order. A typed map is kept under a key prefix: each entry is
the prefix and the encoded key, with the encoded value. Loading scans the prefix
and decodes; a store that mirrors a map loads exactly that map.
-/

namespace Lib.KeyValue

open Std

/-- The contents of a store, in key order. -/
abbrev Entries := ExtTreeMap Bytes Bytes

/-- One write issued to a store. -/
inductive Write where
  | put (key value : Bytes)
  | delete (key : Bytes)
deriving DecidableEq, Repr

namespace Write

/-- The key that is written or deleted. -/
def key : Write → Bytes
  | put k _ => k
  | delete k => k

/-- The store after one write that succeeds. -/
def apply (db : Entries) : Write → Entries
  | put k v => db.insert k v
  | delete k => db.erase k

theorem apply_getElem?_of_ne {db : Entries} {w : Write} {k : Bytes} (h : w.key ≠ k) :
    (w.apply db)[k]? = db[k]? := by
  cases w with
  | put k' v =>
      have hne : ¬ k' = k := h
      simp [apply, OrderedMap.getElem?_insert, hne]
  | delete k' =>
      have hne : ¬ k' = k := h
      simp [apply, OrderedMap.getElem?_erase, hne]

theorem apply_getElem?_of_eq {w : Write} {k : Bytes} (h : w.key = k) (db db' : Entries) :
    (w.apply db)[k]? = (w.apply db')[k]? := by
  subst h
  cases w with
  | put k v => simp [apply, key]
  | delete k => simp [apply, key]

end Write

/-- The store after writes that all succeed, in the order they were issued. -/
def replay (db : Entries) (ws : List Write) : Entries := ws.foldl Write.apply db

@[simp] theorem replay_nil (db : Entries) : replay db [] = db := rfl

@[simp] theorem replay_cons (db : Entries) (w : Write) (ws : List Write) :
    replay db (w :: ws) = replay (w.apply db) ws := rfl

@[simp] theorem replay_append (db : Entries) (ws vs : List Write) :
    replay db (ws ++ vs) = replay (replay db ws) vs := List.foldl_append

/-- Keys no write touches keep their value. -/
theorem replay_getElem?_of_forall_ne {db : Entries} {ws : List Write} {k : Bytes}
    (h : ∀ w ∈ ws, w.key ≠ k) : (replay db ws)[k]? = db[k]? := by
  induction ws generalizing db with
  | nil => rfl
  | cons w ws ih =>
      rw [replay_cons, ih fun v hv => h v (List.mem_cons_of_mem w hv)]
      exact Write.apply_getElem?_of_ne (h w List.mem_cons_self)

/-- A key that some write touches has the same value afterwards whatever the store held. -/
theorem replay_getElem?_of_exists {db db' : Entries} {ws : List Write} {k : Bytes}
    (h : ∃ w ∈ ws, w.key = k) : (replay db ws)[k]? = (replay db' ws)[k]? := by
  induction ws generalizing db db' with
  | nil => simp at h
  | cons w ws ih =>
      rw [replay_cons, replay_cons]
      by_cases hrest : ∃ v ∈ ws, v.key = k
      · exact ih hrest
      · have hne : ∀ v ∈ ws, v.key ≠ k := fun v hv hk => hrest ⟨v, hv, hk⟩
        rw [replay_getElem?_of_forall_ne hne, replay_getElem?_of_forall_ne hne]
        obtain ⟨v, hv, hk⟩ := h
        rcases List.mem_cons.mp hv with rfl | hv
        · exact Write.apply_getElem?_of_eq hk db db'
        · exact absurd hk (hne v hv)

/-- Writes are undone by later writes to all of their keys. -/
theorem replay_absorb {us ws : List Write} (h : ∀ u ∈ us, ∃ w ∈ ws, w.key = u.key)
    (db : Entries) : replay (replay db us) ws = replay db ws := by
  apply ExtTreeMap.ext_getElem?
  intro k
  by_cases hk : ∃ w ∈ ws, w.key = k
  · exact replay_getElem?_of_exists hk
  · have hws : ∀ w ∈ ws, w.key ≠ k := fun w hw hkey => hk ⟨w, hw, hkey⟩
    have hus : ∀ u ∈ us, u.key ≠ k := by
      intro u hu hkey
      obtain ⟨w, hw, heq⟩ := h u hu
      exact hws w hw (heq.trans hkey)
    rw [replay_getElem?_of_forall_ne hws, replay_getElem?_of_forall_ne hus,
      replay_getElem?_of_forall_ne hws]

/-! ## Key ranges -/

/-- No key starts with both. -/
def Apart (p q : Bytes) : Prop := ¬ p <+: q ∧ ¬ q <+: p

instance (p q : Bytes) : Decidable (Apart p q) := inferInstanceAs (Decidable (_ ∧ _))

namespace Apart

variable {p q : Bytes}

theorem symm (h : Apart p q) : Apart q p := ⟨h.2, h.1⟩

theorem not_prefix (h : Apart p q) {k : Bytes} (hk : p <+: k) : ¬ q <+: k := by
  intro hq
  rcases List.prefix_or_prefix_of_prefix hk hq with hpq | hqp
  · exact h.1 hpq
  · exact h.2 hqp

theorem ne_of_prefix (h : Apart p q) {k : Bytes} (hk : p <+: k) : k ≠ q := by
  rintro rfl
  exact h.1 hk

end Apart

/-! ## Scans -/

/-- All entries whose key starts with `pre`, in key order. -/
def scanPrefix (db : Entries) (pre : Bytes) : List (Bytes × Bytes) :=
  db.toList.filter fun e => pre.isPrefixOf e.1

theorem mem_scanPrefix {db : Entries} {pre : Bytes} {e : Bytes × Bytes} :
    e ∈ scanPrefix db pre ↔ pre <+: e.1 ∧ db[e.1]? = some e.2 := by
  rw [scanPrefix, List.mem_filter, List.isPrefixOf_iff_prefix, and_comm]
  exact and_congr_right fun _ => ExtTreeMap.mem_toList_iff_getElem?_eq_some

/-- Two stores hold the same entries under a prefix. -/
def AgreeUnder (pre : Bytes) (db db' : Entries) : Prop := ∀ k, pre <+: k → db[k]? = db'[k]?

theorem AgreeUnder.symm {pre : Bytes} {db db' : Entries} (h : AgreeUnder pre db db') :
    AgreeUnder pre db' db := fun k hk => (h k hk).symm

/-- Writes outside a prefix leave it as it was. -/
theorem agreeUnder_replay {pre : Bytes} {db : Entries} {ws : List Write}
    (h : ∀ w ∈ ws, ¬ pre <+: w.key) : AgreeUnder pre (replay db ws) db := by
  intro k hk
  apply replay_getElem?_of_forall_ne
  intro w hw heq
  exact h w hw (heq ▸ hk)

/-- A scan reads nothing outside its prefix. -/
theorem scanPrefix_congr {pre : Bytes} {db db' : Entries} (h : AgreeUnder pre db db') :
    scanPrefix db pre = scanPrefix db' pre := by
  have hfilter : db.filter (fun k _ => pre.isPrefixOf k) =
      db'.filter (fun k _ => pre.isPrefixOf k) := by
    apply ExtTreeMap.ext_getElem?
    intro k
    rw [ExtTreeMap.getElem?_filter', ExtTreeMap.getElem?_filter']
    by_cases hk : pre <+: k
    · rw [h k hk]
    · have hb : pre.isPrefixOf k = false := by
        rw [← Bool.not_eq_true, List.isPrefixOf_iff_prefix]
        exact hk
      cases db[k]? <;> cases db'[k]? <;> simp [hb]
  have hlist := congrArg ExtTreeMap.toList hfilter
  rwa [ExtTreeMap.toList_filter, ExtTreeMap.toList_filter] at hlist

/-! ## Typed maps -/

section Loading

variable {κ ν : Type} [Ord κ] [TransOrd κ] [Decode κ] [Decode ν]

/-- Add one scanned entry to the map; a key with nothing after the prefix and an entry that
does not decode are skipped, and bytes after a decoded value are ignored. -/
def loadEntry (pre : Bytes) (m : ExtTreeMap κ ν) (e : Bytes × Bytes) : ExtTreeMap κ ν :=
  if e.1.length ≤ pre.length then m
  else
    match (decode (e.1.drop pre.length) : Option (κ × Bytes)),
        (decode e.2 : Option (ν × Bytes)) with
    | some (k, _), some (v, _) => m.insert k v
    | _, _ => m

/-- The typed map stored under a prefix. -/
def loadMap (pre : Bytes) (db : Entries) : ExtTreeMap κ ν :=
  (scanPrefix db pre).foldl (loadEntry pre) ∅

/-- Loading reads nothing outside the prefix. -/
theorem loadMap_congr {pre : Bytes} {db db' : Entries} (h : AgreeUnder pre db db') :
    (loadMap pre db : ExtTreeMap κ ν) = loadMap pre db' := by
  rw [loadMap, loadMap, scanPrefix_congr h]

end Loading

section Mirroring

variable {κ ν : Type} [Ord κ] [TransOrd κ] [Encode κ] [Encode ν]

/-- Under the prefix the store holds exactly the encoded entries of the map. -/
structure Mirrors (pre : Bytes) (db : Entries) (m : ExtTreeMap κ ν) : Prop where
  stored : ∀ (k : κ) (v : ν), m[k]? = some v → db[pre ++ encode k]? = some (encode v)
  only : ∀ key value, pre <+: key → db[key]? = some value →
    ∃ (k : κ) (v : ν), key = pre ++ encode k ∧ value = encode v ∧ m[k]? = some v

theorem mirrors_empty (pre : Bytes) : Mirrors pre ∅ (∅ : ExtTreeMap κ ν) where
  stored k v h := by simp at h
  only key value _ h := by simp at h

/-- Whether a store mirrors a map depends on nothing outside the prefix. -/
theorem Mirrors.congr {pre : Bytes} {db db' : Entries} {m : ExtTreeMap κ ν}
    (hm : Mirrors pre db m) (h : AgreeUnder pre db db') : Mirrors pre db' m where
  stored k v hk := by
    rw [← h _ (List.prefix_append pre (encode k))]
    exact hm.stored k v hk
  only key value hpre hkey := by
    rw [← h key hpre] at hkey
    exact hm.only key value hpre hkey

/-- Writes outside the prefix keep the mirror. -/
theorem Mirrors.replay_outside {pre : Bytes} {db : Entries} {m : ExtTreeMap κ ν} {ws : List Write}
    (hm : Mirrors pre db m) (h : ∀ w ∈ ws, ¬ pre <+: w.key) : Mirrors pre (replay db ws) m :=
  hm.congr (agreeUnder_replay h).symm

/-- One write in another key range keeps the mirror. -/
theorem Mirrors.write_apart {pre : Bytes} {db : Entries} {m : ExtTreeMap κ ν}
    (hm : Mirrors pre db m) {q : Bytes} (hapart : Apart q pre) {w : Write} (hw : q <+: w.key) :
    Mirrors pre (w.apply db) m := by
  have hws : ∀ v ∈ [w], ¬ pre <+: v.key := by
    intro v hv
    rw [List.mem_singleton.mp hv]
    exact hapart.not_prefix hw
  exact hm.replay_outside hws

variable [LawfulEqOrd κ] [Decode κ] [PrefixCodec κ]

/-- Writing an entry through to the store keeps the mirror. -/
theorem Mirrors.put {pre : Bytes} {db : Entries} {m : ExtTreeMap κ ν}
    (hm : Mirrors pre db m) (k : κ) (v : ν) :
    Mirrors pre ((Write.put (pre ++ encode k) (encode v)).apply db) (m.insert k v) := by
  classical
  refine ⟨?_, ?_⟩
  · intro k' v' h
    rw [OrderedMap.getElem?_insert] at h
    rw [Write.apply, OrderedMap.getElem?_insert]
    split_ifs at h with hk
    · cases h
      simp [hk]
    · have hne : ¬ pre ++ encode k = pre ++ encode k' := by
        intro heq
        exact hk (Codec.encode_injective (List.append_cancel_left heq))
      simpa [hne] using hm.stored k' v' h
  · intro key value hpre h
    rw [Write.apply, OrderedMap.getElem?_insert] at h
    split_ifs at h with hk
    · cases h
      exact ⟨k, v, hk.symm, rfl, by simp⟩
    · obtain ⟨k', v', rfl, rfl, hlook⟩ := hm.only key value hpre h
      have hne : ¬ k = k' := fun heq => hk (by rw [heq])
      exact ⟨k', v', rfl, rfl, by simpa [OrderedMap.getElem?_insert, hne] using hlook⟩

/-- Deleting an entry through to the store keeps the mirror. -/
theorem Mirrors.delete {pre : Bytes} {db : Entries} {m : ExtTreeMap κ ν}
    (hm : Mirrors pre db m) (k : κ) :
    Mirrors pre ((Write.delete (pre ++ encode k)).apply db) (m.erase k) := by
  classical
  refine ⟨?_, ?_⟩
  · intro k' v' h
    rw [OrderedMap.getElem?_erase] at h
    split_ifs at h with hk
    have hne : ¬ pre ++ encode k = pre ++ encode k' := by
      intro heq
      exact hk (Codec.encode_injective (List.append_cancel_left heq))
    simpa [Write.apply, OrderedMap.getElem?_erase, hne] using hm.stored k' v' h
  · intro key value hpre h
    rw [Write.apply, OrderedMap.getElem?_erase] at h
    split_ifs at h with hk
    obtain ⟨k', v', rfl, rfl, hlook⟩ := hm.only key value hpre h
    have hne : ¬ k = k' := fun heq => hk (by rw [heq])
    exact ⟨k', v', rfl, rfl, by simpa [OrderedMap.getElem?_erase, hne] using hlook⟩

variable [Decode ν] [PrefixCodec ν]

omit [LawfulEqOrd κ] in
/-- An entry the map would have written is loaded back. -/
theorem loadEntry_encoded (pre : Bytes) (acc : ExtTreeMap κ ν) {k : κ} (v : ν)
    (hne : encode k ≠ []) :
    loadEntry pre acc (pre ++ encode k, encode v) = acc.insert k v := by
  have hlen : ¬ (pre ++ encode k).length ≤ pre.length := by
    have hpos : 0 < (encode k).length := List.length_pos_iff.mpr hne
    simp only [List.length_append]
    omega
  rw [loadEntry, if_neg hlen]
  simp

/-- Folding encoded entries of one function into an accumulator overwrites exactly their keys. -/
theorem foldl_loadEntry_getElem? {pre : Bytes} {f : κ → Option ν}
    (hne : ∀ k : κ, encode k ≠ []) (l : List (Bytes × Bytes))
    (hl : ∀ e ∈ l, ∃ (k : κ) (v : ν), e = (pre ++ encode k, encode v) ∧ f k = some v)
    (acc : ExtTreeMap κ ν) (k : κ) :
    (l.foldl (loadEntry pre) acc)[k]? =
      if pre ++ encode k ∈ l.map Prod.fst then f k else acc[k]? := by
  classical
  induction l generalizing acc with
  | nil => simp
  | cons e l ih =>
      obtain ⟨k', v', rfl, hk'⟩ := hl e List.mem_cons_self
      rw [List.foldl_cons, ih (fun e he => hl e (List.mem_cons_of_mem _ he)),
        loadEntry_encoded pre acc v' (hne k'), OrderedMap.getElem?_insert]
      by_cases hrest : pre ++ encode k ∈ l.map Prod.fst
      · have hcons : pre ++ encode k ∈ ((pre ++ encode k', encode v') :: l).map Prod.fst :=
          List.mem_cons_of_mem _ hrest
        rw [if_pos hrest, if_pos hcons]
      · rw [if_neg hrest]
        by_cases hkk : k' = k
        · subst hkk
          simp [hk']
        · have hnot : ¬ pre ++ encode k ∈ ((pre ++ encode k', encode v') :: l).map Prod.fst := by
            intro hmem
            rcases List.mem_cons.mp hmem with heq | hmem
            · exact hkk (Codec.encode_injective (List.append_cancel_left heq)).symm
            · exact hrest hmem
          rw [if_neg hkk, if_neg hnot]

/-- A store that mirrors a map loads exactly that map. -/
theorem Mirrors.loadMap_eq {pre : Bytes} {db : Entries} {m : ExtTreeMap κ ν}
    (hm : Mirrors pre db m) (hne : ∀ k : κ, encode k ≠ []) : loadMap pre db = m := by
  apply ExtTreeMap.ext_getElem?
  intro k
  have hl : ∀ e ∈ scanPrefix db pre,
      ∃ (k : κ) (v : ν), e = (pre ++ encode k, encode v) ∧ m[k]? = some v := by
    rintro ⟨key, value⟩ he
    obtain ⟨hpre, hkey⟩ := mem_scanPrefix.mp he
    obtain ⟨k, v, hk, hv, hlook⟩ := hm.only key value hpre hkey
    exact ⟨k, v, Prod.ext hk hv, hlook⟩
  have hload : (loadMap pre db : ExtTreeMap κ ν)[k]? =
      if pre ++ encode k ∈ (scanPrefix db pre).map Prod.fst then m[k]? else none :=
    foldl_loadEntry_getElem? hne _ hl ∅ k
  rw [hload]
  split_ifs with hmem
  · rfl
  · cases hk : m[k]? with
    | none => simp
    | some v =>
        have hstored := hm.stored k v hk
        have he : (pre ++ encode k, encode v) ∈ scanPrefix db pre :=
          mem_scanPrefix.mpr ⟨List.prefix_append _ _, hstored⟩
        exact absurd (List.mem_map.mpr ⟨_, he, rfl⟩) hmem

/-- Under the prefix the store holds encoded entries only. -/
def EncodedUnder (κ ν : Type) [Encode κ] [Encode ν] (pre : Bytes) (db : Entries) : Prop :=
  ∀ key value, pre <+: key → db[key]? = some value →
    ∃ (k : κ) (v : ν), key = pre ++ encode k ∧ value = encode v

/-- A store of encoded entries mirrors the map it loads. -/
theorem mirrors_loadMap {pre : Bytes} {db : Entries} (h : EncodedUnder κ ν pre db)
    (hne : ∀ k : κ, encode k ≠ []) : Mirrors pre db (loadMap pre db : ExtTreeMap κ ν) := by
  let f : κ → Option ν := fun k => (db[pre ++ encode k]?.bind decode).map Prod.fst
  have hf : ∀ (k : κ) (v : ν), db[pre ++ encode k]? = some (encode v) → f k = some v := by
    intro k v hk
    simp [f, hk]
  have hl : ∀ e ∈ scanPrefix db pre,
      ∃ (k : κ) (v : ν), e = (pre ++ encode k, encode v) ∧ f k = some v := by
    rintro ⟨key, value⟩ he
    obtain ⟨hpre, hkey⟩ := mem_scanPrefix.mp he
    obtain ⟨k, v, rfl, rfl⟩ := h key value hpre hkey
    exact ⟨k, v, rfl, hf k v hkey⟩
  have hload : ∀ k : κ, (loadMap pre db : ExtTreeMap κ ν)[k]? =
      if pre ++ encode k ∈ (scanPrefix db pre).map Prod.fst then f k else none :=
    fun k => foldl_loadEntry_getElem? hne _ hl ∅ k
  constructor
  · intro k v hk
    rw [hload] at hk
    split_ifs at hk with hmem
    obtain ⟨⟨key, value⟩, he, hkey⟩ := List.mem_map.mp hmem
    obtain ⟨hpre, hvalue⟩ := mem_scanPrefix.mp he
    dsimp only at hkey
    subst hkey
    obtain ⟨k', v', -, rfl⟩ := h _ _ hpre hvalue
    rw [hf k v' hvalue] at hk
    cases hk
    exact hvalue
  · intro key value hpre hkey
    obtain ⟨k, v, rfl, rfl⟩ := h key value hpre hkey
    have hmem : pre ++ encode k ∈ (scanPrefix db pre).map Prod.fst :=
      List.mem_map.mpr ⟨(_, encode v), mem_scanPrefix.mpr ⟨hpre, hkey⟩, rfl⟩
    refine ⟨k, v, rfl, rfl, ?_⟩
    rw [hload, if_pos hmem]
    exact hf k v hkey

end Mirroring

end Lib.KeyValue
