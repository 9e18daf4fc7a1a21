import RustStateMachine.Execution

/-!
# Replay protection

The dispatched extrinsics of an account carry consecutive nonces, from its nonce
at the start of a run up to its nonce at the end.
-/

namespace RustStateMachine.Runtime

open Lib Lib.KeyValue Std Support

/-- The nonces of one account in a list of extrinsics, in order. -/
def noncesOf (a : Types.AccountId) (exts : List Types.Extrinsic) : List ℕ :=
  (exts.filter fun e => e.signer = a).map fun e => e.nonce.toNat

@[simp] theorem noncesOf_append (a : Types.AccountId) (l l' : List Types.Extrinsic) :
    noncesOf a (l ++ l') = noncesOf a l ++ noncesOf a l' := by
  simp [noncesOf]

theorem noncesOf_singleton (a : Types.AccountId) (ext : Types.Extrinsic) :
    noncesOf a [ext] = if ext.signer = a then [ext.nonce.toNat] else [] := by
  by_cases h : ext.signer = a
  · simp [noncesOf, h]
  · simp [noncesOf, h]

theorem noncesOf_cons (a : Types.AccountId) (ext : Types.Extrinsic) (exts : List Types.Extrinsic) :
    noncesOf a (ext :: exts) =
      (if ext.signer = a then [ext.nonce.toNat] else []) ++ noncesOf a exts := by
  rw [← List.singleton_append, noncesOf_append, noncesOf_singleton]

theorem mem_noncesOf {a : Types.AccountId} {v : ℕ} {exts : List Types.Extrinsic} :
    v ∈ noncesOf a exts ↔ ∃ e ∈ exts, e.signer = a ∧ e.nonce.toNat = v := by
  rw [noncesOf, List.mem_map]
  constructor
  · rintro ⟨e, he, hv⟩
    obtain ⟨he, hs⟩ := List.mem_filter.mp he
    exact ⟨e, he, of_decide_eq_true hs, hv⟩
  · rintro ⟨e, he, hs, hv⟩
    exact ⟨e, List.mem_filter.mpr ⟨he, decide_eq_true hs⟩, hv⟩

/-- Distinct nonces of every account mean that no pair of signer and nonce occurs twice. -/
theorem nodup_of_noncesOf_nodup {exts : List Types.Extrinsic} (h : ∀ a, (noncesOf a exts).Nodup) :
    (exts.map fun e => (e.signer, e.nonce)).Nodup := by
  rw [List.Nodup, List.pairwise_map, List.pairwise_iff_getElem]
  intro i j hi hj hij heq
  have ha := h exts[i].signer
  rw [noncesOf, List.Nodup, List.pairwise_map, List.pairwise_filter,
    List.pairwise_iff_getElem] at ha
  obtain ⟨hsigner, hnonce⟩ := Prod.mk.inj heq
  have hne := ha i j hi hj hij (by simp) (by simp [hsigner])
  exact hne (congrArg BitVec.toNat hnonce)

variable [Ed25519]

/-- From nonce `start` on, the dispatched extrinsics of `a` carry consecutive nonces up to the
current one. -/
def Consecutive (a : Types.AccountId) (start : ℕ) (self : Runtime) (log : List Event) : Prop :=
  start ≤ (self.system.nonce a).toNat ∧
    noncesOf a (dispatches log) = List.range' start ((self.system.nonce a).toNat - start)

theorem ExtrinsicEffect.consecutive {ext : Types.Extrinsic} {self : Runtime}
    {r : Run Event Runtime Unit} (h : ExtrinsicEffect ext self r) {a : Types.AccountId}
    {start : ℕ} {l : List Event} (hl : Consecutive a start self l) :
    Consecutive a start r.state (l ++ r.log) := by
  obtain ⟨hle, hlist⟩ := hl
  rcases h.nonce_cases with ⟨hlog, hsystem⟩ | ⟨hlog, hacc, hnonce⟩
  · refine ⟨hsystem ▸ hle, ?_⟩
    rw [dispatches_append, hlog, List.append_nil, hlist, hsystem]
  · constructor
    · rw [hnonce a]
      exact Nat.le_add_right_of_le hle
    · rw [dispatches_append, hlog, noncesOf_append, noncesOf_singleton, hlist, hnonce a]
      split_ifs with ha
      · have hext : ext.nonce.toNat = start + ((self.system.nonce a).toNat - start) := by
          rw [← hacc.2, ha, Nat.add_sub_of_le hle]
        rw [hext, Nat.sub_add_comm hle, List.range'_concat, Nat.one_mul]
      · rw [List.append_nil, Nat.add_zero]

theorem keeps_consecutive (a : Types.AccountId) (start : ℕ) (block : Types.Block) :
    Exec.Keeps (Consecutive a start) (executeBlock block) := by
  refine keeps_executeBlock ?_ ?_ block
  · rintro s n l ⟨hle, hlist⟩
    refine ⟨hle, ?_⟩
    rw [dispatches_append]
    exact (congrArg (noncesOf a) (List.append_nil _)).trans hlist
  · intro ext s r l heff hs
    exact heff.consecutive hs

/-- Over a run of any blocks, the dispatched extrinsics of an account carry exactly the nonces
from its first nonce up to its last one, and no pair of signer and nonce is dispatched twice. -/
theorem dispatched_nonces_consecutive (blocks : List Types.Block) (self : Runtime) :
    let r := Exec.each executeBlock blocks self
    (∀ a, (self.system.nonce a).toNat ≤ (r.state.system.nonce a).toNat ∧
      noncesOf a (dispatches r.log) = List.range' (self.system.nonce a).toNat
        ((r.state.system.nonce a).toNat - (self.system.nonce a).toNat)) ∧
    ((dispatches r.log).map fun e => (e.signer, e.nonce)).Nodup := by
  intro r
  have hrun : ∀ a, Consecutive a (self.system.nonce a).toNat r.state r.log := by
    intro a
    have hstart : Consecutive a (self.system.nonce a).toNat self [] := by
      refine ⟨le_rfl, ?_⟩
      rw [Nat.sub_self]
      rfl
    exact Exec.keeps_each executeBlock (keeps_consecutive a _) blocks self [] hstart
  constructor
  · exact hrun
  · apply nodup_of_noncesOf_nodup
    intro a
    rw [(hrun a).2]
    exact List.nodup_range'

end RustStateMachine.Runtime
