import RustStateMachine.Lib.Runs
import RustStateMachine.Node
import RustStateMachine.Replay

/-!
# Batch selection and block production

Which candidates a produced block contains, and every way the production of a
block can end.
-/

namespace RustStateMachine

open Lib Lib.KeyValue Lib.Runs Std Support

/-- The nonce of an extrinsic, as a number. -/
def nonceOf (e : Types.Extrinsic) : ℕ := e.nonce.toNat

/-! ## One signer -/

theorem sortByNonce_perm (txs : List Types.Extrinsic) : (sortByNonce txs).Perm txs :=
  List.perm_insertionSort _ txs

theorem sortByNonce_sorted (txs : List Types.Extrinsic) :
    (sortByNonce txs).Pairwise fun a b => nonceOf a ≤ nonceOf b := by
  have htotal : Std.Total fun a b : Types.Extrinsic => a.nonce ≤ b.nonce :=
    ⟨fun a b => Nat.le_total (nonceOf a) (nonceOf b)⟩
  have htrans : IsTrans Types.Extrinsic fun a b => a.nonce ≤ b.nonce :=
    ⟨fun a b c hab hbc => @Nat.le_trans (nonceOf a) (nonceOf b) (nonceOf c) hab hbc⟩
  exact List.pairwise_insertionSort (fun a b : Types.Extrinsic => a.nonce ≤ b.nonce) txs

/-- Counting the run fails exactly when it contains the greatest nonce. -/
theorem selectRun_eq (expected : Types.Nonce) (txs : List Types.Extrinsic) :
    selectRun expected txs =
      if ∀ tx ∈ takeRun nonceOf expected.toNat txs, tx.nonce ≠ BitVec.allOnes 32 then
        some (takeRun nonceOf expected.toNat txs)
      else none := by
  induction txs generalizing expected with
  | nil => simp [selectRun, takeRun]
  | cons tx txs ih =>
      rw [selectRun, takeRun]
      by_cases heq : tx.nonce = expected
      · have hnum : nonceOf tx = expected.toNat := congrArg BitVec.toNat heq
        rw [if_pos heq, if_pos hnum]
        cases hadd : checkedAdd expected 1 with
        | none =>
            have hmax := Machine.checkedAdd_one_eq_none.mp hadd
            rw [if_neg]
            · rfl
            · intro h
              exact h tx List.mem_cons_self (heq.trans hmax)
        | some m =>
            have hm := Machine.checkedAdd_one_eq_some.mp hadd
            have hne : tx.nonce ≠ BitVec.allOnes 32 := by
              intro hmax
              rw [← heq, Machine.checkedAdd_one_eq_none.mpr hmax] at hadd
              cases hadd
            have hrest := ih m
            rw [hm] at hrest
            simp only [Option.bind_eq_bind, Option.bind_some, hrest, List.forall_mem_cons]
            by_cases hall : ∀ tx ∈ takeRun nonceOf (expected.toNat + 1) txs,
                tx.nonce ≠ BitVec.allOnes 32
            · rw [if_pos hall, if_pos ⟨hne, hall⟩]
              rfl
            · rw [if_neg hall, if_neg fun h => hall h.2]
              rfl
      · have hnum : ¬ nonceOf tx = expected.toNat := fun h => heq (BitVec.eq_of_toNat_eq h)
        rw [if_neg heq, if_neg hnum]
        simp

/-! ## All signers -/

/-- The extrinsics a block is built from: the run of every signer, from its runtime nonce on. -/
def selected (order : HashOrder) (nonce : Types.AccountId → Types.Nonce)
    (candidates : List Types.Extrinsic) : List Types.Extrinsic :=
  (order.arrange (candidates.map (·.signer)).dedup).flatMap fun signer =>
    takeRun nonceOf (nonce signer).toNat
      (sortByNonce (candidates.filter fun e => e.signer = signer))

theorem mapM_guarded {α β : Type} (p : α → Prop) [DecidablePred p] (f : α → β) (l : List α) :
    (l.mapM fun a => if p a then some (f a) else none) =
      if ∀ a ∈ l, p a then some (l.map f) else none := by
  induction l with
  | nil => simp
  | cons a l ih =>
      rw [List.mapM_cons, ih]
      by_cases ha : p a
      · by_cases hl : ∀ a ∈ l, p a
        · rw [if_pos ha, if_pos hl, if_pos (List.forall_mem_cons.mpr ⟨ha, hl⟩)]
          rfl
        · rw [if_pos ha, if_neg hl, if_neg fun h => hl (List.forall_mem_cons.mp h).2]
          rfl
      · rw [if_neg ha, if_neg fun h => ha (List.forall_mem_cons.mp h).1]
        rfl

theorem selectBatch_eq (order : HashOrder) (nonce : Types.AccountId → Types.Nonce)
    (candidates : List Types.Extrinsic) :
    selectBatch order nonce candidates =
      if ∀ tx ∈ selected order nonce candidates, tx.nonce ≠ BitVec.allOnes 32 then
        some (selected order nonce candidates)
      else none := by
  have hmap := mapM_guarded
    (fun g : Types.AccountId × List Types.Extrinsic =>
      ∀ tx ∈ takeRun nonceOf (nonce g.1).toNat (sortByNonce g.2), tx.nonce ≠ BitVec.allOnes 32)
    (fun g => takeRun nonceOf (nonce g.1).toNat (sortByNonce g.2)) (bySigner order candidates)
  simp only [← selectRun_eq] at hmap
  have hflat : selected order nonce candidates = ((bySigner order candidates).map fun g =>
      takeRun nonceOf (nonce g.1).toNat (sortByNonce g.2)).flatten := by
    rw [bySigner, List.map_map, selected, List.flatMap_def]
    rfl
  have hall : (∀ tx ∈ selected order nonce candidates, tx.nonce ≠ BitVec.allOnes 32) ↔
      ∀ g ∈ bySigner order candidates,
        ∀ tx ∈ takeRun nonceOf (nonce g.1).toNat (sortByNonce g.2),
          tx.nonce ≠ BitVec.allOnes 32 := by
    rw [hflat]
    simp only [List.mem_flatten, List.mem_map]
    constructor
    · intro h g hg tx htx
      exact h tx ⟨_, ⟨g, hg, rfl⟩, htx⟩
    · rintro h tx ⟨_, ⟨g, hg, rfl⟩, htx⟩
      exact h g hg tx htx
  rw [selectBatch, hmap]
  by_cases h : ∀ tx ∈ selected order nonce candidates, tx.nonce ≠ BitVec.allOnes 32
  · rw [if_pos (hall.mp h), if_pos h, hflat]
    rfl
  · rw [if_neg fun hg => h (hall.mpr hg), if_neg h]
    rfl

section Selected

variable (order : HashOrder) (nonce : Types.AccountId → Types.Nonce)
  (candidates : List Types.Extrinsic)

theorem arranged_nodup : (order.arrange (candidates.map (·.signer)).dedup).Nodup :=
  (order.perm _).nodup_iff.mpr (List.nodup_dedup _)

theorem mem_arranged (s : Types.AccountId) :
    s ∈ order.arrange (candidates.map (·.signer)).dedup ↔ ∃ e ∈ candidates, e.signer = s := by
  rw [(order.perm _).mem_iff, List.mem_dedup, List.mem_map]

/-- A batch contains, of one signer, the run of that signer's sorted candidates. -/
theorem selected_filter (s : Types.AccountId) :
    ((selected order nonce candidates).filter fun e => e.signer = s) =
      takeRun nonceOf (nonce s).toNat
        (sortByNonce (candidates.filter fun e => e.signer = s)) := by
  rw [selected, filter_flatMap (fun e : Types.Extrinsic => e.signer)
    (arranged_nodup order candidates)]
  · split_ifs with h
    · rfl
    · have hnone : (candidates.filter fun e => e.signer = s) = [] := by
        rw [List.filter_eq_nil_iff]
        intro e he hs
        exact h ((mem_arranged order candidates s).mpr ⟨e, he, of_decide_eq_true hs⟩)
      rw [hnone]
      rfl
  · intro k e he
    have hmem := (sortByNonce_perm _).subset ((takeRun_isPrefix nonceOf _ _).subset he)
    exact of_decide_eq_true (List.mem_filter.mp hmem).2

/-- The sorted candidates of all signers are the candidates. -/
theorem sorted_groups_perm :
    ((order.arrange (candidates.map (·.signer)).dedup).flatMap fun s =>
      sortByNonce (candidates.filter fun e => e.signer = s)).Perm candidates := by
  have hall : (candidates.filter fun e =>
      e.signer ∈ order.arrange (candidates.map (·.signer)).dedup) = candidates := by
    rw [List.filter_eq_self]
    intro e he
    exact decide_eq_true ((mem_arranged order candidates e.signer).mpr ⟨e, he, rfl⟩)
  calc
    List.Perm
        ((order.arrange (candidates.map (·.signer)).dedup).flatMap fun s =>
          sortByNonce (candidates.filter fun e => e.signer = s))
        ((order.arrange (candidates.map (·.signer)).dedup).flatMap fun s =>
          candidates.filter fun e => e.signer = s) :=
      List.Perm.flatMap_left _ fun s _ => sortByNonce_perm _
    List.Perm _ (candidates.filter fun e =>
          e.signer ∈ order.arrange (candidates.map (·.signer)).dedup) :=
      flatMap_filter_perm (fun e : Types.Extrinsic => e.signer)
        (arranged_nodup order candidates) candidates
    List.Perm _ candidates := by rw [hall]

/-- A batch contains candidates only, none more often than it was drained. -/
theorem selected_subperm : (selected order nonce candidates).Subperm candidates := by
  have hruns : (selected order nonce candidates).Sublist
      ((order.arrange (candidates.map (·.signer)).dedup).flatMap fun s =>
        sortByNonce (candidates.filter fun e => e.signer = s)) := by
    rw [selected]
    induction order.arrange (candidates.map (·.signer)).dedup with
    | nil => exact List.Sublist.refl _
    | cons s keys ih =>
        rw [List.flatMap_cons, List.flatMap_cons]
        exact (takeRun_isPrefix nonceOf _ _).sublist.append ih
  exact hruns.subperm.trans (sorted_groups_perm order candidates).subperm

/-- A signer whose candidates carry consecutive nonces gets the whole run. -/
theorem takeRun_sortByNonce {s : Types.AccountId} {n : ℕ}
    (h : (Runtime.noncesOf s candidates).Perm
      (List.range' n (Runtime.noncesOf s candidates).length)) :
    takeRun nonceOf n (sortByNonce (candidates.filter fun e => e.signer = s)) =
      sortByNonce (candidates.filter fun e => e.signer = s) := by
  have hsort := sortByNonce_perm (candidates.filter fun e => e.signer = s)
  apply takeRun_eq_self
  apply map_eq_range'_of_perm nonceOf (sortByNonce_sorted _)
  rw [hsort.length_eq]
  rw [Runtime.noncesOf, List.length_map] at h
  exact (hsort.map nonceOf).trans h

/-- Candidates whose nonces continue those of the runtime are all selected. -/
theorem selected_perm (h : ∀ s, (Runtime.noncesOf s candidates).Perm
    (List.range' (nonce s).toNat (Runtime.noncesOf s candidates).length)) :
    (selected order nonce candidates).Perm candidates := by
  have hwhole : ∀ s, takeRun nonceOf (nonce s).toNat
      (sortByNonce (candidates.filter fun e => e.signer = s)) =
        sortByNonce (candidates.filter fun e => e.signer = s) :=
    fun s => takeRun_sortByNonce candidates (h s)
  rw [selected]
  simp only [hwhole]
  exact sorted_groups_perm order candidates

/-- A signer whose candidates carry the next nonces in order has them selected as they are. -/
theorem selected_filter_of_range {s : Types.AccountId} (h : Runtime.noncesOf s candidates =
    List.range' (nonce s).toNat (Runtime.noncesOf s candidates).length) :
    ((selected order nonce candidates).filter fun e => e.signer = s) =
      candidates.filter fun e => e.signer = s := by
  have hperm : (Runtime.noncesOf s candidates).Perm
      (List.range' (nonce s).toNat (Runtime.noncesOf s candidates).length) := by rw [← h]
  rw [selected_filter, takeRun_sortByNonce candidates hperm]
  have hlt : (Runtime.noncesOf s candidates).Pairwise (· < ·) := by
    rw [h]
    exact List.pairwise_lt_range'
  have hsorted : (candidates.filter fun e => e.signer = s).Pairwise fun e f => e.nonce ≤ f.nonce :=
    (List.pairwise_map.mp hlt).imp fun hef => Nat.le_of_lt hef
  exact hsorted.insertionSort_eq

/-- The nonces of one signer in a batch are consecutive from its runtime nonce on. -/
theorem noncesOf_selected (s : Types.AccountId) :
    Runtime.noncesOf s (selected order nonce candidates) =
      List.range' (nonce s).toNat
        (Runtime.noncesOf s (selected order nonce candidates)).length := by
  have h := map_takeRun nonceOf (nonce s).toNat
    (sortByNonce (candidates.filter fun e => e.signer = s))
  rw [← selected_filter order nonce candidates s] at h
  rw [Runtime.noncesOf, List.length_map]
  exact h

end Selected

/-! ## Producing a block -/

namespace Node

variable {PeerId : Type}

/-- How many candidates a block is built from at most. -/
def limit (self : Node PeerId) : ℕ := self.mempool.blockLimit.getD 10

/-- The candidates of the next block. -/
def candidates (self : Node PeerId) : List Types.Extrinsic :=
  self.mempool.pending.take self.limit

/-- The node once the candidates are taken out of the pool. -/
def drained (self : Node PeerId) : Node PeerId :=
  { self with mempool :=
      { self.mempool with pending := self.mempool.pending.drop self.limit } }

/-- The extrinsics of the next block. -/
def batch (order : HashOrder) (self : Node PeerId) : List Types.Extrinsic :=
  selected order self.runtime.system.nonce self.candidates

variable [Ed25519]

/-- Everything the production of a block can do. It never fails to execute its own block. -/
inductive ProduceEffect (order : HashOrder) (self : Node PeerId) :
    Run NodeEvent (Node PeerId) Unit → Prop
  | overflowed (h : ∃ tx ∈ self.batch order, tx.nonce = BitVec.allOnes 32) :
      ProduceEffect order self
        ⟨.panicked "attempt to add with overflow", self.drained, []⟩
  | atMaxHeight (hbatch : ∀ tx ∈ self.batch order, tx.nonce ≠ BitVec.allOnes 32)
      (h : self.runtime.system.blockNumber = BitVec.allOnes 32) :
      ProduceEffect order self ⟨.panicked System.unwrapNone, self.drained, []⟩
  | produced {block : Types.Block} {rt : Runtime} {log : List Event} (lines : List String)
      (hbatch : ∀ tx ∈ self.batch order, tx.nonce ≠ BitVec.allOnes 32)
      (hnum : block.header.blockNumber.toNat = self.runtime.height + 1)
      (hexts : block.extrinsics = self.batch order)
      (hexec : Runtime.executeBlock block self.runtime = ⟨.ret (.ok ()), rt, log⟩) :
      ProduceEffect order self
        ⟨.ret (), { self.drained with runtime := rt },
          log.map .runtime ++ (lines.map .println ++ [.publish (encode block)])⟩

omit [Ed25519] in
theorem printLines (lines : List String) (self : Node PeerId) :
    (Exec.each (fun line => (Exec.emit (.println line) : Exec NodeEvent (Node PeerId) Unit))
      lines) self = ⟨.ret (), self, lines.map .println⟩ := by
  induction lines with
  | nil => rfl
  | cons line lines ih =>
      rw [Exec.each, Exec.bind_apply, Exec.emit_apply, Run.andThen_ret, ih]
      rfl

/-- A batch that carries the greatest nonce has overflowed the count of its signer's run. -/
theorem produceBlock_of_overflow {order : HashOrder} {self : Node PeerId}
    (h : ¬ ∀ tx ∈ self.batch order, tx.nonce ≠ BitVec.allOnes 32) :
    produceBlock order self = ⟨.panicked "attempt to add with overflow", self.drained, []⟩ := by
  have hdrain : Mempool.drainForBlock (self.mempool.blockLimit.getD 10) self.mempool =
      (self.candidates, self.drained.mempool) := Mempool.drainForBlock_eq _ _
  have hselect : selectBatch order self.runtime.system.nonce self.candidates = none :=
    (selectBatch_eq order self.runtime.system.nonce self.candidates).trans (if_neg h)
  simp [produceBlock, hdrain, hselect]
  rfl

/-- There is no block after the greatest height. -/
theorem produceBlock_of_max {order : HashOrder} {self : Node PeerId}
    (hbatch : ∀ tx ∈ self.batch order, tx.nonce ≠ BitVec.allOnes 32)
    (hmax : self.runtime.system.blockNumber = BitVec.allOnes 32) :
    produceBlock order self = ⟨.panicked System.unwrapNone, self.drained, []⟩ := by
  have hdrain : Mempool.drainForBlock (self.mempool.blockLimit.getD 10) self.mempool =
      (self.candidates, self.drained.mempool) := Mempool.drainForBlock_eq _ _
  have hselect : selectBatch order self.runtime.system.nonce self.candidates =
      some (self.batch order) :=
    (selectBatch_eq order self.runtime.system.nonce self.candidates).trans (if_pos hbatch)
  have hadd : checkedAdd self.runtime.system.blockNumber 1 = none :=
    Machine.checkedAdd_one_eq_none.mpr hmax
  simp only [produceBlock, Exec.bind_apply, Exec.read_apply, Run.andThen_ret, hdrain,
    Exec.modify_apply, hselect, Exec.unwrap_some, hadd, Exec.unwrap_none, Run.andThen_panicked]
  rfl

/-- With room for its nonces and its height, the block is built, executed and published. -/
theorem produceBlock_of_fits {order : HashOrder} {self : Node PeerId}
    (hbatch : ∀ tx ∈ self.batch order, tx.nonce ≠ BitVec.allOnes 32)
    (hheight : self.runtime.height + 1 < 2 ^ 32) :
    ∃ (block : Types.Block) (rt : Runtime) (log : List Event) (lines : List String),
      block.extrinsics = self.batch order ∧
      block.header.blockNumber.toNat = self.runtime.height + 1 ∧
      Runtime.executeBlock block self.runtime = ⟨.ret (.ok ()), rt, log⟩ ∧
      produceBlock order self = ⟨.ret (), { self.drained with runtime := rt },
        log.map .runtime ++ (lines.map .println ++ [.publish (encode block)])⟩ := by
  have hdrain : Mempool.drainForBlock (self.mempool.blockLimit.getD 10) self.mempool =
      (self.candidates, self.drained.mempool) := Mempool.drainForBlock_eq _ _
  have hselect : selectBatch order self.runtime.system.nonce self.candidates =
      some (self.batch order) :=
    (selectBatch_eq order self.runtime.system.nonce self.candidates).trans (if_pos hbatch)
  cases hadd : checkedAdd self.runtime.system.blockNumber 1 with
  | none =>
      have hmax := Machine.checkedAdd_one_eq_none.mp hadd
      rw [Runtime.height, hmax, BitVec.toNat_allOnes] at hheight
      omega
  | some n =>
      have hnum := Machine.checkedAdd_one_eq_some.mp hadd
      obtain ⟨rt, log, hexec⟩ := Runtime.executeBlock_ok ⟨⟨n⟩, self.batch order⟩
        self.runtime hnum hbatch
      let txSummary := (self.batch order).map fun e =>
        "    signer=" ++ e.signer.debug ++ " nonce=" ++ toString e.nonce.toNat
      refine ⟨⟨⟨n⟩, self.batch order⟩, rt, log, ("[node] produced block #" ++ toString n.toNat ++
        " (" ++ toString txSummary.length ++ " tx)") :: txSummary, rfl, hnum, hexec, ?_⟩
      simp only [produceBlock, Exec.bind_apply, Exec.read_apply, Run.andThen_ret, hdrain,
        Exec.modify_apply, hselect, Exec.unwrap_some, hadd, onRuntime, Exec.zoom_apply, hexec,
        Exec.emit_apply, printLines]
      rfl

theorem produceBlock_effect (order : HashOrder) (self : Node PeerId) :
    ProduceEffect order self (produceBlock order self) := by
  by_cases hbatch : ∀ tx ∈ self.batch order, tx.nonce ≠ BitVec.allOnes 32
  · by_cases hmax : self.runtime.system.blockNumber = BitVec.allOnes 32
    · rw [produceBlock_of_max hbatch hmax]
      exact .atMaxHeight hbatch hmax
    · obtain ⟨block, rt, log, lines, hexts, hnum, hexec, hrun⟩ :=
        produceBlock_of_fits hbatch (Runtime.height_lt_of_ne hmax)
      rw [hrun]
      exact .produced lines hbatch hnum hexts hexec
  · rw [produceBlock_of_overflow hbatch]
    push Not at hbatch
    exact .overflowed hbatch

end Node

end RustStateMachine
