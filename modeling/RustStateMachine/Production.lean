import RustStateMachine.Selection

/-!
# Production until the pool is empty

A pool of validly signed extrinsics, whose nonces are consecutive from the
runtime nonce on for every signer, is drained round by round. Every pending
extrinsic is dispatched exactly when no round drains one ahead of a smaller
nonce of the same signer, and neither nonces nor heights run out.
-/

namespace RustStateMachine

open Lib Lib.KeyValue Lib.Runs Std Support

namespace Runtime

theorem mem_dispatches {e : Types.Extrinsic} {log : List Event} :
    e ∈ dispatches log ↔ .dispatching e ∈ log := by
  rw [dispatches, List.mem_filterMap]
  constructor
  · rintro ⟨ev, hev, hsome⟩
    cases ev with
    | dispatching e' =>
        cases hsome
        exact hev
    | _ => cases hsome
  · intro h
    exact ⟨_, h, rfl⟩

variable [Ed25519]

/-! ## One block -/

/-- An extrinsic that passes both checks is dispatched and counted, short of the greatest nonce. -/
theorem ExtrinsicEffect.of_accepted {ext : Types.Extrinsic} {self : Runtime}
    {r : Run Event Runtime Unit} (h : ExtrinsicEffect ext self r) (hacc : Accepted ext self)
    (hmax : ext.nonce ≠ BitVec.allOnes 32) :
    r.outcome = .ret () ∧ dispatches r.log = [ext] ∧ ∀ a, (r.state.system.nonce a).toNat =
      (self.system.nonce a).toNat + if ext.signer = a then 1 else 0 := by
  have hcases := h.nonce_cases
  cases h with
  | skipped _ hskip => exact absurd hacc hskip
  | overflowed _ htop => exact absurd htop hmax
  | applied =>
      rcases hcases with ⟨hnone, -⟩ | ⟨hone, -, hnonce⟩
      · simp [Event.dispatching?] at hnone
      · exact ⟨rfl, hone, hnonce⟩

/-- Extrinsics whose nonces continue those of the runtime are all dispatched, in order. -/
theorem dispatches_applyAll (n : Types.BlockNumber) (exts : List (Types.Extrinsic × ℕ))
    (self : Runtime) (hverify : ∀ p ∈ exts, p.1.verify = .ok ())
    (hmax : ∀ p ∈ exts, p.1.nonce ≠ BitVec.allOnes 32)
    (hnonces : ∀ a, noncesOf a (exts.map Prod.fst) = List.range' (self.system.nonce a).toNat
      (noncesOf a (exts.map Prod.fst)).length) :
    dispatches (applyAll n exts self).log = exts.map Prod.fst := by
  induction exts generalizing self with
  | nil => rfl
  | cons p exts ih =>
      have hcons : ∀ a, noncesOf a ((p :: exts).map Prod.fst) =
          (if p.1.signer = a then [nonceOf p.1] else []) ++ noncesOf a (exts.map Prod.fst) :=
        fun a => noncesOf_cons a p.1 (exts.map Prod.fst)
      have hacc : Accepted p.1 self := by
        refine ⟨hverify p List.mem_cons_self, BitVec.eq_of_toNat_eq ?_⟩
        have hhead := hnonces p.1.signer
        rw [hcons, if_pos rfl, List.singleton_append, List.length_cons, List.range'_succ] at hhead
        exact (List.cons.inj hhead).1.symm
      obtain ⟨hret, hone, hnonce⟩ := (applyIndexed_effect n p self).of_accepted hacc
        (hmax p List.mem_cons_self)
      rw [dispatches_applyAll_cons hret, hone, ih]
      · rfl
      · exact fun q hq => hverify q (List.mem_cons_of_mem p hq)
      · exact fun q hq => hmax q (List.mem_cons_of_mem p hq)
      · intro a
        have htail := hnonces a
        rw [hcons] at htail
        rw [hnonce a]
        split_ifs at htail ⊢ with ha
        · rw [List.singleton_append, List.length_cons, List.range'_succ] at htail
          exact (List.cons.inj htail).2
        · exact htail

theorem dispatches_executeBlock {block : Types.Block} {self : Runtime}
    (hnum : block.header.blockNumber.toNat = self.height + 1)
    (hverify : ∀ e ∈ block.extrinsics, e.verify = .ok ())
    (hmax : ∀ e ∈ block.extrinsics, e.nonce ≠ BitVec.allOnes 32)
    (hnonces : ∀ a, noncesOf a block.extrinsics = List.range' (self.system.nonce a).toNat
      (noncesOf a block.extrinsics).length) :
    dispatches (executeBlock block self).log = block.extrinsics := by
  have hfst : block.extrinsics.zipIdx.map Prod.fst = block.extrinsics := List.zipIdx_map_fst _ _
  rw [executeBlock_of_next hnum]
  have hall := dispatches_applyAll block.header.blockNumber block.extrinsics.zipIdx
    (self.setBlockNumber block.header.blockNumber)
    (fun p hp => hverify p.1 (List.fst_mem_of_mem_zipIdx hp))
    (fun p hp => hmax p.1 (List.fst_mem_of_mem_zipIdx hp)) (by rw [hfst]; exact hnonces)
  rw [hfst] at hall
  exact hall

/-- Only extrinsics of the block are dispatched. -/
theorem dispatches_executeBlock_subset (block : Types.Block) (self : Runtime) :
    dispatches (executeBlock block self).log ⊆ block.extrinsics := by
  have heff := executeBlock_effect block self
  generalize executeBlock block self = r at heff ⊢
  cases heff with
  | overflowed => exact List.nil_subset _
  | rejected => exact List.nil_subset _
  | executed hn hr =>
      subst hr
      intro e he
      have hmem : Event.dispatching e ∈ (applyAll block.header.blockNumber
          block.extrinsics.zipIdx (self.setBlockNumber block.header.blockNumber)).log := by
        simpa [mem_dispatches, Event.dispatching?] using he
      rw [applyAll, Exec.each_log, List.mem_flatMap] at hmem
      obtain ⟨st, hst, hlog⟩ := hmem
      obtain ⟨hinput, hrun⟩ := Exec.mem_steps _ hst
      rw [hrun, ← mem_dispatches] at hlog
      rcases (applyIndexed_effect _ st.input st.before).nonce_cases with ⟨hnone, -⟩ | ⟨hone, -, -⟩
      · rw [hnone] at hlog
        cases hlog
      · rw [hone, List.mem_singleton] at hlog
        rw [hlog]
        exact List.fst_mem_of_mem_zipIdx hinput

end Runtime

namespace Node

variable [Ed25519] {PeerId : Type}

/-- The extrinsics whose dispatch a node's log records. -/
def dispatched (log : List NodeEvent) : List Types.Extrinsic := dispatches (runtimeLog log)

omit [Ed25519] in
theorem dispatched_append (l l' : List NodeEvent) :
    dispatched (l ++ l') = dispatched l ++ dispatched l' := by
  rw [dispatched, runtimeLog, List.filterMap_append]
  exact dispatches_append _ _

omit [Ed25519] in
theorem mem_dispatched {e : Types.Extrinsic} {log : List NodeEvent} :
    e ∈ dispatched log ↔ .runtime (.dispatching e) ∈ log := by
  rw [dispatched, Runtime.mem_dispatches, runtimeLog, List.mem_filterMap]
  constructor
  · rintro ⟨ev, hev, hsome⟩
    cases ev with
    | runtime e' =>
        cases hsome
        exact hev
    | _ => cases hsome
  · intro h
    exact ⟨_, h, rfl⟩

omit [Ed25519] in
theorem runtimeLog_produced (log : List Event) (lines : List String) (data : Bytes) :
    runtimeLog (log.map .runtime ++ (lines.map .println ++ [.publish data])) = log := by
  simp [runtimeLog, NodeEvent.runtime?, List.filterMap_map, Function.comp_def]

/-! ## One round -/

theorem produceBlock_pool (order : HashOrder) (self : Node PeerId) :
    (produceBlock order self).state.mempool.pending = self.mempool.pending.drop self.limit ∧
      (produceBlock order self).state.limit = self.limit := by
  have heff := produceBlock_effect order self
  generalize produceBlock order self = r at heff ⊢
  cases heff with
  | overflowed => exact ⟨rfl, rfl⟩
  | atMaxHeight => exact ⟨rfl, rfl⟩
  | produced => exact ⟨rfl, rfl⟩

/-- Only the batch is dispatched, and only if the round finds room for its nonces and its
height. -/
theorem of_mem_dispatched_produceBlock {order : HashOrder} {self : Node PeerId}
    {e : Types.Extrinsic} (h : e ∈ dispatched (produceBlock order self).log) :
    e ∈ self.batch order ∧ (∀ tx ∈ self.batch order, tx.nonce ≠ BitVec.allOnes 32) ∧
      self.runtime.height + 1 < 2 ^ 32 := by
  have heff := produceBlock_effect order self
  generalize produceBlock order self = r at heff h
  cases heff with
  | overflowed => cases h
  | atMaxHeight => cases h
  | @produced block rt log lines hbatch hnum hexts hexec =>
      have hsub := Runtime.dispatches_executeBlock_subset block self.runtime
      rw [hexec, hexts] at hsub
      rw [dispatched, runtimeLog_produced] at h
      refine ⟨hsub h, hbatch, ?_⟩
      rw [← hnum]
      exact block.header.blockNumber.isLt

theorem height_produceBlock {order : HashOrder} {self : Node PeerId}
    (h : (produceBlock order self).outcome = .ret ()) :
    (produceBlock order self).state.runtime.height = self.runtime.height + 1 := by
  have heff := produceBlock_effect order self
  generalize produceBlock order self = r at heff h ⊢
  cases heff with
  | overflowed => cases h
  | atMaxHeight => cases h
  | produced _ _ _ _ hexec => exact Runtime.height_of_executeBlock hexec

/-- A batch of verified extrinsics is dispatched as a whole. -/
theorem dispatched_produceBlock {order : HashOrder} {self : Node PeerId}
    (hverify : ∀ e ∈ self.batch order, e.verify = .ok ())
    (hmax : ∀ e ∈ self.batch order, e.nonce ≠ BitVec.allOnes 32)
    (hheight : self.runtime.height + 1 < 2 ^ 32) :
    (produceBlock order self).outcome = .ret () ∧
      dispatched (produceBlock order self).log = self.batch order := by
  obtain ⟨block, rt, log, lines, hexts, hnum, hexec, hrun⟩ := produceBlock_of_fits hmax hheight
  rw [← hexts] at hverify hmax
  have hnonces : ∀ a, Runtime.noncesOf a block.extrinsics =
      List.range' (self.runtime.system.nonce a).toNat
        (Runtime.noncesOf a block.extrinsics).length := by
    rw [hexts]
    exact noncesOf_selected order self.runtime.system.nonce self.candidates
  have hall := Runtime.dispatches_executeBlock hnum hverify hmax hnonces
  rw [hexec] at hall
  rw [hrun]
  refine ⟨rfl, ?_⟩
  rw [dispatched, runtimeLog_produced, ← hexts]
  exact hall

/-- The dispatched extrinsics of an account carry consecutive nonces, up to the current one. -/
theorem keeps_consecutive_produceBlock (a : Types.AccountId) (start : ℕ) (order : HashOrder) :
    Exec.Keeps (fun (self : Node PeerId) l =>
      Runtime.Consecutive a start self.runtime (runtimeLog l)) (produceBlock order) := by
  intro self l h
  have heff := produceBlock_effect order self
  generalize produceBlock order self = r at heff ⊢
  cases heff with
  | overflowed =>
      rw [List.append_nil]
      exact h
  | atMaxHeight =>
      rw [List.append_nil]
      exact h
  | @produced block rt log lines _ _ _ hexec =>
      have hkeeps := Runtime.keeps_consecutive a start block self.runtime (runtimeLog l) h
      rw [hexec] at hkeeps
      dsimp only
      rw [runtimeLog, List.filterMap_append]
      change Runtime.Consecutive a start rt (runtimeLog l ++ runtimeLog _)
      rw [runtimeLog_produced]
      exact hkeeps

/-! ## Rounds -/

/-- Blocks produced one after the other, with nothing in between. -/
def produceRounds (orders : List HashOrder) : Exec NodeEvent (Node PeerId) Unit :=
  Exec.each produceBlock orders

/-- How many rounds empty the pool. -/
def rounds (self : Node PeerId) : ℕ :=
  (self.mempool.pending.length + self.limit - 1) / self.limit

omit [Ed25519] in
theorem rounds_le_iff {self : Node PeerId} (hlimit : 1 ≤ self.limit) {k : ℕ} :
    self.rounds ≤ k ↔ self.mempool.pending.length ≤ k * self.limit := by
  rw [rounds, ← Nat.lt_succ_iff, Nat.div_lt_iff_lt_mul hlimit, Nat.succ_mul]
  omega

/-- What any number of rounds that all returned leaves of the pool, and what they dispatched. -/
theorem rounds_drain {orders : List HashOrder} {self : Node PeerId}
    (h : (produceRounds orders self).outcome = .ret ()) :
    (produceRounds orders self).state.mempool.pending =
        self.mempool.pending.drop (orders.length * self.limit) ∧
      (produceRounds orders self).state.limit = self.limit ∧
      (produceRounds orders self).state.runtime.height = self.runtime.height + orders.length ∧
      dispatched (produceRounds orders self).log ⊆
        self.mempool.pending.take (orders.length * self.limit) := by
  induction orders generalizing self with
  | nil => simp [produceRounds, dispatched, runtimeLog]
  | cons order orders ih =>
      cases ho : (produceBlock order self).outcome with
      | panicked m =>
          rw [produceRounds, Exec.each_cons_panicked _ ho] at h
          cases h
      | ret u =>
          obtain ⟨hpool, hlimit⟩ := produceBlock_pool order self
          have hheight := height_produceBlock ho
          rw [produceRounds, Exec.each_cons_ret _ ho] at h ⊢
          obtain ⟨ihpool, ihlimit, ihheight, ihsub⟩ := ih h
          rw [hpool, hlimit] at ihpool ihsub
          have hcount : (order :: orders).length * self.limit =
              self.limit + orders.length * self.limit := by
            rw [List.length_cons, Nat.succ_mul, Nat.add_comm]
          refine ⟨?_, ihlimit.trans hlimit, ?_, ?_⟩
          · rw [hcount, ← List.drop_drop]
            exact ihpool
          · calc (produceRounds orders (produceBlock order self).state).state.runtime.height
                = (produceBlock order self).state.runtime.height + orders.length := ihheight
              _ = self.runtime.height + 1 + orders.length := by rw [hheight]
              _ = self.runtime.height + (order :: orders).length := by
                rw [List.length_cons]
                omega
          · rw [hcount, List.take_add, Run.prepend_log, dispatched_append]
            intro e he
            rcases List.mem_append.mp he with he | he
            · have hbatch := (of_mem_dispatched_produceBlock he).1
              exact List.mem_append_left _ ((selected_subperm order _ _).subset hbatch)
            · exact List.mem_append_right _ (ihsub he)

/-- The candidates of the next round stand right behind those of the rounds before. -/
theorem candidates_after_rounds {orders : List HashOrder} {self : Node PeerId}
    (h : (produceRounds orders self).outcome = .ret ()) :
    (produceRounds orders self).state.candidates =
      (self.mempool.pending.drop (orders.length * self.limit)).take self.limit := by
  obtain ⟨hpending, hlimit, -, -⟩ := rounds_drain h
  rw [candidates, hpending, hlimit]

/-- A dispatched extrinsic was dispatched by one of the rounds, after rounds that returned. -/
theorem round_of_dispatched {orders : List HashOrder} {self : Node PeerId} {e : Types.Extrinsic}
    (h : e ∈ dispatched (produceRounds orders self).log) :
    ∃ pre order post, orders = pre ++ order :: post ∧
      (produceRounds pre self).outcome = .ret () ∧
      e ∈ dispatched (produceBlock order (produceRounds pre self).state).log := by
  rw [mem_dispatched, produceRounds, Exec.each_log, List.mem_flatMap] at h
  obtain ⟨st, hst, hmem⟩ := h
  obtain ⟨pre, post, horders, hret, hbefore⟩ := Exec.before_of_mem_steps _ hst
  rw [(Exec.mem_steps _ hst).2, hbefore] at hmem
  exact ⟨pre, st.input, post, horders, hret, mem_dispatched.mpr hmem⟩

/-- After any rounds, the dispatched extrinsics of an account carry the nonces from its first one
up to its current one. -/
theorem rounds_consecutive (orders : List HashOrder) (self : Node PeerId) (a : Types.AccountId) :
    Runtime.Consecutive a (self.runtime.system.nonce a).toNat
      (produceRounds orders self).state.runtime
      (runtimeLog (produceRounds orders self).log) := by
  have hstart : Runtime.Consecutive a (self.runtime.system.nonce a).toNat self.runtime
      (runtimeLog []) := by
    refine ⟨Nat.le_refl _, ?_⟩
    rw [Nat.sub_self]
    rfl
  exact Exec.keeps_each produceBlock
    (keeps_consecutive_produceBlock a (self.runtime.system.nonce a).toNat) orders self [] hstart

/-! ## A pool without gaps -/

/-- Every pending extrinsic is validly signed, and the pending nonces of each signer are, in any
order, those from its runtime nonce on. -/
structure Complete (node : Node PeerId) : Prop where
  verified : ∀ e ∈ node.mempool.pending, e.verify = .ok ()
  consecutive : ∀ s, (Runtime.noncesOf s node.mempool.pending).Perm
    (List.range' (node.runtime.system.nonce s).toNat
      (Runtime.noncesOf s node.mempool.pending).length)

/-- No pending extrinsic is drained in an earlier round than one of its signer with a smaller
nonce. -/
def DrainedInOrder (limit : ℕ) (pending : List Types.Extrinsic) : Prop :=
  ∀ i (hi : i < pending.length) j (hj : j < pending.length),
    pending[i].signer = pending[j].signer → nonceOf pending[j] < nonceOf pending[i] →
      j / limit ≤ i / limit

theorem Complete.keys_nodup {self : Node PeerId} (h : self.Complete) :
    (self.mempool.pending.map fun e => (e.signer, e.nonce)).Nodup := by
  apply Runtime.nodup_of_noncesOf_nodup
  intro s
  exact (h.consecutive s).nodup_iff.mpr List.nodup_range'

theorem Complete.nonce_le {self : Node PeerId} (h : self.Complete) {e : Types.Extrinsic}
    (he : e ∈ self.mempool.pending) : (self.runtime.system.nonce e.signer).toNat ≤ nonceOf e := by
  have hmem : nonceOf e ∈ Runtime.noncesOf e.signer self.mempool.pending :=
    Runtime.mem_noncesOf.mpr ⟨e, he, rfl, rfl⟩
  exact (List.mem_range'_1.mp ((h.consecutive e.signer).subset hmem)).1

/-- Where an extrinsic with the signer and the nonce of a pending one can be. -/
theorem Complete.index_bounds {self : Node PeerId} (h : self.Complete) {d k i : ℕ}
    (hi : i < self.mempool.pending.length) {e : Types.Extrinsic}
    (he : e ∈ (self.mempool.pending.drop d).take k)
    (hsigner : e.signer = self.mempool.pending[i].signer)
    (hnonce : nonceOf e = nonceOf self.mempool.pending[i]) : d ≤ i ∧ i < d + k := by
  apply index_of_mem_window h.keys_nodup hi he
  rw [hsigner, BitVec.eq_of_toNat_eq hnonce]

section Lost

variable {self : Node PeerId} {orders : List HashOrder}

/-- An extrinsic that is dispatched was drained no earlier than the smaller nonces of its
signer. -/
theorem drainedInOrder_of_dispatched (hpool : self.Complete) (hlimit : 1 ≤ self.limit)
    (hall : ∀ e ∈ self.mempool.pending, e ∈ dispatched (produceRounds orders self).log) :
    DrainedInOrder self.limit self.mempool.pending := by
  intro i hi j hj hsigner hlt
  by_contra hlate
  obtain ⟨pre, order, -, -, hret, hmem⟩ := round_of_dispatched (hall _ (List.getElem_mem hi))
  obtain ⟨-, -, -, hbefore⟩ := rounds_drain hret
  have hcands := candidates_after_rounds hret
  have hnonces := rounds_consecutive pre self self.mempool.pending[i].signer
  generalize (produceRounds pre self).log = log at hbefore hnonces
  generalize (produceRounds pre self).state = node at hmem hcands hnonces
  have hbatch := (of_mem_dispatched_produceBlock hmem).1
  -- the round that dispatches `i` is the one that drains it, and `j` is drained later
  have hi' := hpool.index_bounds hi (hcands ▸ (selected_subperm order _ _).subset hbatch) rfl rfl
  have hround : i / self.limit = pre.length := by
    apply Nat.div_eq_of_lt_le
    · exact hi'.1
    · rw [Nat.succ_mul]
      exact hi'.2
  have hj' : pre.length * self.limit + self.limit ≤ j := by
    rw [hround, Nat.not_le] at hlate
    rw [← Nat.succ_mul]
    exact (Nat.le_div_iff_mul_le hlimit).mp hlate
  -- so the nonce of `j` is neither behind the account nor among the candidates
  have hahead : (node.runtime.system.nonce self.mempool.pending[i].signer).toNat ≤
      nonceOf self.mempool.pending[j] := by
    by_contra hpassed
    have hfirst := hpool.nonce_le (List.getElem_mem hj)
    rw [← hsigner] at hfirst
    have hspent : nonceOf self.mempool.pending[j] ∈
        Runtime.noncesOf self.mempool.pending[i].signer (dispatches (runtimeLog log)) := by
      rw [hnonces.2, List.mem_range'_1]
      omega
    obtain ⟨e, he, hs, hnonce⟩ := Runtime.mem_noncesOf.mp hspent
    have hold := hpool.index_bounds (d := 0) hj (hbefore he) (hs.trans hsigner) hnonce
    omega
  have hmissing : nonceOf self.mempool.pending[j] ∉ (sortByNonce (node.candidates.filter
      fun e => e.signer = self.mempool.pending[i].signer)).map nonceOf := by
    intro hfound
    obtain ⟨e, he, hnonce⟩ := List.mem_map.mp hfound
    obtain ⟨he, hs⟩ := List.mem_filter.mp ((sortByNonce_perm _).subset he)
    rw [hcands] at he
    have hnow := hpool.index_bounds hj he ((of_decide_eq_true hs).trans hsigner) hnonce
    omega
  have hrun : self.mempool.pending[i] ∈ takeRun nonceOf
      (node.runtime.system.nonce self.mempool.pending[i].signer).toNat
      (sortByNonce (node.candidates.filter
        fun e => e.signer = self.mempool.pending[i].signer)) := by
    rw [← selected_filter order]
    exact List.mem_filter.mpr ⟨hbatch, decide_eq_true rfl⟩
  have hgt := num_lt_of_mem_takeRun nonceOf hahead hmissing hrun
  omega

theorem nonce_ne_of_dispatched {e : Types.Extrinsic}
    (h : e ∈ dispatched (produceRounds orders self).log) : e.nonce ≠ BitVec.allOnes 32 := by
  obtain ⟨pre, order, -, -, -, hmem⟩ := round_of_dispatched h
  obtain ⟨hbatch, hmax, -⟩ := of_mem_dispatched_produceBlock hmem
  exact hmax e hbatch

/-- If the last extrinsic is dispatched, all rounds that empty the pool find room above. -/
theorem height_lt_of_dispatched (hpool : self.Complete) (hlimit : 1 ≤ self.limit)
    (hall : ∀ e ∈ self.mempool.pending, e ∈ dispatched (produceRounds orders self).log) :
    self.runtime.height + self.rounds < 2 ^ 32 := by
  rcases Nat.eq_zero_or_pos self.mempool.pending.length with hempty | hpos
  · have hrounds := (rounds_le_iff hlimit).mpr (Nat.le_of_eq (hempty.trans (Nat.zero_mul _).symm))
    have hlt := self.runtime.system.blockNumber.isLt
    rw [Runtime.height]
    omega
  · have hlast : self.mempool.pending.length - 1 < self.mempool.pending.length := by omega
    obtain ⟨pre, order, -, -, hret, hmem⟩ :=
      round_of_dispatched (hall _ (List.getElem_mem hlast))
    obtain ⟨-, -, hheight, -⟩ := rounds_drain hret
    obtain ⟨hbatch, -, hroom⟩ := of_mem_dispatched_produceBlock hmem
    have hcand := (selected_subperm order _ _).subset hbatch
    rw [candidates_after_rounds hret] at hcand
    have hindex := hpool.index_bounds hlast hcand rfl rfl
    have hrounds : self.rounds ≤ pre.length + 1 := by
      rw [rounds_le_iff hlimit, Nat.succ_mul]
      omega
    omega

end Lost

section Kept

variable {self : Node PeerId}

/-- What whole rounds drain of one signer has no gap: the nonces from its runtime nonce on. -/
theorem noncesOf_drained_perm (hpool : self.Complete) (hlimit : 1 ≤ self.limit)
    (horder : DrainedInOrder self.limit self.mempool.pending) (k : ℕ) (s : Types.AccountId) :
    (Runtime.noncesOf s (self.mempool.pending.take (k * self.limit))).Perm
      (List.range' (self.runtime.system.nonce s).toNat
        (Runtime.noncesOf s (self.mempool.pending.take (k * self.limit))).length) := by
  have hsub : (Runtime.noncesOf s (self.mempool.pending.take (k * self.limit))).Sublist
      (Runtime.noncesOf s self.mempool.pending) :=
    ((List.take_sublist _ _).filter _).map _
  have hall := hpool.consecutive s
  apply perm_range'_of_forall_lt
  · exact (hall.nodup_iff.mpr List.nodup_range').sublist hsub
  · intro v hv
    exact (List.mem_range'_1.mp (hall.subset (hsub.subset hv))).1
  · intro v hv w hw hlt
    -- the smaller nonce is pending somewhere, and drained no later
    have htop := List.mem_range'_1.mp (hall.subset (hsub.subset hv))
    have hpending : w ∈ Runtime.noncesOf s self.mempool.pending := by
      rw [hall.mem_iff, List.mem_range'_1]
      omega
    obtain ⟨e, he, hs, rfl⟩ := Runtime.mem_noncesOf.mp hpending
    obtain ⟨j, hj, rfl⟩ := List.mem_iff_getElem.mp he
    obtain ⟨e', he', hs', rfl⟩ := Runtime.mem_noncesOf.mp hv
    obtain ⟨i, hi, rfl⟩ := List.mem_take_iff_getElem.mp he'
    have hround := horder i (by omega) j hj (hs'.trans hs.symm) hlt
    have hik : i / self.limit < k := (Nat.div_lt_iff_lt_mul hlimit).mpr (by omega)
    have hjk : j < k * self.limit :=
      (Nat.div_lt_iff_lt_mul hlimit).mp (Nat.lt_of_le_of_lt hround hik)
    have hdrained : self.mempool.pending[j] ∈ self.mempool.pending.take (k * self.limit) :=
      List.mem_take_iff_getElem.mpr ⟨j, by omega, rfl⟩
    exact Runtime.mem_noncesOf.mpr ⟨_, hdrained, hs, rfl⟩

/-- A round over a pool drained in order selects all its candidates, if every round before
dispatched what it drained. -/
theorem batch_perm_candidates (hpool : self.Complete) (hlimit : 1 ≤ self.limit)
    (horder : DrainedInOrder self.limit self.mempool.pending) {orders : List HashOrder}
    (hret : (produceRounds orders self).outcome = .ret ())
    (hperm : (dispatched (produceRounds orders self).log).Perm
      (self.mempool.pending.take (orders.length * self.limit))) (order : HashOrder) :
    ((produceRounds orders self).state.batch order).Perm
      (produceRounds orders self).state.candidates := by
  apply selected_perm
  intro s
  have hnonces := rounds_consecutive orders self s
  have hcands := candidates_after_rounds hret
  generalize (produceRounds orders self).log = log at hperm hnonces
  generalize (produceRounds orders self).state = node at hnonces hcands ⊢
  -- what is drained before this round and with it are both without gaps
  have hbefore := noncesOf_drained_perm hpool hlimit horder orders.length s
  have hafter := noncesOf_drained_perm hpool hlimit horder (orders.length + 1) s
  rw [Nat.succ_mul, List.take_add, ← hcands, Runtime.noncesOf_append, List.length_append,
    ← List.range'_append_1] at hafter
  have hcount : (Runtime.noncesOf s (dispatched log)).length = (Runtime.noncesOf s
      (self.mempool.pending.take (orders.length * self.limit))).length :=
    ((hperm.filter _).map _).length_eq
  rw [dispatched, hnonces.2, List.length_range'] at hcount
  have hle := hnonces.1
  have hcurrent : (node.runtime.system.nonce s).toNat =
      (self.runtime.system.nonce s).toNat + (Runtime.noncesOf s
        (self.mempool.pending.take (orders.length * self.limit))).length := by omega
  rw [hcurrent, ← List.perm_append_left_iff (List.range'
    (self.runtime.system.nonce s).toNat (Runtime.noncesOf s
      (self.mempool.pending.take (orders.length * self.limit))).length)]
  exact (hbefore.symm.append_right _).trans hafter

/-- Rounds over a pool drained in order dispatch what they drain, as long as nonces and heights
last. -/
theorem rounds_dispatch_all (hpool : self.Complete) (hlimit : 1 ≤ self.limit)
    (horder : DrainedInOrder self.limit self.mempool.pending)
    (hmax : ∀ e ∈ self.mempool.pending, e.nonce ≠ BitVec.allOnes 32) (orders : List HashOrder)
    (hheight : self.runtime.height + orders.length < 2 ^ 32) :
    (produceRounds orders self).outcome = .ret () ∧
      (dispatched (produceRounds orders self).log).Perm
        (self.mempool.pending.take (orders.length * self.limit)) := by
  induction orders using List.reverseRecOn with
  | nil => simp [produceRounds, dispatched, runtimeLog]
  | append_singleton orders order ih =>
      rw [List.length_append, List.length_singleton] at hheight
      obtain ⟨hret, hperm⟩ := ih (by omega)
      have hnow := (rounds_drain hret).2.2.1
      have hcands := candidates_after_rounds hret
      have hwhole := batch_perm_candidates hpool hlimit horder hret hperm order
      have hmem : ∀ e ∈ (produceRounds orders self).state.batch order,
          e ∈ self.mempool.pending := by
        intro e he
        have hcand := hwhole.subset he
        rw [hcands] at hcand
        exact List.mem_of_mem_drop (List.mem_of_mem_take hcand)
      obtain ⟨hstep, hbatch⟩ := dispatched_produceBlock
        (fun e he => hpool.verified e (hmem e he)) (fun e he => hmax e (hmem e he)) (by omega)
      obtain ⟨hrun, -⟩ := Exec.each_concat produceBlock hret hstep
      rw [produceRounds, hrun]
      refine ⟨rfl, ?_⟩
      rw [List.length_append, List.length_singleton, Nat.succ_mul, List.take_add, ← hcands,
        dispatched_append]
      apply hperm.append
      rw [← hbatch] at hwhole
      exact hwhole

end Kept

/-- Producing blocks until the pool is empty dispatches every pending extrinsic exactly once,
exactly when the pool is drained in order and neither nonces nor heights run out. -/
theorem every_pending_dispatched_iff {self : Node PeerId} (hpool : self.Complete)
    (hlimit : 1 ≤ self.limit) {orders : List HashOrder} (hrounds : orders.length = self.rounds) :
    (∀ e ∈ self.mempool.pending, (dispatched (produceRounds orders self).log).count e = 1) ↔
      DrainedInOrder self.limit self.mempool.pending ∧
      (∀ e ∈ self.mempool.pending, e.nonce ≠ BitVec.allOnes 32) ∧
      self.runtime.height + self.rounds < 2 ^ 32 := by
  constructor
  · intro honce
    have hall : ∀ e ∈ self.mempool.pending, e ∈ dispatched (produceRounds orders self).log := by
      intro e he
      apply List.count_pos_iff.mp
      rw [honce e he]
      exact Nat.one_pos
    refine ⟨drainedInOrder_of_dispatched hpool hlimit hall, ?_, ?_⟩
    · intro e he
      exact nonce_ne_of_dispatched (hall e he)
    · exact height_lt_of_dispatched hpool hlimit hall
  · rintro ⟨horder, hmax, hheight⟩ e he
    rw [← hrounds] at hheight
    obtain ⟨-, hperm⟩ := rounds_dispatch_all hpool hlimit horder hmax orders hheight
    have hlen : self.mempool.pending.length ≤ orders.length * self.limit :=
      (rounds_le_iff hlimit).mp hrounds.ge
    rw [List.take_of_length_le hlen] at hperm
    rw [hperm.count_eq]
    exact List.count_eq_one_of_mem hpool.keys_nodup.of_map he

end Node

/-- Alice's payment of 1 to Bob with a given nonce. -/
def smallPayment (nonce : Types.Nonce) : Types.Extrinsic :=
  @UncheckedExtrinsic.newSigned _ _ .transparent AccountKeyring.alice.signingKey nonce
    (.balances (.transfer (@AccountKeyring.publicKey .transparent .bob) 1))

theorem verify_smallPayment (nonce : Types.Nonce) :
    @UncheckedExtrinsic.verify _ _ .transparent (smallPayment nonce) = .ok () := by
  let := Ed25519.transparent
  exact UncheckedExtrinsic.verify_newSigned rfl (fun _ => beq_self_eq_true _) nonce _

/-- A node right after genesis whose pool holds Alice's payments with these nonces, in this
order. -/
def paymentsNode (nonces : List Types.Nonce) : Node ℕ where
  id := 0
  peers := [0, 1]
  runtime := (@Runtime.maybeApplyGenesis .transparent (Runtime.new ∅)).state
  mempool := ⟨nonces.map smallPayment, none, some 3⟩

theorem paymentsNode_complete {nonces : List Types.Nonce}
    (h : (nonces.map BitVec.toNat).Perm (List.range' 0 nonces.length)) :
    @Node.Complete .transparent ℕ (paymentsNode nonces) := by
  let := Ed25519.transparent
  have hverify : ∀ e ∈ nonces.map smallPayment, e.verify = .ok () := by
    intro e he
    obtain ⟨nonce, -, rfl⟩ := List.mem_map.mp he
    exact verify_smallPayment nonce
  refine ⟨hverify, ?_⟩
  intro s
  change (Runtime.noncesOf s (nonces.map smallPayment)).Perm
    (List.range' 0 (Runtime.noncesOf s (nonces.map smallPayment)).length)
  by_cases hs : @AccountKeyring.publicKey .transparent .alice = s
  · have hall : (nonces.map smallPayment).filter (fun e => e.signer = s) =
        nonces.map smallPayment := by
      rw [List.filter_eq_self]
      intro e he
      obtain ⟨nonce, -, rfl⟩ := List.mem_map.mp he
      exact decide_eq_true hs
    rw [Runtime.noncesOf, hall, List.map_map, List.length_map]
    exact h
  · have hnone : (nonces.map smallPayment).filter (fun e => e.signer = s) = [] := by
      rw [List.filter_eq_nil_iff]
      intro e he
      obtain ⟨nonce, -, rfl⟩ := List.mem_map.mp he
      exact fun heq => hs (of_decide_eq_true heq)
    rw [Runtime.noncesOf, hnone]
    rfl

/-- Four payments in a mixed order that keeps each round's nonces below the next round's. -/
theorem every_pending_dispatched_paymentsNode :
    let node := paymentsNode [1, 2, 0, 3]
    node.rounds = 2 ∧ ∀ e ∈ node.mempool.pending, (Node.dispatched
      (@Node.produceRounds .transparent ℕ [.inserted, .inserted] node).log).count e = 1 := by
  have hpool := @paymentsNode_complete [1, 2, 0, 3] (by decide)
  have hnonces : ∀ i (hi : i < (paymentsNode [1, 2, 0, 3]).mempool.pending.length) j
      (hj : j < (paymentsNode [1, 2, 0, 3]).mempool.pending.length),
      nonceOf (paymentsNode [1, 2, 0, 3]).mempool.pending[j] <
        nonceOf (paymentsNode [1, 2, 0, 3]).mempool.pending[i] → j / 3 ≤ i / 3 := by
    decide +kernel
  exact ⟨rfl, (@Node.every_pending_dispatched_iff .transparent ℕ _ hpool (by decide)
    [.inserted, .inserted] rfl).mpr
      ⟨fun i hi j hj _ => hnonces i hi j hj, by decide +kernel, by decide +kernel⟩⟩

/-- The payment with nonce 0 arrives last: the first round drains the three others, selects none
of them, and they are gone. -/
theorem late_nonce_loses_payments :
    let node := paymentsNode [1, 2, 3, 0]
    @Node.Complete .transparent ℕ node ∧ 1 ≤ node.limit ∧ node.rounds = 2 ∧
      ¬ ∀ e ∈ node.mempool.pending, (Node.dispatched
        (@Node.produceRounds .transparent ℕ [.inserted, .inserted] node).log).count e = 1 := by
  refine ⟨paymentsNode_complete (by decide), by decide, by decide, ?_⟩
  intro honce
  have hlost : (Node.dispatched (@Node.produceRounds .transparent ℕ [.inserted, .inserted]
      (paymentsNode [1, 2, 3, 0])).log).count (smallPayment 1) = 0 := by decide +kernel
  have hkept := honce (smallPayment 1) List.mem_cons_self
  rw [hlost] at hkept
  cases hkept

end RustStateMachine
