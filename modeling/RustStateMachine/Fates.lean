import RustStateMachine.Branches
import RustStateMachine.Forgery

/-!
# What becomes of an extrinsic

An extrinsic that comes in stays on its way until it is refused by a full pool,
dropped by the selection, evicted after a peer block, put into a block of one's
own or lost to a panic of the task. Every step accounts for all of them, and
each fate has its reason.
-/

namespace RustStateMachine

open Lib Lib.KeyValue Lib.Runs Std Support

namespace Runtime

variable [Ed25519]

/-- Of a signer whose extrinsics continue its nonces, each is dispatched unless one that does not
come after it is badly signed. -/
theorem dispatched_or_forged_executeBlock {block : Types.Block} {rt : Runtime}
    (hnum : block.header.blockNumber.toNat = rt.height + 1)
    (hmax : ∀ e ∈ block.extrinsics, e.nonce ≠ BitVec.allOnes 32) {e : Types.Extrinsic}
    (he : e ∈ block.extrinsics) (hnonces : noncesOf e.signer block.extrinsics =
      List.range' (rt.system.nonce e.signer).toNat
        (noncesOf e.signer block.extrinsics).length) :
    e ∈ dispatches (executeBlock block rt).log ∨
      ∃ f ∈ block.extrinsics, f.signer = e.signer ∧ nonceOf f ≤ nonceOf e ∧
        f.verify ≠ .ok () := by
  by_cases hin : e ∈ dispatches (executeBlock block rt).log
  · exact .inl hin
  · have hlog := filter_dispatches_executeBlock hnum hmax hnonces
    have hmem : e ∈ block.extrinsics.filter fun f => f.signer = e.signer :=
      List.mem_filter.mpr ⟨he, decide_eq_true rfl⟩
    have hascending : (block.extrinsics.filter fun f => f.signer = e.signer).Pairwise
        fun f g => nonceOf f < nonceOf g := by
      have hrange : (noncesOf e.signer block.extrinsics).Pairwise (· < ·) := by
        rw [hnonces]
        exact List.pairwise_lt_range'
      exact List.pairwise_map.mp hrange
    have hlate : e ∉ (block.extrinsics.filter fun f => f.signer = e.signer).takeWhile
        fun f => f.verify = .ok () := by
      rw [← hlog]
      exact fun h => hin (List.mem_filter.mp h).1
    rw [mem_takeWhile_of_pairwise nonceOf hascending] at hlate
    right
    by_contra hgood
    push Not at hgood
    refine hlate ⟨hmem, decide_eq_true (hgood e he rfl le_rfl), fun f hf hlt => ?_⟩
    obtain ⟨hf, hsigner⟩ := List.mem_filter.mp hf
    exact decide_eq_true (hgood f hf (of_decide_eq_true hsigner) hlt.le)

end Runtime

/-- A candidate that is not selected does not come before one of its signer that does not carry the
nonce after those selected. -/
theorem exists_stop_of_dropped (order : HashOrder) (nonce : Types.AccountId → Types.Nonce)
    {candidates : List Types.Extrinsic} {e : Types.Extrinsic}
    (he : e ∈ candidates.diff (selected order nonce candidates)) :
    ∃ b ∈ candidates, b.signer = e.signer ∧ nonceOf b ≤ nonceOf e ∧
      nonceOf b ≠ (nonce e.signer).toNat +
        (Runtime.noncesOf e.signer (selected order nonce candidates)).length := by
  have hown : ∀ l : List Types.Extrinsic,
      (l.filter fun f => f.signer = e.signer).count e = l.count e :=
    fun l => List.count_filter (decide_eq_true rfl)
  have hsort := sortByNonce_perm (candidates.filter fun f => f.signer = e.signer)
  have hrun := selected_filter order nonce candidates e.signer
  have hcount : (takeRun nonceOf (nonce e.signer).toNat
      (sortByNonce (candidates.filter fun f => f.signer = e.signer))).count e <
        (sortByNonce (candidates.filter fun f => f.signer = e.signer)).count e := by
    have hpos := List.count_pos_iff.mpr he
    rw [List.count_diff] at hpos
    rw [← hrun, hsort.count_eq, hown, hown]
    omega
  obtain ⟨b, hb, hle, hne⟩ := exists_stop nonceOf (sortByNonce_sorted _) hcount
  have hmem := List.mem_filter.mp (hsort.subset hb)
  refine ⟨b, hmem.1, of_decide_eq_true hmem.2, hle, ?_⟩
  rw [Runtime.noncesOf, List.length_map, hrun]
  exact hne

/-- What became of an extrinsic that is no longer on its way. -/
inductive Fate where
  | refused
  | dropped
  | evicted
  | sealed
  | lost
deriving DecidableEq

namespace Process

variable {PeerId : Type}

/-- The extrinsics with a handler, on the channel, in the pool, or in the hands of the task. -/
def onTheWay (self : Process PeerId) : List Types.Extrinsic :=
  self.handlers ++ self.server.channel ++ self.server.node.mempool.pending ++ self.server.held

section Steps

variable [Ed25519]

/-- The extrinsics that a step takes off their way on purpose, with what becomes of them. -/
def Move.decides : Move PeerId → Process PeerId → List (Types.Extrinsic × Fate)
  | .receive, self =>
      match self.turn, self.server.task, self.server.channel with
      | .resting, .idle, ext :: _ =>
          match (self.server.node.mempool.submit ext).1 with
          | .ok () => []
          | .error _ => [(ext, .refused)]
      | _, _, _ => []
  | .select order, self =>
      match self.server.task with
      | .drained candidates =>
          match selectBatch order self.server.node.runtime.system.nonce candidates with
          | some batch => (candidates.diff batch).map fun e => (e, .dropped)
          | none => []
      | _ => []
  | .evict, self =>
      match self.server.task with
      | .applied included =>
          (self.server.node.mempool.pending.filter (Server.isIncluded included)).map
            fun e => (e, .evicted)
      | _ => []
  | .execute, self =>
      match self.server.task, self.server.execute.task with
      | .selected batch, .idle => batch.map fun e => (e, .sealed)
      | _, _ => []
  | _, _ => []

/-- What a step adds to the record of the lost. -/
def destroyed (self self' : Process PeerId) : List Types.Extrinsic :=
  self'.server.lost.drop self.server.lost.length

/-- The extrinsics that a step takes off their way, with what becomes of them. -/
def Move.fates [LinearOrder PeerId] (move : Move PeerId) (self : Process PeerId) :
    List (Types.Extrinsic × Fate) :=
  move.decides self ++ (destroyed self (next move self)).map fun e => (e, .lost)

/-- The fates of a whole run. -/
def fates [LinearOrder PeerId] : List (Move PeerId) → Process PeerId → List (Types.Extrinsic × Fate)
  | [], _ => []
  | move :: moves, self => move.fates self ++ fates moves (next move self)

/-! ## What a step loses -/

/-- The extrinsic a step sends to the task. -/
def Move.sent? : Move PeerId → Option Types.Extrinsic
  | .forward ext => some ext
  | .gossip topic data => (Move.gossip topic data : Move PeerId).ext?
  | _ => none

/-- What a step loses: nothing; what the task holds and what is on its channel, if it panics; or
what is sent to it after that. -/
inductive Loses (move : Move PeerId) (self self' : Process PeerId) : List Types.Extrinsic → Prop
  | nothing (hlost : self'.server.lost = self.server.lost) : Loses move self self' []
  | unwound (hrunning : ¬ self.server.task.Panicked) (hpanicked : self'.server.task.Panicked)
      (hlost : self'.server.lost = self.server.held ++ self.server.channel) :
      Loses move self self' (self.server.held ++ self.server.channel)
  | sent {e : Types.Extrinsic} (hpanicked : self.server.task.Panicked)
      (hsent : move.sent? = some e) (hlost : self'.server.lost = self.server.lost ++ [e]) :
      Loses move self self' [e]

omit [Ed25519] in
theorem Loses.destroyed_eq {move : Move PeerId} {self self' : Process PeerId}
    {es : List Types.Extrinsic} (h : Loses move self self' es) :
    destroyed self self' = es ∧ self'.server.lost = self.server.lost ++ es := by
  have hall : self'.server.lost = self.server.lost ++ es := by
    cases h with
    | nothing hlost => rw [hlost, List.append_nil]
    | unwound hrunning _ hlost => rw [hlost, Server.lost_of_running hrunning, List.nil_append]
    | sent _ _ hlost => exact hlost
  refine ⟨?_, hall⟩
  rw [destroyed, hall, List.drop_left]

omit [Ed25519] in
theorem loses_of_same {move : Move PeerId} {self self' : Process PeerId}
    (h : self'.server = self.server) : ∃ es, Loses move self self' es :=
  ⟨_, .nothing (congrArg Server.lost h)⟩

omit [Ed25519] in
/-- A step of the task that goes on or unwinds. -/
theorem loses_of_task {move : Move PeerId} {self self' : Process PeerId}
    (hrunning : ¬ self.server.task.Panicked)
    (h : ¬ self'.server.task.Panicked ∨ ∃ (server : Server PeerId) (hands : List Types.Extrinsic),
      self'.server = server.unwind hands ∧ self.server.held = hands ∧
        server.channel = self.server.channel) : ∃ es, Loses move self self' es := by
  rcases h with hdone | ⟨server, hands, hunwound, hheld, hchannel⟩
  · exact ⟨_, .nothing (by rw [Server.lost_of_running hdone, Server.lost_of_running hrunning])⟩
  · refine ⟨_, .unwound hrunning (by rw [hunwound]; trivial) ?_⟩
    rw [hunwound, Server.lost_unwind, hheld, hchannel]

omit [Ed25519] in
theorem loses_forward (ext : Types.Extrinsic) (self : Process PeerId) :
    ∃ es, Loses (.forward ext) self (self.forward ext) es := by
  rw [Process.forward]
  split_ifs
  · by_cases hpanicked : self.server.task.Panicked
    · refine ⟨_, .sent hpanicked rfl ?_⟩
      obtain ⟨hands, sent, htask⟩ := Task.panicked_iff.mp hpanicked
      simp only [Server.send, Server.lost, htask, List.append_assoc]
    · refine loses_of_task hpanicked (.inl ?_)
      exact mt Server.send_panicked_iff.mp hpanicked
  · exact loses_of_same rfl

omit [Ed25519] in
theorem loses_gossip (topic : String) (data : Bytes) (self : Process PeerId) :
    ∃ es, Loses (.gossip topic data) self (self.gossip topic data) es := by
  by_cases hpanicked : self.server.task.Panicked
  · obtain ⟨hands, sent, htask⟩ := Task.panicked_iff.mp hpanicked
    have hserver := (gossip_of_panicked htask topic data).1
    cases hext : (Move.gossip topic data : Move PeerId).ext? with
    | none =>
        refine ⟨_, .nothing ?_⟩
        rw [hserver, hext]
        simp only [Server.lost, htask, Option.toList_none, List.append_nil]
    | some ext =>
        refine ⟨_, .sent hpanicked hext ?_⟩
        rw [hserver, hext]
        simp only [Server.lost, htask, Option.toList_some, List.append_assoc]
  · refine loses_of_task hpanicked (.inl ?_)
    rw [(gossip_of_running hpanicked topic data).1]
    exact hpanicked

theorem loses_apply (self : Process PeerId) : ∃ es, Loses .apply self self.apply es := by
  rw [Process.apply]
  split
  · rename_i block blocks hturn htask hblocks
    have hrunning := Task.not_panicked_of_eq htask id
    have hheld : self.server.held = [] := by rw [Server.held, htask]
    obtain ⟨rt, happly | happly | happly⟩ := Server.apply_cases htask block
    · exact loses_of_task hrunning (.inl (by rw [withServer, happly]; exact id))
    · exact loses_of_task hrunning (.inl (by rw [withServer, happly]; exact hrunning))
    · exact loses_of_task hrunning (.inr ⟨_, _, happly, hheld, rfl⟩)
  · exact loses_of_same rfl

omit [Ed25519] in
theorem loses_select (order : HashOrder) (self : Process PeerId) :
    ∃ es, Loses (.select order) self (self.withServer (self.server.select order)) es := by
  by_cases htask : ∃ candidates, self.server.task = .drained candidates
  · obtain ⟨candidates, htask⟩ := htask
    have hrunning : ¬ self.server.task.Panicked :=
      Task.not_panicked_of_eq htask id
    have hheld : self.server.held = candidates := by rw [Server.held, htask]
    by_cases hmax : ∀ tx ∈ RustStateMachine.selected order
        self.server.node.runtime.system.nonce candidates, tx.nonce ≠ BitVec.allOnes 32
    · exact loses_of_task hrunning (.inl (by rw [Server.select_of_fits order htask hmax]; exact id))
    · exact loses_of_task hrunning
        (.inr ⟨_, _, Server.select_of_overflow order htask hmax, hheld, rfl⟩)
  · exact loses_of_same (Server.select_of_not_drained order htask)

theorem loses_execute (self : Process PeerId) : ∃ es, Loses .execute self self.execute es := by
  by_cases htask : ∃ batch, self.server.task = .selected batch
  · obtain ⟨batch, htask⟩ := htask
    have hrunning : ¬ self.server.task.Panicked :=
      Task.not_panicked_of_eq htask id
    have hheld : self.server.held = batch := by rw [Server.held, htask]
    have hserver := (execute_of_selected htask).1
    obtain ⟨rt, hexecute | hexecute⟩ := Server.execute_cases htask
    · exact loses_of_task hrunning (.inl (by rw [hserver, hexecute]; exact id))
    · exact loses_of_task hrunning (.inr ⟨_, _, hserver.trans hexecute, hheld, rfl⟩)
  · rw [execute_of_not_selected htask]
    exact loses_of_same rfl

omit [Ed25519] in
theorem loses_checkSlot [DecidableEq PeerId] (slot : ℕ) {self : Process PeerId}
    (h : self.turn ≠ .resting → self.server.task = .idle) :
    ∃ es, Loses (.checkSlot slot) self (self.checkSlot slot) es := by
  rw [Process.checkSlot]
  split
  · rename_i hticking
    have htask := h (by rw [hticking]; exact Turn.noConfusion)
    have hheld : self.server.held = [] := by rw [Server.held, htask]
    split
    · exact loses_of_same rfl
    · exact loses_of_same rfl
    · exact loses_of_task (Task.not_panicked_of_eq htask id) (.inr ⟨_, _, rfl, hheld, rfl⟩)
  · exact loses_of_same rfl

/-- Every step loses what it must and nothing else. -/
theorem loses_next [LinearOrder PeerId] (move : Move PeerId) {self : Process PeerId}
    (h : self.turn ≠ .resting → self.server.task = .idle) :
    ∃ es, Loses move self (next move self) es := by
  cases move with
  | post raw =>
      rw [next, Process.post]
      split
      · exact loses_of_same rfl
      · exact loses_of_same rfl
  | forward ext => exact loses_forward ext self
  | gossip topic data => exact loses_gossip topic data self
  | connection e => exact ⟨_, .nothing rfl⟩
  | publish accepted =>
      rw [next, Process.publish]
      split
      · exact loses_of_same rfl
      · split_ifs
        · exact loses_of_same rfl
        · exact loses_of_same rfl
  | receive =>
      rw [next, unlessTicking]
      split
      · exact ⟨_, .nothing self.server.lost_receive⟩
      · exact loses_of_same rfl
  | apply => exact loses_apply self
  | evict => exact ⟨_, .nothing self.server.lost_evict⟩
  | tick =>
      rw [next, Process.tick]
      split
      · split_ifs
        · exact loses_of_same rfl
        · exact loses_of_same rfl
      · exact loses_of_same rfl
  | checkSlot slot => exact loses_checkSlot slot h
  | drain =>
      rw [next, Process.drain]
      split
      · exact ⟨_, .nothing self.server.lost_drain⟩
      · exact loses_of_same rfl
  | select order => exact loses_select order self
  | execute => exact loses_execute self

/-! ## What a step accounts for -/

/-- What was on its way, was lost or comes in is on its way or lost afterwards, or has met its
fate. -/
def Accounts (move : Move PeerId) (self self' : Process PeerId) : Prop :=
  (self.onTheWay ++ self.server.lost ++ move.ext?.toList).Perm
    (self'.onTheWay ++ self'.server.lost ++ (move.decides self).map Prod.fst)

theorem accounts_of_count {move : Move PeerId} {self self' : Process PeerId}
    (h : ∀ e, self.handlers.count e + self.server.channel.count e +
      self.server.node.mempool.pending.count e + self.server.held.count e +
        self.server.lost.count e + move.ext?.toList.count e =
      self'.handlers.count e + self'.server.channel.count e +
        self'.server.node.mempool.pending.count e + self'.server.held.count e +
          self'.server.lost.count e + ((move.decides self).map Prod.fst).count e) :
    Accounts move self self' := by
  rw [Accounts, List.perm_iff_count]
  intro e
  simp only [onTheWay, List.count_append]
  exact h e

/-- A step that moves nothing. -/
theorem accounts_of_same {move : Move PeerId} {self self' : Process PeerId}
    (hext : move.ext? = none) (hfates : move.decides self = [])
    (hhandlers : self'.handlers = self.handlers) (hserver : self'.server = self.server) :
    Accounts move self self' := by
  apply accounts_of_count
  intro e
  rw [hext, hfates, hhandlers, hserver]
  rfl

theorem accounts_post (raw : Bytes) (self : Process PeerId) :
    Accounts (.post raw) self (self.post raw) := by
  apply accounts_of_count
  intro e
  rw [Process.post, Move.ext?]
  cases (decode raw : Option (Types.Extrinsic × Bytes)) with
  | none => rfl
  | some read =>
      simp only [Option.map_some, Option.toList_some, List.count_append, Move.decides,
        List.map_nil, List.count_nil]
      omega

theorem accounts_forward (ext : Types.Extrinsic) (self : Process PeerId) :
    Accounts (.forward ext) self (self.forward ext) := by
  rw [Process.forward]
  split_ifs with hmem
  · apply accounts_of_count
    intro e
    have hhandlers := (List.perm_cons_erase hmem).count_eq e
    have hsent := Server.count_send ext e self.server
    rw [List.count_cons] at hhandlers
    rw [List.count_singleton] at hsent
    simp only [Server.send_node, Server.held_send, Move.ext?, Option.toList_none, Move.decides,
      List.map_nil, List.count_nil]
    omega
  · exact accounts_of_same rfl rfl rfl rfl

theorem accounts_gossip (topic : String) (data : Bytes) (self : Process PeerId) :
    Accounts (.gossip topic data) self (self.gossip topic data) := by
  apply accounts_of_count
  intro e
  rw [gossip_handlers]
  by_cases hpanicked : self.server.task.Panicked
  · obtain ⟨hands, sent, htask⟩ := Task.panicked_iff.mp hpanicked
    rw [(gossip_of_panicked htask topic data).1]
    simp only [Server.held, Server.lost, htask, List.count_append, Move.decides, List.map_nil,
      List.count_nil]
    omega
  · have hserver := (gossip_of_running hpanicked topic data).1
    have hrunning : ¬ (self.gossip topic data).server.task.Panicked := by
      rw [hserver]
      exact hpanicked
    rw [Server.lost_of_running hpanicked, Server.lost_of_running hrunning, hserver]
    simp only [Server.held, List.count_append, Move.decides, List.map_nil, List.count_nil]
    omega

omit [Ed25519] in
/-- A full pool refuses an extrinsic, another one takes it in at the back. -/
theorem submit_cases (pool : Types.Mempool) (ext : Types.Extrinsic) :
    ((pool.submit ext).1 = .ok () ∧ (pool.submit ext).2.pending = pool.pending ++ [ext]) ∨
      ((pool.submit ext).1 = .error .mempoolFull ∧ (pool.submit ext).2 = pool ∧
        ∃ max, pool.maxCapacity = some max ∧ max ≤ pool.pending.length) := by
  rw [Mempool.submit]
  split
  · rename_i max hmax
    split_ifs with hfull
    · exact .inr ⟨rfl, rfl, max, hmax, hfull⟩
    · exact .inl ⟨rfl, rfl⟩
  · exact .inl ⟨rfl, rfl⟩

theorem accounts_receive (self : Process PeerId) :
    Accounts .receive self (self.unlessTicking Server.receive) := by
  cases hturn : self.turn with
  | resting =>
      cases htask : self.server.task with
      | idle =>
          cases hchannel : self.server.channel with
          | nil =>
              apply accounts_of_same rfl
              all_goals simp [Move.decides, Process.unlessTicking, Server.receive, hturn, htask,
                hchannel]
          | cons ext channel =>
              apply accounts_of_count
              intro e
              rcases submit_cases self.server.node.mempool ext with ⟨hok, hpending⟩ |
                ⟨hfull, hpool, -⟩
              · simp [Move.decides, Process.unlessTicking, Server.receive, hturn, htask, hchannel,
                  Node.receiveExtrinsic, hok, hpending, Server.held, Server.lost, Move.ext?,
                  List.count_cons]
                omega
              · simp [Move.decides, Process.unlessTicking, Server.receive, hturn, htask, hchannel,
                  Node.receiveExtrinsic, hfull, hpool, Server.held, Server.lost, Move.ext?,
                  List.count_cons]
                omega
      | _ =>
          apply accounts_of_same rfl
          all_goals simp [Move.decides, Process.unlessTicking, Server.receive, hturn, htask]
  | _ =>
      apply accounts_of_same rfl
      all_goals simp [Move.decides, Process.unlessTicking, hturn]

theorem accounts_drain {self : Process PeerId}
    (h : self.turn ≠ .resting → self.server.task = .idle) : Accounts .drain self self.drain := by
  rw [Process.drain]
  split
  · rename_i hauthor
    have htask := h (by rw [hauthor]; exact Turn.noConfusion)
    apply accounts_of_count
    intro e
    have hsplit := congrArg (List.count e)
      (List.take_append_drop self.server.node.limit self.server.node.mempool.pending)
    rw [List.count_append] at hsplit
    simp only [Server.drain_of_idle htask, Server.held, Server.lost, htask, Node.candidates,
      Node.drained, Move.ext?, Option.toList_none, Move.decides, List.map_nil, List.count_nil]
    omega
  · exact accounts_of_same rfl rfl rfl rfl

/-- A step that unwinds the task. -/
theorem accounts_of_unwound {move : Move PeerId} {self self' : Process PeerId}
    {server : Server PeerId} {hands : List Types.Extrinsic} (hext : move.ext? = none)
    (hfates : move.decides self = []) (hhandlers : self'.handlers = self.handlers)
    (hrunning : ¬ self.server.task.Panicked) (hunwound : self'.server = server.unwind hands)
    (hheld : self.server.held = hands) (hchannel : server.channel = self.server.channel)
    (hpool : server.node.mempool = self.server.node.mempool) : Accounts move self self' := by
  apply accounts_of_count
  intro e
  have hlost : self'.server.lost = self.server.held ++ self.server.channel := by
    rw [hunwound, Server.lost_unwind, hheld, hchannel]
  rw [hext, hfates, hhandlers, hlost, Server.lost_of_running hrunning, hunwound]
  simp only [Server.unwind, Server.held, hpool, List.count_append, Option.toList_none,
    List.map_nil, List.count_nil]
  omega

theorem accounts_select (order : HashOrder) (self : Process PeerId) :
    Accounts (.select order) self (self.withServer (self.server.select order)) := by
  by_cases htask : ∃ candidates, self.server.task = .drained candidates
  · obtain ⟨candidates, htask⟩ := htask
    have hselect := selectBatch_eq order self.server.node.runtime.system.nonce candidates
    by_cases hmax : ∀ tx ∈ RustStateMachine.selected order
        self.server.node.runtime.system.nonce candidates, tx.nonce ≠ BitVec.allOnes 32
    · apply accounts_of_count
      intro e
      have hsub := (selected_subperm order self.server.node.runtime.system.nonce
        candidates).count_le e
      rw [Server.select_of_fits order htask hmax]
      simp only [withServer, Move.decides, htask, hselect, if_pos hmax, Server.held, Server.lost,
        Move.ext?, Option.toList_none, List.map_map, Function.comp_def, List.map_id',
        List.count_diff, List.count_nil]
      omega
    · refine accounts_of_unwound rfl ?_ rfl (Task.not_panicked_of_eq htask id)
        (Server.select_of_overflow order htask hmax) ?_ rfl rfl
      · simp only [Move.decides, htask, hselect, if_neg hmax]
      · rw [Server.held, htask]
  · refine accounts_of_same rfl ?_ rfl (Server.select_of_not_drained order htask)
    rw [Move.decides]
    split
    · rename_i candidates hdrained
      exact absurd ⟨candidates, hdrained⟩ htask
    · rfl

theorem accounts_evict (self : Process PeerId) :
    Accounts .evict self { self with server := self.server.evict } := by
  cases htask : self.server.task with
  | applied included =>
      apply accounts_of_count
      intro e
      have hsplit := (List.filter_append_perm (Server.isIncluded included)
        self.server.node.mempool.pending).count_eq e
      rw [List.count_append] at hsplit
      simp only [Move.decides, Server.evict, htask, Server.held, Server.lost, Move.ext?,
        Option.toList_none, List.map_map, Function.comp_def, List.map_id', Mempool.retain,
        List.count_nil]
      omega
  | _ =>
      apply accounts_of_same rfl
      all_goals simp [Move.decides, Server.evict, htask]

theorem accounts_execute (self : Process PeerId) : Accounts .execute self self.execute := by
  by_cases htask : ∃ batch, self.server.task = .selected batch
  · obtain ⟨batch, htask⟩ := htask
    obtain ⟨hserver, -, hhandlers, -⟩ := execute_of_selected htask
    obtain ⟨rt, hexecute | hexecute⟩ := Server.execute_cases htask
    · apply accounts_of_count
      intro e
      rw [hserver, hhandlers, Move.decides, hexecute, htask]
      simp only [Server.held, Server.lost, htask, Move.ext?, Option.toList_none, List.map_map,
        Function.comp_def, List.map_id', List.count_nil]
      omega
    · refine accounts_of_unwound rfl ?_ hhandlers (Task.not_panicked_of_eq htask id)
        (hserver.trans hexecute) ?_ rfl rfl
      · rw [Move.decides, hexecute, htask]
        rfl
      · rw [Server.held, htask]
  · rw [execute_of_not_selected htask]
    refine accounts_of_same rfl ?_ rfl rfl
    rw [Move.decides]
    split
    · rename_i batch hselected _
      exact absurd ⟨batch, hselected⟩ htask
    · rfl

theorem accounts_apply (self : Process PeerId) : Accounts .apply self self.apply := by
  rw [Process.apply]
  split
  · rename_i block blocks hturn htask hblocks
    have hheld : self.server.held = [] := by rw [Server.held, htask]
    obtain ⟨rt, happly | happly | happly⟩ := Server.apply_cases htask block
    · apply accounts_of_count
      intro e
      simp only [withServer, happly, Server.held, Server.lost, htask, Move.decides, Move.ext?]
      rfl
    · apply accounts_of_count
      intro e
      simp only [withServer, happly, Server.held, Server.lost, htask, Move.decides, Move.ext?]
      rfl
    · exact accounts_of_unwound rfl rfl rfl (Task.not_panicked_of_eq htask id) happly hheld rfl rfl
  · exact accounts_of_same rfl rfl rfl rfl

theorem accounts_checkSlot [DecidableEq PeerId] (slot : ℕ) {self : Process PeerId}
    (h : self.turn ≠ .resting → self.server.task = .idle) :
    Accounts (.checkSlot slot) self (self.checkSlot slot) := by
  rw [Process.checkSlot]
  split
  · rename_i hticking
    have htask := h (by rw [hticking]; exact Turn.noConfusion)
    have hheld : self.server.held = [] := by rw [Server.held, htask]
    split
    · exact accounts_of_same rfl rfl rfl rfl
    · exact accounts_of_same rfl rfl rfl rfl
    · exact accounts_of_unwound rfl rfl rfl (Task.not_panicked_of_eq htask id) rfl hheld rfl rfl
  · exact accounts_of_same rfl rfl rfl rfl

/-- Every step accounts for what was on its way, was lost or comes in. -/
theorem accounts_next [LinearOrder PeerId] (move : Move PeerId) {self : Process PeerId}
    (h : self.turn ≠ .resting → self.server.task = .idle) :
    Accounts move self (next move self) := by
  cases move with
  | post raw => exact accounts_post raw self
  | forward ext => exact accounts_forward ext self
  | gossip topic data => exact accounts_gossip topic data self
  | connection e =>
      apply accounts_of_count
      cases e <;> exact fun _ => rfl
  | publish accepted =>
      rw [next, Process.publish]
      split
      · exact accounts_of_same rfl rfl rfl rfl
      · split_ifs
        · exact accounts_of_same rfl rfl rfl rfl
        · exact accounts_of_same rfl rfl rfl rfl
  | receive => exact accounts_receive self
  | apply => exact accounts_apply self
  | evict => exact accounts_evict self
  | tick =>
      rw [next, Process.tick]
      split
      · split_ifs
        · exact accounts_of_same rfl rfl rfl rfl
        · exact accounts_of_same rfl rfl rfl rfl
      · exact accounts_of_same rfl rfl rfl rfl
  | checkSlot slot => exact accounts_checkSlot slot h
  | drain => exact accounts_drain h
  | select order => exact accounts_select order self
  | execute => exact accounts_execute self

/-! ## Reasons -/

/-- Where the blocks of the task come from, and what a selected batch is like. -/
structure Sound (moves : List (Move PeerId)) (p : Process PeerId) : Prop where
  turn : p.turn ≠ .resting → p.server.task = .idle
  blocks : ∀ block ∈ p.blocks, block ∈ moves.filterMap Move.block?
  applied : ∀ included, p.server.task = .applied included →
    ∃ block ∈ moves.filterMap Move.block?,
      included = block.extrinsics.map fun e => (e.signer, e.nonce)
  selected : ∀ batch, p.server.task = .selected batch →
    (∀ tx ∈ batch, tx.nonce ≠ BitVec.allOnes 32) ∧ ∀ a, Runtime.noncesOf a batch =
      List.range' (p.server.node.runtime.system.nonce a).toNat (Runtime.noncesOf a batch).length

omit [Ed25519] in
theorem withServer_blocks_subset (server : Server PeerId) (p : Process PeerId) :
    (p.withServer server).blocks ⊆ p.blocks := by
  rw [withServer]
  dsimp only
  split_ifs
  · exact List.nil_subset _
  · exact List.Subset.refl _

namespace Sound

variable {moves : List (Move PeerId)} {p p' : Process PeerId}

omit [Ed25519] in
theorem mem_blocks (h : Sound moves p) (move : Move PeerId) {block : Types.Block}
    (hblock : block ∈ p.blocks ++ move.block?.toList) :
    block ∈ (moves ++ [move]).filterMap Move.block? := by
  rw [Trace.filterMap_concat]
  rcases List.mem_append.mp hblock with hblock | hblock
  · exact List.mem_append_left _ (h.blocks block hblock)
  · exact List.mem_append_right _ hblock

omit [Ed25519] in
/-- A step that leaves the task and the runtime alone. -/
theorem congr (h : Sound moves p) (move : Move PeerId)
    (hturn : p'.turn ≠ .resting → p'.server.task = .idle)
    (htask : p'.server.task = p.server.task)
    (hruntime : p'.server.node.runtime = p.server.node.runtime)
    (hblocks : p'.blocks ⊆ p.blocks ++ move.block?.toList) : Sound (moves ++ [move]) p' := by
  refine ⟨hturn, fun block hblock => h.mem_blocks move (hblocks hblock), ?_, ?_⟩
  · intro included hincluded
    rw [htask] at hincluded
    obtain ⟨block, hblock, heq⟩ := h.applied included hincluded
    refine ⟨block, ?_, heq⟩
    rw [Trace.filterMap_concat]
    exact List.mem_append_left _ hblock
  · intro batch hbatch
    rw [htask] at hbatch
    rw [hruntime]
    exact h.selected batch hbatch

omit [Ed25519] in
theorem of_same (h : Sound moves p) (move : Move PeerId) (hserver : p'.server = p.server)
    (hturn : p'.turn = p.turn) (hblocks : p'.blocks ⊆ p.blocks) : Sound (moves ++ [move]) p' := by
  refine h.congr move ?_ (by rw [hserver]) (by rw [hserver])
    (List.subset_append_of_subset_left _ hblocks)
  rw [hturn, hserver]
  exact h.turn

omit [Ed25519] in
/-- A step that leaves the task neither a batch to execute nor a list to evict. -/
theorem rest (h : Sound moves p) (move : Move PeerId)
    (hturn : p'.turn ≠ .resting → p'.server.task = .idle)
    (hrest : p'.server.task = .idle ∨ (∃ candidates, p'.server.task = .drained candidates) ∨
      p'.server.task.Panicked)
    (hblocks : p'.blocks ⊆ p.blocks) : Sound (moves ++ [move]) p' := by
  have hall (block : Types.Block) (hblock : block ∈ p'.blocks) :=
    h.mem_blocks move (List.mem_append_left _ (hblocks hblock))
  refine ⟨hturn, hall, fun included hin => ?_, fun batch hin => ?_⟩
  · rw [hin] at hrest
    rcases hrest with htask | ⟨candidates, htask⟩ | hpanicked
    · cases htask
    · cases htask
    · exact hpanicked.elim
  · rw [hin] at hrest
    rcases hrest with htask | ⟨candidates, htask⟩ | hpanicked
    · cases htask
    · cases htask
    · exact hpanicked.elim

omit [Ed25519] in
theorem resting (h : Sound moves p) (htask : p.server.task ≠ .idle) : p.turn = .resting := by
  by_contra hne
  exact htask (h.turn hne)

omit [Ed25519] in
theorem forward (h : Sound moves p) (ext : Types.Extrinsic) :
    Sound (moves ++ [.forward ext]) (p.forward ext) := by
  rw [Process.forward]
  split_ifs
  · by_cases hpanicked : p.server.task.Panicked
    · have hresting := h.resting (by rintro hidle; rw [hidle] at hpanicked; exact hpanicked)
      exact h.rest _ (absurd hresting) (.inr (.inr (Server.send_panicked_iff.mpr hpanicked)))
        (List.Subset.refl _)
    · rw [Server.send_of_running hpanicked]
      exact h.congr _ h.turn rfl rfl (List.subset_append_left _ _)
  · exact h.of_same _ rfl rfl (List.Subset.refl _)

omit [Ed25519] in
theorem gossip (h : Sound moves p) (topic : String) (data : Bytes) :
    Sound (moves ++ [.gossip topic data]) (p.gossip topic data) := by
  have hturn : (p.gossip topic data).turn = p.turn := by
    rw [Process.gossip]
    split <;> rfl
  by_cases hpanicked : p.server.task.Panicked
  · obtain ⟨hands, sent, htask⟩ := Task.panicked_iff.mp hpanicked
    obtain ⟨hserver, hblocks⟩ := gossip_of_panicked htask topic data
    have hresting := h.resting (by rw [htask]; exact Task.noConfusion)
    refine h.rest _ (absurd (hturn.trans hresting)) (.inr (.inr ?_)) (hblocks ▸ List.Subset.refl _)
    rw [hserver]
    trivial
  · obtain ⟨hserver, hblocks⟩ := gossip_of_running hpanicked topic data
    refine h.congr _ ?_ ?_ ?_ (hblocks ▸ List.Subset.refl _)
    · rw [hturn, hserver]
      exact h.turn
    · rw [hserver]
    · rw [hserver]

omit [Ed25519] in
theorem receive (h : Sound moves p) :
    Sound (moves ++ [.receive]) (p.unlessTicking Server.receive) := by
  rw [unlessTicking]
  split
  · rename_i hresting
    refine h.congr _ (absurd hresting) ?_ (Server.receive_runtime _) (List.subset_append_left _ _)
    dsimp only
    rw [Server.receive]
    split <;> rfl
  · exact h.of_same _ rfl rfl (List.Subset.refl _)

theorem apply (h : Sound moves p) : Sound (moves ++ [.apply]) p.apply := by
  rw [Process.apply]
  split
  · rename_i block blocks hturn htask hblocks
    have hkept : ∀ s : Server PeerId, ({ p with blocks }.withServer s).blocks ⊆ p.blocks :=
      fun s => List.Subset.trans (withServer_blocks_subset s _)
        (hblocks ▸ List.subset_cons_self block blocks)
    obtain ⟨rt, happly | happly | happly⟩ := Server.apply_cases htask block
    · have happlied : (p.server.apply block).task =
          .applied (block.extrinsics.map fun e => (e.signer, e.nonce)) := by rw [happly]
      have hmem : block ∈ p.blocks ++ (Move.apply : Move PeerId).block?.toList :=
        List.mem_append_left _ (hblocks ▸ List.mem_cons_self)
      refine ⟨absurd hturn, ?_, ?_, ?_⟩
      · exact fun b hb => h.mem_blocks _ (List.mem_append_left _ (hkept _ hb))
      · exact fun included hin =>
          ⟨block, h.mem_blocks _ hmem, Task.applied.inj (hin.symm.trans happlied)⟩
      · intro batch hin
        cases hin.symm.trans happlied
    · exact h.rest _ (absurd hturn) (.inl (by rw [withServer, happly, htask])) (hkept _)
    · exact h.rest _ (absurd hturn) (.inr (.inr (by rw [withServer, happly]; trivial))) (hkept _)
  · exact h.of_same _ rfl rfl (List.Subset.refl _)

omit [Ed25519] in
theorem evict (h : Sound moves p) :
    Sound (moves ++ [.evict]) { p with server := p.server.evict } := by
  by_cases htask : ∃ included, p.server.task = .applied included
  · obtain ⟨included, htask⟩ := htask
    have hidle : p.server.evict.task = .idle := by rw [Server.evict, htask]
    exact h.rest _ (fun _ => hidle) (.inl hidle) (List.Subset.refl _)
  · rw [Server.evict_of_not_applied htask]
    exact h.of_same _ rfl rfl (List.Subset.refl _)

omit [Ed25519] in
theorem tick (h : Sound moves p) : Sound (moves ++ [.tick]) p.tick := by
  rw [Process.tick]
  split
  · rename_i _ htask
    split_ifs
    · exact h.congr _ (fun _ => htask) rfl rfl (List.subset_append_left _ _)
    · exact h.of_same _ rfl rfl (List.Subset.refl _)
  · exact h.of_same _ rfl rfl (List.Subset.refl _)

omit [Ed25519] in
theorem checkSlot [DecidableEq PeerId] (h : Sound moves p) (slot : ℕ) :
    Sound (moves ++ [.checkSlot slot]) (p.checkSlot slot) := by
  rw [Process.checkSlot]
  split
  · rename_i hticking
    have htask := h.turn (by rw [hticking]; exact Turn.noConfusion)
    split
    · exact h.congr _ (fun _ => htask) rfl rfl (List.subset_append_left _ _)
    · exact h.congr _ (absurd rfl) rfl rfl (List.subset_append_left _ _)
    · exact h.rest _ (absurd rfl) (.inr (.inr trivial))
        (withServer_blocks_subset (p.server.unwind []) p)
  · exact h.of_same _ rfl rfl (List.Subset.refl _)

omit [Ed25519] in
theorem drain (h : Sound moves p) : Sound (moves ++ [.drain]) p.drain := by
  rw [Process.drain]
  split
  · rename_i hauthor
    have htask := h.turn (by rw [hauthor]; exact Turn.noConfusion)
    have hdrained : p.server.drain.task = .drained p.server.node.candidates := by
      rw [Server.drain_of_idle htask]
    exact h.rest _ (absurd rfl) (.inr (.inl ⟨_, hdrained⟩)) (List.Subset.refl _)
  · exact h.of_same _ rfl rfl (List.Subset.refl _)

omit [Ed25519] in
theorem select (h : Sound moves p) (order : HashOrder) :
    Sound (moves ++ [.select order]) (p.withServer (p.server.select order)) := by
  have hkept := withServer_blocks_subset (p.server.select order) p
  by_cases htask : ∃ candidates, p.server.task = .drained candidates
  · obtain ⟨candidates, htask⟩ := htask
    have hresting := h.resting (by rw [htask]; exact Task.noConfusion)
    by_cases hmax : ∀ tx ∈ RustStateMachine.selected order
        p.server.node.runtime.system.nonce candidates, tx.nonce ≠ BitVec.allOnes 32
    · have hselected := Server.select_of_fits order htask hmax
      refine ⟨absurd hresting, ?_, ?_, ?_⟩
      · exact fun b hb => h.mem_blocks _ (List.mem_append_left _ (hkept hb))
      · intro included hin
        rw [withServer, hselected] at hin
        cases hin
      · intro batch hin
        rw [withServer, hselected] at hin ⊢
        cases hin
        exact ⟨hmax, noncesOf_selected order _ candidates⟩
    · refine h.rest _ (absurd hresting) (.inr (.inr ?_)) hkept
      rw [withServer, Server.select_of_overflow order htask hmax]
      trivial
  · exact h.of_same _ (Server.select_of_not_drained order htask) rfl hkept

theorem execute (h : Sound moves p) : Sound (moves ++ [.execute]) p.execute := by
  by_cases htask : ∃ batch, p.server.task = .selected batch
  · obtain ⟨batch, htask⟩ := htask
    have hresting := h.resting (by rw [htask]; exact Task.noConfusion)
    obtain ⟨hserver, hturn, -, hblocks⟩ := execute_of_selected htask
    refine h.rest _ (absurd (hturn.trans hresting)) ?_
      (hblocks ▸ withServer_blocks_subset p.server.execute p)
    obtain ⟨rt, hexecute | hexecute⟩ := Server.execute_cases htask
    · exact .inl (by rw [hserver, hexecute])
    · exact .inr (.inr (by rw [hserver, hexecute]; trivial))
  · rw [execute_of_not_selected htask]
    exact h.of_same _ rfl rfl (List.Subset.refl _)

theorem next [LinearOrder PeerId] (h : Sound moves p) (move : Move PeerId) :
    Sound (moves ++ [move]) (Process.next move p) := by
  cases move with
  | post raw =>
      rw [Process.next, Process.post]
      split
      · exact h.of_same _ rfl rfl (List.Subset.refl _)
      · exact h.of_same _ rfl rfl (List.Subset.refl _)
  | forward ext => exact h.forward ext
  | gossip topic data => exact h.gossip topic data
  | connection e => cases e <;> exact h.congr _ h.turn rfl rfl (List.subset_append_left _ _)
  | publish accepted =>
      rw [Process.next, Process.publish]
      split
      · exact h.of_same _ rfl rfl (List.Subset.refl _)
      · split_ifs
        · exact h.of_same _ rfl rfl (List.Subset.refl _)
        · exact h.of_same _ rfl rfl (List.Subset.refl _)
  | receive => exact h.receive
  | apply => exact h.apply
  | evict => exact h.evict
  | tick => exact h.tick
  | checkSlot slot => exact h.checkSlot slot
  | drain => exact h.drain
  | select order => exact h.select order
  | execute => exact h.execute

end Sound

/-- Why a step from one state to the next lets an extrinsic meet its fate, after the moves before
it: the pool was full; a candidate of the signer that does not come after it does not carry the
nonce after those selected; a block that came in lists it; a block of one's own contains it, which
dispatches it unless one of the signer's that does not come after it is badly signed; or the task
panics with it in its hands or on its channel, or has panicked before it is sent. -/
def Reason (moves : List (Move PeerId)) (move : Move PeerId) (p p' : Process PeerId)
    (e : Types.Extrinsic) : Fate → Prop
  | .refused => ∃ max, p.server.node.mempool.maxCapacity = some max ∧
      max ≤ p.server.node.mempool.pending.length
  | .dropped => ∃ candidates batch, p.server.task = .drained candidates ∧
      p'.server.task = .selected batch ∧ ∃ b ∈ candidates, b.signer = e.signer ∧
        nonceOf b ≤ nonceOf e ∧ nonceOf b ≠
          (p.server.node.runtime.system.nonce e.signer).toNat +
            (Runtime.noncesOf e.signer batch).length
  | .evicted => ∃ block ∈ moves.filterMap Move.block?, Listed block e
  | .sealed => ∃ block : Types.Block, e ∈ block.extrinsics ∧
      ⟨blockTopic, encode block⟩ ∈ p'.requests ∧
      (e ∈ dispatches (Runtime.executeBlock block p.server.node.runtime).log ∨
        ∃ f ∈ block.extrinsics, f.signer = e.signer ∧ nonceOf f ≤ nonceOf e ∧
          f.verify ≠ .ok ())
  | .lost => p'.server.task.Panicked ∧
      if p.server.task.Panicked then move.sent? = some e
      else e ∈ p.server.held ++ p.server.channel

omit [Ed25519] in
theorem listed_of_isIncluded {block : Types.Block} {e : Types.Extrinsic}
    (h : Server.isIncluded (block.extrinsics.map fun e => (e.signer, e.nonce)) e = true) :
    Listed block e := by
  rw [Server.isIncluded, List.any_map, List.any_eq_true] at h
  obtain ⟨f, hf, heq⟩ := h
  simp only [Function.comp_apply, Bool.and_eq_true, decide_eq_true_eq] at heq
  exact ⟨f, hf, heq.1, heq.2⟩

/-- A batch that was executed without a panic was executed as the next block, which waits for its
publication. -/
theorem execute_of_idle {p : Process PeerId} {batch : List Types.Extrinsic}
    (htask : p.server.task = .selected batch) (hidle : p.server.execute.task = .idle)
    (hmax : ∀ tx ∈ batch, tx.nonce ≠ BitVec.allOnes 32) :
    ∃ block : Types.Block, block.extrinsics = batch ∧
      block.header.blockNumber.toNat = p.server.node.runtime.height + 1 ∧
      ⟨blockTopic, encode block⟩ ∈ p.execute.requests := by
  cases hadd : checkedAdd p.server.node.runtime.system.blockNumber 1 with
  | none =>
      rw [Server.execute_of_max htask (Machine.checkedAdd_one_eq_none.mp hadd)] at hidle
      cases hidle
  | some nextNum =>
      have hnum : nextNum.toNat = p.server.node.runtime.height + 1 :=
        Machine.checkedAdd_one_eq_some.mp hadd
      obtain ⟨rt, log, hexec⟩ :=
        Runtime.executeBlock_ok ⟨⟨nextNum⟩, batch⟩ p.server.node.runtime hnum hmax
      refine ⟨⟨⟨nextNum⟩, batch⟩, rfl, hnum, ?_⟩
      simp only [Process.execute, htask, hadd, hexec]
      apply List.mem_append_right
      rw [producedReport, published_append, published_map_println]
      exact List.mem_singleton_self _

/-! ### The reasons of what a step decides -/

section Reasons

variable [LinearOrder PeerId] {moves : List (Move PeerId)} {p : Process PeerId}
  {f : Types.Extrinsic × Fate}

/-- A pool refuses only when it is full. -/
theorem reason_receive (hf : f ∈ (Move.receive : Move PeerId).decides p) :
    Reason moves .receive p (Process.next .receive p) f.1 f.2 := by
  rw [Move.decides] at hf
  split at hf
  · rename_i ext channel hturn htask hchannel
    rcases submit_cases p.server.node.mempool ext with ⟨hok, -⟩ | ⟨hfull, -, hmax⟩
    · rw [hok] at hf
      cases hf
    · rw [hfull] at hf
      rw [List.mem_singleton.mp hf]
      exact hmax
  · cases hf

/-- The selection drops only behind a candidate that stops it. -/
theorem reason_select (order : HashOrder) (hf : f ∈ (Move.select order : Move PeerId).decides p) :
    Reason moves (.select order) p (Process.next (.select order) p) f.1 f.2 := by
  cases htask : p.server.task with
  | drained candidates =>
      have hselect := selectBatch_eq order p.server.node.runtime.system.nonce candidates
      simp only [Move.decides, htask, hselect] at hf
      by_cases hmax : ∀ tx ∈ RustStateMachine.selected order
          p.server.node.runtime.system.nonce candidates, tx.nonce ≠ BitVec.allOnes 32
      · rw [if_pos hmax] at hf
        obtain ⟨e, he, rfl⟩ := List.mem_map.mp hf
        refine ⟨candidates, _, htask, ?_, exists_stop_of_dropped order _ he⟩
        rw [Process.next, withServer, Server.select_of_fits order htask hmax]
      · rw [if_neg hmax] at hf
        cases hf
  | _ =>
      simp only [Move.decides, htask] at hf
      cases hf

/-- The eviction removes only what a block that came in lists. -/
theorem Sound.reason_evict (h : Sound moves p) (hf : f ∈ (Move.evict : Move PeerId).decides p) :
    Reason moves .evict p (Process.next .evict p) f.1 f.2 := by
  cases htask : p.server.task with
  | applied included =>
      simp only [Move.decides, htask] at hf
      obtain ⟨e, he, rfl⟩ := List.mem_map.mp hf
      obtain ⟨block, hblock, rfl⟩ := h.applied included htask
      exact ⟨block, hblock, listed_of_isIncluded (List.mem_filter.mp he).2⟩
  | _ =>
      simp only [Move.decides, htask] at hf
      cases hf

/-- An own block is executed before it waits for its publication. -/
theorem Sound.reason_execute (h : Sound moves p)
    (hf : f ∈ (Move.execute : Move PeerId).decides p) :
    Reason moves .execute p (Process.next .execute p) f.1 f.2 := by
  cases htask : p.server.task with
  | selected batch =>
      obtain ⟨rt, hexecute | hexecute⟩ := Server.execute_cases htask
      · have hidle : p.server.execute.task = .idle := by rw [hexecute]
        simp only [Move.decides, htask, hidle] at hf
        obtain ⟨e, he, rfl⟩ := List.mem_map.mp hf
        obtain ⟨hmax, hnonces⟩ := h.selected batch htask
        obtain ⟨block, rfl, hnum, hrequest⟩ := execute_of_idle htask hidle hmax
        exact ⟨block, he, hrequest,
          Runtime.dispatched_or_forged_executeBlock hnum hmax he (hnonces e.signer)⟩
      · rw [Move.decides, htask, hexecute] at hf
        cases hf
  | _ =>
      simp only [Move.decides, htask] at hf
      cases hf

theorem Sound.reason_of_decided (h : Sound moves p) {move : Move PeerId}
    (hf : f ∈ move.decides p) : Reason moves move p (Process.next move p) f.1 f.2 := by
  cases move with
  | receive => exact reason_receive hf
  | select order => exact reason_select order hf
  | evict => exact h.reason_evict hf
  | execute => exact h.reason_execute hf
  | _ => cases hf

end Reasons

theorem Sound.reason [LinearOrder PeerId] {moves : List (Move PeerId)} {p : Process PeerId}
    (h : Sound moves p) {move : Move PeerId} {f : Types.Extrinsic × Fate}
    (hf : f ∈ move.fates p) : Reason moves move p (Process.next move p) f.1 f.2 := by
  rcases List.mem_append.mp hf with hf | hf
  · exact h.reason_of_decided hf
  · obtain ⟨e, he, rfl⟩ := List.mem_map.mp hf
    obtain ⟨es, hloses⟩ := loses_next move h.turn
    rw [hloses.destroyed_eq.1] at he
    cases hloses with
    | nothing => cases he
    | unwound hrunning hpanicked => exact ⟨hpanicked, by rwa [if_neg hrunning]⟩
    | sent hpanicked hsent hlost =>
        refine ⟨?_, ?_⟩
        · by_contra hrunning
          rw [Server.lost_of_running hrunning] at hlost
          exact absurd hlost.symm (List.append_ne_nil_of_right_ne_nil _ (List.cons_ne_nil _ _))
        · rw [if_pos hpanicked, List.mem_singleton.mp he]
          exact hsent

omit [Ed25519] in
theorem sound_start (node : Node PeerId) : Sound [] (start node) := by
  refine ⟨fun h => absurd rfl h, ?_, ?_, ?_⟩
  · intro block hblock
    cases hblock
  · intro included hin
    cases hin
  · intro batch hin
    cases hin

theorem sound_run [LinearOrder PeerId] (node : Node PeerId) (moves : List (Move PeerId)) :
    Sound moves (Trace.run Process.next moves (start node)) := by
  induction moves using List.reverseRecOn with
  | nil => exact sound_start node
  | append_singleton moves move ih =>
      rw [Trace.run_concat]
      exact ih.next move

theorem fates_concat [LinearOrder PeerId] (moves : List (Move PeerId)) (move : Move PeerId)
    (p : Process PeerId) :
    fates (moves ++ [move]) p = fates moves p ++ move.fates (Trace.run Process.next moves p) := by
  induction moves generalizing p with
  | nil => exact List.append_nil _
  | cons m moves ih =>
      rw [List.cons_append, fates, ih, fates, List.append_assoc]
      rfl

/-- What was on its way or comes in is on its way after the step or has met its fate in it. -/
theorem fates_next [LinearOrder PeerId] (move : Move PeerId) {self : Process PeerId}
    (h : self.turn ≠ .resting → self.server.task = .idle) :
    (self.onTheWay ++ move.ext?.toList).Perm
      ((next move self).onTheWay ++ (move.fates self).map Prod.fst) := by
  have hstep : Accounts move self (next move self) := accounts_next move h
  obtain ⟨es, hloses⟩ := loses_next move h
  obtain ⟨hes, hlost⟩ := hloses.destroyed_eq
  have hfates : (move.fates self).map Prod.fst = (move.decides self).map Prod.fst ++ es := by
    rw [Move.fates, hes, List.map_append, List.map_map]
    exact congrArg _ (List.map_id es)
  rw [Accounts, hlost] at hstep
  rw [hfates]
  rw [List.perm_iff_count] at hstep ⊢
  intro e
  have hcount := hstep e
  simp only [List.count_append] at hcount ⊢
  omega

/-- Everything that was pending or has come in is still on its way or has met its fate, each exactly
once and for its reason, however the parts of the node interleave. -/
theorem every_extrinsic_has_its_fate [LinearOrder PeerId] (node : Node PeerId)
    (moves : List (Move PeerId)) :
    let run := fun moves => Trace.run Process.next moves (start node)
    (node.mempool.pending ++ moves.filterMap Move.ext?).Perm
      ((run moves).onTheWay ++ (fates moves (start node)).map Prod.fst) ∧
    ∀ pre move, ∀ f ∈ move.fates (run pre),
      Reason pre move (run pre) (Process.next move (run pre)) f.1 f.2 := by
  intro run
  constructor
  · induction moves using List.reverseRecOn with
    | nil => simp [run, onTheWay, start, Server.held, fates]
    | append_singleton moves move ih =>
        have hrun : run (moves ++ [move]) = Process.next move (run moves) :=
          Trace.run_concat _ _ _ _
        have hfates : fates (moves ++ [move]) (start node) =
            fates moves (start node) ++ move.fates (run moves) := fates_concat _ _ _
        have hstep : ((run moves).onTheWay ++ move.ext?.toList).Perm
            ((Process.next move (run moves)).onTheWay ++
              (move.fates (run moves)).map Prod.fst) :=
          fates_next move (sound_run node moves).turn
        rw [List.perm_iff_count] at ih hstep ⊢
        intro e
        have hbefore := ih e
        have hafter := hstep e
        rw [Trace.filterMap_concat, hfates, hrun]
        simp only [List.count_append, List.map_append] at hbefore hafter ⊢
        omega
  · intro pre move f hf
    exact (sound_run node pre).reason hf

end Steps

end Process

end RustStateMachine
