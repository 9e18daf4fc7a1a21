import RustStateMachine.Agreement
import RustStateMachine.Lib.Trace
import RustStateMachine.Process
import RustStateMachine.Production

/-!
# Branches of the task are atomic

However the steps of a process interleave, the runtime, the pool and the task's
log are those of whole branches run one after the other, on the blocks in the
order in which they came in and on the extrinsics that came in.
-/

namespace RustStateMachine

open Lib Lib.KeyValue Std Support

/-! ## Whole branches -/

/-- A branch of the node task, from a received value to its end. -/
inductive Branch where
  | submit (ext : Types.Extrinsic)
  | block (block : Types.Block)
  | produce (order : HashOrder)

namespace Branch

/-- The extrinsic of a submission. -/
def ext? : Branch → Option Types.Extrinsic
  | submit ext => some ext
  | _ => none

/-- The block of a peer-block branch. -/
def block? : Branch → Option Types.Block
  | block b => some b
  | _ => none

end Branch

section Branches

variable [Ed25519] {PeerId : Type}

/-- A branch run without a step in between. -/
def Node.branch : Branch → Exec NodeEvent (Node PeerId) Unit
  | .submit ext => Node.receiveExtrinsic ext
  | .block block => Node.receiveBlock block
  | .produce order => Node.produceBlock order

theorem Node.produceBlock_of_ok {order : HashOrder} {self : Node PeerId} {block : Types.Block}
    {rt : Runtime} {log : List Event}
    (hmax : ∀ tx ∈ self.batch order, tx.nonce ≠ BitVec.allOnes 32)
    (hnum : block.header.blockNumber.toNat = self.runtime.height + 1)
    (hexts : block.extrinsics = self.batch order)
    (hexec : Runtime.executeBlock block self.runtime = ⟨.ret (.ok ()), rt, log⟩) :
    Node.produceBlock order self = ⟨.ret (), { self.drained with runtime := rt },
      log.map .runtime ++ producedReport block (.ret (.ok ()))⟩ := by
  obtain ⟨⟨n⟩, exts⟩ := block
  subst hexts
  have hdrain : Mempool.drainForBlock (self.mempool.blockLimit.getD 10) self.mempool =
      (self.candidates, self.drained.mempool) := Mempool.drainForBlock_eq _ _
  have hselect : selectBatch order self.runtime.system.nonce self.candidates =
      some (self.batch order) := (selectBatch_eq order _ _).trans (if_pos hmax)
  have hadd : checkedAdd self.runtime.system.blockNumber 1 = some n :=
    Machine.checkedAdd_one_eq_some.mpr hnum
  simp only [Node.produceBlock, Exec.bind_apply, Exec.read_apply, Run.andThen_ret, hdrain,
    Exec.modify_apply, hselect, Exec.unwrap_some, hadd, Node.onRuntime, Exec.zoom_apply, hexec,
    Exec.emit_apply, Node.printLines]
  rfl

end Branches

namespace Process

variable [Ed25519] {PeerId : Type}

/-- Where the task stands in a branch that began at `node`, with the block it has taken for it and
what it has logged in it. -/
inductive Stands (node : Node PeerId) : Server PeerId → List Types.Block → List NodeEvent → Prop
  | resting {s : Server PeerId} (htask : s.task = .idle) (hrt : s.node.runtime = node.runtime)
      (hpool : s.node.mempool = node.mempool) : Stands node s [] []
  | drained {s : Server PeerId} (htask : s.task = .drained node.candidates)
      (hrt : s.node.runtime = node.runtime) (hpool : s.node.mempool = node.drained.mempool) :
      Stands node s [] []
  | selected {s : Server PeerId} (order : HashOrder)
      (hmax : ∀ tx ∈ node.batch order, tx.nonce ≠ BitVec.allOnes 32)
      (htask : s.task = .selected (node.batch order)) (hrt : s.node.runtime = node.runtime)
      (hpool : s.node.mempool = node.drained.mempool) : Stands node s [] []
  | applied {s : Server PeerId} {block : Types.Block} {log : List Event}
      (hexec : Runtime.executeBlock block node.runtime = ⟨.ret (.ok ()), s.node.runtime, log⟩)
      (htask : s.task = .applied (block.extrinsics.map fun e => (e.signer, e.nonce)))
      (hpool : s.node.mempool = node.mempool) :
      Stands node s [block] (log.map .runtime ++ appliedReport s.node.runtime (.ret (.ok ())))

/-- A task that stands in a branch has not panicked. -/
theorem Stands.running {node : Node PeerId} {s : Server PeerId} {taken : List Types.Block}
    {log : List NodeEvent} (h : Stands node s taken log) :
    ¬ s.task.Panicked := by
  cases h with
  | resting ht => exact Task.not_panicked_of_eq ht id
  | drained ht => exact Task.not_panicked_of_eq ht id
  | selected _ _ ht => exact Task.not_panicked_of_eq ht id
  | applied _ ht => exact Task.not_panicked_of_eq ht id

/-- From `node` on the task has run whole branches and stands in the next one, has panicked in the
last of them, or has panicked after it. -/
inductive Serial (node : Node PeerId) (branches : List Branch) (s : Server PeerId) :
    List Types.Block → List NodeEvent → Prop
  | running {taken : List Types.Block} {tail : List NodeEvent}
      (hret : (Exec.each Node.branch branches node).outcome = .ret ())
      (h : Stands (Exec.each Node.branch branches node).state s taken tail) :
      Serial node branches s taken ((Exec.each Node.branch branches node).log ++ tail)
  | stopped (htask : s.task.Panicked)
      (hrt : s.node.runtime = (Exec.each Node.branch branches node).state.runtime)
      (hpool : s.node.mempool = (Exec.each Node.branch branches node).state.mempool) :
      Serial node branches s [] (Exec.each Node.branch branches node).log

namespace Serial

variable {node : Node PeerId} {branches : List Branch} {s s' : Server PeerId}
  {taken : List Types.Block} {log : List NodeEvent}

/-- Others than the task leave it, the runtime and the pool alone. -/
theorem congr (h : Serial node branches s taken log)
    (htask : ¬ s.task.Panicked → s'.task = s.task) (hpanicked : s.task.Panicked → s'.task.Panicked)
    (hrt : s'.node.runtime = s.node.runtime) (hpool : s'.node.mempool = s.node.mempool) :
    Serial node branches s' taken log := by
  cases h with
  | running hret hs =>
      refine .running hret ?_
      have htask := htask hs.running
      cases hs with
      | resting ht hr hp => exact .resting (htask.trans ht) (hrt.trans hr) (hpool.trans hp)
      | drained ht hr hp => exact .drained (htask.trans ht) (hrt.trans hr) (hpool.trans hp)
      | selected order hmax ht hr hp =>
          exact .selected order hmax (htask.trans ht) (hrt.trans hr) (hpool.trans hp)
      | applied hexec ht hp =>
          rw [← hrt] at hexec ⊢
          exact .applied hexec (htask.trans ht) (hpool.trans hp)
  | stopped ht hr hp => exact .stopped (hpanicked ht) (hrt.trans hr) (hpool.trans hp)

/-- Between two branches. -/
theorem of_idle (h : Serial node branches s taken log) (htask : s.task = .idle) :
    (Exec.each Node.branch branches node).outcome = .ret () ∧
      s.node.runtime = (Exec.each Node.branch branches node).state.runtime ∧
      s.node.mempool = (Exec.each Node.branch branches node).state.mempool ∧
      log = (Exec.each Node.branch branches node).log ∧ taken = [] := by
  cases h with
  | running hret hs =>
      cases hs with
      | resting ht hr hp => exact ⟨hret, hr, hp, List.append_nil _, rfl⟩
      | drained ht => cases ht.symm.trans htask
      | selected _ _ ht => cases ht.symm.trans htask
      | applied _ ht => cases ht.symm.trans htask
  | stopped ht =>
      rw [htask] at ht
      cases ht

/-- Before the selection of a production. -/
theorem of_drained (h : Serial node branches s taken log) {candidates : List Types.Extrinsic}
    (htask : s.task = .drained candidates) :
    (Exec.each Node.branch branches node).outcome = .ret () ∧
      candidates = (Exec.each Node.branch branches node).state.candidates ∧
      s.node.runtime = (Exec.each Node.branch branches node).state.runtime ∧
      s.node.mempool = (Exec.each Node.branch branches node).state.drained.mempool ∧
      log = (Exec.each Node.branch branches node).log ∧ taken = [] := by
  cases h with
  | running hret hs =>
      cases hs with
      | resting ht => cases ht.symm.trans htask
      | drained ht hr hp =>
          exact ⟨hret, Task.drained.inj (htask.symm.trans ht), hr, hp, List.append_nil _, rfl⟩
      | selected _ _ ht => cases ht.symm.trans htask
      | applied _ ht => cases ht.symm.trans htask
  | stopped ht =>
      rw [htask] at ht
      cases ht

/-- Before the execution of a production. -/
theorem of_selected (h : Serial node branches s taken log) {batch : List Types.Extrinsic}
    (htask : s.task = .selected batch) :
    (Exec.each Node.branch branches node).outcome = .ret () ∧
      (∃ order, batch = (Exec.each Node.branch branches node).state.batch order) ∧
      (∀ tx ∈ batch, tx.nonce ≠ BitVec.allOnes 32) ∧
      s.node.runtime = (Exec.each Node.branch branches node).state.runtime ∧
      s.node.mempool = (Exec.each Node.branch branches node).state.drained.mempool ∧
      log = (Exec.each Node.branch branches node).log ∧ taken = [] := by
  cases h with
  | running hret hs =>
      cases hs with
      | resting ht => cases ht.symm.trans htask
      | drained ht => cases ht.symm.trans htask
      | selected order hmax ht hr hp =>
          obtain rfl := Task.selected.inj (htask.symm.trans ht)
          exact ⟨hret, ⟨order, rfl⟩, hmax, hr, hp, List.append_nil _, rfl⟩
      | applied _ ht => cases ht.symm.trans htask
  | stopped ht =>
      rw [htask] at ht
      cases ht

theorem of_panicked (h : Serial node branches s taken log) (htask : s.task.Panicked) :
    s.node.runtime = (Exec.each Node.branch branches node).state.runtime ∧
      s.node.mempool = (Exec.each Node.branch branches node).state.mempool ∧
      log = (Exec.each Node.branch branches node).log ∧ taken = [] := by
  cases h with
  | running hret hs => exact absurd htask hs.running
  | stopped _ hr hp => exact ⟨hr, hp, rfl, rfl⟩

/-- A branch is over once the server is where the whole branch leads. -/
theorem complete (hret : (Exec.each Node.branch branches node).outcome = .ret ()) {b : Branch}
    {after : Node PeerId} {blog : List NodeEvent}
    (hb : Node.branch b (Exec.each Node.branch branches node).state = ⟨.ret (), after, blog⟩)
    (htask : s.task = .idle) (hrt : s.node.runtime = after.runtime)
    (hpool : s.node.mempool = after.mempool) :
    Serial node (branches ++ [b]) s [] ((Exec.each Node.branch branches node).log ++ blog) := by
  have hout : (Node.branch b (Exec.each Node.branch branches node).state).outcome = .ret () := by
    rw [hb]
  have hrun := (Exec.each_concat Node.branch hret hout).1
  rw [hb] at hrun
  have hdone : Serial node (branches ++ [b]) s []
      ((Exec.each Node.branch (branches ++ [b]) node).log ++ []) := by
    refine .running ?_ (.resting htask ?_ ?_)
    · rw [hrun]
    · rw [hrun, hrt]
    · rw [hrun, hpool]
  rwa [hrun, List.append_nil] at hdone

/-- A branch that panics is the last one. -/
theorem die (hret : (Exec.each Node.branch branches node).outcome = .ret ()) {b : Branch}
    {m : String} {after : Node PeerId} {blog : List NodeEvent}
    (hb : Node.branch b (Exec.each Node.branch branches node).state = ⟨.panicked m, after, blog⟩)
    (htask : s.task.Panicked) (hrt : s.node.runtime = after.runtime)
    (hpool : s.node.mempool = after.mempool) :
    Serial node (branches ++ [b]) s [] ((Exec.each Node.branch branches node).log ++ blog) := by
  have hout : (Node.branch b (Exec.each Node.branch branches node).state).outcome =
      .panicked m := by rw [hb]
  have hrun := Exec.each_concat_panicked Node.branch hret hout
  rw [hb] at hrun
  have hdone : Serial node (branches ++ [b]) s []
      (Exec.each Node.branch (branches ++ [b]) node).log := by
    refine .stopped htask ?_ ?_
    · rw [hrun, hrt]
    · rw [hrun, hpool]
  rwa [hrun] at hdone

/-! What one step of the task does to a run of branches. -/

theorem receive (h : Serial node branches s taken log) (htask : s.task = .idle)
    {ext : Types.Extrinsic} {channel : List Types.Extrinsic}
    (hchannel : s.channel = ext :: channel) :
    Serial node (branches ++ [.submit ext]) s.receive taken log ∧ s.receive.channel = channel := by
  obtain ⟨hret, hrt, hpool, rfl, rfl⟩ := h.of_idle htask
  have hrun : s.receive =
      { s with node := (Node.receiveExtrinsic ext s.node).state, channel } := by
    simp only [Server.receive, htask, hchannel]
  rw [hrun]
  have hdone := complete (s := { s with
    node := (Node.receiveExtrinsic ext s.node).state, channel }) hret (b := .submit ext) rfl htask
    hrt (congrArg (fun pool => (Mempool.submit pool ext).2) hpool)
  rw [List.append_nil] at hdone
  exact ⟨hdone, rfl⟩

theorem drain (h : Serial node branches s taken log) (htask : s.task = .idle) :
    Serial node branches s.drain taken log := by
  obtain ⟨hret, hrt, hpool, rfl, rfl⟩ := h.of_idle htask
  rw [Server.drain_of_idle htask]
  have hcandidates : s.node.candidates =
      (Exec.each Node.branch branches node).state.candidates := by
    rw [Node.candidates, Node.candidates, Node.limit, Node.limit, hpool]
  have hdrained : s.node.drained.mempool =
      (Exec.each Node.branch branches node).state.drained.mempool := by
    rw [Node.drained, Node.drained, Node.limit, Node.limit, hpool]
  have hnext := running hret
    (.drained (s := ⟨s.node.drained, s.channel, .drained s.node.candidates⟩)
      (congrArg Task.drained hcandidates) hrt hdrained)
  rwa [List.append_nil] at hnext

/-- A peer block is taken; nothing more is done for one that is not applied. -/
theorem apply (h : Serial node branches s taken log) (htask : s.task = .idle)
    (block : Types.Block) :
    let r := Runtime.executeBlock block s.node.runtime
    let log' := log ++ (r.log.map .runtime ++ appliedReport r.state r.outcome)
    Serial node branches (s.apply block) [block] log' ∨
      Serial node (branches ++ [.block block]) (s.apply block) [] log' := by
  obtain ⟨hret, hrt, hpool, rfl, rfl⟩ := h.of_idle htask
  obtain ⟨snode, channel, task⟩ := s
  dsimp only at htask hrt hpool
  subst htask
  cases hexec : Runtime.executeBlock block snode.runtime with
  | mk o rt elog =>
      have hbranch := hexec
      rw [hrt] at hbranch
      simp only [Server.apply, hexec]
      cases o with
      | ret res =>
          cases res with
          | ok u =>
              left
              have hnext := running hret (.applied (s := ⟨{ snode with runtime := rt }, channel,
                .applied (block.extrinsics.map fun e => (e.signer, e.nonce))⟩) hbranch rfl hpool)
              exact hnext
          | error e =>
              right
              exact complete hret (Node.receiveBlock_of_error hbranch) rfl rfl hpool
      | panicked m =>
          right
          let executed : Server PeerId := ⟨{ snode with runtime := rt }, channel, .idle⟩
          have hdone := die (s := executed.unwind []) hret (b := .block block)
            (Node.receiveBlock_of_panicked hbranch) trivial rfl hpool
          rwa [← List.append_nil (elog.map NodeEvent.runtime)] at hdone

/-- What an applied block listed is evicted, and its branch is over. -/
theorem evict (h : Serial node branches s taken log)
    {included : List (Types.AccountId × Types.Nonce)} (htask : s.task = .applied included) :
    ∃ block, taken = [block] ∧ Serial node (branches ++ [.block block]) s.evict [] log := by
  cases h with
  | running hret hs =>
      cases hs with
      | resting ht => cases ht.symm.trans htask
      | drained ht => cases ht.symm.trans htask
      | selected _ _ ht => cases ht.symm.trans htask
      | @applied block elog hexec ht hpool =>
          refine ⟨block, rfl, ?_⟩
          have hrun : s.evict = { s with
              node := { s.node with mempool := Node.evict block s.node.mempool }
              task := .idle } := by
            simp only [Server.evict, ht]
            rfl
          rw [hrun]
          exact complete hret (Node.receiveBlock_of_ok hexec) rfl rfl
            (congrArg (Node.evict block) hpool)
  | stopped ht =>
      rw [htask] at ht
      cases ht

/-- The batch is selected, or counting its nonces overflows. -/
theorem select (h : Serial node branches s taken log) (order : HashOrder)
    {candidates : List Types.Extrinsic} (htask : s.task = .drained candidates) :
    Serial node branches (s.select order) taken log ∨
      Serial node (branches ++ [.produce order]) (s.select order) taken log := by
  obtain ⟨hret, rfl, hrt, hpool, rfl, rfl⟩ := h.of_drained htask
  have hbatch : selected order s.node.runtime.system.nonce
      (Exec.each Node.branch branches node).state.candidates =
        (Exec.each Node.branch branches node).state.batch order := by
    rw [hrt]
    rfl
  by_cases hmax : ∀ tx ∈ (Exec.each Node.branch branches node).state.batch order,
      tx.nonce ≠ BitVec.allOnes 32
  · left
    rw [Server.select_of_fits order htask (hbatch ▸ hmax)]
    have hnext := running hret (.selected (s := ⟨s.node, s.channel, .selected _⟩) order hmax
      (congrArg Task.selected hbatch) hrt hpool)
    rwa [List.append_nil] at hnext
  · right
    rw [Server.select_of_overflow order htask (hbatch ▸ hmax)]
    have hdone := die (b := .produce order) (s := s.unwind
      (Exec.each Node.branch branches node).state.candidates) hret
      (Node.produceBlock_of_overflow hmax) trivial hrt hpool
    rwa [List.append_nil] at hdone

end Serial

theorem execute_of_not_selected {p : Process PeerId}
    (h : ¬ ∃ batch, p.server.task = .selected batch) : p.execute = p := by
  rw [execute]
  split
  · rename_i batch hselected
    exact absurd ⟨batch, hselected⟩ h
  · rfl

theorem execute_of_selected {p : Process PeerId} {batch : List Types.Extrinsic}
    (h : p.server.task = .selected batch) :
    p.execute.server = p.server.execute ∧ p.execute.turn = p.turn ∧
      p.execute.handlers = p.handlers ∧
      p.execute.blocks = (p.withServer p.server.execute).blocks := by
  rw [execute, h]
  dsimp only
  split <;> exact ⟨rfl, rfl, rfl, rfl⟩

/-- Once a batch is selected the production ends in this step. -/
theorem Serial.execute {node : Node PeerId} {branches : List Branch} {p : Process PeerId}
    {taken : List Types.Block} (h : Serial node branches p.server taken p.log)
    {batch : List Types.Extrinsic} (htask : p.server.task = .selected batch) :
    ∃ order, Serial node (branches ++ [.produce order]) p.execute.server taken p.execute.log := by
  obtain ⟨hret, ⟨order, rfl⟩, hmax, hrt, hpool, hlog, rfl⟩ := h.of_selected htask
  refine ⟨order, ?_⟩
  cases hadd : checkedAdd p.server.node.runtime.system.blockNumber 1 with
  | none =>
      have htop := Machine.checkedAdd_one_eq_none.mp hadd
      have hrun : p.execute = p.withServer p.server.execute := by
        simp only [Process.execute, htask, hadd]
      rw [hrun, Server.execute_of_max htask htop]
      have hdone := Serial.die (b := .produce order) (s := p.server.unwind
          ((Exec.each Node.branch branches node).state.batch order)) hret
        (Node.produceBlock_of_max hmax (hrt ▸ htop)) trivial hrt hpool
      rw [List.append_nil, ← hlog] at hdone
      exact hdone
  | some nextNum =>
      have hnum := Machine.checkedAdd_one_eq_some.mp hadd
      rw [← Runtime.height, hrt] at hnum
      let block : Types.Block :=
        ⟨⟨nextNum⟩, (Exec.each Node.branch branches node).state.batch order⟩
      obtain ⟨rt, elog, hexec⟩ := Runtime.executeBlock_ok block _ hnum hmax
      have hbranch := Node.produceBlock_of_ok hmax hnum rfl hexec
      rw [← hrt] at hexec
      have hserver : p.server.execute =
          ⟨{ p.server.node with runtime := rt }, p.server.channel, .idle⟩ :=
        Server.execute_of_next htask (hrt ▸ hnum) hexec
      have hrun : p.execute.server = p.server.execute ∧ p.execute.log = p.log ++
          (elog.map .runtime ++ producedReport block (.ret (.ok ()))) := by
        simp only [Process.execute, htask, hadd]
        exact ⟨rfl, by rw [hexec]⟩
      rw [hrun.1, hrun.2, hlog, hserver]
      exact Serial.complete (b := .produce order) hret hbranch rfl rfl hpool

/-! ## Whole runs -/

/-- The steps moved from `node` to `p` in whole branches, and nothing that came in is made up, lost
before a panic of the task or, among blocks, reordered. -/
structure Linear (node : Node PeerId) (moves : List (Move PeerId)) (branches : List Branch)
    (taken : List Types.Block) (p : Process PeerId) : Prop where
  serial : Serial node branches p.server taken p.log
  turn : p.turn ≠ .resting → p.server.task = .idle
  blocks : ∃ lost, branches.filterMap Branch.block? ++ (taken ++ (p.blocks ++ lost)) =
    moves.filterMap Move.block? ∧ (¬ p.server.task.Panicked → lost = [])
  exts : (branches.filterMap Branch.ext? ++ (p.server.unreceived ++ p.handlers)).Perm
    (moves.filterMap Move.ext?)

theorem linear_start (node : Node PeerId) : Linear node [] [] [] (start node) := by
  refine ⟨?_, fun h => absurd rfl h, ⟨[], rfl, fun _ => rfl⟩, .refl _⟩
  have hnew : Serial node [] (start node).server []
      ((Exec.each Node.branch [] node).log ++ []) := .running rfl (.resting rfl rfl rfl)
  exact hnew

namespace Linear

variable {node : Node PeerId} {moves : List (Move PeerId)} {branches : List Branch}
  {taken : List Types.Block} {p : Process PeerId}

/-- A step that neither brings anything in nor ends a branch. -/
theorem congr (h : Linear node moves branches taken p) {move : Move PeerId}
    (hext : move.ext? = none) (hblock : move.block? = none) {p' : Process PeerId}
    (hserial : Serial node branches p'.server taken p'.log)
    (hturn : p'.turn ≠ .resting → p'.server.task = .idle)
    (hpanicked : p'.server.task.Panicked ↔ p.server.task.Panicked)
    (hunreceived : p'.server.unreceived = p.server.unreceived)
    (hhandlers : p'.handlers = p.handlers) (hblocks : p'.blocks = p.blocks) :
    Linear node (moves ++ [move]) branches taken p' := by
  obtain ⟨lost, hlost, hnone⟩ := h.blocks
  refine ⟨hserial, hturn, ⟨lost, ?_, fun hrunning => hnone (mt hpanicked.mpr hrunning)⟩, ?_⟩
  · rw [Trace.filterMap_concat, hblock, hblocks, hlost]
    exact (List.append_nil _).symm
  · rw [Trace.filterMap_concat, hext, hunreceived, hhandlers]
    exact h.exts.trans (.of_eq (List.append_nil _).symm)

/-- A step that leaves the task and the blocks as they are. -/
theorem of_task (h : Linear node moves branches taken p) {move : Move PeerId}
    (hext : move.ext? = none) (hblock : move.block? = none) {p' : Process PeerId}
    (hserver : p'.server = p.server) (hlog : p'.log = p.log)
    (hturn : p'.turn ≠ .resting → p'.server.task = .idle)
    (hhandlers : p'.handlers = p.handlers) (hblocks : p'.blocks = p.blocks) :
    Linear node (moves ++ [move]) branches taken p' := by
  refine h.congr hext hblock ?_ hturn (by rw [hserver]) (by rw [hserver]) hhandlers hblocks
  rw [hserver, hlog]
  exact h.serial

theorem post (h : Linear node moves branches taken p) (raw : Bytes) :
    Linear node (moves ++ [.post raw]) branches taken (p.post raw) := by
  rw [Process.post]
  cases hdecode : (decode raw : Option (Types.Extrinsic × Bytes)) with
  | none =>
      have hext : (Move.post raw : Move PeerId).ext? = none := by rw [Move.ext?, hdecode]; rfl
      exact h.of_task hext rfl rfl rfl h.turn rfl rfl
  | some read =>
      obtain ⟨lost, hlost, hnone⟩ := h.blocks
      refine ⟨h.serial, h.turn, ⟨lost, ?_, hnone⟩, ?_⟩
      · rw [Trace.filterMap_concat, ← hlost]
        exact (List.append_nil _).symm
      · have hext : (Move.post raw : Move PeerId).ext? = some read.1 := by
          rw [Move.ext?, hdecode]
          rfl
        rw [Trace.filterMap_concat, hext]
        simpa using h.exts.append_right [read.1]

theorem forward (h : Linear node moves branches taken p) (ext : Types.Extrinsic) :
    Linear node (moves ++ [.forward ext]) branches taken (p.forward ext) := by
  rw [Process.forward]
  split_ifs with hmem
  · obtain ⟨lost, hlost, hnone⟩ := h.blocks
    refine ⟨?_, ?_, ⟨lost, ?_, ?_⟩, ?_⟩
    · refine h.serial.congr ?_ Server.send_panicked_iff.mpr ?_ ?_
      · intro hrunning
        rw [Server.send_of_running hrunning]
      · rw [Server.send_node]
      · rw [Server.send_node]
    · intro hturn
      have hidle := h.turn hturn
      have hrunning : ¬ p.server.task.Panicked :=
        Task.not_panicked_of_eq hidle id
      rw [Server.send_of_running hrunning]
      exact hidle
    · rw [Trace.filterMap_concat, ← hlost]
      exact (List.append_nil _).symm
    · exact fun hrunning => hnone (mt Server.send_panicked_iff.mpr hrunning)
    · have hsent : ((p.server.unreceived ++ [ext]) ++ p.handlers.erase ext).Perm
          (p.server.unreceived ++ p.handlers) := by
        rw [List.append_assoc]
        exact (List.perm_cons_erase hmem).symm.append_left _
      rw [Trace.filterMap_concat, Server.unreceived_send]
      exact ((hsent.append_left _).trans h.exts).trans (.of_eq (List.append_nil _).symm)
  · exact h.of_task rfl rfl rfl rfl h.turn rfl rfl

theorem gossip (h : Linear node moves branches taken p) (topic : String) (data : Bytes) :
    Linear node (moves ++ [.gossip topic data]) branches taken (p.gossip topic data) := by
  obtain ⟨lost, hlost, hnone⟩ := h.blocks
  have hperm : (branches.filterMap Branch.ext? ++ (p.server.unreceived ++
      (Move.gossip topic data : Move PeerId).ext?.toList ++ p.handlers)).Perm
        ((moves ++ [Move.gossip topic data]).filterMap Move.ext?) := by
    rw [Trace.filterMap_concat]
    refine .trans ?_ (h.exts.append_right _)
    rw [List.append_assoc, List.append_assoc, List.append_assoc]
    exact (List.perm_append_comm.append_left _).append_left _
  obtain ⟨hlog, hturn⟩ : (p.gossip topic data).log = p.log ∧
      (p.gossip topic data).turn = p.turn := by
    rw [Process.gossip]
    split <;> exact ⟨rfl, rfl⟩
  rw [← gossip_handlers topic data p] at hperm
  by_cases hpanicked : p.server.task.Panicked
  · obtain ⟨hands, sent, htask⟩ := Task.panicked_iff.mp hpanicked
    obtain ⟨hserver, hblocks⟩ := gossip_of_panicked htask topic data
    refine ⟨?_, ?_, ⟨lost ++ (Move.gossip topic data : Move PeerId).block?.toList, ?_, ?_⟩, ?_⟩
    · rw [hserver, hlog]
      exact h.serial.congr (absurd hpanicked) (fun _ => trivial) rfl rfl
    · rw [hturn]
      intro hne
      cases htask.symm.trans (h.turn hne)
    · rw [hblocks, Trace.filterMap_concat, ← hlost]
      simp only [List.append_assoc]
    · rw [hserver]
      exact absurd trivial
    · rw [Server.unreceived, htask] at hperm
      rw [List.append_assoc p.server.channel] at hperm
      rw [hserver]
      exact hperm
  · obtain ⟨hserver, hblocks⟩ := gossip_of_running hpanicked topic data
    refine ⟨?_, ?_, ⟨[], ?_, fun _ => rfl⟩, ?_⟩
    · rw [hserver, hlog]
      exact h.serial.congr (fun _ => rfl) id rfl rfl
    · rw [hserver, hturn]
      exact h.turn
    · rw [hnone hpanicked] at hlost
      rw [hblocks, Trace.filterMap_concat, ← hlost]
      simp only [List.append_assoc, List.append_nil]
    · have hrunning : ¬ (p.gossip topic data).server.task.Panicked := by
        rw [hserver]
        exact hpanicked
      rw [Server.unreceived_of_running hpanicked] at hperm
      rw [Server.unreceived_of_running hrunning, hserver]
      exact hperm

/-- A step of the task that ends the branch or leaves it where it is; if it unwinds the task, the
blocks it has not taken are lost. -/
theorem of_server (h : Linear node moves branches taken p) {move : Move PeerId}
    (hext : move.ext? = none) (hblock : move.block? = none) {branches' : List Branch}
    {taken' blocks' : List Types.Block} {p' : Process PeerId}
    (hrunning : ¬ p.server.task.Panicked)
    (hserial : Serial node branches' p'.server taken' p'.log)
    (hturn : p'.turn ≠ .resting → p'.server.task = .idle)
    (hexts : branches'.filterMap Branch.ext? ++ p'.server.unreceived =
      branches.filterMap Branch.ext? ++ p.server.unreceived) (hhandlers : p'.handlers = p.handlers)
    (hkept : p'.blocks = if p'.server.task.Panicked then [] else blocks')
    (hblocks : branches'.filterMap Branch.block? ++ (taken' ++ blocks') =
      branches.filterMap Branch.block? ++ (taken ++ p.blocks)) :
    Linear node (moves ++ [move]) branches' taken' p' := by
  obtain ⟨lost, hlost, hnone⟩ := h.blocks
  rw [hnone hrunning, List.append_nil] at hlost
  refine ⟨hserial, hturn, ?_, ?_⟩
  · refine ⟨if p'.server.task.Panicked then blocks' else [], ?_, fun hp => if_neg hp⟩
    have hall : p'.blocks ++ (if p'.server.task.Panicked then blocks' else []) = blocks' := by
      rw [hkept]
      split_ifs
      · rfl
      · exact List.append_nil _
    rw [hall, hblocks, Trace.filterMap_concat, hblock, hlost]
    exact (List.append_nil _).symm
  · rw [← List.append_assoc, hexts, hhandlers, List.append_assoc, Trace.filterMap_concat, hext]
    exact h.exts.trans (.of_eq (List.append_nil _).symm)

theorem receive (h : Linear node moves branches taken p) :
    ∃ branches', Linear node (moves ++ [.receive]) branches' taken
      (p.unlessTicking Server.receive) := by
  have hstay : Linear node (moves ++ [.receive]) branches taken p :=
    h.of_task rfl rfl rfl rfl h.turn rfl rfl
  rw [unlessTicking]
  split
  · rename_i hresting
    by_cases htask : p.server.task = .idle
    · have hrunning : ¬ p.server.task.Panicked :=
        Task.not_panicked_of_eq htask id
      cases hchannel : p.server.channel with
      | nil =>
          have hrun : p.server.receive = p.server := by simp only [Server.receive, htask, hchannel]
          rw [hrun]
          exact ⟨branches, hstay⟩
      | cons ext channel =>
          have hdone : ¬ p.server.receive.task.Panicked := by
            simp only [Server.receive, htask, hchannel]
            exact id
          obtain ⟨hserial, hrest⟩ := h.serial.receive htask hchannel
          refine ⟨_, h.of_server rfl rfl hrunning hserial (fun hne => absurd hresting hne) ?_ rfl
            (if_neg hdone).symm ?_⟩
          · rw [Server.unreceived_of_running hdone, Server.unreceived_of_running hrunning, hrest,
              hchannel]
            simp [Branch.ext?]
          · simp [Branch.block?]
    · have hrun : p.server.receive = p.server := by
        rw [Server.receive]
        split
        · contradiction
        · rfl
      rw [hrun]
      exact ⟨branches, hstay⟩
  · exact ⟨branches, hstay⟩

theorem checkSlot [DecidableEq PeerId] (h : Linear node moves branches taken p) (slot : ℕ) :
    Linear node (moves ++ [.checkSlot slot]) branches taken (p.checkSlot slot) := by
  rw [Process.checkSlot]
  split
  · rename_i hticking
    have htask : p.server.task = .idle := by
      apply h.turn
      rw [hticking]
      exact Turn.noConfusion
    have hrunning : ¬ p.server.task.Panicked :=
      Task.not_panicked_of_eq htask id
    split
    · exact h.of_task rfl rfl rfl rfl (fun _ => htask) rfl rfl
    · exact h.of_task rfl rfl rfl rfl (fun hne => absurd rfl hne) rfl rfl
    · obtain ⟨-, hrt, hpool, hlog, rfl⟩ := h.serial.of_idle htask
      refine h.of_server rfl rfl hrunning ?_ (fun hne => absurd rfl hne) ?_ rfl rfl rfl
      · have hdone : Serial node branches (p.server.unwind []) []
            (Exec.each Node.branch branches node).log := .stopped trivial hrt hpool
        rw [← hlog] at hdone
        exact hdone
      · rw [Server.unreceived_of_running hrunning]
        rfl
  · exact h.of_task rfl rfl rfl rfl h.turn rfl rfl

theorem drain (h : Linear node moves branches taken p) :
    Linear node (moves ++ [.drain]) branches taken p.drain := by
  rw [Process.drain]
  split
  · rename_i hauthor
    have htask : p.server.task = .idle := by
      apply h.turn
      rw [hauthor]
      exact Turn.noConfusion
    have hdrain := h.serial.drain htask
    rw [Server.drain_of_idle htask] at hdrain ⊢
    refine h.congr rfl rfl hdrain (fun hne => absurd rfl hne) ?_ ?_ rfl rfl
    · rw [htask]
      exact Iff.rfl
    · rw [Server.unreceived, Server.unreceived, htask]
  · exact h.of_task rfl rfl rfl rfl h.turn rfl rfl

/-- A server that stays as it is unwinds nothing. -/
theorem withServer_self (h : Linear node moves branches taken p) {move : Move PeerId}
    (hext : move.ext? = none) (hblock : move.block? = none) :
    Linear node (moves ++ [move]) branches taken (p.withServer p.server) := by
  by_cases hpanicked : p.server.task.Panicked
  · obtain ⟨lost, hlost, -⟩ := h.blocks
    refine ⟨h.serial, h.turn, ⟨p.blocks ++ lost, ?_, absurd hpanicked⟩, ?_⟩
    · rw [Trace.filterMap_concat, hblock, withServer, if_pos hpanicked, List.nil_append, hlost]
      exact (List.append_nil _).symm
    · rw [Trace.filterMap_concat, hext]
      exact h.exts.trans (.of_eq (List.append_nil _).symm)
  · exact h.of_task hext hblock rfl rfl h.turn rfl (if_neg hpanicked)

theorem select (h : Linear node moves branches taken p) (order : HashOrder) :
    ∃ branches', Linear node (moves ++ [.select order]) branches' taken
      (p.withServer (p.server.select order)) := by
  by_cases htask : ∃ candidates, p.server.task = .drained candidates
  · obtain ⟨candidates, htask⟩ := htask
    have hrunning : ¬ p.server.task.Panicked :=
      Task.not_panicked_of_eq htask id
    have hresting : p.turn = .resting := by
      by_contra hne
      cases htask.symm.trans (h.turn hne)
    have hunreceived : (p.server.select order).unreceived = p.server.unreceived := by
      rw [Server.select_of_drained order htask, Server.unreceived_of_running hrunning]
      dsimp only
      split_ifs <;> rfl
    rcases h.serial.select order htask with hserial | hserial
    · exact ⟨_, h.of_server rfl rfl hrunning hserial (fun hne => absurd hresting hne)
        (congrArg _ hunreceived) rfl rfl rfl⟩
    · refine ⟨_, h.of_server rfl rfl hrunning hserial (fun hne => absurd hresting hne) ?_ rfl rfl
        ?_⟩
      · rw [withServer, hunreceived]
        simp [Branch.ext?]
      · simp [Branch.block?]
  · rw [Server.select_of_not_drained order htask]
    exact ⟨branches, h.withServer_self rfl rfl⟩

theorem apply (h : Linear node moves branches taken p) :
    ∃ branches' taken', Linear node (moves ++ [.apply]) branches' taken' p.apply := by
  rw [Process.apply]
  split
  · rename_i block blocks hresting htask hblocks
    obtain ⟨-, -, -, -, rfl⟩ := h.serial.of_idle htask
    have hrunning : ¬ p.server.task.Panicked :=
      Task.not_panicked_of_eq htask id
    have hunreceived : (p.server.apply block).unreceived = p.server.unreceived := by
      rw [Server.unreceived_of_running hrunning]
      obtain ⟨rt, happly | happly | happly⟩ := Server.apply_cases htask block
      · rw [happly]
        rfl
      · rw [happly]
        exact Server.unreceived_of_running hrunning
      · rw [happly]
        rfl
    rcases h.serial.apply htask block with hserial | hserial
    · refine ⟨_, _, h.of_server rfl rfl hrunning hserial (fun hne => absurd hresting hne)
        (congrArg _ hunreceived) rfl rfl ?_⟩
      rw [hblocks]
      rfl
    · refine ⟨_, _, h.of_server rfl rfl hrunning hserial (fun hne => absurd hresting hne) ?_ rfl
        rfl ?_⟩
      · rw [withServer, hunreceived]
        simp [Branch.ext?]
      · simp [hblocks, Branch.block?]
  · exact ⟨_, _, h.of_task rfl rfl rfl rfl h.turn rfl rfl⟩

theorem evict (h : Linear node moves branches taken p) : ∃ branches' taken',
    Linear node (moves ++ [.evict]) branches' taken' { p with server := p.server.evict } := by
  by_cases htask : ∃ included, p.server.task = .applied included
  · obtain ⟨included, htask⟩ := htask
    have hrunning : ¬ p.server.task.Panicked :=
      Task.not_panicked_of_eq htask id
    have hrun : p.server.evict.channel = p.server.channel ∧ p.server.evict.task = .idle := by
      simp [Server.evict, htask]
    have hdone : ¬ p.server.evict.task.Panicked :=
      Task.not_panicked_of_eq hrun.2 id
    obtain ⟨block, rfl, hserial⟩ := h.serial.evict htask
    refine ⟨_, _, h.of_server rfl rfl hrunning hserial (fun _ => hrun.2) ?_ rfl
      (if_neg hdone).symm ?_⟩
    · rw [Server.unreceived_of_running hdone, Server.unreceived_of_running hrunning, hrun.1]
      simp [Branch.ext?]
    · simp [Branch.block?]
  · rw [Server.evict_of_not_applied htask]
    exact ⟨_, _, h.of_task rfl rfl rfl rfl h.turn rfl rfl⟩

theorem execute (h : Linear node moves branches taken p) :
    ∃ branches', Linear node (moves ++ [.execute]) branches' taken p.execute := by
  by_cases htask : ∃ batch, p.server.task = .selected batch
  · obtain ⟨batch, htask⟩ := htask
    have hrunning : ¬ p.server.task.Panicked :=
      Task.not_panicked_of_eq htask id
    have hresting : p.turn = .resting := by
      by_contra hne
      cases htask.symm.trans (h.turn hne)
    have hunreceived : p.server.execute.unreceived = p.server.unreceived := by
      rw [Server.unreceived_of_running hrunning]
      obtain ⟨rt, hexecute | hexecute⟩ := Server.execute_cases htask
      · rw [hexecute]
        rfl
      · rw [hexecute]
        rfl
    obtain ⟨hserver, hturn, hhandlers, hblocks⟩ := execute_of_selected htask
    obtain ⟨order, hserial⟩ := h.serial.execute htask
    refine ⟨_, h.of_server rfl rfl hrunning hserial (fun hne => absurd (hturn.trans hresting) hne)
      ?_ hhandlers (by rw [hblocks, hserver]; rfl) ?_⟩
    · rw [hserver, hunreceived]
      simp [Branch.ext?]
    · simp [Branch.block?]
  · rw [execute_of_not_selected htask]
    exact ⟨_, h.of_task rfl rfl rfl rfl h.turn rfl rfl⟩

theorem publish (h : Linear node moves branches taken p) (accepted : Bool) :
    Linear node (moves ++ [.publish accepted]) branches taken (p.publish accepted) := by
  rw [Process.publish]
  split
  · exact h.of_task rfl rfl rfl rfl h.turn rfl rfl
  · split_ifs
    · exact h.of_task rfl rfl rfl rfl h.turn rfl rfl
    · exact h.of_task rfl rfl rfl rfl h.turn rfl rfl

theorem tick (h : Linear node moves branches taken p) :
    Linear node (moves ++ [.tick]) branches taken p.tick := by
  rw [Process.tick]
  split
  · rename_i _ htask
    split_ifs
    · exact h.of_task rfl rfl rfl rfl (fun _ => htask) rfl rfl
    · exact h.of_task rfl rfl rfl rfl h.turn rfl rfl
  · exact h.of_task rfl rfl rfl rfl h.turn rfl rfl

theorem next [LinearOrder PeerId] (h : Linear node moves branches taken p) (move : Move PeerId) :
    ∃ branches' taken', Linear node (moves ++ [move]) branches' taken' (Process.next move p) := by
  cases move with
  | post raw => exact ⟨_, _, h.post raw⟩
  | forward ext => exact ⟨_, _, h.forward ext⟩
  | gossip topic data => exact ⟨_, _, h.gossip topic data⟩
  | connection e =>
      have hnode : (Node.connectionEvent e p.server.node).state.runtime = p.server.node.runtime ∧
          (Node.connectionEvent e p.server.node).state.mempool = p.server.node.mempool := by
        cases e <;> exact ⟨rfl, rfl⟩
      exact ⟨_, _, h.congr rfl rfl (h.serial.congr (fun _ => rfl) id hnode.1 hnode.2) h.turn
        Iff.rfl rfl rfl rfl⟩
  | publish accepted => exact ⟨_, _, h.publish accepted⟩
  | receive =>
      obtain ⟨branches', hnext⟩ := h.receive
      exact ⟨_, _, hnext⟩
  | apply => exact h.apply
  | evict => exact h.evict
  | tick => exact ⟨_, _, h.tick⟩
  | checkSlot slot => exact ⟨_, _, h.checkSlot slot⟩
  | drain => exact ⟨_, _, h.drain⟩
  | select order =>
      obtain ⟨branches', hnext⟩ := h.select order
      exact ⟨_, _, hnext⟩
  | execute =>
      obtain ⟨branches', hnext⟩ := h.execute
      exact ⟨_, _, hnext⟩

theorem run [LinearOrder PeerId] (h : Linear node moves branches taken p)
    (more : List (Move PeerId)) : ∃ branches' taken',
      Linear node (moves ++ more) branches' taken' (Trace.run Process.next more p) := by
  induction more generalizing moves branches taken p with
  | nil =>
      rw [List.append_nil]
      exact ⟨_, _, h⟩
  | cons move more ih =>
      obtain ⟨_, _, hnext⟩ := h.next move
      rw [← List.singleton_append, ← List.append_assoc]
      exact ih hnext

end Linear

/-! ## Publications -/

/-- The blocks handed to gossipsub or waiting for it are blocks the task has published, in its
order. -/
def Announced (p : Process PeerId) : Prop :=
  p.announcements.Sublist ((published p.log).map (PublishReq.mk blockTopic))

theorem Announced.next [LinearOrder PeerId] {p : Process PeerId} (h : p.Announced)
    (move : Move PeerId) : (next move p).Announced := by
  have hpublished : ∀ (log : List Event) (report : List NodeEvent),
      published (p.log ++ (log.map .runtime ++ report)) = published p.log ++ published report := by
    intro log report
    rw [published_append, published_append, published_map_runtime, List.nil_append]
  cases logged_next move p with
  | nothing hrt hlog hannounced =>
      rw [Announced, hlog]
      exact hannounced.trans h
  | executed block report hruntime hquiet hrt hlog hannounced =>
      rw [Announced, hlog, hpublished, hquiet, List.append_nil, hannounced]
      exact h
  | produced block hnum hret hrt hlog hannounced =>
      rw [Announced, hlog, hpublished, (publish_producedReport block).2, hannounced,
        List.map_append, List.map_singleton]
      exact List.Sublist.append h (.refl _)

/-! ## The branches of a run -/

/-- The steps that end the branch the task is in. -/
def completion (order : HashOrder) (self : Process PeerId) : List (Move PeerId) :=
  match self.server.task with
  | .drained _ => [.select order, .execute]
  | .selected _ => [.execute]
  | .applied _ => [.evict]
  | _ => []

/-- After some moves the process is where the branches lead that it went through. What came in is in
the branches, on its way to them or, once the task has panicked, lost. -/
structure Sequential (node : Node PeerId) (moves : List (Move PeerId)) (branches : List Branch)
    (p : Process PeerId) : Prop where
  runtime : p.server.node.runtime = (Exec.each Node.branch branches node).state.runtime
  mempool : p.server.node.mempool = (Exec.each Node.branch branches node).state.mempool
  log : p.log = (Exec.each Node.branch branches node).log
  returned : p.server.task = .idle → (Exec.each Node.branch branches node).outcome = .ret ()
  blocks : ∃ lost, branches.filterMap Branch.block? ++ (p.blocks ++ lost) =
    moves.filterMap Move.block? ∧ (¬ p.server.task.Panicked → lost = [])
  exts : ∃ lost, (branches.filterMap Branch.ext? ++ (p.server.channel ++ p.handlers ++ lost)).Perm
    (moves.filterMap Move.ext?) ∧ (¬ p.server.task.Panicked → lost = [])
  announced : p.announcements.Sublist
    ((published (Exec.each Node.branch branches node).log).map (PublishReq.mk blockTopic))

section Theorem

variable [LinearOrder PeerId]

/-- Ending a branch leaves the task idle, unless it panics. -/
theorem task_completion (order : HashOrder) (p : Process PeerId) :
    let task := (Trace.run next (p.completion order) p).server.task
    task = .idle ∨ task.Panicked := by
  intro task
  have hexecute : ∀ {q : Process PeerId} {batch : List Types.Extrinsic},
      q.server.task = .selected batch →
        q.execute.server.task = .idle ∨ q.execute.server.task.Panicked := by
    intro q batch hq
    rw [(execute_of_selected hq).1]
    obtain ⟨rt, hexecute | hexecute⟩ := Server.execute_cases hq
    · exact .inl (by rw [hexecute])
    · exact .inr (by rw [hexecute]; trivial)
  cases htask : p.server.task with
  | idle =>
      left
      simp [task, completion, htask]
  | drained candidates =>
      have hselect : (∃ batch, (p.server.select order).task = .selected batch) ∨
          (p.server.select order).task.Panicked := by
        rw [Server.select_of_drained order htask]
        dsimp only
        split_ifs
        · exact .inl ⟨_, rfl⟩
        · exact .inr trivial
      simp only [task, completion, htask, Trace.run, List.foldl_cons, List.foldl_nil, next]
      rcases hselect with ⟨batch, hselect⟩ | hselect
      · exact hexecute hselect
      · rw [execute_of_not_selected]
        · exact .inr hselect
        · rintro ⟨batch, hbatch⟩
          have hbatch : (p.server.select order).task = .selected batch := hbatch
          rw [hbatch] at hselect
          exact hselect
  | selected batch =>
      simp only [task, completion, htask, Trace.run, List.foldl_cons, List.foldl_nil, next]
      exact hexecute htask
  | applied included =>
      left
      simp [task, completion, htask, Trace.run, next, Server.evict]
  | panicked hands sent =>
      right
      simp [task, completion, htask, Trace.run, Task.Panicked]

/-- However the steps of handlers, network loop and task interleave: once the branch the task is in
is over, the process is where whole branches lead, run one after the other. -/
theorem branches_atomic (node : Node PeerId) (moves : List (Move PeerId)) (order : HashOrder) :
    let p := Trace.run next moves (start node)
    let p' := Trace.run next (p.completion order) p
    (p'.server.task = .idle ∨ p'.server.task.Panicked) ∧
      ∃ branches, Sequential node moves branches p' := by
  intro p p'
  have hover : p'.server.task = .idle ∨ p'.server.task.Panicked := task_completion order p
  refine ⟨hover, ?_⟩
  obtain ⟨_, _, hreached⟩ := (linear_start node).run moves
  obtain ⟨branches, taken, h⟩ := hreached.run (p.completion order)
  have hquiet : (p.completion order).filterMap Move.ext? = [] ∧
      (p.completion order).filterMap Move.block? = [] := by
    rw [completion]
    split <;> exact ⟨rfl, rfl⟩
  rw [List.nil_append] at h
  obtain ⟨hserial, -, hblocks, hexts⟩ := h
  rw [List.filterMap_append, hquiet.1, List.append_nil] at hexts
  rw [List.filterMap_append, hquiet.2, List.append_nil] at hblocks
  have hannounced : p'.Announced := by
    have hstart : (start node).Announced := List.Sublist.refl _
    have hstep : ∀ move (q : Process PeerId), q.Announced → (next move q).Announced :=
      fun move q hq => hq.next move
    exact Trace.run_keeps hstep (p.completion order) (Trace.run_keeps hstep moves hstart)
  have hplace : p'.server.node.runtime = (Exec.each Node.branch branches node).state.runtime ∧
      p'.server.node.mempool = (Exec.each Node.branch branches node).state.mempool ∧
      p'.log = (Exec.each Node.branch branches node).log ∧ taken = [] := by
    rcases hover with htask | htask
    · exact (hserial.of_idle htask).2
    · exact hserial.of_panicked htask
  obtain ⟨hrt, hpool, hlog, rfl⟩ := hplace
  obtain ⟨lost, hsent, hnone⟩ := p'.server.exists_lost
  refine ⟨branches, hrt, hpool, hlog, fun htask => (hserial.of_idle htask).1, hblocks,
    ⟨lost, ?_, hnone⟩, ?_⟩
  · rw [hsent] at hexts
    refine .trans (.append_left _ ?_) hexts
    rw [List.append_assoc, List.append_assoc]
    exact List.perm_append_comm.append_left _
  · rw [← hlog]
    exact hannounced

end Theorem

end Process

end RustStateMachine
