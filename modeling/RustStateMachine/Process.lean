import RustStateMachine.Peers
import RustStateMachine.Wire

/-!
# One process

The network loop, the RPC handlers and the node task of `run`, with the channels
between them. Their steps interleave in any order, and the task gives up its
locks inside a branch.
-/

namespace RustStateMachine

open Lib Lib.KeyValue Std Support

/-! ## The steps of a process -/

/-- A message for the network loop to publish. -/
structure PublishReq where
  topic : String
  data : Bytes
deriving DecidableEq

/-- Where the tick branch stands before it produces: not in it, a peer is connected, or the slot is
the node's own. -/
inductive Turn where
  | resting
  | ticking
  | author
deriving DecidableEq

/-- A process: the node with its task, the extrinsics that handlers have yet to send, the blocks and
the publications on their channels, what was published, and what the task and the network loop have
done besides. -/
structure Process (PeerId : Type) where
  server : Server PeerId
  turn : Turn
  handlers : List Types.Extrinsic
  blocks : List Types.Block
  requests : List PublishReq
  sent : List PublishReq
  log : List NodeEvent
  console : List NodeEvent

/-- One step of a handler, of the network loop or of the task. -/
inductive Process.Move (PeerId : Type) where
  | post (raw : Bytes)
  | forward (ext : Types.Extrinsic)
  | gossip (topic : String) (data : Bytes)
  | connection (e : ConnectionEvent PeerId)
  | publish (accepted : Bool)
  | receive
  | apply
  | evict
  | tick
  | checkSlot (slot : ℕ)
  | drain
  | select (order : HashOrder)
  | execute

/-- The lines printed for a block of one's own. -/
def producedLines (block : Types.Block) : List String :=
  let txSummary := block.extrinsics.map fun e =>
    "    signer=" ++ e.signer.debug ++ " nonce=" ++ toString e.nonce.toNat
  ("[node] produced block #" ++ toString block.header.blockNumber.toNat ++ " (" ++
    toString txSummary.length ++ " tx)") :: txSummary

/-- What the task does once its own block was executed. -/
def producedReport (block : Types.Block) : Outcome DispatchResult → List NodeEvent
  | .ret (.ok ()) => (producedLines block).map .println ++ [.publish (encode block)]
  | .ret (.error e) => [.eprintln ("[node] block production failed: " ++ e)]
  | .panicked _ => []

/-- What the task prints once a peer block was executed. -/
def appliedReport (rt : Runtime) : Outcome DispatchResult → List NodeEvent
  | .ret (.ok ()) => [.println ("[node] applied peer block, height=" ++
      toString rt.system.blockNumber.toNat)]
  | .ret (.error e) => [.eprintln ("[node] peer block rejected: " ++ e)]
  | .panicked _ => []

namespace Process

variable {PeerId : Type}

/-- A process whose task is about to enter its loop. -/
def start (node : Node PeerId) : Process PeerId :=
  ⟨⟨node, [], .idle⟩, .resting, [], [], [], [], [], []⟩

/-- `POST /submit`: the body is handed over for publication; the extrinsic is sent afterwards. -/
def post (raw : Bytes) (self : Process PeerId) : Process PeerId :=
  match (decode raw : Option (Types.Extrinsic × Bytes)) with
  | none => self
  | some (ext, _) =>
      { self with
        requests := self.requests ++ [⟨extrinsicTopic, raw⟩]
        handlers := self.handlers ++ [ext] }

/-- A handler sends its extrinsic to the task. -/
def forward (ext : Types.Extrinsic) (self : Process PeerId) : Process PeerId :=
  if ext ∈ self.handlers then
    { self with server := self.server.send ext, handlers := self.handlers.erase ext }
  else self

/-- The network loop hands over what a message holds; the sends fail once the task has panicked. -/
def gossip (topic : String) (data : Bytes) (self : Process PeerId) : Process PeerId :=
  match self.server.task with
  | .panicked hands sent =>
      let r := receiveGossip topic data ⟨sent, []⟩
      { self with
        server := { self.server with task := .panicked hands r.state.extrinsics }
        console := self.console ++ r.log }
  | _ =>
      let r := receiveGossip topic data ⟨self.server.channel, self.blocks⟩
      { self with
        server := { self.server with channel := r.state.extrinsics }
        blocks := r.state.blocks
        console := self.console ++ r.log }

/-- The network loop publishes the oldest request, unless gossipsub refuses it. -/
def publish (accepted : Bool) (self : Process PeerId) : Process PeerId :=
  match self.requests with
  | [] => self
  | req :: requests =>
      if accepted then { self with requests, sent := self.sent ++ [req] }
      else { self with
        requests, console := self.console ++ [.eprintln "[net] publish error"] }

/-- A step that may unwind the task: the blocks on its channel are destroyed with it. -/
def withServer (server : Server PeerId) (self : Process PeerId) : Process PeerId :=
  { self with server, blocks := if server.task.Panicked then [] else self.blocks }

/-- The task goes on with a branch, unless it is in the middle of a tick. -/
def unlessTicking (step : Server PeerId → Server PeerId) (self : Process PeerId) :
    Process PeerId :=
  match self.turn with
  | .resting => { self with server := step self.server }
  | _ => self

/-- The slot tick reads whether a peer is connected. -/
def tick (self : Process PeerId) : Process PeerId :=
  match self.turn, self.server.task with
  | .resting, .idle =>
      if 1 < self.server.node.peers.length then { self with turn := .ticking } else self
  | _, _ => self

/-- The production starts: the candidates leave the pool. -/
def drain (self : Process PeerId) : Process PeerId :=
  match self.turn with
  | .author => { self with server := self.server.drain, turn := .resting }
  | _ => self

/-- The slot tick reads the clock and the peer list again. -/
def checkSlot [DecidableEq PeerId] (slot : ℕ) (self : Process PeerId) : Process PeerId :=
  match self.turn with
  | .ticking =>
      match (Node.isMySlot slot self.server.node).outcome with
      | .ret true => { self with turn := .author }
      | .ret false => { self with turn := .resting }
      | .panicked _ => { self.withServer (self.server.unwind []) with turn := .resting }
  | _ => self

variable [Ed25519]

/-- The oldest block on the channel is executed. -/
def apply (self : Process PeerId) : Process PeerId :=
  match self.turn, self.server.task, self.blocks with
  | .resting, .idle, block :: blocks =>
      let r := Runtime.executeBlock block self.server.node.runtime
      { { self with blocks }.withServer (self.server.apply block) with
        log := self.log ++ (r.log.map .runtime ++ appliedReport r.state r.outcome) }
  | _, _, _ => self

/-- The batch is executed as the next block, and that block handed over for publication. -/
def execute (self : Process PeerId) : Process PeerId :=
  match self.server.task with
  | .selected batch =>
      match checkedAdd self.server.node.runtime.system.blockNumber 1 with
      | none => self.withServer self.server.execute
      | some nextNum =>
          let block : Types.Block := ⟨⟨nextNum⟩, batch⟩
          let r := Runtime.executeBlock block self.server.node.runtime
          let report := producedReport block r.outcome
          { self.withServer self.server.execute with
            log := self.log ++ (r.log.map .runtime ++ report)
            requests := self.requests ++ (published report).map (PublishReq.mk blockTopic) }
  | _ => self

/-- One step of the process. -/
def next [LinearOrder PeerId] : Move PeerId → Process PeerId → Process PeerId
  | .post raw, self => self.post raw
  | .forward ext, self => self.forward ext
  | .gossip topic data, self => self.gossip topic data
  | .connection e, self =>
      { self with server := { self.server with
          node := (Node.connectionEvent e self.server.node).state } }
  | .publish accepted, self => self.publish accepted
  | .receive, self => self.unlessTicking Server.receive
  | .apply, self => self.apply
  | .evict, self => { self with server := self.server.evict }
  | .tick, self => self.tick
  | .checkSlot slot, self => self.checkSlot slot
  | .drain, self => self.drain
  | .select order, self => self.withServer (self.server.select order)
  | .execute, self => self.execute

/-! ## What a step brings in -/

end Process

/-- The extrinsic a step brings in. -/
def Process.Move.ext? {PeerId : Type} : Process.Move PeerId → Option Types.Extrinsic
  | .post raw => (decode raw).map Prod.fst
  | .gossip topic data => if topic = extrinsicTopic then (decode data).map Prod.fst else none
  | _ => none

/-- The block a step brings in. -/
def Process.Move.block? {PeerId : Type} : Process.Move PeerId → Option Types.Block
  | .gossip topic data => if topic = blockTopic then (decode data).map Prod.fst else none
  | _ => none

namespace Process

variable {PeerId : Type}

/-- What the network loop hands over. -/
theorem receiveGossip_state (topic : String) (data : Bytes) (self : Channels) :
    (receiveGossip topic data self).state =
      ⟨self.extrinsics ++ (Move.gossip topic data : Move PeerId).ext?.toList,
        self.blocks ++ (Move.gossip topic data : Move PeerId).block?.toList⟩ := by
  have hne : extrinsicTopic ≠ blockTopic := by decide
  rw [receiveGossip, Move.ext?, Move.block?]
  by_cases hext : topic = extrinsicTopic
  · have hblk : topic ≠ blockTopic := hext ▸ hne
    rw [if_pos hext, if_pos hext, if_neg hblk]
    cases h : (decode data : Option (Types.Extrinsic × Bytes)) with
    | none => simp
    | some p => simp [Channels.sendExtrinsic]
  · rw [if_neg hext, if_neg hext]
    by_cases hblk : topic = blockTopic
    · rw [if_pos hblk, if_pos hblk]
      cases h : (decode data : Option (Types.Block × Bytes)) with
      | none => simp
      | some p => simp [Channels.sendBlock]
    · rw [if_neg hblk, if_neg hblk]
      simp

/-- Gossip reaches a task that has not panicked. -/
theorem gossip_of_running {p : Process PeerId} (h : ¬ p.server.task.Panicked) (topic : String)
    (data : Bytes) :
    (p.gossip topic data).server = { p.server with
      channel := p.server.channel ++ (Move.gossip topic data : Move PeerId).ext?.toList } ∧
    (p.gossip topic data).blocks =
      p.blocks ++ (Move.gossip topic data : Move PeerId).block?.toList := by
  have hstate := @receiveGossip_state PeerId topic data ⟨p.server.channel, p.blocks⟩
  have hchannel := congrArg Channels.extrinsics hstate
  have hblocks := congrArg Channels.blocks hstate
  rw [gossip]
  split
  · rename_i hands sent htask
    rw [htask] at h
    exact absurd trivial h
  · exact ⟨congrArg (fun channel => { p.server with channel }) hchannel, hblocks⟩

/-- What is gossiped to a task that has panicked is lost. -/
theorem gossip_of_panicked {p : Process PeerId} {hands sent : List Types.Extrinsic}
    (h : p.server.task = .panicked hands sent) (topic : String) (data : Bytes) :
    (p.gossip topic data).server = { p.server with
      task := .panicked hands (sent ++ (Move.gossip topic data : Move PeerId).ext?.toList) } ∧
    (p.gossip topic data).blocks = p.blocks := by
  have hstate := @receiveGossip_state PeerId topic data ⟨sent, []⟩
  simp only [gossip, h]
  exact ⟨congrArg (fun sent => { p.server with task := .panicked hands sent })
    (congrArg Channels.extrinsics hstate), trivial⟩

theorem gossip_handlers (topic : String) (data : Bytes) (p : Process PeerId) :
    (p.gossip topic data).handlers = p.handlers := by
  rw [gossip]
  split <;> rfl

variable [Ed25519]

/-! ## What a step logs and announces -/

omit [Ed25519] in
theorem runtimeLog_append (l l' : List NodeEvent) :
    runtimeLog (l ++ l') = runtimeLog l ++ runtimeLog l' := List.filterMap_append

omit [Ed25519] in
@[simp] theorem runtimeLog_map_runtime (log : List Event) :
    runtimeLog (log.map .runtime) = log := by
  simp [runtimeLog, NodeEvent.runtime?, List.filterMap_map, Function.comp_def]

omit [Ed25519] in
@[simp] theorem runtimeLog_map_println (lines : List String) :
    runtimeLog (lines.map .println) = [] := by
  simp [runtimeLog, NodeEvent.runtime?, Function.comp_def]

omit [Ed25519] in
theorem quiet_appliedReport (rt : Runtime) (o : Outcome DispatchResult) :
    runtimeLog (appliedReport rt o) = [] ∧ published (appliedReport rt o) = [] := by
  match o with
  | .ret (.ok ()) => exact ⟨rfl, rfl⟩
  | .ret (.error e) => exact ⟨rfl, rfl⟩
  | .panicked m => exact ⟨rfl, rfl⟩

omit [Ed25519] in
theorem publish_producedReport (block : Types.Block) :
    runtimeLog (producedReport block (.ret (.ok ()))) = [] ∧
      published (producedReport block (.ret (.ok ()))) = [encode block] := by
  rw [producedReport, runtimeLog_append, runtimeLog_map_println, published_append,
    published_map_println]
  exact ⟨rfl, rfl⟩

omit [Ed25519] in
theorem quiet_producedReport {block : Types.Block} {o : Outcome DispatchResult}
    (h : o ≠ .ret (.ok ())) :
    runtimeLog (producedReport block o) = [] ∧ published (producedReport block o) = [] := by
  match o with
  | .ret (.ok ()) => exact absurd rfl h
  | .ret (.error e) => exact ⟨rfl, rfl⟩
  | .panicked m => exact ⟨rfl, rfl⟩

/-- The block messages handed to gossipsub or waiting for it. -/
def announcements (self : Process PeerId) : List PublishReq :=
  (self.sent ++ self.requests).filter fun req => req.topic = blockTopic

/-- What a step adds to the log and to the announcements: nothing, the execution of a block with a
report, or that of the node's own next block and its publication. A refused message is no longer
announced. -/
inductive Logged (p p' : Process PeerId) : Prop
  | nothing (hrt : p'.server.node.runtime = p.server.node.runtime) (hlog : p'.log = p.log)
      (hannounced : p'.announcements.Sublist p.announcements)
  | executed (block : Types.Block) (report : List NodeEvent) (hruntime : runtimeLog report = [])
      (hpublished : published report = [])
      (hrt : p'.server.node.runtime =
        (Runtime.executeBlock block p.server.node.runtime).state)
      (hlog : p'.log = p.log ++
        ((Runtime.executeBlock block p.server.node.runtime).log.map .runtime ++ report))
      (hannounced : p'.announcements = p.announcements)
  | produced (block : Types.Block)
      (hnum : block.header.blockNumber.toNat = p.server.node.runtime.height + 1)
      (hret : (Runtime.executeBlock block p.server.node.runtime).outcome = .ret (.ok ()))
      (hrt : p'.server.node.runtime =
        (Runtime.executeBlock block p.server.node.runtime).state)
      (hlog : p'.log = p.log ++
        ((Runtime.executeBlock block p.server.node.runtime).log.map .runtime ++
          producedReport block (.ret (.ok ()))))
      (hannounced : p'.announcements = p.announcements ++ [⟨blockTopic, encode block⟩])

/-- A step that touches neither the runtime nor what is logged and announced. -/
theorem Logged.of_same {p p' : Process PeerId}
    (hrt : p'.server.node.runtime = p.server.node.runtime) (hlog : p'.log = p.log)
    (hannounced : p'.announcements = p.announcements) : Logged p p' :=
  .nothing hrt hlog (hannounced ▸ List.Sublist.refl _)

theorem logged_post (raw : Bytes) (p : Process PeerId) : Logged p (p.post raw) := by
  rw [post]
  split
  · exact .of_same rfl rfl rfl
  · refine .of_same rfl rfl ?_
    have hne : extrinsicTopic ≠ blockTopic := by decide
    simp [announcements, hne]

theorem logged_forward (ext : Types.Extrinsic) (p : Process PeerId) :
    Logged p (p.forward ext) := by
  rw [forward]
  split_ifs
  · exact .of_same (congrArg Node.runtime (Server.send_node ext p.server)) rfl rfl
  · exact .of_same rfl rfl rfl

theorem logged_gossip (topic : String) (data : Bytes) (p : Process PeerId) :
    Logged p (p.gossip topic data) := by
  rw [gossip]
  split
  · exact .of_same rfl rfl rfl
  · exact .of_same rfl rfl rfl

theorem logged_publish (accepted : Bool) (p : Process PeerId) :
    Logged p (p.publish accepted) := by
  rw [publish]
  split
  · exact .of_same rfl rfl rfl
  · rename_i req requests hrequests
    split_ifs
    · refine .of_same rfl rfl ?_
      rw [announcements, announcements, hrequests, List.append_assoc, List.singleton_append]
    · refine .nothing rfl rfl (.filter _ ?_)
      rw [hrequests]
      exact (List.sublist_cons_self req requests).append_left p.sent

theorem logged_tick (p : Process PeerId) : Logged p p.tick := by
  rw [tick]
  split
  · split_ifs
    · exact .of_same rfl rfl rfl
    · exact .of_same rfl rfl rfl
  · exact .of_same rfl rfl rfl

theorem logged_checkSlot [DecidableEq PeerId] (slot : ℕ) (p : Process PeerId) :
    Logged p (p.checkSlot slot) := by
  rw [checkSlot]
  split
  · split
    · exact .of_same rfl rfl rfl
    · exact .of_same rfl rfl rfl
    · exact .of_same rfl rfl rfl
  · exact .of_same rfl rfl rfl

theorem logged_apply (p : Process PeerId) : Logged p p.apply := by
  rw [apply]
  split
  · rename_i block blocks hturn htask hblocks
    have hrt : (p.server.apply block).node.runtime =
        (Runtime.executeBlock block p.server.node.runtime).state :=
      Server.apply_runtime htask block
    obtain ⟨hruntime, hpublished⟩ := quiet_appliedReport _ _
    exact .executed block _ hruntime hpublished hrt rfl rfl
  · exact .of_same rfl rfl rfl

omit [Ed25519] in
/-- New block messages are announced behind the others. -/
theorem filter_blockTopic (sent requests : List PublishReq) (msgs : List Bytes) :
    ((sent ++ (requests ++ msgs.map (PublishReq.mk blockTopic))).filter
        fun req => req.topic = blockTopic) =
      ((sent ++ requests).filter fun req => req.topic = blockTopic) ++
        msgs.map (PublishReq.mk blockTopic) := by
  have hall : (msgs.map (PublishReq.mk blockTopic)).filter
      (fun req => req.topic = blockTopic) = msgs.map (PublishReq.mk blockTopic) := by
    rw [List.filter_eq_self]
    intro req hreq
    obtain ⟨data, -, rfl⟩ := List.mem_map.mp hreq
    exact decide_eq_true rfl
  rw [← List.append_assoc, List.filter_append, hall]

theorem logged_execute (p : Process PeerId) : Logged p p.execute := by
  rw [execute]
  split
  · rename_i batch htask
    cases hadd : checkedAdd p.server.node.runtime.system.blockNumber 1 with
    | none =>
        refine .of_same ?_ rfl rfl
        simp only [withServer, Server.execute, htask, hadd]
        rfl
    | some nextNum =>
        let block : Types.Block := ⟨⟨nextNum⟩, batch⟩
        have hrt : p.server.execute.node.runtime =
            (Runtime.executeBlock block p.server.node.runtime).state := by
          simp only [Server.execute, htask, hadd, block]
          split_ifs <;> rfl
        by_cases hret : (Runtime.executeBlock block p.server.node.runtime).outcome = .ret (.ok ())
        · refine .produced block (Machine.checkedAdd_one_eq_some.mp hadd) hret hrt ?_ ?_
          · rw [← hret]
          · refine (filter_blockTopic p.sent p.requests _).trans ?_
            rw [hret, (publish_producedReport block).2]
            rfl
        · obtain ⟨hruntime, hpublished⟩ : _ ∧ published (producedReport block _) = [] :=
            quiet_producedReport hret
          refine .executed block _ hruntime hpublished hrt rfl ?_
          refine (filter_blockTopic p.sent p.requests _).trans ?_
          rw [hpublished]
          exact List.append_nil _
  · exact .of_same rfl rfl rfl

/-- The inversion of a step. -/
theorem logged_next [LinearOrder PeerId] (move : Move PeerId) (p : Process PeerId) :
    Logged p (next move p) := by
  cases move with
  | post raw => exact logged_post raw p
  | forward ext => exact logged_forward ext p
  | gossip topic data => exact logged_gossip topic data p
  | connection e => cases e <;> exact .of_same rfl rfl rfl
  | publish accepted => exact logged_publish accepted p
  | receive =>
      rw [next, unlessTicking]
      split
      · exact .of_same (Server.receive_runtime _) rfl rfl
      · exact .of_same rfl rfl rfl
  | apply => exact logged_apply p
  | evict => exact .of_same (Server.evict_runtime _) rfl rfl
  | tick => exact logged_tick p
  | checkSlot slot => exact logged_checkSlot slot p
  | drain =>
      rw [next, drain]
      split
      · exact .of_same (Server.drain_runtime _) rfl rfl
      · exact .of_same rfl rfl rfl
  | select order => exact .of_same (Server.select_runtime _ _) rfl rfl
  | execute => exact logged_execute p

/-- Every step keeps what the execution of a block keeps. -/
theorem keeps_next [LinearOrder PeerId] {I : Runtime → List Event → Prop}
    (hblock : ∀ block, Exec.Keeps I (Runtime.executeBlock block)) (move : Move PeerId)
    (self : Process PeerId) (h : I self.server.node.runtime (runtimeLog self.log)) :
    I (next move self).server.node.runtime (runtimeLog (next move self).log) := by
  have hrun : ∀ (block : Types.Block) (report : List NodeEvent), runtimeLog report = [] →
      I (Runtime.executeBlock block self.server.node.runtime).state (runtimeLog (self.log ++
        ((Runtime.executeBlock block self.server.node.runtime).log.map .runtime ++ report))) := by
    intro block report hreport
    rw [runtimeLog_append, runtimeLog_append, runtimeLog_map_runtime, hreport, List.append_nil]
    exact hblock block _ _ h
  cases logged_next move self with
  | nothing hrt hlog =>
      rw [hrt, hlog]
      exact h
  | executed block report hruntime hpublished hrt hlog =>
      rw [hrt, hlog]
      exact hrun block report hruntime
  | produced block hnum hret hrt hlog =>
      rw [hrt, hlog]
      exact hrun block _ (publish_producedReport block).1

end Process

end RustStateMachine
