import RustStateMachine.Eviction
import RustStateMachine.Rpc

/-!
# The node task between its steps

The task gives up its locks inside a branch: after draining, after selecting,
and between the application of a peer block and the eviction of what it listed.
Extrinsics of one account are followed from the channel through the pool and the
hands of the task into the runtime.
-/

namespace RustStateMachine

open Lib Lib.KeyValue Lib.Runs Std Support

/-- Where the node task stands. A panic destroys what is in the hands of the task and what is on its
channel, and what is sent to it afterwards; the two lists record that and no step reads them. -/
inductive Task where
  | idle
  | drained (candidates : List Types.Extrinsic)
  | selected (batch : List Types.Extrinsic)
  | applied (included : List (Types.AccountId × Types.Nonce))
  | panicked (hands sent : List Types.Extrinsic)
deriving DecidableEq

/-- The task has unwound, and the receiving ends of its channels are gone. -/
def Task.Panicked : Task → Prop
  | .panicked _ _ => True
  | _ => False

instance : DecidablePred Task.Panicked := fun task =>
  match task with
  | .panicked _ _ => isTrue trivial
  | .idle | .drained _ | .selected _ | .applied _ => isFalse id

theorem Task.not_panicked_of_eq {task task' : Task} (h : task = task') (h' : ¬ task'.Panicked) :
    ¬ task.Panicked := by
  rw [h]
  exact h'

theorem Task.panicked_iff {task : Task} :
    task.Panicked ↔ ∃ hands sent, task = .panicked hands sent := by
  cases task <;> simp [Panicked]

/-- A node whose task and handlers share the runtime and the pool, with the extrinsics sent to the
task and not yet received, oldest first. -/
structure Server (PeerId : Type) where
  node : Node PeerId
  channel : List Types.Extrinsic
  task : Task

namespace Server

variable {PeerId : Type}

/-! ## Steps -/

/-- A handler or the network loop sends an extrinsic to the task; the send fails once the task has
panicked. -/
def send (ext : Types.Extrinsic) (self : Server PeerId) : Server PeerId :=
  match self.task with
  | .panicked hands sent => { self with task := .panicked hands (sent ++ [ext]) }
  | _ => { self with channel := self.channel ++ [ext] }

/-- The task panics with these extrinsics in its hands. -/
def unwind (hands : List Types.Extrinsic) (self : Server PeerId) : Server PeerId :=
  { self with channel := [], task := .panicked hands self.channel }

/-- `POST /submit`: the body is published as it is and the extrinsic is sent to the task. The
codec's description of bad bytes is left out of the answer. -/
def submitHandler (raw : Bytes) :
    Exec NodeEvent (Server PeerId) (Except (Rpc.StatusCode × String) Rpc.StatusCode) :=
  match (decode raw : Option (Types.Extrinsic × Bytes)) with
  | none => return .error (.badRequest, "SCALE decode failed")
  | some (ext, _) => do
    Exec.emit (.publish raw)
    Exec.modify (send ext)
    return .ok .accepted

theorem submitHandler_encode (ext : Types.Extrinsic) (self : Server PeerId) :
    submitHandler (encode ext) self =
      ⟨.ret (.ok .accepted), self.send ext, [.publish (encode ext)]⟩ := by
  rw [submitHandler, Codec.decode_encode]
  rfl

/-- The task receives an extrinsic into the pool. -/
def receive (self : Server PeerId) : Server PeerId :=
  match self.task, self.channel with
  | .idle, ext :: channel =>
      { self with node := (Node.receiveExtrinsic ext self.node).state, channel }
  | _, _ => self

/-- First step of a production: the candidates leave the pool. -/
def drain (self : Server PeerId) : Server PeerId :=
  match self.task with
  | .idle =>
      let drained := Mempool.drainForBlock (self.node.mempool.blockLimit.getD 10) self.node.mempool
      { self with node := { self.node with mempool := drained.2 }, task := .drained drained.1 }
  | _ => self

/-- Second step: the runtime is read for the nonces. -/
def select (order : HashOrder) (self : Server PeerId) : Server PeerId :=
  match self.task with
  | .drained candidates =>
      match selectBatch order self.node.runtime.system.nonce candidates with
      | some batch => { self with task := .selected batch }
      | none => self.unwind candidates
  | _ => self

variable [Ed25519]

/-- Third step: the batch is executed as the next block. -/
def execute (self : Server PeerId) : Server PeerId :=
  match self.task with
  | .selected batch =>
      match checkedAdd self.node.runtime.system.blockNumber 1 with
      | none => self.unwind batch
      | some nextNum =>
          let r := Runtime.executeBlock ⟨⟨nextNum⟩, batch⟩ self.node.runtime
          let executed := { self with node := { self.node with runtime := r.state } }
          if r.outcome.Returns then { executed with task := .idle } else executed.unwind batch
  | _ => self

/-- A peer block is executed. -/
def apply (block : Types.Block) (self : Server PeerId) : Server PeerId :=
  match self.task with
  | .idle =>
      let r := Runtime.executeBlock block self.node.runtime
      let executed := { self with node := { self.node with runtime := r.state } }
      match r.outcome with
      | .ret (.ok ()) =>
          { executed with task := .applied (block.extrinsics.map fun e => (e.signer, e.nonce)) }
      | .ret (.error _) => executed
      | .panicked _ => executed.unwind []
  | _ => self

/-- What an applied block listed. -/
def isIncluded (included : List (Types.AccountId × Types.Nonce)) (e : Types.Extrinsic) : Bool :=
  included.any fun p => p.1 = e.signer && p.2 = e.nonce

omit [Ed25519] in
/-- What the applied peer block listed is evicted. -/
def evict (self : Server PeerId) : Server PeerId :=
  match self.task with
  | .applied included =>
      { self with
        node := { self.node with
          mempool := self.node.mempool.retain fun e => !isIncluded included e }
        task := .idle }
  | _ => self

omit [Ed25519] in
theorem drain_of_idle {self : Server PeerId} (h : self.task = .idle) :
    self.drain = ⟨self.node.drained, self.channel, .drained self.node.candidates⟩ := by
  obtain ⟨node, channel, task⟩ := self
  subst h
  simp only [drain, Mempool.drainForBlock_eq]
  rfl

omit [Ed25519] in
theorem select_of_drained (order : HashOrder) {self : Server PeerId}
    {candidates : List Types.Extrinsic} (h : self.task = .drained candidates) :
    self.select order =
      let batch := selected order self.node.runtime.system.nonce candidates
      if ∀ tx ∈ batch, tx.nonce ≠ BitVec.allOnes 32 then { self with task := .selected batch }
      else self.unwind candidates := by
  obtain ⟨node, channel, task⟩ := self
  subst h
  simp only [select, selectBatch_eq]
  by_cases hmax : ∀ tx ∈ selected order node.runtime.system.nonce candidates,
      tx.nonce ≠ BitVec.allOnes 32
  · simp only [if_pos hmax]
  · simp only [if_neg hmax]

omit [Ed25519] in
theorem select_of_fits (order : HashOrder) {self : Server PeerId}
    {candidates : List Types.Extrinsic} (h : self.task = .drained candidates)
    (hmax : ∀ tx ∈ selected order self.node.runtime.system.nonce candidates,
      tx.nonce ≠ BitVec.allOnes 32) :
    self.select order = { self with
      task := .selected (selected order self.node.runtime.system.nonce candidates) } :=
  (select_of_drained order h).trans (if_pos hmax)

omit [Ed25519] in
theorem select_of_overflow (order : HashOrder) {self : Server PeerId}
    {candidates : List Types.Extrinsic} (h : self.task = .drained candidates)
    (hmax : ¬ ∀ tx ∈ selected order self.node.runtime.system.nonce candidates,
      tx.nonce ≠ BitVec.allOnes 32) :
    self.select order = self.unwind candidates :=
  (select_of_drained order h).trans (if_neg hmax)

omit [Ed25519] in
theorem select_of_not_drained (order : HashOrder) {self : Server PeerId}
    (h : ¬ ∃ candidates, self.task = .drained candidates) : self.select order = self := by
  rw [select]
  split
  · rename_i candidates hdrained
    exact absurd ⟨candidates, hdrained⟩ h
  · rfl

omit [Ed25519] in
theorem evict_of_not_applied {self : Server PeerId}
    (h : ¬ ∃ included, self.task = .applied included) : self.evict = self := by
  rw [evict]
  split
  · rename_i included happlied
    exact absurd ⟨included, happlied⟩ h
  · rfl

/-- The execution of a batch ends the production or unwinds the task. -/
theorem execute_cases {self : Server PeerId} {batch : List Types.Extrinsic}
    (h : self.task = .selected batch) : ∃ rt,
      let executed : Server PeerId := { self with node := { self.node with runtime := rt } }
      self.execute = { executed with task := .idle } ∨ self.execute = executed.unwind batch := by
  obtain ⟨node, channel, task⟩ := self
  subst h
  cases hadd : checkedAdd node.runtime.system.blockNumber 1 with
  | none =>
      simp only [execute, hadd]
      exact ⟨node.runtime, .inr rfl⟩
  | some nextNum =>
      simp only [execute, hadd]
      exact ⟨_, ite_eq_or_eq _ _ _⟩

/-- A peer block is applied, or rejected, or unwinds the task. -/
theorem apply_cases {self : Server PeerId} (h : self.task = .idle) (block : Types.Block) : ∃ rt,
    let executed : Server PeerId := { self with node := { self.node with runtime := rt } }
    self.apply block =
        { executed with task := .applied (block.extrinsics.map fun e => (e.signer, e.nonce)) } ∨
      self.apply block = executed ∨ self.apply block = executed.unwind [] := by
  obtain ⟨node, channel, task⟩ := self
  subst h
  refine ⟨(Runtime.executeBlock block node.runtime).state, ?_⟩
  simp only [apply]
  split
  · exact .inl rfl
  · exact .inr (.inl rfl)
  · exact .inr (.inr rfl)

theorem execute_of_max {self : Server PeerId} {batch : List Types.Extrinsic}
    (h : self.task = .selected batch)
    (hmax : self.node.runtime.system.blockNumber = BitVec.allOnes 32) :
    self.execute = self.unwind batch := by
  obtain ⟨node, channel, task⟩ := self
  subst h
  simp only [execute, Machine.checkedAdd_one_eq_none.mpr hmax]

theorem execute_of_next {self : Server PeerId} {block : Types.Block} {rt : Runtime}
    {log : List Event} (h : self.task = .selected block.extrinsics)
    (hnum : block.header.blockNumber.toNat = self.node.runtime.height + 1)
    (hexec : Runtime.executeBlock block self.node.runtime = ⟨.ret (.ok ()), rt, log⟩) :
    self.execute = ⟨{ self.node with runtime := rt }, self.channel, .idle⟩ := by
  obtain ⟨node, channel, task⟩ := self
  subst h
  simp only [execute, Machine.checkedAdd_one_eq_some.mpr hnum]
  rw [hexec]
  rfl

/-- Without a step in between, the three steps of a production are the production, and the task is
idle again unless it panicked. -/
theorem execute_select_drain (order : HashOrder) {self : Server PeerId} (h : self.task = .idle) :
    ((self.drain.select order).execute).node = (Node.produceBlock order self.node).state ∧
      (((self.drain.select order).execute).task = .idle ↔
        (Node.produceBlock order self.node).outcome.Returns) := by
  have hselect : self.drain.select order =
      if ∀ tx ∈ self.node.batch order, tx.nonce ≠ BitVec.allOnes 32 then
        ⟨self.node.drained, self.channel, .selected (self.node.batch order)⟩
      else ⟨self.node.drained, [], .panicked self.node.candidates self.channel⟩ := by
    have hdrained : self.drain.task = .drained self.node.candidates := by rw [drain_of_idle h]
    rw [select_of_drained order hdrained, drain_of_idle h]
    rfl
  rw [hselect]
  have heff := Node.produceBlock_effect order self.node
  generalize Node.produceBlock order self.node = r at heff
  cases heff with
  | overflowed hover =>
      obtain ⟨tx, htx, htop⟩ := hover
      rw [if_neg fun hmax => hmax tx htx htop]
      exact ⟨rfl, fun hidle => Task.noConfusion hidle, False.elim⟩
  | atMaxHeight hmax htop =>
      let ready : Server PeerId :=
        ⟨self.node.drained, self.channel, .selected (self.node.batch order)⟩
      have hready : ready.task = .selected (self.node.batch order) := rfl
      rw [if_pos hmax, execute_of_max hready htop]
      exact ⟨rfl, fun hidle => Task.noConfusion hidle, False.elim⟩
  | @produced block rt log lines hmax hnum hexts hexec =>
      let ready : Server PeerId :=
        ⟨self.node.drained, self.channel, .selected block.extrinsics⟩
      have hready : ready.task = .selected block.extrinsics := rfl
      rw [if_pos hmax, ← hexts, execute_of_next hready hnum hexec]
      exact ⟨rfl, fun _ => trivial, fun _ => rfl⟩

/-- Nothing is evicted after a peer block that is not applied. -/
theorem apply_of_not_ok {block : Types.Block} {node : Node PeerId}
    (h : (Runtime.executeBlock block node.runtime).outcome ≠ .ret (.ok ()))
    (channel : List Types.Extrinsic) :
    let executed : Server PeerId :=
      ⟨{ node with runtime := (Runtime.executeBlock block node.runtime).state }, channel, .idle⟩
    (⟨node, channel, .idle⟩ : Server PeerId).apply block = executed ∨
      (⟨node, channel, .idle⟩ : Server PeerId).apply block = executed.unwind [] := by
  simp only [apply]
  generalize Runtime.executeBlock block node.runtime = r at h ⊢
  obtain ⟨o, rt, log⟩ := r
  match o with
  | .ret (.ok ()) => exact absurd rfl h
  | .ret (.error e) => exact .inl rfl
  | .panicked m => exact .inr rfl

/-- Without a step in between, applying and evicting is the peer-block branch. -/
theorem evict_apply (block : Types.Block) {self : Server PeerId} (h : self.task = .idle) :
    (self.apply block).evict.node = (Node.receiveBlock block self.node).state := by
  obtain ⟨node, channel, task⟩ := self
  subst h
  cases hexec : Runtime.executeBlock block node.runtime with
  | mk o rt log =>
      match o with
      | .ret (.ok ()) =>
          rw [Node.receiveBlock_of_ok hexec]
          simp only [apply, hexec]
          rfl
      | .ret (.error e) =>
          rw [Node.receiveBlock_of_error hexec]
          simp only [apply, hexec]
          rfl
      | .panicked m =>
          rw [Node.receiveBlock_of_panicked hexec]
          simp only [apply, hexec]
          rfl

/-! Only an execution changes the runtime. -/

omit [Ed25519] in
@[simp] theorem receive_runtime (self : Server PeerId) :
    self.receive.node.runtime = self.node.runtime := by
  rw [receive]
  split <;> rfl

omit [Ed25519] in
@[simp] theorem drain_runtime (self : Server PeerId) :
    self.drain.node.runtime = self.node.runtime := by
  rw [drain]
  split <;> rfl

omit [Ed25519] in
@[simp] theorem select_runtime (order : HashOrder) (self : Server PeerId) :
    (self.select order).node.runtime = self.node.runtime := by
  rw [select]
  split
  · split <;> rfl
  · rfl

omit [Ed25519] in
@[simp] theorem evict_runtime (self : Server PeerId) :
    self.evict.node.runtime = self.node.runtime := by
  rw [evict]
  split <;> rfl

theorem apply_runtime {self : Server PeerId} (h : self.task = .idle) (block : Types.Block) :
    (self.apply block).node.runtime = (Runtime.executeBlock block self.node.runtime).state := by
  simp only [apply, h]
  split <;> rfl

/-! ## One account's extrinsics -/

/-- The extrinsics in the hands of the task. -/
def held (self : Server PeerId) : List Types.Extrinsic :=
  match self.task with
  | .drained candidates => candidates
  | .selected batch => batch
  | _ => []

/-- The extrinsics that a panic of the task has destroyed. -/
def lost (self : Server PeerId) : List Types.Extrinsic :=
  match self.task with
  | .panicked hands sent => hands ++ sent
  | _ => []

/-- The extrinsics that were sent and not received: on the channel, or lost because of a panic. -/
def unreceived (self : Server PeerId) : List Types.Extrinsic :=
  match self.task with
  | .panicked _ sent => self.channel ++ sent
  | _ => self.channel

/-- The pending extrinsics that are not about to be evicted. -/
def staying (self : Server PeerId) : List Types.Extrinsic :=
  match self.task with
  | .applied included => self.node.mempool.pending.filter fun e => !isIncluded included e
  | _ => self.node.mempool.pending

/-- The extrinsics that were sent and are not executed, in the order they were sent: on their way
into the runtime, or lost to a panic. -/
def outstanding (self : Server PeerId) : List Types.Extrinsic :=
  match self.task with
  | .panicked hands sent => hands ++ self.staying ++ sent
  | _ => self.held ++ self.staying ++ self.channel

/-- The outstanding extrinsics of the account are validly signed and carry, in
order, the nonces from the runtime nonce up to `total`. A selected batch stays below the greatest
nonce, no pool capacity drops an extrinsic, and nothing is on the channel of a panicked task. -/
structure Tracks (a : Types.AccountId) (total : ℕ) (s : Server PeerId) : Prop where
  verified : ∀ e ∈ s.outstanding, e.signer = a → e.verify = .ok ()
  nonces : Runtime.noncesOf a s.outstanding = List.range' (s.node.runtime.system.nonce a).toNat
    (total - (s.node.runtime.system.nonce a).toNat)
  nonce_le : (s.node.runtime.system.nonce a).toNat ≤ total
  selectable : ∀ batch, s.task = .selected batch → ∀ tx ∈ batch, tx.nonce ≠ BitVec.allOnes 32
  unbounded : s.node.mempool.maxCapacity = none
  closed : s.task.Panicked → s.channel = []

/-- The block overflows no nonce, and of the account it consumes exactly the pending extrinsics that
it lists. -/
structure TakesPending (a : Types.AccountId) (block : Types.Block) (s : Server PeerId) : Prop where
  bounded : ∀ e ∈ block.extrinsics, e.nonce ≠ BitVec.allOnes 32
  listed : ∀ e ∈ s.node.mempool.pending, e.signer = a → Listed block e →
    Consumed block s.node.runtime e
  taken : ∀ n, (s.node.runtime.system.nonce a).toNat ≤ n →
    (List.range' (s.node.runtime.system.nonce a).toNat
      (n + 1 - (s.node.runtime.system.nonce a).toNat)).Sublist
        (Runtime.signedNonces a block.extrinsics) →
    n ∈ Runtime.noncesOf a s.node.mempool.pending

omit [Ed25519] in
theorem noncesOf_eq_nil_iff {a : Types.AccountId} {exts : List Types.Extrinsic} :
    Runtime.noncesOf a exts = [] ↔ ∀ e ∈ exts, e.signer ≠ a := by
  rw [Runtime.noncesOf, List.map_eq_nil_iff, List.filter_eq_nil_iff]
  simp

omit [Ed25519] in
/-- If all pending extrinsics of the account stay, they are its pending nonces. -/
theorem noncesOf_staying {a : Types.AccountId} {self : Server PeerId}
    (h : ∀ e ∈ self.node.mempool.pending, e.signer = a → e ∈ self.staying) :
    Runtime.noncesOf a self.staying = Runtime.noncesOf a self.node.mempool.pending := by
  obtain ⟨node, channel, task⟩ := self
  cases task with
  | applied included =>
      rw [Runtime.noncesOf, Runtime.noncesOf, staying, List.filter_filter]
      congr 1
      refine List.filter_congr fun e he => ?_
      by_cases hs : e.signer = a
      · have hstays := (List.mem_filter.mp (h e he hs)).2
        rw [hstays, Bool.and_true]
      · rw [decide_eq_false hs, Bool.false_and]
  | idle => rfl
  | drained => rfl
  | selected => rfl
  | panicked => rfl

section Tracks

variable {a : Types.AccountId} {total : ℕ} {self : Server PeerId}

/-- Only the account's extrinsics, its runtime nonce and the capacity matter. -/
theorem Tracks.congr (h : Tracks a total self) {s : Server PeerId}
    (hflight : (s.outstanding.filter fun e => e.signer = a) =
      self.outstanding.filter fun e => e.signer = a)
    (hnonce : s.node.runtime.system.nonce a = self.node.runtime.system.nonce a)
    (hselect : ∀ batch, s.task = .selected batch → ∀ tx ∈ batch, tx.nonce ≠ BitVec.allOnes 32)
    (hcapacity : s.node.mempool.maxCapacity = self.node.mempool.maxCapacity)
    (hclosed : s.task.Panicked → s.channel = []) : Tracks a total s := by
  constructor
  · intro e he hs
    have hmine : e ∈ s.outstanding.filter fun e => e.signer = a :=
      List.mem_filter.mpr ⟨he, decide_eq_true hs⟩
    rw [hflight] at hmine
    exact h.verified e (List.mem_filter.mp hmine).1 hs
  · rw [Runtime.noncesOf, hflight, hnonce]
    exact h.nonces
  · rw [hnonce]
    exact h.nonce_le
  · exact hselect
  · rw [hcapacity]
    exact h.unbounded
  · exact hclosed

omit [Ed25519] in
theorem outstanding_of_running {self : Server PeerId} (h : ¬ self.task.Panicked) :
    self.outstanding = self.held ++ self.staying ++ self.channel := by
  obtain ⟨node, channel, task⟩ := self
  cases task with
  | panicked hands sent => exact absurd trivial h
  | idle => rfl
  | drained => rfl
  | selected => rfl
  | applied => rfl

omit [Ed25519] in
/-- What is sent comes last. -/
theorem outstanding_send (ext : Types.Extrinsic) (self : Server PeerId) :
    (self.send ext).outstanding = self.outstanding ++ [ext] := by
  obtain ⟨node, channel, task⟩ := self
  cases task <;> exact (List.append_assoc _ _ _).symm

omit [Ed25519] in
theorem send_node (ext : Types.Extrinsic) (self : Server PeerId) :
    (self.send ext).node = self.node := by
  rw [send]
  split <;> rfl

omit [Ed25519] in
@[simp] theorem send_panicked_iff {ext : Types.Extrinsic} {self : Server PeerId} :
    (self.send ext).task.Panicked ↔ self.task.Panicked := by
  obtain ⟨node, channel, task⟩ := self
  cases task <;> exact Iff.rfl

omit [Ed25519] in
theorem send_of_running {self : Server PeerId} (h : ¬ self.task.Panicked) (ext : Types.Extrinsic) :
    self.send ext = { self with channel := self.channel ++ [ext] } := by
  obtain ⟨node, channel, task⟩ := self
  cases task with
  | panicked hands sent => exact absurd trivial h
  | _ => rfl

omit [Ed25519] in
theorem unreceived_of_running {self : Server PeerId} (h : ¬ self.task.Panicked) :
    self.unreceived = self.channel := by
  obtain ⟨node, channel, task⟩ := self
  cases task with
  | panicked hands sent => exact absurd trivial h
  | _ => rfl

omit [Ed25519] in
theorem lost_of_running {self : Server PeerId} (h : ¬ self.task.Panicked) : self.lost = [] := by
  obtain ⟨node, channel, task⟩ := self
  cases task with
  | panicked hands sent => exact absurd trivial h
  | _ => rfl

omit [Ed25519] in
/-- What is sent is on the channel or lost. -/
theorem count_send (ext e : Types.Extrinsic) (self : Server PeerId) :
    (self.send ext).channel.count e + (self.send ext).lost.count e =
      self.channel.count e + self.lost.count e + [ext].count e := by
  obtain ⟨node, channel, task⟩ := self
  cases task with
  | panicked hands sent =>
      simp only [send, lost, List.count_append]
      omega
  | _ =>
      simp only [send, lost, List.count_append]
      omega

omit [Ed25519] in
theorem held_send (ext : Types.Extrinsic) (self : Server PeerId) :
    (self.send ext).held = self.held := by
  obtain ⟨node, channel, task⟩ := self
  cases task <;> rfl

/-! Nothing is lost while the task only moves extrinsics. -/

omit [Ed25519] in
theorem lost_receive (self : Server PeerId) : self.receive.lost = self.lost := by
  rw [receive]
  split
  · rename_i htask _
    rw [lost, lost, htask]
  · rfl

omit [Ed25519] in
theorem lost_drain (self : Server PeerId) : self.drain.lost = self.lost := by
  rw [drain]
  split
  · rename_i htask
    rw [lost, lost, htask]
  · rfl

omit [Ed25519] in
theorem lost_evict (self : Server PeerId) : self.evict.lost = self.lost := by
  rw [evict]
  split
  · rename_i htask
    rw [lost, lost, htask]
  · rfl

omit [Ed25519] in
theorem lost_unwind (hands : List Types.Extrinsic) (self : Server PeerId) :
    (self.unwind hands).lost = hands ++ self.channel := rfl

omit [Ed25519] in
/-- Before a panic nothing that was sent is lost. -/
theorem exists_lost (self : Server PeerId) : ∃ lost, self.unreceived = self.channel ++ lost ∧
    (¬ self.task.Panicked → lost = []) := by
  obtain ⟨node, channel, task⟩ := self
  cases task with
  | panicked hands sent => exact ⟨sent, rfl, absurd trivial⟩
  | _ => exact ⟨[], (List.append_nil channel).symm, fun _ => rfl⟩

omit [Ed25519] in
theorem unreceived_send (ext : Types.Extrinsic) (self : Server PeerId) :
    (self.send ext).unreceived = self.unreceived ++ [ext] := by
  obtain ⟨node, channel, task⟩ := self
  cases task with
  | panicked hands sent => exact (List.append_assoc _ _ _).symm
  | _ => rfl

omit [Ed25519] in
theorem send_task_selected {ext : Types.Extrinsic} {self : Server PeerId}
    {batch : List Types.Extrinsic} :
    (self.send ext).task = .selected batch ↔ self.task = .selected batch := by
  obtain ⟨node, channel, task⟩ := self
  cases task <;> simp [send]

omit [Ed25519] in
theorem send_closed {ext : Types.Extrinsic} {self : Server PeerId}
    (h : self.task.Panicked → self.channel = []) :
    (self.send ext).task.Panicked → (self.send ext).channel = [] := by
  obtain ⟨node, channel, task⟩ := self
  cases task with
  | panicked hands sent => exact fun _ => h trivial
  | idle => exact False.elim
  | drained => exact False.elim
  | selected => exact False.elim
  | applied => exact False.elim

/-- The next nonce of the account is sent. -/
theorem Tracks.send (h : Tracks a total self) {ext : Types.Extrinsic} (hs : ext.signer = a)
    (hnonce : ext.nonce.toNat = total) (hverify : ext.verify = .ok ()) :
    Tracks a (total + 1) (self.send ext) := by
  have hflight := outstanding_send ext self
  have hle := h.nonce_le
  have hnonces := h.nonces
  constructor
  · rw [hflight]
    intro e he hsigner
    rcases List.mem_append.mp he with he | he
    · exact h.verified e he hsigner
    · rw [List.mem_singleton.mp he]
      exact hverify
  · rw [hflight, send_node]
    generalize (self.node.runtime.system.nonce a).toNat = first at hle hnonces ⊢
    calc
      Runtime.noncesOf a (self.outstanding ++ [ext]) =
          Runtime.noncesOf a self.outstanding ++ [total] := by
        rw [Runtime.noncesOf_append, Runtime.noncesOf_singleton, if_pos hs, hnonce]
      _ = List.range' first (total - first) ++ [first + (total - first)] := by
        rw [hnonces, Nat.add_sub_cancel' hle]
      _ = List.range' first (total + 1 - first) := by
        rw [Nat.sub_add_comm hle, List.range'_concat, Nat.one_mul]
  · rw [send_node]
    exact hle.trans (Nat.le_succ total)
  · exact fun batch hbatch => h.selectable batch (send_task_selected.mp hbatch)
  · rw [send_node]
    exact h.unbounded
  · exact send_closed h.closed

/-- Someone else's extrinsic is sent. -/
theorem Tracks.send_other (h : Tracks a total self) {ext : Types.Extrinsic} (hs : ext.signer ≠ a) :
    Tracks a total (self.send ext) := by
  refine h.congr ?_ (by rw [send_node]) ?_ (by rw [send_node]) (send_closed h.closed)
  · rw [outstanding_send, List.filter_append, List.filter_singleton]
    simp [hs]
  · exact fun batch hbatch => h.selectable batch (send_task_selected.mp hbatch)

/-- What a panic destroys stays outstanding. -/
theorem Tracks.unwind (h : Tracks a total self) (hrunning : ¬ self.task.Panicked)
    (hstaying : self.staying = self.node.mempool.pending) :
    Tracks a total (self.unwind self.held) := by
  have hsame : (self.unwind self.held).outstanding = self.outstanding := by
    rw [outstanding_of_running hrunning, hstaying]
    rfl
  exact h.congr (by rw [hsame]) rfl (fun _ hsel => Task.noConfusion hsel) rfl fun _ => rfl

/-- What is outstanding is pending to stay, on its way to the pool or out of it, or lost. -/
theorem Tracks.length_noncesOf_outstanding (h : Tracks a total self) :
    (Runtime.noncesOf a self.outstanding).length =
      (Runtime.noncesOf a self.staying).length +
        (Runtime.noncesOf a (self.held ++ self.channel ++ self.lost)).length := by
  have hclosed := h.closed
  obtain ⟨node, channel, task⟩ := self
  cases task with
  | panicked hands sent =>
      rw [hclosed trivial]
      simp only [outstanding, held, lost, Runtime.noncesOf_append, List.length_append]
      simp only [Runtime.noncesOf, List.filter_nil, List.map_nil, List.length_nil]
      omega
  | _ =>
      rw [outstanding_of_running id]
      simp only [lost, Runtime.noncesOf_append, List.length_append]
      simp only [Runtime.noncesOf, List.filter_nil, List.map_nil, List.length_nil]
      omega

theorem Tracks.receive (h : Tracks a total self) : Tracks a total self.receive := by
  obtain ⟨node, channel, task⟩ := self
  cases task with
  | idle =>
      cases channel with
      | nil => exact h
      | cons ext channel =>
          have hpool : node.mempool.submit ext =
              (.ok (), { node.mempool with pending := node.mempool.pending ++ [ext] }) := by
            have hcapacity : node.mempool.maxCapacity = none := h.unbounded
            simp only [Mempool.submit, hcapacity]
          refine h.congr ?_ rfl (fun _ hsel => Task.noConfusion hsel) ?_ False.elim
          · change ([] ++ (node.mempool.submit ext).2.pending ++ channel).filter _ = _
            rw [hpool, List.nil_append, List.append_assoc]
            rfl
          · change (node.mempool.submit ext).2.maxCapacity = _
            rw [hpool]
  | drained => exact h
  | selected => exact h
  | applied => exact h
  | panicked => exact h

theorem Tracks.drain (h : Tracks a total self) : Tracks a total self.drain := by
  obtain ⟨node, channel, task⟩ := self
  cases task with
  | idle =>
      rw [drain_of_idle rfl]
      refine h.congr ?_ rfl (fun _ hsel => Task.noConfusion hsel) rfl False.elim
      change (node.candidates ++ node.drained.mempool.pending ++ channel).filter _ =
        ([] ++ node.mempool.pending ++ channel).filter _
      rw [Node.candidates, Node.drained, List.take_append_drop, List.nil_append]
  | drained => exact h
  | selected => exact h
  | applied => exact h
  | panicked => exact h

theorem Tracks.evict (h : Tracks a total self) : Tracks a total self.evict := by
  obtain ⟨node, channel, task⟩ := self
  cases task with
  | applied included =>
      exact h.congr rfl rfl (fun _ hsel => Task.noConfusion hsel) rfl False.elim
  | idle => exact h
  | drained => exact h
  | selected => exact h
  | panicked => exact h

/-- What the task holds are the account's next nonces. -/
theorem Tracks.noncesOf_held (h : Tracks a total self) (hrunning : ¬ self.task.Panicked) :
    Runtime.noncesOf a self.held = List.range' (self.node.runtime.system.nonce a).toNat
        (Runtime.noncesOf a self.held).length ∧
      (self.node.runtime.system.nonce a).toNat + (Runtime.noncesOf a self.held).length ≤ total ∧
      Runtime.noncesOf a (self.staying ++ self.channel) =
        List.range' ((self.node.runtime.system.nonce a).toNat +
            (Runtime.noncesOf a self.held).length)
          (total - ((self.node.runtime.system.nonce a).toNat +
            (Runtime.noncesOf a self.held).length)) := by
  have hnonces := h.nonces
  have hle := h.nonce_le
  rw [outstanding_of_running hrunning, List.append_assoc, Runtime.noncesOf_append] at hnonces
  obtain ⟨k, hk, hheld, hrest⟩ := List.range'_eq_append_iff.mp hnonces.symm
  have hlen : (Runtime.noncesOf a self.held).length = k := by rw [hheld, List.length_range']
  rw [hlen, hrest, hheld, Nat.mul_one, Nat.sub_sub]
  exact ⟨rfl, by omega, rfl⟩

theorem Tracks.select (h : Tracks a total self) (order : HashOrder) :
    Tracks a total (self.select order) := by
  obtain ⟨node, channel, task⟩ := self
  cases task with
  | drained candidates =>
      rw [select_of_drained order rfl]
      dsimp only
      split_ifs with hmax
      · refine h.congr ?_ rfl ?_ rfl False.elim
        · obtain ⟨hheld, -, -⟩ := h.noncesOf_held id
          have hsame := selected_filter_of_range order node.runtime.system.nonce candidates hheld
          simp only [outstanding, held, staying, List.filter_append]
          rw [hsame]
        · rintro batch hbatch
          cases hbatch
          exact hmax
      · exact h.unwind id rfl
  | idle => exact h
  | selected => exact h
  | applied => exact h
  | panicked => exact h

/-- The block made of a selected batch takes the account's nonce past those of the batch. -/
theorem Tracks.nonce_executeBlock (h : Tracks a total self) {batch : List Types.Extrinsic}
    (htask : self.task = .selected batch) {n : Types.BlockNumber} {rt : Runtime} {log : List Event}
    (hexec : Runtime.executeBlock ⟨⟨n⟩, batch⟩ self.node.runtime = ⟨.ret (.ok ()), rt, log⟩) :
    (rt.system.nonce a).toNat =
      (self.node.runtime.system.nonce a).toNat + (Runtime.noncesOf a batch).length := by
  obtain ⟨node, channel, task⟩ := self
  dsimp only at htask hexec ⊢
  subst htask
  have hheld : Runtime.noncesOf a batch = List.range' (node.runtime.system.nonce a).toNat
    (Runtime.noncesOf a batch).length := (h.noncesOf_held id).1
  have hsigned : Runtime.signedNonces a batch = Runtime.noncesOf a batch := by
    apply Runtime.signedNonces_of_verified
    intro e he
    apply h.verified
    rw [outstanding_of_running id, List.append_assoc]
    exact List.mem_append_left _ he
  calc
    (rt.system.nonce a).toNat =
        advance (node.runtime.system.nonce a).toNat (Runtime.signedNonces a batch) :=
      Runtime.nonce_executeBlock_eq hexec a
    _ = advance (node.runtime.system.nonce a).toNat
        (List.range' (node.runtime.system.nonce a).toNat
          (Runtime.noncesOf a batch).length) := congrArg _ (hsigned.trans hheld)
    _ = (node.runtime.system.nonce a).toNat + (Runtime.noncesOf a batch).length :=
      advance_range' _ _

/-- An executed batch moves the account's runtime nonce past what it carries. -/
theorem Tracks.execute (h : Tracks a total self) :
    Tracks a total self.execute ∧ (self.node.runtime.system.nonce a).toNat ≤
      (self.execute.node.runtime.system.nonce a).toNat := by
  obtain ⟨node, channel, task⟩ := self
  cases task with
  | selected batch =>
      obtain ⟨-, hle, hrest⟩ := h.noncesOf_held id
      have hflight : (⟨node, channel, .selected batch⟩ : Server PeerId).outstanding =
          batch ++ (node.mempool.pending ++ channel) := List.append_assoc _ _ _
      have hmax := h.selectable batch rfl
      by_cases htop : node.runtime.system.blockNumber = BitVec.allOnes 32
      · rw [execute_of_max rfl htop]
        exact ⟨h.unwind id rfl, Nat.le_refl _⟩
      · obtain ⟨n, hadd⟩ := Option.ne_none_iff_exists'.mp
          (mt Machine.checkedAdd_one_eq_none.mp htop)
        have hnum := Machine.checkedAdd_one_eq_some.mp hadd
        obtain ⟨rt, log, hexec⟩ := Runtime.executeBlock_ok ⟨⟨n⟩, batch⟩ node.runtime hnum hmax
        have hnonce := h.nonce_executeBlock rfl hexec
        have hrun : (⟨node, channel, .selected batch⟩ : Server PeerId).execute =
            ⟨{ node with runtime := rt }, channel, .idle⟩ := execute_of_next rfl hnum hexec
        rw [hrun]
        refine ⟨⟨?_, ?_, ?_, fun _ hsel => Task.noConfusion hsel, h.unbounded, False.elim⟩, ?_⟩
        · intro e he
          apply h.verified
          rw [hflight]
          exact List.mem_append_right _ he
        · dsimp only
          rw [hnonce]
          exact hrest
        · dsimp only
          rw [hnonce]
          exact hle
        · dsimp only
          rw [hnonce]
          exact Nat.le_add_right _ _
  | idle => exact ⟨h, Nat.le_refl _⟩
  | drained => exact ⟨h, Nat.le_refl _⟩
  | applied => exact ⟨h, Nat.le_refl _⟩
  | panicked => exact ⟨h, Nat.le_refl _⟩

omit [Ed25519] in
theorem isIncluded_iff {block : Types.Block} {e : Types.Extrinsic} :
    isIncluded (block.extrinsics.map fun e => (e.signer, e.nonce)) e ↔ Listed block e := by
  rw [isIncluded, Listed, List.any_map, List.any_eq_true]
  simp

/-- An applied block consumes no nonce of the account that is not pending. -/
theorem TakesPending.nonce_le {block : Types.Block} (h : TakesPending a block self)
    {rt : Runtime} {log : List Event}
    (hexec : Runtime.executeBlock block self.node.runtime = ⟨.ret (.ok ()), rt, log⟩) {k : ℕ}
    (hpool : Runtime.noncesOf a self.node.mempool.pending =
      List.range' (self.node.runtime.system.nonce a).toNat k) :
    (rt.system.nonce a).toNat ≤ (self.node.runtime.system.nonce a).toNat + k := by
  by_contra hbeyond
  have hsub := (Runtime.nonce_executeBlock hexec a (k + 1)).mp (by omega)
  have hmem := h.taken ((self.node.runtime.system.nonce a).toNat + k) (Nat.le_add_right _ k) (by
    rw [Nat.add_assoc, Nat.add_sub_cancel_left]
    exact hsub)
  rw [hpool, List.mem_range'_1] at hmem
  omega

/-- A pending extrinsic of the account is not listed by an applied block exactly when its nonce is
not behind the new runtime nonce. -/
theorem TakesPending.not_listed_iff {block : Types.Block} (h : TakesPending a block self)
    {rt : Runtime} {log : List Event}
    (hexec : Runtime.executeBlock block self.node.runtime = ⟨.ret (.ok ()), rt, log⟩)
    {e : Types.Extrinsic} (he : e ∈ self.node.mempool.pending) (hs : e.signer = a)
    (hfirst : (self.node.runtime.system.nonce a).toNat ≤ nonceOf e) :
    ¬ Listed block e ↔ (rt.system.nonce a).toNat ≤ nonceOf e := by
  constructor
  · intro hfree
    by_contra hbehind
    -- a consumed nonce is carried by a validly signed extrinsic of the block
    have hsub := (Runtime.nonce_executeBlock hexec a
      (nonceOf e + 1 - (self.node.runtime.system.nonce a).toNat)).mp (by omega)
    have hmem : nonceOf e ∈ Runtime.signedNonces a block.extrinsics := by
      apply hsub.subset
      rw [List.mem_range'_1]
      omega
    obtain ⟨f, hf, -, hfs, hfn⟩ := Runtime.mem_signedNonces.mp hmem
    exact hfree ⟨f, hf, hfs.trans hs.symm, BitVec.eq_of_toNat_eq hfn⟩
  · intro hge hlisted
    have happ := (Node.consumed_iff hexec e).mp (h.listed e he hs hlisted)
    rw [applicable, decide_eq_false_iff_not, hs] at happ
    exact happ hge

/-- Of the account, an applied block leaves the pending nonces from the new runtime nonce on. -/
theorem TakesPending.noncesOf_staying {block : Types.Block} (h : TakesPending a block self)
    {rt : Runtime} {log : List Event}
    (hexec : Runtime.executeBlock block self.node.runtime = ⟨.ret (.ok ()), rt, log⟩) {k : ℕ}
    (hpool : Runtime.noncesOf a self.node.mempool.pending =
      List.range' (self.node.runtime.system.nonce a).toNat k) :
    Runtime.noncesOf a (self.node.mempool.pending.filter fun e =>
        !isIncluded (block.extrinsics.map fun e => (e.signer, e.nonce)) e) =
      List.range' (rt.system.nonce a).toNat
        ((self.node.runtime.system.nonce a).toNat + k - (rt.system.nonce a).toNat) := by
  have hsame : Runtime.noncesOf a (self.node.mempool.pending.filter fun e =>
      !isIncluded (block.extrinsics.map fun e => (e.signer, e.nonce)) e) =
        (Runtime.noncesOf a self.node.mempool.pending).filter fun n =>
          (rt.system.nonce a).toNat ≤ n := by
    rw [Runtime.noncesOf, Runtime.noncesOf, List.filter_map, List.filter_filter,
      List.filter_filter]
    congr 1
    refine List.filter_congr fun e he => ?_
    by_cases hs : e.signer = a
    · have hmem : nonceOf e ∈ Runtime.noncesOf a self.node.mempool.pending :=
        Runtime.mem_noncesOf.mpr ⟨e, he, hs, rfl⟩
      rw [hpool, List.mem_range'_1] at hmem
      have hiff := h.not_listed_iff hexec he hs hmem.1
      rw [← isIncluded_iff, Bool.not_eq_true, ← Bool.not_eq_true'] at hiff
      simp only [hs, decide_true, Bool.true_and, Bool.and_true, Function.comp_apply]
      exact Bool.eq_iff_iff.mpr (hiff.trans decide_eq_true_iff.symm)
    · simp [hs]
  rw [hsame, hpool]
  exact range'_filter_ge (Runtime.nonce_le_executeBlock hexec a) (h.nonce_le hexec hpool)

/-- An applied peer block moves the account's runtime nonce past what is about to be evicted. -/
theorem Tracks.apply_of_next (h : Tracks a total self) {block : Types.Block}
    (hidle : self.task = .idle)
    (hnext : block.header.blockNumber.toNat = self.node.runtime.height + 1)
    (htakes : TakesPending a block self) :
    Tracks a total (self.apply block) ∧ (self.node.runtime.system.nonce a).toNat ≤
      ((self.apply block).node.runtime.system.nonce a).toNat := by
  obtain ⟨node, channel, task⟩ := self
  subst hidle
  obtain ⟨rt, log, hexec⟩ := Runtime.executeBlock_ok block node.runtime hnext htakes.bounded
  have hrun : (⟨node, channel, .idle⟩ : Server PeerId).apply block =
      ⟨{ node with runtime := rt }, channel,
        .applied (block.extrinsics.map fun e => (e.signer, e.nonce))⟩ := by
    simp only [Server.apply, hexec]
  have hnonces : Runtime.noncesOf a node.mempool.pending ++ Runtime.noncesOf a channel =
      List.range' (node.runtime.system.nonce a).toNat
        (total - (node.runtime.system.nonce a).toNat) := by
    rw [← Runtime.noncesOf_append]
    exact h.nonces
  have hbound : (node.runtime.system.nonce a).toNat ≤ total := h.nonce_le
  obtain ⟨k, hk, hpool, hchannel⟩ := List.range'_eq_append_iff.mp hnonces.symm
  rw [Nat.mul_one, Nat.sub_sub] at hchannel
  have htaken : (rt.system.nonce a).toNat ≤ (node.runtime.system.nonce a).toNat + k :=
    htakes.nonce_le hexec hpool
  have hall : (node.runtime.system.nonce a).toNat + k ≤ total := by omega
  rw [hrun]
  refine ⟨⟨?_, ?_, htaken.trans hall, fun _ hsel => Task.noConfusion hsel, h.unbounded,
    False.elim⟩, Runtime.nonce_le_executeBlock hexec a⟩
  · intro e he
    apply h.verified
    rcases List.mem_append.mp he with he | he
    · exact List.mem_append_left _ (List.mem_filter.mp he).1
    · exact List.mem_append_right _ he
  · change Runtime.noncesOf a (node.mempool.pending.filter _ ++ channel) =
      List.range' (rt.system.nonce a).toNat (total - (rt.system.nonce a).toNat)
    rw [Runtime.noncesOf_append, htakes.noncesOf_staying hexec hpool, hchannel]
    exact range'_append_of_le htaken hall

/-- A peer block that is not the next one leaves the account's nonces as they are. -/
theorem Tracks.apply_of_not_next (h : Tracks a total self) {block : Types.Block}
    (hidle : self.task = .idle)
    (hnext : ¬ block.header.blockNumber.toNat = self.node.runtime.height + 1) :
    Tracks a total (self.apply block) ∧ (self.node.runtime.system.nonce a).toNat ≤
      ((self.apply block).node.runtime.system.nonce a).toNat := by
  obtain ⟨node, channel, task⟩ := self
  subst hidle
  obtain ⟨hout, hmap⟩ := Runtime.executeBlock_of_not_next hnext
  have hnonce : (Runtime.executeBlock block node.runtime).state.system.nonce a =
      node.runtime.system.nonce a := by
    rw [System.Pallet.nonce, hmap]
    rfl
  have hexecuted : Tracks a total (⟨{ node with
      runtime := (Runtime.executeBlock block node.runtime).state }, channel, .idle⟩ :
        Server PeerId) :=
    h.congr rfl hnonce (fun _ hsel => Task.noConfusion hsel) rfl False.elim
  have hle := Nat.le_of_eq (congrArg BitVec.toNat hnonce).symm
  rcases apply_of_not_ok hout channel with hrun | hrun
  · rw [hrun]
    exact ⟨hexecuted, hle⟩
  · rw [hrun]
    exact ⟨hexecuted.unwind id rfl, hle⟩

theorem Tracks.apply (h : Tracks a total self) {block : Types.Block}
    (hblock : self.task = .idle → block.header.blockNumber.toNat = self.node.runtime.height + 1 →
      TakesPending a block self) :
    Tracks a total (self.apply block) ∧ (self.node.runtime.system.nonce a).toNat ≤
      ((self.apply block).node.runtime.system.nonce a).toNat := by
  obtain ⟨node, channel, task⟩ := self
  cases task with
  | idle =>
      by_cases hnext : block.header.blockNumber.toNat = node.runtime.height + 1
      · exact h.apply_of_next rfl hnext (hblock rfl hnext)
      · exact h.apply_of_not_next rfl hnext
  | drained => exact ⟨h, Nat.le_refl _⟩
  | selected => exact ⟨h, Nat.le_refl _⟩
  | applied => exact ⟨h, Nat.le_refl _⟩
  | panicked => exact ⟨h, Nat.le_refl _⟩

end Tracks

end Server

end RustStateMachine
