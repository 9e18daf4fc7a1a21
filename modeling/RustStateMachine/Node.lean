import Mathlib.Data.List.Dedup
import Mathlib.Data.List.Sort
import RustStateMachine.Execution

/-!
# Node task

The branches of the node's task loop: a submitted extrinsic, a block from a
peer, which the network loop decodes, and the slot tick with block production.
The iteration order of the map of signers is a parameter: any permutation of the
signers.
-/

namespace RustStateMachine

open Lib Lib.KeyValue Std Support

/-- The order in which a hash map of accounts is iterated. -/
structure HashOrder where
  arrange : List Types.AccountId → List Types.AccountId
  perm : ∀ signers, (arrange signers).Perm signers

/-- The order of first insertion. -/
def HashOrder.inserted : HashOrder := ⟨id, fun _ => .refl _⟩

/-- What the node task reads and writes, with the peer list kept by the network loop. -/
structure Node (PeerId : Type) where
  id : PeerId
  peers : List PeerId
  runtime : Runtime
  mempool : Types.Mempool

/-- What the node does besides changing its own state. -/
inductive NodeEvent where
  | runtime (e : Event)
  | publish (data : Bytes)
  | println (text : String)
  | eprintln (text : String)
deriving DecidableEq

namespace NodeEvent

/-- The entry of the runtime. -/
def runtime? : NodeEvent → Option Event
  | runtime e => some e
  | _ => none

/-- The bytes of a publication. -/
def publish? : NodeEvent → Option Bytes
  | publish data => some data
  | _ => none

end NodeEvent

/-- The runtime's own log. -/
def runtimeLog (log : List NodeEvent) : List Event := log.filterMap NodeEvent.runtime?

/-- The block messages sent to the network. -/
def published (log : List NodeEvent) : List Bytes := log.filterMap NodeEvent.publish?

theorem published_map_runtime (log : List Event) : published (log.map .runtime) = [] := by
  simp [published, NodeEvent.publish?, Function.comp_def]

theorem published_map_println (lines : List String) : published (lines.map .println) = [] := by
  simp [published, NodeEvent.publish?, Function.comp_def]

theorem published_append (l l' : List NodeEvent) :
    published (l ++ l') = published l ++ published l' := List.filterMap_append

/-! ## Selecting a batch -/

/-- The extrinsics of one signer, oldest nonce first; equal nonces keep their order. -/
def sortByNonce (txs : List Types.Extrinsic) : List Types.Extrinsic :=
  txs.insertionSort fun a b => a.nonce ≤ b.nonce

/-- The run of consecutive nonces from `expected` on, up to the first gap; nothing if counting
overflows. In the dev profile `+= 1` panics then, in a release build it would wrap. -/
def selectRun : Types.Nonce → List Types.Extrinsic → Option (List Types.Extrinsic)
  | _, [] => some []
  | expected, tx :: txs =>
      if tx.nonce = expected then do
        let expected ← checkedAdd expected 1
        let run ← selectRun expected txs
        return tx :: run
      else some []

/-- The candidates of each signer, signers in the order the map is iterated. -/
def bySigner (order : HashOrder) (candidates : List Types.Extrinsic) :
    List (Types.AccountId × List Types.Extrinsic) :=
  (order.arrange (candidates.map (·.signer)).dedup).map fun signer =>
    (signer, candidates.filter fun e => e.signer = signer)

/-- The batch of a block: each signer's run from its runtime nonce. There is none if a count
overflows, which panics in the dev profile and would wrap in a release build. -/
def selectBatch (order : HashOrder) (nonce : Types.AccountId → Types.Nonce)
    (candidates : List Types.Extrinsic) : Option (List Types.Extrinsic) :=
  ((bySigner order candidates).mapM fun g => selectRun (nonce g.1) (sortByNonce g.2)).map
    List.flatten

namespace Node

variable {PeerId : Type}

/-- Run a computation of the runtime on the node. -/
def onRuntime {α : Type} (x : Exec Event Runtime α) : Exec NodeEvent (Node PeerId) α :=
  Exec.zoom Node.runtime (fun self runtime => { self with runtime }) NodeEvent.runtime x

/-- A submitted or gossiped extrinsic reaches the task; a full pool drops it. -/
def receiveExtrinsic (ext : Types.Extrinsic) : Exec NodeEvent (Node PeerId) Unit :=
  Exec.modify fun self => { self with mempool := (self.mempool.submit ext).2 }

variable [Ed25519]

/-- A block from a peer: execute it and, if it was applied, evict what it listed. -/
def receiveBlock (block : Types.Block) : Exec NodeEvent (Node PeerId) Unit := do
  let included := block.extrinsics.map fun e => (e.signer, e.nonce)
  let res ← onRuntime (Runtime.executeBlock block)
  match res with
  | .ok () => do
    let self ← Exec.read
    Exec.emit (.println ("[node] applied peer block, height=" ++
      toString self.runtime.system.blockNumber.toNat))
    Exec.modify fun self => { self with
      mempool := self.mempool.retain fun e =>
        !included.any fun p => p.1 = e.signer && p.2 = e.nonce }
  | .error e => Exec.emit (.eprintln ("[node] peer block rejected: " ++ e))

/-- What is left of the pool once the extrinsics listed by a block are evicted. -/
def evict (block : Types.Block) (pool : Types.Mempool) : Types.Mempool :=
  pool.retain fun e =>
    !(block.extrinsics.map fun e => (e.signer, e.nonce)).any fun p =>
      p.1 = e.signer && p.2 = e.nonce

theorem receiveBlock_of_ok {block : Types.Block} {self : Node PeerId} {rt : Runtime}
    {log : List Event} (h : Runtime.executeBlock block self.runtime = ⟨.ret (.ok ()), rt, log⟩) :
    receiveBlock block self =
      ⟨.ret (), { self with runtime := rt, mempool := evict block self.mempool },
        log.map .runtime ++ [.println ("[node] applied peer block, height=" ++
          toString rt.system.blockNumber.toNat)]⟩ := by
  simp [receiveBlock, onRuntime, h, evict]

theorem receiveBlock_of_error {block : Types.Block} {self : Node PeerId} {rt : Runtime}
    {log : List Event} {e : String}
    (h : Runtime.executeBlock block self.runtime = ⟨.ret (.error e), rt, log⟩) :
    receiveBlock block self =
      ⟨.ret (), { self with runtime := rt },
        log.map .runtime ++ [.eprintln ("[node] peer block rejected: " ++ e)]⟩ := by
  simp [receiveBlock, onRuntime, h]

theorem receiveBlock_of_panicked {block : Types.Block} {self : Node PeerId} {rt : Runtime}
    {log : List Event} {m : String}
    (h : Runtime.executeBlock block self.runtime = ⟨.panicked m, rt, log⟩) :
    receiveBlock block self = ⟨.panicked m, { self with runtime := rt }, log.map .runtime⟩ := by
  simp [receiveBlock, onRuntime, h]

/-- The branch leaves the runtime where the execution left it, and panics when it panics. -/
theorem receiveBlock_runtime (block : Types.Block) (self : Node PeerId) :
    (receiveBlock block self).state.runtime = (Runtime.executeBlock block self.runtime).state ∧
      ((receiveBlock block self).outcome.Returns ↔
        (Runtime.executeBlock block self.runtime).outcome.Returns) := by
  cases h : Runtime.executeBlock block self.runtime with
  | mk o rt log =>
      cases o with
      | ret res =>
          cases res with
          | ok u =>
              rw [receiveBlock_of_ok h]
              exact ⟨rfl, Iff.rfl⟩
          | error e =>
              rw [receiveBlock_of_error h]
              exact ⟨rfl, Iff.rfl⟩
      | panicked m =>
          rw [receiveBlock_of_panicked h]
          exact ⟨rfl, Iff.rfl⟩

/-- A message on the block topic: the network loop decodes it and hands the block to the task. The
codec's description of bad bytes is left out of the line. -/
def receiveMessage (data : Bytes) : Exec NodeEvent (Node PeerId) Unit :=
  match (decode data : Option (Types.Block × Bytes)) with
  | some (block, _) => receiveBlock block
  | none => Exec.emit (.eprintln "[net] bad block bytes")

/-- Drain candidates, select a batch, execute it as the next block and publish that block. -/
def produceBlock (order : HashOrder) : Exec NodeEvent (Node PeerId) Unit := do
  let self ← Exec.read
  let drained := Mempool.drainForBlock (self.mempool.blockLimit.getD 10) self.mempool
  Exec.modify fun self => { self with mempool := drained.2 }
  let batch ← Exec.unwrap "attempt to add with overflow"
    (selectBatch order self.runtime.system.nonce drained.1)
  let nextNum ← Exec.unwrap System.unwrapNone (checkedAdd self.runtime.system.blockNumber 1)
  let block : Types.Block := ⟨⟨nextNum⟩, batch⟩
  let encoded := encode block
  let txSummary := block.extrinsics.map fun e =>
    "    signer=" ++ e.signer.debug ++ " nonce=" ++ toString e.nonce.toNat
  let res ← onRuntime (Runtime.executeBlock block)
  match res with
  | .ok () => do
    Exec.emit (.println ("[node] produced block #" ++ toString nextNum.toNat ++ " (" ++
      toString txSummary.length ++ " tx)"))
    Exec.each (fun line => Exec.emit (.println line)) txSummary
    Exec.emit (.publish encoded)
  | .error e => Exec.emit (.eprintln ("[node] block production failed: " ++ e))

variable [DecidableEq PeerId]

omit [Ed25519] in
/-- Whether the sorted peer list names this node the author of the slot. -/
def isMySlot (slot : ℕ) : Exec NodeEvent (Node PeerId) Bool := do
  let self ← Exec.read
  if self.peers.length = 0 then
    Exec.panicWith "attempt to calculate the remainder with a divisor of zero"
  else
    let author ← Exec.unwrap "index out of bounds" self.peers[slot % self.peers.length]?
    return author = self.id

/-- The slot tick: the author of the slot produces a block, unless it has no peer. -/
def tick (slot : ℕ) (order : HashOrder) : Exec NodeEvent (Node PeerId) Unit := do
  let self ← Exec.read
  if 1 < self.peers.length then
    let mine ← isMySlot slot
    if mine then produceBlock order else return ()
  else return ()

omit [Ed25519] in
theorem isMySlot_of_author {slot : ℕ} {self : Node PeerId} {author : PeerId}
    (h : self.peers[slot % self.peers.length]? = some author) :
    isMySlot slot self = ⟨.ret (author = self.id), self, []⟩ := by
  have hlen : self.peers.length ≠ 0 := by
    intro hzero
    rw [List.eq_nil_of_length_eq_zero hzero] at h
    cases h
  simp only [isMySlot, Exec.bind_apply, Exec.read_apply, Run.andThen_ret, if_neg hlen, h,
    Exec.unwrap_some, Exec.pure_apply, Run.prepend_nil]

theorem tick_of_author {slot : ℕ} {order : HashOrder} {self : Node PeerId}
    (hpeers : 1 < self.peers.length)
    (h : self.peers[slot % self.peers.length]? = some self.id) :
    tick slot order self = produceBlock order self := by
  simp [tick, hpeers, isMySlot_of_author h]

theorem tick_of_other {slot : ℕ} {order : HashOrder} {self : Node PeerId} {author : PeerId}
    (hpeers : 1 < self.peers.length)
    (h : self.peers[slot % self.peers.length]? = some author) (hne : author ≠ self.id) :
    tick slot order self = ⟨.ret (), self, []⟩ := by
  simp [tick, hpeers, isMySlot_of_author h, hne]

end Node

end RustStateMachine
