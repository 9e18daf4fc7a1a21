import RustStateMachine.Balances
import RustStateMachine.ProofOfExistence
import RustStateMachine.System

/-!
# Runtime

The three pallets composed, the routing of calls, block execution and genesis.
One log records the store writes, the printed lines and, for each extrinsic that
passes both checks, the point where its dispatch starts and what it hands back.
-/

namespace RustStateMachine

open Lib Lib.KeyValue Std Support

namespace Types

/-- Accounts are public keys. -/
abbrev AccountId := AccountId32

/-- `u128` -/
abbrev Balance := U128

/-- `u32` -/
abbrev Nonce := U32

/-- `u32` -/
abbrev BlockNumber := U32

/-- A text of at most `u32::MAX` bytes, the longest the codec writes. -/
abbrev Content := Codec.Text

end Types

/-- The calls of all pallets, in the order of the runtime's fields. -/
inductive RuntimeCall where
  | balances (call : Balances.Call Types.AccountId Types.Balance)
  | proofOfExistence (call : ProofOfExistence.Call Types.Content)
deriving DecidableEq

namespace Types

/-- A signed call of the runtime. -/
abbrev Extrinsic := UncheckedExtrinsic RuntimeCall

/-- The header carries the block number alone. -/
abbrev Header := Support.Header BlockNumber

/-- A block of signed calls. -/
abbrev Block := Support.Block Header Extrinsic

/-- The pool of a node. -/
abbrev Mempool := Support.Mempool Extrinsic

end Types

section CallCodec

/-- The variant index, then the call of the pallet. -/
instance : Encode RuntimeCall where
  encode
    | .balances call => 0 :: encode call
    | .proofOfExistence call => 1 :: encode call

/-- Any other index is refused. -/
def decodeRuntimeCall : Bytes → Option (RuntimeCall × Bytes)
  | 0 :: bs => (decode bs).map (Prod.map .balances id)
  | 1 :: bs => (decode bs).map (Prod.map .proofOfExistence id)
  | _ => none

instance : Decode RuntimeCall := ⟨decodeRuntimeCall⟩

instance : PrefixCodec RuntimeCall where
  decode_append c rest := by
    cases c with
    | balances call => exact Codec.decode_map_append RuntimeCall.balances call rest
    | proofOfExistence call =>
        exact Codec.decode_map_append RuntimeCall.proofOfExistence call rest
  append_of_decode {bytes rest c} h := by
    change decodeRuntimeCall bytes = some (c, rest) at h
    unfold decodeRuntimeCall at h
    split at h
    · obtain ⟨call, rfl, rfl⟩ := Codec.append_of_decode_map h
      rfl
    · obtain ⟨call, rfl, rfl⟩ := Codec.append_of_decode_map h
      rfl
    · cases h

/-- A block is read from exactly its own encoding, in front of any bytes, and these bytes are what
is left. -/
theorem decode_block_eq_some_iff {bytes rest : Bytes} {block : Types.Block} :
    decode bytes = some (block, rest) ↔
      block.extrinsics.length < 2 ^ 32 ∧ bytes = encode block ++ rest := by
  constructor
  · exact append_of_decode_block
  · rintro ⟨hlen, rfl⟩
    exact decode_block_append hlen rest

end CallCodec

/-- The struct `Runtime`: one field for each pallet. -/
structure Runtime where
  system : System.Pallet Types.AccountId Types.BlockNumber Types.Nonce
  balances : Balances.Pallet Types.AccountId Types.Balance
  proofOfExistence : ProofOfExistence.Pallet Types.AccountId Types.Content

/-- What the runtime does besides changing its own state. -/
inductive Event where
  | write (w : Write)
  | dispatching (ext : Types.Extrinsic)
  | dispatched (result : DispatchResult)
  | println (text : String)
  | eprintln (text : String)
deriving DecidableEq

namespace Event

/-- The write of a write entry. -/
def write? : Event → Option Write
  | write w => some w
  | _ => none

/-- The extrinsic of an entry that starts a dispatch. -/
def dispatching? : Event → Option Types.Extrinsic
  | dispatching ext => some ext
  | _ => none

end Event

/-- The store writes of a log, in the order they were issued. -/
def writes (log : List Event) : List Write := log.filterMap Event.write?

/-- The extrinsics whose dispatch was started, in order. -/
def dispatches (log : List Event) : List Types.Extrinsic := log.filterMap Event.dispatching?

@[simp] theorem writes_nil : writes [] = [] := rfl

@[simp] theorem writes_append (l l' : List Event) : writes (l ++ l') = writes l ++ writes l' :=
  List.filterMap_append

@[simp] theorem writes_cons (e : Event) (l : List Event) :
    writes (e :: l) = e.write?.toList ++ writes l := by
  cases h : e.write? <;> simp [writes, h]

@[simp] theorem writes_map_write (ws : List Write) : writes (ws.map .write) = ws := by
  induction ws with
  | nil => rfl
  | cons w ws ih => simpa [Event.write?] using ih

@[simp] theorem dispatches_nil : dispatches [] = [] := rfl

@[simp] theorem dispatches_append (l l' : List Event) :
    dispatches (l ++ l') = dispatches l ++ dispatches l' :=
  List.filterMap_append

@[simp] theorem dispatches_cons (e : Event) (l : List Event) :
    dispatches (e :: l) = e.dispatching?.toList ++ dispatches l := by
  cases h : e.dispatching? <;> simp [dispatches, h]

@[simp] theorem dispatches_map_write (ws : List Write) : dispatches (ws.map .write) = [] := by
  induction ws with
  | nil => rfl
  | cons w ws ih => simpa [Event.dispatching?] using ih

namespace Runtime

/-- Build every pallet from the store. -/
def new (store : Entries) : Runtime where
  system := System.Pallet.new store
  balances := Balances.Pallet.new store
  proofOfExistence := ProofOfExistence.Pallet.new store

/-- Run a computation of the system pallet on the runtime. -/
def onSystem {α : Type}
    (x : Exec Write (System.Pallet Types.AccountId Types.BlockNumber Types.Nonce) α) :
    Exec Event Runtime α :=
  Exec.zoom Runtime.system (fun self system => { self with system }) Event.write x

/-- Run a computation of the balances pallet on the runtime. -/
def onBalances {α : Type} (x : Exec Write (Balances.Pallet Types.AccountId Types.Balance) α) :
    Exec Event Runtime α :=
  Exec.zoom Runtime.balances (fun self balances => { self with balances }) Event.write x

/-- Run a computation of the proof-of-existence pallet on the runtime. -/
def onProofOfExistence {α : Type}
    (x : Exec Write (ProofOfExistence.Pallet Types.AccountId Types.Content) α) :
    Exec Event Runtime α :=
  Exec.zoom Runtime.proofOfExistence
    (fun self proofOfExistence => { self with proofOfExistence }) Event.write x

/-- Route a call to its pallet and hand the result on. -/
def dispatch (caller : Types.AccountId) : RuntimeCall → Exec Event Runtime DispatchResult
  | .balances call => onBalances (Balances.Pallet.dispatch caller call)
  | .proofOfExistence call => onProofOfExistence (ProofOfExistence.Pallet.dispatch caller call)

/-- The line printed for an extrinsic that fails. -/
def extrinsicError (blockNumber : Types.BlockNumber) (i : ℕ) (error : String) : Event :=
  .eprintln ("Extrinsic Error\n\tBlock Number: " ++ toString blockNumber.toNat ++
    "\n\tExtrinsic Number: " ++ toString i ++ "\n\tError: " ++ error)

/-- The body of the second pass, for the extrinsic at position `i` of a block. -/
def applyExtrinsic (blockNumber : Types.BlockNumber) (i : ℕ) (ext : Types.Extrinsic)
    (sigResult : DispatchResult) : Exec Event Runtime Unit :=
  match sigResult with
  | .error e => Exec.emit (extrinsicError blockNumber i ("bad signature — " ++ e))
  | .ok () => do
    let self ← Exec.read
    if self.system.nonce ext.signer ≠ ext.nonce then
      Exec.emit (extrinsicError blockNumber i "nonce mismatch")
    else
      onSystem (System.Pallet.incNonce ext.signer)
      Exec.emit (.dispatching ext)
      let res ← dispatch ext.signer ext.call
      Exec.emit (.dispatched res)
      match res with
      | .ok () => return ()
      | .error e => Exec.emit (extrinsicError blockNumber i e)

variable [Ed25519]

/-- Count the block, check its header, verify all signatures, then apply each extrinsic. -/
def executeBlock (block : Types.Block) : Exec Event Runtime DispatchResult := do
  onSystem System.Pallet.incBlockNumber
  let self ← Exec.read
  if block.header.blockNumber ≠ self.system.blockNumber then
    return .error "block number does not match what is expected"
  else
    let verifyResults := verifyBatch block.extrinsics
    Exec.each (fun p => applyExtrinsic block.header.blockNumber p.2 p.1.1 p.1.2)
      (block.extrinsics.zip verifyResults).zipIdx
    return .ok ()

/-- Fund the dev accounts and execute block 1, on a chain of height zero only. -/
def maybeApplyGenesis : Exec Event Runtime Unit := do
  let self ← Exec.read
  if self.system.blockNumber ≠ 0 then
    return ()
  else
    onBalances (Balances.Pallet.setBalance AccountKeyring.alice.publicKey 1000000)
    onBalances (Balances.Pallet.setBalance AccountKeyring.bob.publicKey 1000000)
    onBalances (Balances.Pallet.setBalance AccountKeyring.charlie.publicKey 1000000)
    let res ← executeBlock ⟨⟨1⟩, []⟩
    match res with
    | .error e => Exec.panicWith ("genesis block must succeed: " ++ e.quote)
    | .ok () => Exec.emit (.println "[genesis] Alice / Bob / Charlie each funded with 1_000_000")

end Runtime

end RustStateMachine
