import RustStateMachine.Generated
import RustStateMachine.Lib.Translation

/-!
# The runtime of the crate

It is what the macro generates for the two pallets of the crate: the same store
gives the same pallets, the same blocks have the same bytes and do the same.
-/

namespace RustStateMachine.Composition

open Lib Lib.KeyValue Std Support

/-- The fields of the struct `Runtime` after the system pallet. -/
def pallets : Fin 2 → Generated.PalletDef
  | ⟨0, _⟩ =>
      { State := Balances.Pallet Types.AccountId Types.Balance
        Call := Balances.Call Types.AccountId Types.Balance
        new := Balances.Pallet.new
        dispatch := Balances.Pallet.dispatch }
  | ⟨1, _⟩ =>
      { State := ProofOfExistence.Pallet Types.AccountId Types.Content
        Call := ProofOfExistence.Call Types.Content
        new := ProofOfExistence.Pallet.new
        dispatch := ProofOfExistence.Pallet.dispatch }

instance : ∀ i, Encode (pallets i).Call
  | ⟨0, _⟩ => inferInstanceAs (Encode (Balances.Call Types.AccountId Types.Balance))
  | ⟨1, _⟩ => inferInstanceAs (Encode (ProofOfExistence.Call Types.Content))

/-! ## The generated parts, as those of the crate -/

/-- The runtime with the two pallets in their own fields. -/
def toRuntime (self : Generated.Runtime pallets) : Runtime where
  system := self.system
  balances := self.pallet ⟨0, Nat.zero_lt_two⟩
  proofOfExistence := self.pallet ⟨1, Nat.one_lt_two⟩

/-- The variant of a call, under its own name. -/
def toCall : Generated.RuntimeCall pallets → RuntimeCall
  | ⟨⟨0, _⟩, call⟩ => .balances call
  | ⟨⟨1, _⟩, call⟩ => .proofOfExistence call

/-- The same signed fields around the call. -/
def toExtrinsic (ext : Generated.Extrinsic pallets) : Types.Extrinsic :=
  { signer := ext.signer, signature := ext.signature, nonce := ext.nonce, call := toCall ext.call }

/-- The same header and the same extrinsics. -/
def toBlock (block : Generated.Block pallets) : Types.Block :=
  { header := block.header, extrinsics := block.extrinsics.map toExtrinsic }

/-- The same entry of the log; the generated code prints nothing on the output stream. -/
def toEvent : Generated.Event pallets → Event
  | .write w => .write w
  | .dispatching ext => .dispatching (toExtrinsic ext)
  | .dispatched result => .dispatched result
  | .eprintln text => .eprintln text

theorem toRuntime_new (store : Entries) :
    toRuntime (Generated.Runtime.new store) = Runtime.new store := rfl

theorem encode_toCall (call : Generated.RuntimeCall pallets) :
    encode (toCall call) = encode call := by
  obtain ⟨i, call⟩ := call
  match i with
  | ⟨0, _⟩ => rfl
  | ⟨1, _⟩ => rfl

theorem encode_toExtrinsic (ext : Generated.Extrinsic pallets) :
    encode (toExtrinsic ext) = encode ext := by
  have hcall := encode_toCall ext.call
  change encode ext.signer ++ (encode ext.signature ++ (encode ext.nonce ++
    encode (toCall ext.call))) = _
  rw [hcall]
  rfl

/-- The bytes of a block are those of the generated types. -/
theorem encode_toBlock (block : Generated.Block pallets) :
    encode (toBlock block) = encode block := by
  have hexts : (block.extrinsics.map toExtrinsic).flatMap encode =
      block.extrinsics.flatMap encode := by
    rw [List.flatMap_map]
    exact List.flatMap_congr fun ext _ => encode_toExtrinsic ext
  change encode block.header ++ (Codec.encodeCompact (block.extrinsics.map toExtrinsic).length ++
    (block.extrinsics.map toExtrinsic).flatMap encode) = _
  rw [hexts, List.length_map]
  rfl

theorem toCall_bijective : Function.Bijective toCall := by
  constructor
  · rintro ⟨i, call⟩ ⟨i', call'⟩ h
    match i, i' with
    | ⟨0, _⟩, ⟨0, _⟩ => exact congrArg (Sigma.mk _) (RuntimeCall.balances.inj h)
    | ⟨0, _⟩, ⟨1, _⟩ => cases h
    | ⟨1, _⟩, ⟨0, _⟩ => cases h
    | ⟨1, _⟩, ⟨1, _⟩ => exact congrArg (Sigma.mk _) (RuntimeCall.proofOfExistence.inj h)
  · intro call
    cases call with
    | balances call => exact ⟨⟨⟨0, Nat.zero_lt_two⟩, call⟩, rfl⟩
    | proofOfExistence call => exact ⟨⟨⟨1, Nat.one_lt_two⟩, call⟩, rfl⟩

theorem toExtrinsic_bijective : Function.Bijective toExtrinsic := by
  constructor
  · rintro ⟨signer, signature, nonce, call⟩ ⟨signer', signature', nonce', call'⟩ h
    have hfields := UncheckedExtrinsic.mk.inj h
    obtain ⟨rfl, rfl, rfl, hcall⟩ := hfields
    obtain rfl := toCall_bijective.1 hcall
    rfl
  · rintro ⟨signer, signature, nonce, call⟩
    obtain ⟨call, rfl⟩ := toCall_bijective.2 call
    exact ⟨⟨signer, signature, nonce, call⟩, rfl⟩

theorem toBlock_bijective : Function.Bijective toBlock := by
  constructor
  · rintro ⟨header, exts⟩ ⟨header', exts'⟩ h
    obtain ⟨rfl, hexts⟩ := Block.mk.inj h
    obtain rfl := toExtrinsic_bijective.1.list_map hexts
    rfl
  · rintro ⟨header, exts⟩
    obtain ⟨exts, rfl⟩ := toExtrinsic_bijective.2.list_map exts
    exact ⟨⟨header, exts⟩, rfl⟩

theorem toRuntime_bijective : Function.Bijective toRuntime := by
  constructor
  · rintro ⟨system, pallet⟩ ⟨system', pallet'⟩ h
    obtain ⟨rfl, hbalances, hproofOfExistence⟩ := Runtime.mk.inj h
    have hpallet : pallet = pallet' := by
      funext i
      match i with
      | ⟨0, _⟩ => exact hbalances
      | ⟨1, _⟩ => exact hproofOfExistence
    rw [hpallet]
  · rintro ⟨system, balances, proofOfExistence⟩
    exact ⟨⟨system, fun | ⟨0, _⟩ => balances | ⟨1, _⟩ => proofOfExistence⟩, rfl⟩

/-! ## The same executions -/

theorem translates_onPallet_balances {α : Type}
    (x : Exec Write (Balances.Pallet Types.AccountId Types.Balance) α) :
    Exec.Translates toRuntime toEvent
      (@Generated.Runtime.onPallet 2 pallets α ⟨0, Nat.zero_lt_two⟩ x)
      (Runtime.onBalances x) :=
  Exec.translates_zoom x (fun _ => rfl) (fun _ _ => rfl) fun _ => rfl

theorem translates_onPallet_proofOfExistence {α : Type}
    (x : Exec Write (ProofOfExistence.Pallet Types.AccountId Types.Content) α) :
    Exec.Translates toRuntime toEvent
      (@Generated.Runtime.onPallet 2 pallets α ⟨1, Nat.one_lt_two⟩ x)
      (Runtime.onProofOfExistence x) :=
  Exec.translates_zoom x (fun _ => rfl) (fun _ _ => rfl) fun _ => rfl

theorem translates_onSystem {α : Type}
    (x : Exec Write (System.Pallet Types.AccountId Types.BlockNumber Types.Nonce) α) :
    Exec.Translates toRuntime toEvent (Generated.Runtime.onSystem x) (Runtime.onSystem x) :=
  Exec.translates_zoom x (fun _ => rfl) (fun _ _ => rfl) fun _ => rfl

theorem translates_dispatch (caller : Types.AccountId) (call : Generated.RuntimeCall pallets) :
    Exec.Translates toRuntime toEvent (Generated.Runtime.dispatch caller call)
      (Runtime.dispatch caller (toCall call)) := by
  obtain ⟨i, call⟩ := call
  match i with
  | ⟨0, _⟩ => exact translates_onPallet_balances (Balances.Pallet.dispatch caller call)
  | ⟨1, _⟩ =>
      exact translates_onPallet_proofOfExistence (ProofOfExistence.Pallet.dispatch caller call)

theorem translates_applyExtrinsic (blockNumber : Types.BlockNumber) (i : ℕ)
    (ext : Generated.Extrinsic pallets) (sigResult : DispatchResult) :
    Exec.Translates toRuntime toEvent
      (Generated.Runtime.applyExtrinsic blockNumber i ext sigResult)
      (Runtime.applyExtrinsic blockNumber i (toExtrinsic ext) sigResult) := by
  cases sigResult with
  | error e => exact Exec.translates_emit _
  | ok =>
      refine Exec.translates_read_bind fun self => ?_
      refine Exec.translates_ite Iff.rfl (Exec.translates_emit _) ?_
      refine Exec.translates_bind (translates_onSystem _) fun _ => ?_
      refine Exec.translates_bind (Exec.translates_emit _) fun _ => ?_
      refine Exec.translates_bind (translates_dispatch ext.signer ext.call) fun res => ?_
      refine Exec.translates_bind (Exec.translates_emit _) fun _ => ?_
      cases res with
      | ok => exact Exec.translates_pure ()
      | error e => exact Exec.translates_emit _

section Blocks

variable [Ed25519]

theorem verify_toExtrinsic (ext : Generated.Extrinsic pallets) :
    (toExtrinsic ext).verify = ext.verify := by
  have hcall := encode_toCall ext.call
  have hpayload : UncheckedExtrinsic.payload ext.signer ext.nonce (toCall ext.call) =
      UncheckedExtrinsic.payload ext.signer ext.nonce ext.call := by
    change encode ext.signer.bytes ++ (encode ext.nonce ++ encode (toCall ext.call)) = _
    rw [hcall]
    rfl
  rw [UncheckedExtrinsic.verify, UncheckedExtrinsic.verify, ← hpayload]
  rfl

/-- A block does on the runtime of the crate what it does on the generated one. -/
theorem translates_executeBlock (block : Generated.Block pallets) :
    Exec.Translates toRuntime toEvent (Generated.Runtime.executeBlock block)
      (Runtime.executeBlock (toBlock block)) := by
  have hitems : ((toBlock block).extrinsics.zip (verifyBatch (toBlock block).extrinsics)).zipIdx =
      (block.extrinsics.zip (verifyBatch block.extrinsics)).zipIdx.map fun p =>
        ((toExtrinsic p.1.1, p.1.2), p.2) := by
    have hverify : ∀ ext : Generated.Extrinsic pallets,
        (toExtrinsic ext).verify = ext.verify := verify_toExtrinsic
    rw [verifyBatch, verifyBatch, Runtime.zip_zipIdx, Runtime.zip_zipIdx, List.map_map, toBlock,
      List.zipIdx_map, List.map_map]
    simp [Function.comp_def, hverify]
  refine Exec.translates_bind (translates_onSystem _) fun _ => ?_
  refine Exec.translates_read_bind fun self => ?_
  refine Exec.translates_ite Iff.rfl (Exec.translates_pure _) ?_
  refine Exec.translates_bind ?_ fun _ => Exec.translates_pure _
  rw [hitems]
  exact Exec.translates_each _ (fun p => translates_applyExtrinsic _ p.2 p.1.1 p.1.2) _

/-- The crate's runtime is the generated one: it is built from a store the same way, and executes
any blocks with the same outcome, to the same state and with the same log, up to the translation,
which reaches every runtime and every block and keeps the bytes of blocks. -/
theorem runtime_is_generated :
    (∀ store, toRuntime (Generated.Runtime.new store) = Runtime.new store) ∧
      Function.Bijective toRuntime ∧ Function.Bijective toBlock ∧
      (∀ block, encode (toBlock block) = encode block) ∧
      ∀ blocks : List (Generated.Block pallets),
        Exec.Translates toRuntime toEvent (Exec.each Generated.Runtime.executeBlock blocks)
          (Exec.each Runtime.executeBlock (blocks.map toBlock)) :=
  ⟨toRuntime_new, toRuntime_bijective, toBlock_bijective, encode_toBlock,
    Exec.translates_each toBlock translates_executeBlock⟩

end Blocks

end RustStateMachine.Composition
