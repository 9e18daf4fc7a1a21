import RustStateMachine.Server

/-!
# Bytes from the wire

The three places where the node decodes bytes of others. Each takes the value
that stands in front and does not look at the bytes behind it.
-/

namespace RustStateMachine

open Lib Support

/-- The channels from the network loop to the task, with what was sent and not yet received. -/
structure Channels where
  extrinsics : List Types.Extrinsic
  blocks : List Types.Block

namespace Channels

/-- An extrinsic is sent to the task. -/
def sendExtrinsic (ext : Types.Extrinsic) (self : Channels) : Channels :=
  { self with extrinsics := self.extrinsics ++ [ext] }

/-- A block is sent to the task. -/
def sendBlock (block : Types.Block) (self : Channels) : Channels :=
  { self with blocks := self.blocks ++ [block] }

theorem sendExtrinsic_injective (self : Channels) :
    Function.Injective fun ext => self.sendExtrinsic ext := fun _ _ h =>
  List.singleton_inj.mp (List.append_cancel_left (congrArg Channels.extrinsics h))

theorem sendBlock_injective (self : Channels) :
    Function.Injective fun block => self.sendBlock block := fun _ _ h =>
  List.singleton_inj.mp (List.append_cancel_left (congrArg Channels.blocks h))

end Channels

theorem Server.send_injective {PeerId : Type} (self : Server PeerId) :
    Function.Injective fun ext => self.send ext := by
  intro ext ext' h
  have hsent : self.outstanding ++ [ext] = self.outstanding ++ [ext'] := by
    rw [← Server.outstanding_send, ← Server.outstanding_send]
    exact congrArg Server.outstanding h
  exact List.singleton_inj.mp (List.append_cancel_left hsent)

/-- The gossip topic of extrinsics. -/
def extrinsicTopic : String := "extrinsics"

/-- The gossip topic of blocks. -/
def blockTopic : String := "blocks"

/-- The message branch of the network loop. The codec's description of bad bytes is left out of the
lines. -/
def receiveGossip (topic : String) (data : Bytes) : Exec NodeEvent Channels Unit :=
  if topic = extrinsicTopic then
    match (decode data : Option (Types.Extrinsic × Bytes)) with
    | some (ext, _) => Exec.modify (Channels.sendExtrinsic ext)
    | none => Exec.emit (.eprintln "[net] bad extrinsic bytes")
  else if topic = blockTopic then
    match (decode data : Option (Types.Block × Bytes)) with
    | some (block, _) => Exec.modify (Channels.sendBlock block)
    | none => Exec.emit (.eprintln "[net] bad block bytes")
  else return ()

section Runs

variable {PeerId : Type} {raw rest : Bytes}

theorem Server.submitHandler_of_some {ext : Types.Extrinsic}
    (h : decode raw = some (ext, rest)) (self : Server PeerId) :
    submitHandler raw self = ⟨.ret (.ok .accepted), self.send ext, [.publish raw]⟩ := by
  rw [submitHandler, h]
  rfl

theorem Server.submitHandler_of_none
    (h : (decode raw : Option (Types.Extrinsic × Bytes)) = none) (self : Server PeerId) :
    submitHandler raw self = ⟨.ret (.error (.badRequest, "SCALE decode failed")), self, []⟩ := by
  rw [submitHandler, h]
  rfl

theorem receiveGossip_of_extrinsic {ext : Types.Extrinsic} (h : decode raw = some (ext, rest))
    (self : Channels) :
    receiveGossip extrinsicTopic raw self = ⟨.ret (), self.sendExtrinsic ext, []⟩ := by
  rw [receiveGossip, if_pos rfl, h]
  rfl

theorem receiveGossip_of_bad_extrinsic
    (h : (decode raw : Option (Types.Extrinsic × Bytes)) = none) (self : Channels) :
    receiveGossip extrinsicTopic raw self =
      ⟨.ret (), self, [.eprintln "[net] bad extrinsic bytes"]⟩ := by
  rw [receiveGossip, if_pos rfl, h]
  rfl

theorem receiveGossip_of_block {block : Types.Block} (h : decode raw = some (block, rest))
    (self : Channels) :
    receiveGossip blockTopic raw self = ⟨.ret (), self.sendBlock block, []⟩ := by
  rw [receiveGossip, if_neg (by decide), if_pos rfl, h]
  rfl

theorem receiveGossip_of_bad_block
    (h : (decode raw : Option (Types.Block × Bytes)) = none) (self : Channels) :
    receiveGossip blockTopic raw self =
      ⟨.ret (), self, [.eprintln "[net] bad block bytes"]⟩ := by
  rw [receiveGossip, if_neg (by decide), if_pos rfl, h]
  rfl

end Runs

/-! ## What is accepted -/

/-- Whether bytes are read as an extrinsic, and as which one, is a matter of their front. -/
theorem decode_extrinsic_cases (raw : Bytes) :
    (∃ (ext : Types.Extrinsic) (rest : Bytes), decode raw = some (ext, rest) ∧
      ∀ ext' : Types.Extrinsic, encode ext' <+: raw ↔ ext' = ext) ∨
    (decode raw : Option (Types.Extrinsic × Bytes)) = none ∧
      ∀ ext : Types.Extrinsic, ¬ encode ext <+: raw := by
  have hiff : ∀ {bytes rest : Bytes} {ext : Types.Extrinsic},
      decode bytes = some (ext, rest) ↔ True ∧ bytes = encode ext ++ rest := by
    intro bytes rest ext
    rw [true_and]
    exact Codec.decode_eq_some_iff
  simpa only [true_and, forall_const] using Codec.decode_cases hiff raw

/-- A block the network loop hands over is the one the task receives from the message. -/
theorem receiveMessage_of_handed {PeerId : Type} [Ed25519] {data : Bytes} {block : Types.Block}
    {self : Channels}
    (h : receiveGossip blockTopic data self = ⟨.ret (), self.sendBlock block, []⟩) :
    (Node.receiveMessage data : Exec NodeEvent (Node PeerId) Unit) = Node.receiveBlock block := by
  cases hdecode : (decode data : Option (Types.Block × Bytes)) with
  | none =>
      rw [receiveGossip_of_bad_block hdecode] at h
      cases congrArg Run.log h
  | some p =>
      obtain ⟨block', rest⟩ := p
      rw [receiveGossip_of_block hdecode] at h
      rw [Node.receiveMessage, hdecode, ← self.sendBlock_injective (congrArg Run.state h)]

/-- Two runs that hand on one value each are the same exactly if the values are. -/
theorem run_eq_iff {ε σ α β : Type} {send : α → σ} (hsend : Function.Injective send)
    {o : Outcome β} {log : List ε} {a b : α} :
    (⟨o, send a, log⟩ : Run ε σ β) = ⟨o, send b, log⟩ ↔ b = a := by
  constructor
  · intro h
    exact (hsend (congrArg Run.state h)).symm
  · rintro rfl
    rfl

/-- The two doors for extrinsics. -/
theorem extrinsic_bytes_accepted {PeerId : Type} (raw : Bytes) (self : Server PeerId)
    (channels : Channels) :
    (∀ ext : Types.Extrinsic,
      (Server.submitHandler raw self = ⟨.ret (.ok .accepted), self.send ext, [.publish raw]⟩ ↔
        encode ext <+: raw) ∧
      (receiveGossip extrinsicTopic raw channels = ⟨.ret (), channels.sendExtrinsic ext, []⟩ ↔
        encode ext <+: raw)) ∧
    ((∀ ext : Types.Extrinsic, ¬ encode ext <+: raw) →
      Server.submitHandler raw self =
          ⟨.ret (.error (.badRequest, "SCALE decode failed")), self, []⟩ ∧
        receiveGossip extrinsicTopic raw channels =
          ⟨.ret (), channels, [.eprintln "[net] bad extrinsic bytes"]⟩) := by
  rcases decode_extrinsic_cases raw with ⟨ext, rest, hdecode, hfront⟩ | ⟨hdecode, hfront⟩
  · rw [Server.submitHandler_of_some hdecode, receiveGossip_of_extrinsic hdecode]
    refine ⟨fun ext' => ⟨?_, ?_⟩, fun hnone => absurd ((hfront ext).mpr rfl) (hnone ext)⟩
    · rw [hfront]
      exact run_eq_iff self.send_injective
    · rw [hfront]
      exact run_eq_iff channels.sendExtrinsic_injective
  · rw [Server.submitHandler_of_none hdecode, receiveGossip_of_bad_extrinsic hdecode]
    refine ⟨fun ext => ⟨?_, ?_⟩, fun _ => ⟨rfl, rfl⟩⟩
    · refine iff_of_false ?_ (hfront ext)
      intro h
      cases congrArg Run.log h
    · refine iff_of_false ?_ (hfront ext)
      intro h
      cases congrArg Run.log h

/-- The door for blocks. -/
theorem block_bytes_accepted (raw : Bytes) (channels : Channels) :
    (∀ block : Types.Block,
      receiveGossip blockTopic raw channels = ⟨.ret (), channels.sendBlock block, []⟩ ↔
        block.extrinsics.length < 2 ^ 32 ∧ encode block <+: raw) ∧
    ((∀ block : Types.Block, block.extrinsics.length < 2 ^ 32 → ¬ encode block <+: raw) →
      receiveGossip blockTopic raw channels =
        ⟨.ret (), channels, [.eprintln "[net] bad block bytes"]⟩) := by
  rcases Codec.decode_cases decode_block_eq_some_iff raw with
    ⟨block, rest, hdecode, hfront⟩ | ⟨hdecode, hfront⟩
  · rw [receiveGossip_of_block hdecode]
    constructor
    · intro block'
      rw [hfront]
      exact run_eq_iff channels.sendBlock_injective
    · intro hnone
      obtain ⟨hlen, hpre⟩ := (hfront block).mpr rfl
      exact absurd hpre (hnone block hlen)
  · rw [receiveGossip_of_bad_block hdecode]
    refine ⟨fun block => ?_, fun _ => rfl⟩
    refine iff_of_false ?_ fun h => hfront block h.1 h.2
    intro h
    cases congrArg Run.log h

/-- At its three doors the node accepts bytes exactly if an encoding stands in front of them, of an
extrinsic or of a block whose extrinsics fit a compact length. It hands that value on and looks at
nothing behind it; what `/submit` publishes are all the bytes. No bytes stand for two values. Other
bytes are answered or reported, and nothing is handed on. -/
theorem wire_bytes_accepted_iff {PeerId : Type} (raw : Bytes) (self : Server PeerId)
    (channels : Channels) :
    ((∀ ext : Types.Extrinsic,
      (Server.submitHandler raw self = ⟨.ret (.ok .accepted), self.send ext, [.publish raw]⟩ ↔
        encode ext <+: raw) ∧
      (receiveGossip extrinsicTopic raw channels = ⟨.ret (), channels.sendExtrinsic ext, []⟩ ↔
        encode ext <+: raw)) ∧
    ((∀ ext : Types.Extrinsic, ¬ encode ext <+: raw) →
      Server.submitHandler raw self =
          ⟨.ret (.error (.badRequest, "SCALE decode failed")), self, []⟩ ∧
        receiveGossip extrinsicTopic raw channels =
          ⟨.ret (), channels, [.eprintln "[net] bad extrinsic bytes"]⟩)) ∧
    ((∀ block : Types.Block,
      receiveGossip blockTopic raw channels = ⟨.ret (), channels.sendBlock block, []⟩ ↔
        block.extrinsics.length < 2 ^ 32 ∧ encode block <+: raw) ∧
    ((∀ block : Types.Block, block.extrinsics.length < 2 ^ 32 → ¬ encode block <+: raw) →
      receiveGossip blockTopic raw channels =
        ⟨.ret (), channels, [.eprintln "[net] bad block bytes"]⟩)) ∧
    (∀ ext ext' : Types.Extrinsic, encode ext <+: raw → encode ext' <+: raw → ext = ext') ∧
    ∀ block block' : Types.Block, block.extrinsics.length < 2 ^ 32 →
      block'.extrinsics.length < 2 ^ 32 → encode block <+: raw → encode block' <+: raw →
        block = block' := by
  refine ⟨extrinsic_bytes_accepted raw self channels, block_bytes_accepted raw channels, ?_, ?_⟩
  · intro ext ext' hpre hpre'
    rcases decode_extrinsic_cases raw with ⟨_, _, -, hfront⟩ | ⟨-, hfront⟩
    · exact ((hfront ext).mp hpre).trans ((hfront ext').mp hpre').symm
    · exact absurd hpre (hfront ext)
  · intro block block' hlen hlen' hpre hpre'
    rcases Codec.decode_cases decode_block_eq_some_iff raw with ⟨_, _, -, hfront⟩ | ⟨-, hfront⟩
    · exact ((hfront block).mp ⟨hlen, hpre⟩).trans ((hfront block').mp ⟨hlen', hpre'⟩).symm
    · exact absurd hpre (hfront block hlen)

/-- A transfer of nothing, with an empty signature. -/
def unsignedTransfer : Types.Extrinsic :=
  let zeros : AccountId32 := ⟨Vector.replicate 32 0⟩
  ⟨zeros, Vector.replicate 64 0, 0, .balances (.transfer zeros 0)⟩

/-- One byte more behind an encoding is accepted as the same extrinsic, although no extrinsic is
encoded so. -/
theorem trailing_byte_accepted :
    let self : Server ℕ := ⟨⟨0, [], Runtime.new ∅, Mempool.new⟩, [], .idle⟩
    let raw := encode unsignedTransfer ++ [0]
    Server.submitHandler raw self =
        ⟨.ret (.ok .accepted), self.send unsignedTransfer, [.publish raw]⟩ ∧
      Server.submitHandler (encode unsignedTransfer) self =
        ⟨.ret (.ok .accepted), self.send unsignedTransfer, [.publish (encode unsignedTransfer)]⟩ ∧
      ∀ ext : Types.Extrinsic, raw ≠ encode ext := by
  intro self raw
  have hdecode : decode raw = some (unsignedTransfer, [0]) := decode_append unsignedTransfer [0]
  refine ⟨Server.submitHandler_of_some hdecode self,
    Server.submitHandler_of_some (Codec.decode_encode unsignedTransfer) self, ?_⟩
  intro ext hraw
  rw [hraw, Codec.decode_encode] at hdecode
  cases hdecode

end RustStateMachine
