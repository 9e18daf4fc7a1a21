import RustStateMachine.Lib.KeyValue
import RustStateMachine.Lib.Machine

/-!
# Accounts, blocks, extrinsics and the mempool

The wire types with their SCALE codecs, the signature check and the pending
pool. Ed25519 is outside the repository: it enters as the four functions the
code calls, and nothing is assumed of them.
-/

namespace RustStateMachine.Support

open Lib

/-! ## Accounts -/

/-- A 32-byte Ed25519 public key, ordered by its bytes. -/
structure AccountId32 where
  bytes : Vector UInt8 32
deriving DecidableEq

instance : Ord AccountId32 := ⟨compareOn AccountId32.bytes⟩

instance : Std.TransOrd AccountId32 := inferInstanceAs (Std.TransCmp (compareOn AccountId32.bytes))

instance : Std.LawfulEqOrd AccountId32 where
  eq_of_compare {a b} h := by
    have hb : compare a.bytes b.bytes = .eq := h
    obtain ⟨x⟩ := a
    obtain ⟨y⟩ := b
    exact congrArg AccountId32.mk (Std.LawfulEqCmp.eq_of_compare hb)

instance : Encode AccountId32 := ⟨fun a => encode a.bytes⟩

instance : Decode AccountId32 := ⟨fun bs => (decode bs).map (Prod.map AccountId32.mk id)⟩

instance : PrefixCodec AccountId32 :=
  Codec.prefixCodec_of_iso AccountId32.mk AccountId32.bytes (fun _ => rfl) (fun _ => rfl)
    (fun _ => rfl) (fun _ => rfl)

theorem encode_account_ne_nil (a : AccountId32) : encode a ≠ [] := by
  intro h
  have hlen : (encode a).length = 32 := by simp [encode]
  rw [h] at hlen
  cases hlen

/-- The two lower-case hexadecimal digits of a byte. -/
def hexDigits (b : UInt8) : List Char :=
  [Nat.digitChar (b.toNat / 16), Nat.digitChar (b.toNat % 16)]

/-- How an account is printed: the first and the last eight of its hexadecimal digits. -/
def AccountId32.debug (a : AccountId32) : String :=
  let hex := a.bytes.toList.flatMap hexDigits
  "0x" ++ String.ofList (hex.take 8) ++ "…" ++ String.ofList (hex.drop 56)

/-! ## Blocks and extrinsics -/

/-- The header of a block. -/
structure Header (BlockNumber : Type) where
  blockNumber : BlockNumber
deriving DecidableEq

/-- A block and its extrinsics. -/
structure Block (Header Extrinsic : Type) where
  header : Header
  extrinsics : List Extrinsic
deriving DecidableEq

/-- The signature is meant to be over SCALE(`signer ‖ nonce ‖ call`). -/
structure UncheckedExtrinsic (Call : Type) where
  signer : AccountId32
  signature : Vector UInt8 64
  nonce : U32
  call : Call
deriving DecidableEq

/-- What a dispatch hands back: nothing, or a message. -/
abbrev DispatchResult := Except String Unit

/-- The functions of `ed25519_dalek` the code calls. -/
class Ed25519 where
  /-- `SigningKey::verifying_key`, as bytes -/
  verifyingKey : Vector UInt8 32 → Vector UInt8 32
  /-- `Signer::sign` -/
  sign : Vector UInt8 32 → Bytes → Vector UInt8 64
  /-- `VerifyingKey::from_bytes` succeeds -/
  isVerifyingKey : Vector UInt8 32 → Bool
  /-- `Verifier::verify` succeeds -/
  verifies : Vector UInt8 32 → Bytes → Vector UInt8 64 → Bool

/-- A stand-in scheme for concrete runs: a key is its own public key, and the signature of a
message is the key followed by 32 bytes of the message. -/
@[reducible] def Ed25519.transparent : Ed25519 where
  verifyingKey sk := sk
  sign sk message := Vector.ofFn fun i => if h : i < 32 then sk[i] else message.getD i 0
  isVerifyingKey _ := true
  verifies vk message signature :=
    signature == Vector.ofFn fun i => if h : i < 32 then vk[i] else message.getD i 0

namespace UncheckedExtrinsic

variable {Call : Type} [Encode Call]

/-- The bytes that are signed and verified. -/
def payload (signer : AccountId32) (nonce : U32) (call : Call) : Bytes :=
  encode (signer.bytes, nonce, call)

/-- An extrinsic of the key, signed over all its other fields. -/
def newSigned [Ed25519] (sk : Vector UInt8 32) (nonce : U32) (call : Call) :
    UncheckedExtrinsic Call :=
  let signer : AccountId32 := ⟨Ed25519.verifyingKey sk⟩
  { signer, signature := Ed25519.sign sk (payload signer nonce call), nonce, call }

/-- Check the key, then the signature over the other fields. -/
def verify [Ed25519] (self : UncheckedExtrinsic Call) : DispatchResult :=
  if Ed25519.isVerifyingKey self.signer.bytes then
    if Ed25519.verifies self.signer.bytes (payload self.signer self.nonce self.call)
        self.signature then
      .ok ()
    else .error "invalid signature"
  else .error "invalid public key"

/-- What a key signs verifies, if the scheme reads back its own keys and signatures. -/
theorem verify_newSigned [Ed25519] {sk : Vector UInt8 32}
    (hkey : Ed25519.isVerifyingKey (Ed25519.verifyingKey sk) = true)
    (hsign : ∀ message,
      Ed25519.verifies (Ed25519.verifyingKey sk) message (Ed25519.sign sk message) = true)
    (nonce : U32) (call : Call) : (newSigned sk nonce call).verify = .ok () := by
  simp [verify, newSigned, hkey, hsign]

end UncheckedExtrinsic

/-- One verification result per extrinsic, in the same order. -/
def verifyBatch {Call : Type} [Encode Call] [Ed25519] (exts : List (UncheckedExtrinsic Call)) :
    List DispatchResult :=
  exts.map UncheckedExtrinsic.verify

section Codecs

variable {α β : Type}

/-- A header is coded as its only field. -/
instance [Encode α] : Encode (Header α) := ⟨fun h => encode h.blockNumber⟩

instance [Decode α] : Decode (Header α) := ⟨fun bs => (decode bs).map (Prod.map Header.mk id)⟩

instance [Encode α] [Decode α] [PrefixCodec α] : PrefixCodec (Header α) :=
  Codec.prefixCodec_of_iso Header.mk Header.blockNumber (fun _ => rfl) (fun _ => rfl)
    (fun _ => rfl) (fun _ => rfl)

/-- The fields of an extrinsic, in the order they are coded. -/
def UncheckedExtrinsic.fields (e : UncheckedExtrinsic α) :
    AccountId32 × Vector UInt8 64 × U32 × α := (e.signer, e.signature, e.nonce, e.call)

/-- The extrinsic with these fields. -/
def UncheckedExtrinsic.ofFields (p : AccountId32 × Vector UInt8 64 × U32 × α) :
    UncheckedExtrinsic α := ⟨p.1, p.2.1, p.2.2.1, p.2.2.2⟩

instance [Encode α] : Encode (UncheckedExtrinsic α) := ⟨fun e => encode e.fields⟩

instance [Decode α] : Decode (UncheckedExtrinsic α) :=
  ⟨fun bs => (decode bs).map (Prod.map UncheckedExtrinsic.ofFields id)⟩

instance [Encode α] [Decode α] [PrefixCodec α] : PrefixCodec (UncheckedExtrinsic α) :=
  Codec.prefixCodec_of_iso UncheckedExtrinsic.ofFields UncheckedExtrinsic.fields (fun _ => rfl)
    (fun _ => rfl) (fun _ => rfl) (fun _ => rfl)

instance [Encode α] [Encode β] : Encode (Block α β) := ⟨fun b => encode (b.header, b.extrinsics)⟩

/-- The block with these fields. -/
def Block.ofFields (p : α × List β) : Block α β := ⟨p.1, p.2⟩

instance [Decode α] [Decode β] : Decode (Block α β) :=
  ⟨fun bs => (decode bs).map (Prod.map Block.ofFields id)⟩

variable [Encode α] [Decode α] [PrefixCodec α] [Encode β] [Decode β] [PrefixCodec β]

/-- A block whose extrinsic count fits a compact length is read back in front of any rest. -/
theorem decode_block_append {b : Block α β} (h : b.extrinsics.length < 2 ^ 32) (rest : Bytes) :
    decode (encode b ++ rest) = some (b, rest) := by
  have hpair : (decode (encode (b.header, b.extrinsics) ++ rest) : Option ((α × List β) × Bytes)) =
      some ((b.header, b.extrinsics), rest) := by
    rw [Codec.decode_pair_eq_some]
    refine ⟨encode b.extrinsics ++ rest, ?_, Codec.decode_list_append h rest⟩
    rw [← decode_append b.header (encode b.extrinsics ++ rest), ← List.append_assoc]
    rfl
  change (decode (encode (b.header, b.extrinsics) ++ rest)).map (Prod.map Block.ofFields id) = _
  rw [hpair]
  rfl

/-- Only canonical encodings of blocks are read. -/
theorem append_of_decode_block {bytes rest : Bytes} {b : Block α β}
    (hd : decode bytes = some (b, rest)) :
    b.extrinsics.length < 2 ^ 32 ∧ bytes = encode b ++ rest := by
  change (decode bytes).map (Prod.map Block.ofFields id) = some (b, rest) at hd
  obtain ⟨⟨⟨header, exts⟩, r⟩, hpair, heq⟩ := Option.map_eq_some_iff.mp hd
  cases heq
  obtain ⟨mid, hheader, hexts⟩ := Codec.decode_pair_eq_some.mp hpair
  obtain ⟨hlen, rfl⟩ := Codec.append_of_decode_list hexts
  refine ⟨hlen, ?_⟩
  rw [append_of_decode hheader, ← List.append_assoc]
  rfl

end Codecs

/-! ## Mempool -/

/-- Pending extrinsics in arrival order. -/
structure Mempool (Extrinsic : Type) where
  pending : List Extrinsic
  maxCapacity : Option ℕ
  blockLimit : Option ℕ

/-- The only error of `submit`. -/
inductive MempoolFull where
  | mempoolFull
deriving DecidableEq

namespace Mempool

variable {Extrinsic : Type}

/-- An empty pool without limits. -/
def new : Mempool Extrinsic := ⟨[], none, none⟩

/-- An empty pool that gives at most so many extrinsics to a block. -/
def withBlockLimit (blockLimit : ℕ) : Mempool Extrinsic := ⟨[], none, some blockLimit⟩

/-- Append at the back unless the pool is at capacity. -/
def submit (self : Mempool Extrinsic) (ext : Extrinsic) :
    Except MempoolFull Unit × Mempool Extrinsic :=
  match self.maxCapacity with
  | some max =>
      if max ≤ self.pending.length then (.error .mempoolFull, self)
      else (.ok (), { self with pending := self.pending ++ [ext] })
  | none => (.ok (), { self with pending := self.pending ++ [ext] })

/-- Pop up to `n` extrinsics from the front. -/
def drainForBlock : ℕ → Mempool Extrinsic → List Extrinsic × Mempool Extrinsic
  | 0, self => ([], self)
  | n + 1, self =>
      match self.pending with
      | [] => ([], self)
      | ext :: rest =>
          let (exts, self) := drainForBlock n { self with pending := rest }
          (ext :: exts, self)

/-- Remove the extrinsic at an index, if there is one. -/
def remove (self : Mempool Extrinsic) (index : ℕ) : Option Extrinsic × Mempool Extrinsic :=
  if index < self.pending.length then
    (self.pending[index]?, { self with pending := self.pending.eraseIdx index })
  else (none, self)

/-- Keep only the extrinsics for which `f` is true. -/
def retain (f : Extrinsic → Bool) (self : Mempool Extrinsic) : Mempool Extrinsic :=
  { self with pending := self.pending.filter f }

theorem drainForBlock_eq (n : ℕ) (self : Mempool Extrinsic) :
    drainForBlock n self =
      (self.pending.take n, { self with pending := self.pending.drop n }) := by
  induction n generalizing self with
  | zero => rfl
  | succ n ih =>
      cases hp : self.pending with
      | nil =>
          obtain ⟨pending, maxCapacity, blockLimit⟩ := self
          subst hp
          rfl
      | cons e rest => simp [drainForBlock, hp, ih]

end Mempool

/-! ## Dev keyring -/

/-- The development accounts. -/
inductive AccountKeyring where
  | alice
  | bob
  | charlie
deriving DecidableEq

namespace AccountKeyring

/-- The UTF-8 bytes of the account's name, padded with zeros to 32 bytes. -/
def seed : AccountKeyring → Vector UInt8 32
  | alice => ⟨("Alice".toUTF8.data.toList ++ List.replicate 27 0).toArray, rfl⟩
  | bob => ⟨("Bob".toUTF8.data.toList ++ List.replicate 29 0).toArray, rfl⟩
  | charlie => ⟨("Charlie".toUTF8.data.toList ++ List.replicate 25 0).toArray, rfl⟩

/-- The seed is the signing key. -/
def signingKey (self : AccountKeyring) : Vector UInt8 32 := self.seed

/-- The account's public key. -/
def publicKey [Ed25519] (self : AccountKeyring) : AccountId32 :=
  ⟨Ed25519.verifyingKey self.signingKey⟩

/-- The account of a name in any case. No letter outside ASCII has a lower case in these names. -/
def fromName (name : String) : Option AccountKeyring :=
  match name.toLower with
  | "alice" => some alice
  | "bob" => some bob
  | "charlie" => some charlie
  | _ => none

end AccountKeyring

end RustStateMachine.Support
