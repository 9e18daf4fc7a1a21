import RustStateMachine.Runtime

/-!
# What a signature binds

The signed bytes determine the signer, the nonce and the call. Under a scheme
that accepts only what the owner of a key has signed, an extrinsic verifies as
it was signed, also after it went over the wire, and in no altered form.
-/

namespace RustStateMachine

open Lib Support

namespace Support.Ed25519

/-- The scheme accepts exactly what was signed: `signed sk message` says that the owner of `sk` has
signed the message. Among what was signed, a signature of a key stands for one message. -/
structure Ideal [Ed25519] (signed : Vector UInt8 32 → Bytes → Prop) : Prop where
  isVerifyingKey : ∀ sk, isVerifyingKey (verifyingKey sk) = true
  verifies_iff : ∀ vk message signature, verifies vk message signature = true ↔
    ∃ sk, verifyingKey sk = vk ∧ signed sk message ∧ sign sk message = signature
  message_eq : ∀ sk sk' message message', signed sk message → signed sk' message' →
    verifyingKey sk = verifyingKey sk' → sign sk message = sign sk' message' → message = message'

variable {record : List (Vector UInt8 32 × Bytes)}

/-- The key followed by the place of the signed message in a record. -/
def recordedSignature (record : List (Vector UInt8 32 × Bytes)) (sk : Vector UInt8 32)
    (message : Bytes) : Vector UInt8 64 :=
  Vector.ofFn fun i =>
    if h : i.val < 32 then sk[i.val] else UInt8.ofNat (record.idxOf (sk, message))

/-- The place in a record fits the byte that stands for it. -/
theorem recordedSignature_inj (h : record.length ≤ 256) {sk : Vector UInt8 32}
    {message message' : Bytes} (hmem : (sk, message) ∈ record) (hmem' : (sk, message') ∈ record)
    (hsig : recordedSignature record sk message = recordedSignature record sk message') :
    message = message' := by
  have hbyte := congrArg (fun signature : Vector UInt8 64 => signature[32].toNat) hsig
  have hplace := List.idxOf_lt_length_of_mem hmem
  have hplace' := List.idxOf_lt_length_of_mem hmem'
  simp only [recordedSignature, Vector.getElem_ofFn, lt_irrefl, dite_false] at hbyte
  rw [UInt8.toNat_ofNat_of_lt' (lt_of_lt_of_le hplace h),
    UInt8.toNat_ofNat_of_lt' (lt_of_lt_of_le hplace' h)] at hbyte
  exact congrArg Prod.snd ((List.idxOf_inj hmem).mp hbyte)

/-- A scheme for concrete runs: a key is its own public key, and exactly the messages of a record
are accepted. -/
@[reducible] def ledger (record : List (Vector UInt8 32 × Bytes)) : Ed25519 where
  verifyingKey sk := sk
  sign := recordedSignature record
  isVerifyingKey _ := true
  verifies vk message signature :=
    (vk, message) ∈ record ∧ recordedSignature record vk message = signature

theorem ideal_ledger (h : record.length ≤ 256) :
    @Ideal (ledger record) fun sk message => (sk, message) ∈ record := by
  refine @Ideal.mk (ledger record) _ (fun _ => rfl) ?_ ?_
  · intro vk message signature
    refine decide_eq_true_iff.trans ?_
    constructor
    · exact fun hrec => ⟨vk, rfl, hrec⟩
    · rintro ⟨sk, rfl, hrec⟩
      exact hrec
  · intro sk sk' message message' hmem hmem' hkey hsig
    change sk = sk' at hkey
    subst hkey
    exact recordedSignature_inj h hmem hmem' hsig

end Support.Ed25519

namespace Support.UncheckedExtrinsic

variable {Call : Type} [Encode Call]

/-- The bytes that are signed say which signer, nonce and call they stand for. -/
theorem payload_inj [Decode Call] [PrefixCodec Call] {signer signer' : AccountId32}
    {nonce nonce' : U32} {call call' : Call} :
    payload signer nonce call = payload signer' nonce' call' ↔
      signer = signer' ∧ nonce = nonce' ∧ call = call' := by
  constructor
  · intro h
    obtain ⟨hbytes, hrest⟩ := Prod.mk.inj (Codec.encode_injective h)
    obtain ⟨hnonce, hcall⟩ := Prod.mk.inj hrest
    obtain ⟨bytes⟩ := signer
    exact ⟨congrArg AccountId32.mk hbytes, hnonce, hcall⟩
  · rintro ⟨rfl, rfl, rfl⟩
    rfl

variable [Ed25519] {signed : Vector UInt8 32 → Bytes → Prop}

theorem verify_eq_ok_iff {e : UncheckedExtrinsic Call} :
    e.verify = .ok () ↔ Ed25519.isVerifyingKey e.signer.bytes = true ∧
      Ed25519.verifies e.signer.bytes (payload e.signer e.nonce e.call) e.signature = true := by
  rw [verify]
  split_ifs with hkey hsig
  · exact iff_of_true rfl ⟨hkey, hsig⟩
  · exact iff_of_false not_false fun h => hsig h.2
  · exact iff_of_false not_false fun h => hkey h.1

/-- Under an ideal scheme an extrinsic verifies if its signature is one the owner of its signer
handed out for just this payload. -/
theorem verify_ideal (h : Ed25519.Ideal signed) {e : UncheckedExtrinsic Call} :
    e.verify = .ok () ↔ ∃ sk, Ed25519.verifyingKey sk = e.signer.bytes ∧
      signed sk (payload e.signer e.nonce e.call) ∧
      Ed25519.sign sk (payload e.signer e.nonce e.call) = e.signature := by
  rw [verify_eq_ok_iff, h.verifies_iff]
  constructor
  · exact And.right
  · rintro ⟨sk, hkey, hrest⟩
    refine ⟨?_, sk, hkey, hrest⟩
    rw [← hkey]
    exact h.isVerifyingKey sk

end Support.UncheckedExtrinsic

namespace Runtime

open UncheckedExtrinsic

/-- The signed bytes are equal exactly if signer, nonce and call are. Under an ideal scheme an
extrinsic that `new_signed` builds verifies, also after an encoding and decoding, and neither with
another nonce or call nor for another signer who did not sign the same. -/
theorem signature_binds_every_field :
    (∀ a b : Types.Extrinsic, payload a.signer a.nonce a.call = payload b.signer b.nonce b.call ↔
      a.signer = b.signer ∧ a.nonce = b.nonce ∧ a.call = b.call) ∧
    ∀ [Ed25519] (signed : Vector UInt8 32 → Bytes → Prop), Ed25519.Ideal signed →
      ∀ (sk : Vector UInt8 32) (nonce : U32) (call : RuntimeCall),
        let e : Types.Extrinsic := newSigned sk nonce call
        signed sk (payload e.signer nonce call) →
          e.verify = .ok () ∧
          (∀ rest, ∃ e' : Types.Extrinsic,
            decode (encode e ++ rest) = some (e', rest) ∧ e'.verify = .ok ()) ∧
          (∀ n c, n ≠ nonce ∨ c ≠ call → { e with nonce := n, call := c }.verify ≠ .ok ()) ∧
          ∀ signer, signer ≠ e.signer →
            (∀ sk', Ed25519.verifyingKey sk' = signer.bytes →
              ¬ signed sk' (payload signer nonce call)) →
            { e with signer := signer }.verify ≠ .ok () := by
  refine ⟨fun a b => payload_inj, ?_⟩
  intro scheme signed hideal sk nonce call e hsigned
  have hok : e.verify = .ok () := (verify_ideal hideal).mpr ⟨sk, rfl, hsigned, rfl⟩
  refine ⟨hok, fun rest => ⟨e, decode_append e rest, hok⟩, ?_, ?_⟩
  · -- the owner signed the altered payload with another signature, or not at all
    intro n c hne hverify
    obtain ⟨sk', hkey, hsigned', hsig⟩ := (verify_ideal hideal).mp hverify
    have hpayload := hideal.message_eq sk' sk _ _ hsigned' hsigned hkey hsig
    obtain ⟨-, hnonce, hcall⟩ := payload_inj.mp hpayload
    exact hne.elim (fun h => h hnonce) fun h => h hcall
  · intro signer _ hnever hverify
    obtain ⟨sk', hkey, hsigned', -⟩ := (verify_ideal hideal).mp hverify
    exact hnever sk' hkey hsigned'

/-- Alice has signed one transfer to Bob at two nonces. -/
def signedTwice : List (Vector UInt8 32 × Bytes) :=
  let alice := AccountKeyring.alice.seed
  let call : RuntimeCall := .balances (.transfer ⟨AccountKeyring.bob.seed⟩ 30)
  [(alice, payload ⟨alice⟩ 0 call), (alice, payload ⟨alice⟩ 1 call)]

/-- Her signature for nonce 0 is of no use at nonce 1, which she has signed as well. -/
theorem signature_binds_every_field_signedTwice :
    let := Ed25519.ledger signedTwice
    let e : Types.Extrinsic := newSigned AccountKeyring.alice.seed 0
      (.balances (.transfer ⟨AccountKeyring.bob.seed⟩ 30))
    e.verify = .ok () ∧ { e with nonce := 1 }.verify ≠ .ok () := by
  intro scheme e
  have hsigned : (AccountKeyring.alice.seed, payload e.signer 0 e.call) ∈ signedTwice :=
    List.mem_cons_self
  obtain ⟨hok, -, haltered, -⟩ := signature_binds_every_field.2 _
    (Ed25519.ideal_ledger (by decide)) AccountKeyring.alice.seed 0 e.call hsigned
  exact ⟨hok, haltered 1 e.call (Or.inl (by decide))⟩

end Runtime

end RustStateMachine
