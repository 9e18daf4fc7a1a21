import Mathlib.Algebra.Order.Group.Nat
import Mathlib.Tactic.Common
import Mathlib.Tactic.Ring

/-!
# Prefix codecs over bytes

A decoder consumes the front of a byte string and returns what is left. A lawful
codec reads back every encoding in front of any rest, and accepts nothing but
encodings. The codecs built here follow the SCALE conventions: little-endian
fixed-width integers, raw fixed arrays, canonical compact lengths and
length-prefixed UTF-8 text.
-/

namespace Lib

/-- A sequence of bytes. -/
abbrev Bytes := List UInt8

/-- Types with an encoding. -/
class Encode (α : Type) where
  encode : α → Bytes

/-- Types that can be read from the front of a byte string. -/
class Decode (α : Type) where
  decode : Bytes → Option (α × Bytes)

export Encode (encode)
export Decode (decode)

/-- The encodings form a prefix code, and the decoder accepts exactly them. -/
class PrefixCodec (α : Type) [Encode α] [Decode α] : Prop where
  decode_append : ∀ (a : α) (rest : Bytes), decode (encode a ++ rest) = some (a, rest)
  append_of_decode : ∀ {bytes rest : Bytes} {a : α},
    decode bytes = some (a, rest) → bytes = encode a ++ rest

export PrefixCodec (decode_append append_of_decode)

namespace Codec

section Laws

variable {α : Type} [Encode α] [Decode α] [PrefixCodec α]

@[simp] theorem decode_encode (a : α) : decode (encode a) = some (a, []) := by
  simpa using decode_append a []

/-- Two encodings in front of anything agree only when they encode the same value. -/
theorem encode_append_inj {a b : α} {r s : Bytes} (h : encode a ++ r = encode b ++ s) :
    a = b ∧ r = s := by
  have ha := decode_append a r
  rw [h, decode_append b s] at ha
  simp only [Option.some.injEq, Prod.mk.injEq] at ha
  exact ⟨ha.1.symm, ha.2.symm⟩

theorem encode_injective : Function.Injective (encode : α → Bytes) := by
  intro a b h
  have h' : encode a ++ [] = encode b ++ [] := by rw [h]
  exact (encode_append_inj h').1

theorem decode_eq_some_iff {bytes rest : Bytes} {a : α} :
    decode bytes = some (a, rest) ↔ bytes = encode a ++ rest := by
  constructor
  · exact append_of_decode
  · rintro rfl
    exact decode_append a rest

end Laws

/-- A decoder that reads exactly the encodings of the values with a property takes the only such
value whose encoding stands in front, if there is one. -/
theorem decode_cases {α : Type} [Encode α] [Decode α] {P : α → Prop}
    (hiff : ∀ {bytes rest : Bytes} {a : α},
      decode bytes = some (a, rest) ↔ P a ∧ bytes = encode a ++ rest) (bytes : Bytes) :
    (∃ (a : α) (rest : Bytes), decode bytes = some (a, rest) ∧
      ∀ b, P b ∧ encode b <+: bytes ↔ b = a) ∨
    (decode bytes : Option (α × Bytes)) = none ∧ ∀ b : α, P b → ¬ encode b <+: bytes := by
  cases hdecode : (decode bytes : Option (α × Bytes)) with
  | none =>
      refine .inr ⟨rfl, ?_⟩
      rintro b hb ⟨rest, hbytes⟩
      rw [hiff.mpr ⟨hb, hbytes.symm⟩] at hdecode
      cases hdecode
  | some p =>
      obtain ⟨a, rest⟩ := p
      refine .inl ⟨a, rest, rfl, ?_⟩
      intro b
      constructor
      · rintro ⟨hb, rest', hbytes⟩
        rw [hiff.mpr ⟨hb, hbytes.symm⟩] at hdecode
        exact (Prod.mk.inj (Option.some.inj hdecode)).1
      · rintro rfl
        obtain ⟨hb, hbytes⟩ := hiff.mp hdecode
        exact ⟨hb, rest, hbytes.symm⟩

/-! ## Tuples and records -/

section Tuples

variable {α β : Type} [Encode α] [Decode α] [Encode β] [Decode β]

/-- The components one after the other. -/
instance : Encode (α × β) := ⟨fun p => encode p.1 ++ encode p.2⟩

instance : Decode (α × β) where
  decode bs := do
    let (a, bs) ← decode bs
    let (b, bs) ← decode bs
    return ((a, b), bs)

omit [Encode α] [Encode β] in
theorem decode_pair_eq_some {bs rest : Bytes} {p : α × β} :
    decode bs = some (p, rest) ↔
      ∃ mid, decode bs = some (p.1, mid) ∧ decode mid = some (p.2, rest) := by
  simp only [decode, Option.bind_eq_bind, Option.bind_eq_some_iff, Prod.exists, Option.pure_def,
    Option.some.injEq, Prod.mk.injEq]
  constructor
  · rintro ⟨a, mid, ha, b, rest', hb, rfl, rfl⟩
    exact ⟨mid, ha, hb⟩
  · rintro ⟨mid, ha, hb⟩
    exact ⟨p.1, mid, ha, p.2, rest, hb, rfl, rfl⟩

instance [PrefixCodec α] [PrefixCodec β] : PrefixCodec (α × β) where
  decode_append p rest := by
    rw [decode_pair_eq_some]
    refine ⟨encode p.2 ++ rest, ?_, decode_append p.2 rest⟩
    rw [← decode_append p.1 (encode p.2 ++ rest), ← List.append_assoc]
    rfl
  append_of_decode {bytes rest p} h := by
    obtain ⟨mid, ha, hb⟩ := decode_pair_eq_some.mp h
    rw [append_of_decode ha, append_of_decode hb, ← List.append_assoc]
    rfl

/-- A type coded through an isomorphic one, such as a record through the tuple of its fields. -/
theorem prefixCodec_of_iso [PrefixCodec α] (f : α → β) (g : β → α) (hfg : ∀ b, f (g b) = b)
    (hgf : ∀ a, g (f a) = a) (hencode : ∀ b : β, encode b = encode (g b))
    (hdecode : ∀ bs, (decode bs : Option (β × Bytes)) = (decode bs).map (Prod.map f id)) :
    PrefixCodec β where
  decode_append b rest := by
    rw [hencode, hdecode, decode_append]
    simp [hfg]
  append_of_decode {bytes rest b} h := by
    rw [hdecode, Option.map_eq_some_iff] at h
    obtain ⟨⟨a, r⟩, ha, hb⟩ := h
    simp only [Prod.map_apply, id_eq, Prod.mk.injEq] at hb
    obtain ⟨rfl, rfl⟩ := hb
    rw [hencode, hgf]
    exact append_of_decode ha

omit [Encode β] [Decode β] in
/-- A value that is coded as what it wraps is read back. -/
theorem decode_map_append [PrefixCodec α] (f : α → β) (a : α) (rest : Bytes) :
    (decode (encode a ++ rest)).map (Prod.map f id) = some (f a, rest) := by
  rw [decode_append]
  rfl

omit [Encode β] [Decode β] in
theorem append_of_decode_map [PrefixCodec α] {f : α → β} {bytes rest : Bytes} {b : β}
    (h : (decode bytes).map (Prod.map f id) = some (b, rest)) :
    ∃ a, b = f a ∧ bytes = encode a ++ rest := by
  obtain ⟨⟨a, r⟩, ha, heq⟩ := Option.map_eq_some_iff.mp h
  cases heq
  exact ⟨a, rfl, append_of_decode ha⟩

end Tuples

/-! ## Fixed-width little-endian numbers -/

/-- The `n` low bytes of a number, least significant first. -/
def leBytes : Nat → Nat → Bytes
  | 0, _ => []
  | n + 1, x => UInt8.ofNat x :: leBytes n (x / 256)

/-- The number a little-endian byte string stands for. -/
def leNat : Bytes → Nat
  | [] => 0
  | b :: bs => b.toNat + 256 * leNat bs

@[simp] theorem leBytes_length (n x : Nat) : (leBytes n x).length = n := by
  induction n generalizing x with
  | zero => rfl
  | succ n ih => simp [leBytes, ih]

theorem leNat_leBytes (n x : Nat) (h : x < 256 ^ n) : leNat (leBytes n x) = x := by
  induction n generalizing x with
  | zero =>
      have hx : x = 0 := by simpa using h
      simp [leBytes, leNat, hx]
  | succ n ih =>
      have hq : x / 256 < 256 ^ n := by
        rw [Nat.div_lt_iff_lt_mul (by decide)]
        rwa [pow_succ] at h
      simp only [leBytes, leNat, ih _ hq, UInt8.toNat_ofNat']
      omega

theorem leNat_lt (bs : Bytes) : leNat bs < 256 ^ bs.length := by
  induction bs with
  | nil => simp [leNat]
  | cons b bs ih =>
      have hb := b.toNat_lt
      simp only [leNat, List.length_cons, pow_succ]
      omega

theorem leBytes_leNat (bs : Bytes) : leBytes bs.length (leNat bs) = bs := by
  induction bs with
  | nil => rfl
  | cons b bs ih =>
      have hb := b.toNat_lt
      have hq : (b.toNat + 256 * leNat bs) / 256 = leNat bs := by omega
      have hm : UInt8.ofNat (b.toNat + 256 * leNat bs) = b := by
        apply UInt8.toNat_inj.mp
        rw [UInt8.toNat_ofNat']
        omega
      simp only [List.length_cons, leNat, leBytes, hq, ih, hm]

/-- Read exactly `n` bytes. -/
def takeBytes (n : Nat) (bs : Bytes) : Option (Bytes × Bytes) :=
  if n ≤ bs.length then some (bs.take n, bs.drop n) else none

theorem takeBytes_append {n : Nat} {front : Bytes} (h : front.length = n) (rest : Bytes) :
    takeBytes n (front ++ rest) = some (front, rest) := by
  subst h
  simp [takeBytes]

theorem takeBytes_eq_some {n : Nat} {bs front rest : Bytes}
    (h : takeBytes n bs = some (front, rest)) : front.length = n ∧ bs = front ++ rest := by
  simp only [takeBytes, Option.ite_none_right_eq_some, Option.some.injEq, Prod.mk.injEq] at h
  obtain ⟨hn, rfl, rfl⟩ := h
  simp [hn]

/-- An unsigned integer of `n` bytes. -/
def encodeBits (n : Nat) (x : BitVec (8 * n)) : Bytes := leBytes n x.toNat

/-- Read `n` bytes, least significant first. -/
def decodeBits (n : Nat) (bs : Bytes) : Option (BitVec (8 * n) × Bytes) := do
  let (front, rest) ← takeBytes n bs
  return (BitVec.ofNat (8 * n) (leNat front), rest)

theorem two_pow_bytes (n : Nat) : 2 ^ (8 * n) = 256 ^ n := by
  rw [pow_mul]
  norm_num

theorem decodeBits_append (n : Nat) (x : BitVec (8 * n)) (rest : Bytes) :
    decodeBits n (encodeBits n x ++ rest) = some (x, rest) := by
  have hx : x.toNat < 256 ^ n := two_pow_bytes n ▸ x.isLt
  simp [decodeBits, encodeBits, takeBytes_append (leBytes_length n _), leNat_leBytes n _ hx]

theorem append_of_decodeBits {n : Nat} {bs rest : Bytes} {x : BitVec (8 * n)}
    (h : decodeBits n bs = some (x, rest)) : bs = encodeBits n x ++ rest := by
  simp only [decodeBits, Option.bind_eq_bind, Option.bind_eq_some_iff, Prod.exists,
    Option.pure_def, Option.some.injEq, Prod.mk.injEq] at h
  obtain ⟨front, rest', ht, rfl, rfl⟩ := h
  obtain ⟨hlen, rfl⟩ := takeBytes_eq_some ht
  have hlt : leNat front < 2 ^ (8 * n) := by
    rw [two_pow_bytes, ← hlen]
    exact leNat_lt front
  rw [encodeBits, BitVec.toNat_ofNat, Nat.mod_eq_of_lt hlt, ← hlen, leBytes_leNat]

/-! ## Raw arrays -/

/-- A fixed array is its bytes, without a length. -/
def decodeArray (n : Nat) (bs : Bytes) : Option (Vector UInt8 n × Bytes) :=
  if h : n ≤ bs.length then some (⟨(bs.take n).toArray, by simp [h]⟩, bs.drop n) else none

instance (n : Nat) : Encode (Vector UInt8 n) := ⟨Vector.toList⟩

instance (n : Nat) : Decode (Vector UInt8 n) := ⟨decodeArray n⟩

instance (n : Nat) : PrefixCodec (Vector UInt8 n) where
  decode_append v rest := by
    simp only [decode, encode, decodeArray]
    rw [dif_pos (by simp)]
    obtain ⟨⟨l⟩, hl⟩ := v
    subst hl
    simp
  append_of_decode {bytes rest a} h := by
    simp only [decode, decodeArray] at h
    split at h
    · simp only [Option.some.injEq, Prod.mk.injEq] at h
      obtain ⟨rfl, rfl⟩ := h
      simp [encode]
    · cases h

/-! ## Compact lengths -/

/-- The shortest of the four compact forms that holds the number; the low two bits of the
first byte tell which. -/
def encodeCompact (x : Nat) : Bytes :=
  if x < 2 ^ 6 then [UInt8.ofNat (4 * x)]
  else if x < 2 ^ 14 then leBytes 2 (4 * x + 1)
  else if x < 2 ^ 30 then leBytes 4 (4 * x + 2)
  else 3 :: leBytes 4 x

/-- Read a compact `u32`; a form longer than needed is rejected. -/
def decodeCompact : Bytes → Option (Nat × Bytes)
  | [] => none
  | b :: bs =>
      match b.toNat % 4 with
      | 0 => some (b.toNat / 4, bs)
      | 1 => do
        let (front, rest) ← takeBytes 1 bs
        let x := leNat (b :: front) / 4
        if 2 ^ 6 ≤ x then return (x, rest) else none
      | 2 => do
        let (front, rest) ← takeBytes 3 bs
        let x := leNat (b :: front) / 4
        if 2 ^ 14 ≤ x then return (x, rest) else none
      | _ =>
        if b.toNat / 4 = 0 then do
          let (front, rest) ← takeBytes 4 bs
          let x := leNat front
          if 2 ^ 30 ≤ x then return (x, rest) else none
        else none

/-- Reading a multi-byte compact form gives back the number its first bytes hold. -/
theorem leBytes_succ_split (n x : Nat) :
    ∃ b front, leBytes (n + 1) x = b :: front ∧ front.length = n ∧ b.toNat = x % 256 :=
  ⟨UInt8.ofNat x, leBytes n (x / 256), rfl, leBytes_length n _, UInt8.toNat_ofNat'⟩

theorem decodeCompact_append {x : Nat} (h : x < 2 ^ 32) (rest : Bytes) :
    decodeCompact (encodeCompact x ++ rest) = some (x, rest) := by
  unfold encodeCompact
  split_ifs with h6 h14 h30
  · have hb : (UInt8.ofNat (4 * x)).toNat = 4 * x := by rw [UInt8.toNat_ofNat']; omega
    have hm : 4 * x % 4 = 0 := by omega
    have hd : 4 * x / 4 = x := by omega
    simp only [List.singleton_append, decodeCompact, hb, hm, hd]
  · obtain ⟨b, front, hs, hlen, hb⟩ := leBytes_succ_split 1 (4 * x + 1)
    have hn := leNat_leBytes 2 (4 * x + 1) (by omega)
    have hm : b.toNat % 4 = 1 := by omega
    have hd : (4 * x + 1) / 4 = x := by omega
    rw [hs] at hn ⊢
    simp [decodeCompact, hm, takeBytes_append hlen, hn, hd]
    omega
  · obtain ⟨b, front, hs, hlen, hb⟩ := leBytes_succ_split 3 (4 * x + 2)
    have hn := leNat_leBytes 4 (4 * x + 2) (by omega)
    have hm : b.toNat % 4 = 2 := by omega
    have hd : (4 * x + 2) / 4 = x := by omega
    rw [hs] at hn ⊢
    simp [decodeCompact, hm, takeBytes_append hlen, hn, hd]
    omega
  · have hn := leNat_leBytes 4 x (by omega)
    simp [decodeCompact, takeBytes_append (leBytes_length 4 x), hn]
    omega

/-- The one-byte form. -/
theorem append_of_shortForm {b : UInt8} (hm : b.toNat % 4 = 0) (rest : Bytes) :
    b.toNat / 4 < 2 ^ 32 ∧ b :: rest = encodeCompact (b.toNat / 4) ++ rest := by
  have hb := b.toNat_lt
  have h6 : b.toNat / 4 < 2 ^ 6 := by omega
  have hx : 4 * (b.toNat / 4) = b.toNat := by omega
  refine ⟨by omega, ?_⟩
  rw [encodeCompact, if_pos h6, hx, UInt8.ofNat_toNat, List.singleton_append]

/-- The two- and four-byte forms: the bytes are the tagged number, least byte first. -/
theorem append_of_longForm (n low : Nat) {b : UInt8} {bs rest : Bytes} {x : Nat}
    (h : (do
      let (front, rest) ← takeBytes n bs
      let x := leNat (b :: front) / 4
      if low ≤ x then return (x, rest) else none : Option (Nat × Bytes)) = some (x, rest)) :
    4 * x < 256 ^ (n + 1) ∧ low ≤ x ∧
      b :: bs = leBytes (n + 1) (4 * x + b.toNat % 4) ++ rest := by
  simp only [Option.bind_eq_bind, Option.bind_eq_some_iff, Prod.exists] at h
  obtain ⟨front, rest', ht, hif⟩ := h
  obtain ⟨hlen, rfl⟩ := takeBytes_eq_some ht
  split at hif
  next hlow =>
    simp only [Option.pure_def, Option.some.injEq, Prod.mk.injEq] at hif
    obtain ⟨rfl, rfl⟩ := hif
    have hlt := leNat_lt (b :: front)
    have hval : 4 * (leNat (b :: front) / 4) + b.toNat % 4 = leNat (b :: front) := by
      simp only [leNat]
      omega
    have hback := leBytes_leNat (b :: front)
    rw [List.length_cons, hlen] at hlt hback
    exact ⟨by omega, hlow, by rw [hval, hback]; rfl⟩
  next => cases hif

/-- The five-byte form: behind the tag stands the number itself. -/
theorem append_of_fullForm {bs rest : Bytes} {x : Nat}
    (h : (do
      let (front, rest) ← takeBytes 4 bs
      let x := leNat front
      if 2 ^ 30 ≤ x then return (x, rest) else none : Option (Nat × Bytes)) = some (x, rest)) :
    x < 2 ^ 32 ∧ 2 ^ 30 ≤ x ∧ bs = leBytes 4 x ++ rest := by
  simp only [Option.bind_eq_bind, Option.bind_eq_some_iff, Prod.exists] at h
  obtain ⟨front, rest', ht, hif⟩ := h
  obtain ⟨hlen, rfl⟩ := takeBytes_eq_some ht
  split at hif
  next hlow =>
    simp only [Option.pure_def, Option.some.injEq, Prod.mk.injEq] at hif
    obtain ⟨rfl, rfl⟩ := hif
    have hlt := leNat_lt front
    rw [hlen] at hlt
    exact ⟨by omega, hlow, by rw [← hlen, leBytes_leNat]⟩
  next => cases hif

/-- The tag of the five-byte form with nothing above it. -/
theorem eq_three_of_tag {b : UInt8} (h0 : b.toNat % 4 ≠ 0) (h1 : b.toNat % 4 ≠ 1)
    (h2 : b.toNat % 4 ≠ 2) (hz : b.toNat / 4 = 0) : b = 3 := by
  apply UInt8.toNat_inj.mp
  change b.toNat = 3
  omega

/-- Only the canonical form of a number below `2 ^ 32` is read. -/
theorem append_of_decodeCompact {bs rest : Bytes} {x : Nat}
    (h : decodeCompact bs = some (x, rest)) : x < 2 ^ 32 ∧ bs = encodeCompact x ++ rest := by
  match bs with
  | [] => simp [decodeCompact] at h
  | b :: bs =>
      simp only [decodeCompact] at h
      split at h
      next hm =>
        simp only [Option.some.injEq, Prod.mk.injEq] at h
        obtain ⟨rfl, rfl⟩ := h
        exact append_of_shortForm hm bs
      next hm =>
        obtain ⟨hlt, hlow, hbs⟩ := append_of_longForm 1 (2 ^ 6) h
        refine ⟨by omega, ?_⟩
        rw [hbs, encodeCompact, if_neg (by omega), if_pos (by omega), hm]
      next hm =>
        obtain ⟨hlt, hlow, hbs⟩ := append_of_longForm 3 (2 ^ 14) h
        refine ⟨by omega, ?_⟩
        rw [hbs, encodeCompact, if_neg (by omega), if_neg (by omega), if_pos (by omega), hm]
      next h0 h1 h2 =>
        split at h
        next hz =>
          obtain ⟨hlt, hlow, rfl⟩ := append_of_fullForm h
          refine ⟨hlt, ?_⟩
          rw [encodeCompact, if_neg (by omega), if_neg (by omega), if_neg (by omega),
            eq_three_of_tag h0 h1 h2 hz]
          rfl
        next => cases h

/-! ## Text -/

/-- UTF-8 text whose length a compact `u32` can hold. Encoding longer text panics and no
decoder returns it, so the bound belongs to the type. -/
structure Text where
  val : String
  size_lt : val.utf8ByteSize < 2 ^ 32
deriving DecidableEq

namespace Text

theorem ext_val {s t : Text} (h : s.val = t.val) : s = t := by
  cases s
  cases t
  cases h
  rfl

/-- The text's UTF-8 bytes. -/
def utf8 (t : Text) : Bytes := t.val.toByteArray.data.toList

theorem utf8_length_lt (t : Text) : t.utf8.length < 2 ^ 32 := t.size_lt

instance : Ord Text := ⟨compareOn Text.val⟩

instance : Std.TransOrd Text := inferInstanceAs (Std.TransCmp (compareOn Text.val))

instance : Std.LawfulEqOrd Text where
  eq_of_compare {s t} h := by
    have hv : compare s.val t.val = .eq := h
    exact ext_val (Std.LawfulEqCmp.eq_of_compare hv)

end Text

/-- The compact length, then the UTF-8 bytes. -/
def encodeText (t : Text) : Bytes := encodeCompact t.utf8.length ++ t.utf8

/-- Read as many bytes as the compact length says, if they are UTF-8. -/
def decodeText (bs : Bytes) : Option (Text × Bytes) := do
  let (n, bs) ← decodeCompact bs
  let (front, rest) ← takeBytes n bs
  let s ← String.fromUTF8? front.toByteArray
  -- always the case: the length came from a compact `u32`
  if h : s.utf8ByteSize < 2 ^ 32 then return (⟨s, h⟩, rest) else none

theorem fromUTF8?_utf8 (t : Text) : String.fromUTF8? t.utf8.toByteArray = some t.val := by
  have hb : t.utf8.toByteArray = t.val.toByteArray := by
    apply ByteArray.ext
    simp [Text.utf8]
  rw [hb, String.fromUTF8?, dif_pos t.val.isValidUTF8]
  rfl

theorem toByteArray_of_fromUTF8? {b : ByteArray} {s : String}
    (h : String.fromUTF8? b = some s) : s.toByteArray = b := by
  unfold String.fromUTF8? at h
  split at h
  · cases h
    rfl
  · cases h

instance : Encode Text := ⟨encodeText⟩

instance : Decode Text := ⟨decodeText⟩

instance : PrefixCodec Text where
  decode_append t rest := by
    simp only [decode, encode, decodeText, encodeText, List.append_assoc]
    rw [decodeCompact_append t.utf8_length_lt]
    simpa [takeBytes_append rfl, fromUTF8?_utf8] using t.size_lt
  append_of_decode {bytes rest a} h := by
    simp only [decode, decodeText, Option.bind_eq_bind, Option.bind_eq_some_iff, Prod.exists] at h
    obtain ⟨n, bs, hn, front, rest', ht, s, hs, hif⟩ := h
    obtain ⟨-, rfl⟩ := append_of_decodeCompact hn
    obtain ⟨rfl, rfl⟩ := takeBytes_eq_some ht
    split at hif
    next hlt =>
      simp only [Option.pure_def, Option.some.injEq, Prod.mk.injEq] at hif
      obtain ⟨rfl, rfl⟩ := hif
      have hfront : Text.utf8 ⟨s, hlt⟩ = front := by
        simp [Text.utf8, toByteArray_of_fromUTF8? hs]
      simp [encode, encodeText, hfront]
    next => cases hif

/-! ## Sequences -/

section Sequences

variable {α : Type} [Encode α] [Decode α]

/-- Read `n` items one after the other. -/
def decodeItems : Nat → Bytes → Option (List α × Bytes)
  | 0, bs => some ([], bs)
  | n + 1, bs => do
    let (a, bs) ← decode bs
    let (as, bs) ← decodeItems n bs
    return (a :: as, bs)

/-- A compact length, then the items. -/
instance : Encode (List α) := ⟨fun as => encodeCompact as.length ++ as.flatMap encode⟩

instance : Decode (List α) where
  decode bs := do
    let (n, bs) ← decodeCompact bs
    decodeItems n bs

variable [PrefixCodec α]

theorem decodeItems_append (as : List α) (rest : Bytes) :
    decodeItems as.length (as.flatMap encode ++ rest) = some (as, rest) := by
  induction as with
  | nil => rfl
  | cons a as ih => simp [decodeItems, List.append_assoc, decode_append, ih]

theorem append_of_decodeItems {n : Nat} {bs rest : Bytes} {as : List α}
    (h : decodeItems n bs = some (as, rest)) :
    as.length = n ∧ bs = as.flatMap encode ++ rest := by
  induction n generalizing bs as with
  | zero =>
      simp only [decodeItems, Option.some.injEq, Prod.mk.injEq] at h
      obtain ⟨rfl, rfl⟩ := h
      simp
  | succ n ih =>
      simp only [decodeItems, Option.bind_eq_bind, Option.bind_eq_some_iff, Prod.exists,
        Option.pure_def, Option.some.injEq, Prod.mk.injEq] at h
      obtain ⟨a, bs', ha, as', rest', has, rfl, rfl⟩ := h
      obtain ⟨hlen, rfl⟩ := ih has
      rw [append_of_decode ha]
      simp [hlen]

/-- A sequence whose length fits is read back in front of any rest. -/
theorem decode_list_append {as : List α} (h : as.length < 2 ^ 32) (rest : Bytes) :
    decode (encode as ++ rest) = some (as, rest) := by
  simp [decode, encode, List.append_assoc, decodeCompact_append h, decodeItems_append]

/-- Only canonical encodings of sequences are read. -/
theorem append_of_decode_list {bs rest : Bytes} {as : List α}
    (h : decode bs = some (as, rest)) : as.length < 2 ^ 32 ∧ bs = encode as ++ rest := by
  simp only [decode, Option.bind_eq_bind, Option.bind_eq_some_iff, Prod.exists] at h
  obtain ⟨n, bs', hn, hitems⟩ := h
  obtain ⟨hlt, rfl⟩ := append_of_decodeCompact hn
  obtain ⟨rfl, rfl⟩ := append_of_decodeItems hitems
  exact ⟨hlt, by simp [encode]⟩

end Sequences

end Codec

end Lib
