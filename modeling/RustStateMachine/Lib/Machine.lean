import Mathlib.Data.BitVec
import RustStateMachine.Lib.Codec

/-!
# Machine integers

Unsigned integers of a fixed width with the checked operations of the `num`
traits, and their little-endian codecs.
-/

namespace Lib

/-- Addition that reports overflow. -/
class CheckedAdd (α : Type) where
  checkedAdd : α → α → Option α

/-- Subtraction that reports underflow. -/
class CheckedSub (α : Type) where
  checkedSub : α → α → Option α

export CheckedAdd (checkedAdd)
export CheckedSub (checkedSub)

/-- `u32` -/
abbrev U32 := BitVec 32

/-- `u128` -/
abbrev U128 := BitVec 128

namespace Machine

variable {w : ℕ}

instance : CheckedAdd (BitVec w) :=
  ⟨fun x y => if x.toNat + y.toNat < 2 ^ w then some (x + y) else none⟩

instance : CheckedSub (BitVec w) :=
  ⟨fun x y => if y.toNat ≤ x.toNat then some (x - y) else none⟩

/-- The product, unless it overflows. -/
def checkedMul (x y : BitVec w) : Option (BitVec w) :=
  if x.toNat * y.toNat < 2 ^ w then some (x * y) else none

theorem checkedAdd_eq_some {x y z : BitVec w} :
    checkedAdd x y = some z ↔ z.toNat = x.toNat + y.toNat := by
  simp only [checkedAdd, Option.ite_none_right_eq_some, Option.some.injEq]
  constructor
  · rintro ⟨hlt, rfl⟩
    rw [BitVec.toNat_add, Nat.mod_eq_of_lt hlt]
  · intro h
    have hz := z.isLt
    refine ⟨by omega, BitVec.eq_of_toNat_eq ?_⟩
    rw [BitVec.toNat_add, Nat.mod_eq_of_lt (by omega), h]

theorem checkedAdd_eq_none {x y : BitVec w} :
    checkedAdd x y = none ↔ 2 ^ w ≤ x.toNat + y.toNat := by
  simp [checkedAdd]

theorem checkedSub_eq_some {x y z : BitVec w} :
    checkedSub x y = some z ↔ z.toNat + y.toNat = x.toNat := by
  simp only [checkedSub, Option.ite_none_right_eq_some, Option.some.injEq]
  constructor
  · rintro ⟨hle, rfl⟩
    rw [BitVec.toNat_sub_of_le (BitVec.le_def.mpr hle)]
    omega
  · intro h
    have hle : y.toNat ≤ x.toNat := by omega
    refine ⟨hle, BitVec.eq_of_toNat_eq ?_⟩
    rw [BitVec.toNat_sub_of_le (BitVec.le_def.mpr hle)]
    omega

theorem checkedSub_eq_none {x y : BitVec w} :
    checkedSub x y = none ↔ x.toNat < y.toNat := by
  simp [checkedSub]

/-- Incrementing a `u32` overflows exactly at the maximum. -/
theorem checkedAdd_one_eq_none {x : U32} :
    checkedAdd x 1 = none ↔ x = BitVec.allOnes 32 := by
  have hx := x.isLt
  rw [checkedAdd_eq_none, ← BitVec.toNat_inj, BitVec.toNat_allOnes]
  change 2 ^ 32 ≤ x.toNat + 1 ↔ _
  omega

theorem checkedAdd_one_eq_some {x y : U32} :
    checkedAdd x 1 = some y ↔ y.toNat = x.toNat + 1 := checkedAdd_eq_some

instance : Encode U32 := ⟨Codec.encodeBits 4⟩

instance : Decode U32 := ⟨Codec.decodeBits 4⟩

instance : PrefixCodec U32 where
  decode_append := Codec.decodeBits_append 4
  append_of_decode h := Codec.append_of_decodeBits h

instance : Encode U128 := ⟨Codec.encodeBits 16⟩

instance : Decode U128 := ⟨Codec.decodeBits 16⟩

instance : PrefixCodec U128 where
  decode_append := Codec.decodeBits_append 16
  append_of_decode h := Codec.append_of_decodeBits h

end Machine

end Lib
