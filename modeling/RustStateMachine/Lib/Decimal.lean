import Mathlib.Data.Nat.Digits.Defs
import Mathlib.Tactic.Common

/-!
# Decimal texts

A number of fixed width is read from a text: white space around it is cut off, a
plus sign may stand in front, and a value that does not fit is an error. What a
number is printed as reads back as that number.
-/

namespace Lib.Decimal

/-- Why a text is no number. -/
inductive IntErrorKind where
  | empty
  | invalidDigit
  | posOverflow
deriving DecidableEq

/-- The name of the kind, as `Debug` prints it. -/
def IntErrorKind.debug : IntErrorKind → String
  | empty => "Empty"
  | invalidDigit => "InvalidDigit"
  | posOverflow => "PosOverflow"

/-- The value of the digits after a number that was read before. -/
def readDigits (w : ℕ) : ℕ → List Char → Except IntErrorKind ℕ
  | acc, [] => .ok acc
  | acc, c :: cs =>
      if c.isDigit then
        let next := 10 * acc + (c.toNat - '0'.toNat)
        if next < 2 ^ w then readDigits w next cs else .error .posOverflow
      else .error .invalidDigit

/-- An unsigned number of `w` bits. -/
def fromStr (w : ℕ) (text : List Char) : Except IntErrorKind (BitVec w) :=
  match text with
  | [] => .error .empty
  | ['+'] => .error .invalidDigit
  | '+' :: cs => (readDigits w 0 cs).map (BitVec.ofNat w)
  | cs => (readDigits w 0 cs).map (BitVec.ofNat w)

/-- The characters with the white-space property. -/
def isWhitespace (c : Char) : Bool :=
  ('\t' ≤ c && c ≤ '\r') || c = ' ' || c = '\u0085' || c = '\u00a0' || c = '\u1680' ||
    ('\u2000' ≤ c && c ≤ '\u200a') || c = '\u2028' || c = '\u2029' || c = '\u202f' ||
    c = '\u205f' || c = '\u3000'

/-- White space is cut off in front and at the end. -/
def trim (text : List Char) : List Char :=
  ((text.dropWhile isWhitespace).reverse.dropWhile isWhitespace).reverse

/-! ## Reading back what was printed -/

theorem dropWhile_eq_self {p : Char → Bool} {l : List Char} (h : ∀ c ∈ l, p c = false) :
    l.dropWhile p = l := by
  cases l with
  | nil => rfl
  | cons c l => rw [List.dropWhile_cons_of_neg]; simp [h c List.mem_cons_self]

theorem trim_eq_self {text : List Char} (h : ∀ c ∈ text, isWhitespace c = false) :
    trim text = text := by
  have hback : ∀ c ∈ text.reverse, isWhitespace c = false :=
    fun c hc => h c (List.mem_reverse.mp hc)
  rw [trim, dropWhile_eq_self h, dropWhile_eq_self hback, List.reverse_reverse]

theorem isWhitespace_of_isDigit {c : Char} (h : c.isDigit) : isWhitespace c = false := by
  have hrange : 48 ≤ c.val.toNat ∧ c.val.toNat ≤ 57 := by
    simpa [Char.isDigit, UInt32.le_iff_toNat_le] using h
  have hne : ∀ d : Char, ¬ (48 ≤ d.val.toNat ∧ d.val.toNat ≤ 57) → c ≠ d := by
    rintro d hd rfl
    exact hd hrange
  have hlow : ¬ c ≤ '\r' := by
    rw [Char.le_def, UInt32.le_iff_toNat_le]
    exact Nat.not_le_of_lt (Nat.lt_of_lt_of_le (by decide) hrange.1)
  have hhigh : ¬ '\u2000' ≤ c := by
    rw [Char.le_def, UInt32.le_iff_toNat_le]
    exact Nat.not_le_of_lt (Nat.lt_of_le_of_lt hrange.2 (by decide))
  simp [isWhitespace, hlow, hhigh, hne ' ' (by decide), hne '\u0085' (by decide),
    hne '\u00a0' (by decide), hne '\u1680' (by decide), hne '\u2028' (by decide),
    hne '\u2029' (by decide), hne '\u202f' (by decide), hne '\u205f' (by decide),
    hne '\u3000' (by decide)]

theorem le_ofDigitChars (cs : List Char) (acc : ℕ) : acc ≤ Nat.ofDigitChars 10 cs acc := by
  rw [Nat.ofDigitChars_eq_ofDigitChars_zero]
  have hpos : 0 < 10 ^ cs.length := Nat.pos_of_ne_zero (by simp)
  exact (Nat.le_mul_of_pos_left acc hpos).trans (Nat.le_add_right _ _)

theorem readDigits_eq {w : ℕ} {cs : List Char} (hdigits : ∀ c ∈ cs, c.isDigit) {acc : ℕ}
    (hfits : Nat.ofDigitChars 10 cs acc < 2 ^ w) :
    readDigits w acc cs = .ok (Nat.ofDigitChars 10 cs acc) := by
  induction cs generalizing acc with
  | nil => rfl
  | cons c cs ih =>
      rw [Nat.ofDigitChars_cons] at hfits ⊢
      have hnext := Nat.lt_of_le_of_lt (le_ofDigitChars cs _) hfits
      rw [readDigits, if_pos (hdigits c List.mem_cons_self)]
      dsimp only
      rw [if_pos hnext]
      exact ih (fun d hd => hdigits d (List.mem_cons_of_mem c hd)) hfits

/-- What starts with a digit has no sign. -/
theorem fromStr_of_isDigit {w : ℕ} {c : Char} (h : c.isDigit) (cs : List Char) :
    fromStr w (c :: cs) = (readDigits w 0 (c :: cs)).map (BitVec.ofNat w) := by
  have hplus : c ≠ '+' := by
    rintro rfl
    cases h
  cases cs with
  | nil => simp [fromStr, hplus]
  | cons d cs => simp [fromStr, hplus]

theorem fromStr_trim_toString {w : ℕ} (x : BitVec w) :
    fromStr w (trim (toString x.toNat).toList) = .ok x := by
  have htext : (toString x.toNat).toList = Nat.toDigits 10 x.toNat := String.toList_ofList
  have hdigits : ∀ c ∈ Nat.toDigits 10 x.toNat, c.isDigit :=
    fun c hc => Nat.isDigit_of_mem_toDigits (by decide) (by decide) hc
  have hvalue : Nat.ofDigitChars 10 (Nat.toDigits 10 x.toNat) 0 = x.toNat :=
    Nat.ofDigitChars_ten_toDigits
  have hfits : Nat.ofDigitChars 10 (Nat.toDigits 10 x.toNat) 0 < 2 ^ w := by
    rw [hvalue]
    exact x.isLt
  have hread := readDigits_eq hdigits hfits
  rw [htext, trim_eq_self fun c hc => isWhitespace_of_isDigit (hdigits c hc)]
  cases hcs : Nat.toDigits 10 x.toNat with
  | nil => exact absurd hcs Nat.toDigits_ne_nil
  | cons c cs =>
      rw [hcs] at hdigits hread
      rw [fromStr_of_isDigit (hdigits c List.mem_cons_self), hread, ← hcs, hvalue]
      exact congrArg Except.ok ((BitVec.ofNat_toNat w x).trans (BitVec.setWidth_eq x))

end Lib.Decimal
