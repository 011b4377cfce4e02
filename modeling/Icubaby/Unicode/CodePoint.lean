import Mathlib.Data.Nat.Notation

/-!
# Code points, surrogates and the character types

The constants and predicates at the head of `icubaby.hpp`, on natural numbers: a code unit is
looked at through its value, whatever the width of its type. `CharType` is the list
`character_types` of the three code unit types, `CharType.Unit` the values of each.

A Unicode scalar value is a `Char`.
-/

namespace Icubaby

/-- U+FFFD REPLACEMENT CHARACTER. -/
def replacementChar : ℕ := 0xFFFD

/-- The number of bits required to represent a code point. -/
def codePointBits : ℕ := 21

def firstHighSurrogate : ℕ := 0xD800
def lastHighSurrogate : ℕ := 0xDBFF
def firstLowSurrogate : ℕ := 0xDC00
def lastLowSurrogate : ℕ := 0xDFFF

/-- The number of the last code point. -/
def maxCodePoint : ℕ := 0x10FFFF

/-- The code point represents a UTF-16 high surrogate. -/
def IsHighSurrogate (codePoint : ℕ) : Prop :=
  firstHighSurrogate ≤ codePoint ∧ codePoint ≤ lastHighSurrogate

/-- The code point represents a UTF-16 low surrogate. -/
def IsLowSurrogate (codePoint : ℕ) : Prop :=
  firstLowSurrogate ≤ codePoint ∧ codePoint ≤ lastLowSurrogate

/-- The code point represents a UTF-16 low or high surrogate. -/
def IsSurrogate (codePoint : ℕ) : Prop :=
  IsHighSurrogate codePoint ∨ IsLowSurrogate codePoint

instance (n : ℕ) : Decidable (IsHighSurrogate n) := inferInstanceAs (Decidable (_ ∧ _))
instance (n : ℕ) : Decidable (IsLowSurrogate n) := inferInstanceAs (Decidable (_ ∧ _))
instance (n : ℕ) : Decidable (IsSurrogate n) := inferInstanceAs (Decidable (_ ∨ _))

theorem isHighSurrogate_iff {n : ℕ} : IsHighSurrogate n ↔ 0xD800 ≤ n ∧ n ≤ 0xDBFF := Iff.rfl

theorem isLowSurrogate_iff {n : ℕ} : IsLowSurrogate n ↔ 0xDC00 ≤ n ∧ n ≤ 0xDFFF := Iff.rfl

theorem not_isHighSurrogate {n : ℕ} (h : IsLowSurrogate n) : ¬ IsHighSurrogate n := by
  rw [isLowSurrogate_iff] at h
  rw [isHighSurrogate_iff]
  omega

theorem isSurrogate_iff {n : ℕ} : IsSurrogate n ↔ 0xD800 ≤ n ∧ n ≤ 0xDFFF := by
  rw [IsSurrogate, isHighSurrogate_iff, isLowSurrogate_iff]
  omega

/-! ### Scalar values -/

/-- The valid values of a `Char` are the code points that are no surrogates. -/
theorem isValidChar_iff {n : ℕ} : n.isValidChar ↔ ¬ IsSurrogate n ∧ n ≤ maxCodePoint := by
  rw [Nat.isValidChar, isSurrogate_iff, maxCodePoint]
  omega

theorem not_isSurrogate_toNat (c : Char) : ¬ IsSurrogate c.toNat :=
  (isValidChar_iff.mp c.valid).1

theorem toNat_le_maxCodePoint (c : Char) : c.toNat ≤ maxCodePoint :=
  (isValidChar_iff.mp c.valid).2

/-- U+FFFD as a scalar value. -/
def replacement : Char := Char.ofNat replacementChar

@[simp] theorem toNat_replacement : replacement.toNat = replacementChar := by decide

/-- A number that is no surrogate and no larger than the last code point is the value of a
scalar value. -/
theorem toNat_ofNat {n : ℕ} (hs : ¬ IsSurrogate n) (hn : n ≤ maxCodePoint) :
    (Char.ofNat n).toNat = n := by
  rw [Char.ofNat, dif_pos (isValidChar_iff.mpr ⟨hs, hn⟩)]
  rfl

/-! ### The character types -/

/-- The character types: `char8`, `char16_t` and `char32_t`. -/
inductive CharType where
  | char8
  | char16
  | char32
  deriving DecidableEq, Repr

namespace CharType

/-- The code units of a character type. -/
abbrev Unit : CharType → Type
  | char8 => UInt8
  | char16 => UInt16
  | char32 => UInt32

/-- The number of code units in the longest legal representation of a code point. -/
def longestSequence : CharType → ℕ
  | char8 => 4
  | char16 => 2
  | char32 => 1

instance : (T : CharType) → DecidableEq T.Unit
  | char8 => inferInstanceAs (DecidableEq UInt8)
  | char16 => inferInstanceAs (DecidableEq UInt16)
  | char32 => inferInstanceAs (DecidableEq UInt32)

end CharType

end Icubaby
