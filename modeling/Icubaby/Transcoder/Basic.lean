import Mathlib.Tactic
import Icubaby.ForMathlib.Transducer
import Icubaby.Unicode.Encoding

/-!
# The interface of a transcoder

`Transcoder` is the concept `is_transcoder`: `operator()` is the step of the transducer and
`end_cp` its flush. Both write through an output iterator by `*(dest++) = …` only, so what a call
writes is the list of the values assigned, in order. Writing, the two observers `well_formed` and
`partial` and the state are all there is to a transcoder object.

The constants of `details` that the encoders and decoders share are here as well.
-/

namespace Icubaby

/-- The interface that every transcoder provides. -/
structure Transcoder (σ α β : Type) extends Transducer σ α β where
  /-- `well_formed ()` -/
  wellFormed : σ → Bool
  /-- `partial ()` -/
  isPartial : σ → Bool

/-- Each UTF-8 continuation byte has space for 6 bits of payload. -/
def utf8Shift : ℕ := 6

/-- The payload of a UTF-8 continuation byte. -/
def utf8Mask : ℕ := (1 <<< utf8Shift) - 1

/-- The first code point which must be represented as a UTF-16 surrogate pair. -/
def utf16FirstSurrogatePair : ℕ := 0x10000

/-- The number of payload bits in a high or low surrogate value. -/
def utf16Shift : ℕ := 10

/-- Used to create a UTF-16 low surrogate value. -/
def utf16Mask : ℕ := (1 <<< utf16Shift) - 1

theorem and_utf8Mask (n : ℕ) : n &&& utf8Mask = n % 64 := Nat.and_two_pow_sub_one_eq_mod n 6

theorem and_utf16Mask (n : ℕ) : n &&& utf16Mask = n % 1024 := Nat.and_two_pow_sub_one_eq_mod n 10

/-- Joining a payload to bits above it is adding them. -/
theorem or_shiftLeft (a : ℕ) {b i : ℕ} (h : b < 2 ^ i) : b ||| a <<< i = a * 2 ^ i + b := by
  rw [Nat.or_comm, ← Nat.shiftLeft_add_eq_or_of_lt h, Nat.shiftLeft_eq]

/-- The unit written for a piece of a reading. -/
def pieceUnit (o : Option Char) : UInt32 := (o.getD replacement).val

end Icubaby
