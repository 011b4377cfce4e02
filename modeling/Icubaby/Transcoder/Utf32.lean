import Icubaby.Transcoder.Basic

/-!
# Transcoders that consume UTF-32

`transcoder<char32_t, char8>`, `transcoder<char32_t, char16_t>` and
`transcoder<char32_t, char32_t>`. Their only state is the flag `well_formed_`: a unit that is no
scalar value clears it and is replaced by U+FFFD, every other unit is encoded at once.
-/

namespace Icubaby

/-! ### UTF-32 to UTF-8 -/

/-- The members of `transcoder<char32_t, char8>`. -/
structure T32To8 where
  /-- True if the input consumed is well formed. -/
  wellFormed : Bool := true
  deriving DecidableEq, Repr

namespace T32To8

def byte1Of2 : ℕ := 0b11000000
def byte1Of3 : ℕ := 0b11100000
def byte1Of4 : ℕ := 0b11110000
def continuation : ℕ := 0b10000000

/-- Writes `number` continuation bytes, the most significant payload first. -/
def writeContinuation : ℕ → ℕ → List UInt8
  | 0, _ => []
  | number + 1, codeUnit =>
    UInt8.ofNat (((codeUnit >>> (utf8Shift * number)) &&& utf8Mask) ||| continuation) ::
      writeContinuation number codeUnit

/-- Code points of `U+0080..U+07FF`. -/
def write2 (codeUnit : ℕ) : List UInt8 :=
  UInt8.ofNat ((codeUnit >>> utf8Shift) ||| byte1Of2) :: writeContinuation 1 codeUnit

/-- Code points of `U+0800..U+FFFF`. -/
def write3 (codeUnit : ℕ) : List UInt8 :=
  UInt8.ofNat ((codeUnit >>> (utf8Shift * 2)) ||| byte1Of3) :: writeContinuation 2 codeUnit

/-- Code points of `U+10000..U+10FFFF`. -/
def write4 (codeUnit : ℕ) : List UInt8 :=
  UInt8.ofNat ((codeUnit >>> (utf8Shift * 3)) ||| byte1Of4) :: writeContinuation 3 codeUnit

/-- Records the input as not well formed and writes U+FFFD. -/
def notWellFormed (t : T32To8) : T32To8 × List UInt8 :=
  -- `(*this) (replacement_char, dest)` takes the branch of three bytes (`notWellFormed_eq_call`)
  ({ t with wellFormed := false }, write3 replacementChar)

/-- `operator()` -/
def call (t : T32To8) (codeUnit : UInt32) : T32To8 × List UInt8 :=
  let cu := codeUnit.toNat
  if cu < 0x80 then (t, [UInt8.ofNat cu])
  else if cu < 0x800 then (t, write2 cu)
  -- the surrogates lie in the range of three bytes
  else if IsSurrogate cu then t.notWellFormed
  else if cu < 0x10000 then (t, write3 cu)
  else if cu ≤ maxCodePoint then (t, write4 cu)
  else t.notWellFormed

/-- `end_cp` -/
def endCp (t : T32To8) : T32To8 × List UInt8 := (t, [])

theorem notWellFormed_eq_call (t : T32To8) :
    t.notWellFormed = call { t with wellFormed := false } (UInt32.ofNat replacementChar) := rfl

end T32To8

/-- `transcoder<char32_t, char8>` -/
def t32_8 : Transcoder T32To8 UInt32 UInt8 where
  init := {}
  step := T32To8.call
  finish := T32To8.endCp
  wellFormed := T32To8.wellFormed
  isPartial _ := false

/-! ### UTF-32 to UTF-16 -/

/-- The members of `transcoder<char32_t, char16_t>`. -/
structure T32To16 where
  /-- True if the input consumed is well formed. -/
  wellFormed : Bool := true
  deriving DecidableEq, Repr

namespace T32To16

/-- `operator()` -/
def call (t : T32To16) (codeUnit : UInt32) : T32To16 × List UInt16 :=
  let cu := codeUnit.toNat
  if IsSurrogate cu ∨ cu > maxCodePoint then
    -- `(*this) (replacement_char, dest)` takes the branch below
    ({ t with wellFormed := false }, [UInt16.ofNat replacementChar])
  else if cu ≤ 0xFFFF then (t, [UInt16.ofNat cu])
  else
    (t, [UInt16.ofNat (firstHighSurrogate - (utf16FirstSurrogatePair >>> utf16Shift) +
        (cu >>> utf16Shift)),
      UInt16.ofNat (firstLowSurrogate + (cu &&& utf16Mask))])

/-- `end_cp` -/
def endCp (t : T32To16) : T32To16 × List UInt16 := (t, [])

end T32To16

/-- `transcoder<char32_t, char16_t>` -/
def t32_16 : Transcoder T32To16 UInt32 UInt16 where
  init := {}
  step := T32To16.call
  finish := T32To16.endCp
  wellFormed := T32To16.wellFormed
  isPartial _ := false

/-! ### UTF-32 to UTF-32 -/

/-- The members of `transcoder<char32_t, char32_t>`. -/
structure T32To32 where
  /-- True if the input consumed is well formed. -/
  wellFormed : Bool := true
  deriving DecidableEq, Repr

namespace T32To32

/-- `operator()` -/
def call (t : T32To32) (codeUnit : UInt32) : T32To32 × List UInt32 :=
  if codeUnit.toNat > maxCodePoint ∨ IsSurrogate codeUnit.toNat then
    ({ t with wellFormed := false }, [UInt32.ofNat replacementChar])
  else (t, [codeUnit])

/-- `end_cp` -/
def endCp (t : T32To32) : T32To32 × List UInt32 := (t, [])

end T32To32

/-- `transcoder<char32_t, char32_t>` -/
def t32_32 : Transcoder T32To32 UInt32 UInt32 where
  init := {}
  step := T32To32.call
  finish := T32To32.endCp
  wellFormed := T32To32.wellFormed
  isPartial _ := false

/-! ### The bytes and pairs written are the encodings -/

namespace T32To8

private theorem or_continuation (n : ℕ) : n % 64 ||| continuation = n % 64 + 0x80 := by
  have h := or_shiftLeft 2 (b := n % 64) (i := 6) (by omega)
  rw [show continuation = 2 <<< 6 from rfl, h]
  omega

theorem writeContinuation_succ (number cu : ℕ) :
    writeContinuation (number + 1) cu =
      UInt8.ofNat (cu / 64 ^ number % 64 + 0x80) :: writeContinuation number cu := by
  rw [writeContinuation, and_utf8Mask, or_continuation, Nat.shiftRight_eq_div_pow, utf8Shift,
    Nat.pow_mul]

theorem write2_eq_word {c : Char} (h : 0x7F < c.toNat) (h' : c.toNat ≤ 0x7FF) :
    write2 c.toNat = String.utf8EncodeChar c := by
  have hlead : c.toNat >>> utf8Shift ||| byte1Of2 = c.toNat / 64 + 0xC0 := by
    rw [Nat.shiftRight_eq_div_pow]
    exact (or_shiftLeft 3 (i := 6) (by rw [utf8Shift]; omega)).trans (by rw [utf8Shift]; omega)
  rw [write2, hlead, writeContinuation_succ, writeContinuation, utf8EncodeChar_two h h']
  simp

theorem write3_eq_word {c : Char} (h : 0x7FF < c.toNat) (h' : c.toNat ≤ 0xFFFF) :
    write3 c.toNat = String.utf8EncodeChar c := by
  have hlead : c.toNat >>> (utf8Shift * 2) ||| byte1Of3 = c.toNat / 4096 + 0xE0 := by
    rw [Nat.shiftRight_eq_div_pow]
    exact (or_shiftLeft 7 (i := 5) (by rw [utf8Shift]; omega)).trans (by rw [utf8Shift]; omega)
  rw [write3, hlead, writeContinuation_succ, writeContinuation_succ, writeContinuation,
    utf8EncodeChar_three h h']
  simp

theorem write4_eq_word {c : Char} (h : 0xFFFF < c.toNat) :
    write4 c.toNat = String.utf8EncodeChar c := by
  have hmax := toNat_le_maxCodePoint c
  rw [maxCodePoint] at hmax
  have hlead : c.toNat >>> (utf8Shift * 3) ||| byte1Of4 = c.toNat / 262144 + 0xF0 := by
    rw [Nat.shiftRight_eq_div_pow]
    exact (or_shiftLeft 15 (i := 4) (by rw [utf8Shift]; omega)).trans (by rw [utf8Shift]; omega)
  rw [write4, hlead, writeContinuation_succ, writeContinuation_succ, writeContinuation_succ,
    writeContinuation, utf8EncodeChar_four h]
  simp

/-- What a call writes for a scalar value. -/
theorem call_val (t : T32To8) (c : Char) : t.call c.val = (t, String.utf8EncodeChar c) := by
  have hsur : ¬ IsSurrogate c.toNat := not_isSurrogate_toNat c
  have hmax := toNat_le_maxCodePoint c
  simp only [call, Char.toNat_val]
  split_ifs with h1 h2 h3
  · rw [utf8EncodeChar_one (by omega)]
  · rw [write2_eq_word (by omega) (by omega)]
  · rw [write3_eq_word (by omega) (by omega)]
  · rw [write4_eq_word (by omega)]

/-- What a call writes for a unit that is no scalar value. -/
theorem call_of_ill_formed (t : T32To8) {u : UInt32}
    (hu : IsSurrogate u.toNat ∨ maxCodePoint < u.toNat) :
    t.call u = ({ t with wellFormed := false }, String.utf8EncodeChar replacement) := by
  have hrepl : write3 replacementChar = String.utf8EncodeChar replacement := by decide
  -- a branch writes U+FFFD, or its range excludes the unit
  rw [isSurrogate_iff, maxCodePoint] at hu
  simp only [call, notWellFormed, hrepl, isSurrogate_iff, maxCodePoint]
  split_ifs <;> first | rfl | omega

end T32To8

namespace T32To16

theorem call_val (t : T32To16) (c : Char) : t.call c.val = (t, utf16Word c) := by
  have hmax := toNat_le_maxCodePoint c
  have hc : ¬ (IsSurrogate c.toNat ∨ c.toNat > maxCodePoint) :=
    not_or.mpr ⟨not_isSurrogate_toNat c, not_lt.mpr hmax⟩
  simp only [call, Char.toNat_val, utf16Word]
  rw [if_neg hc]
  split_ifs with h
  · rfl
  · have hhigh : firstHighSurrogate - (utf16FirstSurrogatePair >>> utf16Shift) +
        (c.toNat >>> utf16Shift) = 0xD800 + (c.toNat - 0x10000) / 0x400 := by
      rw [Nat.shiftRight_eq_div_pow, Nat.shiftRight_eq_div_pow]
      simp only [firstHighSurrogate, utf16FirstSurrogatePair, utf16Shift]
      omega
    have hlow : firstLowSurrogate + (c.toNat &&& utf16Mask) =
        0xDC00 + (c.toNat - 0x10000) % 0x400 := by
      rw [and_utf16Mask, firstLowSurrogate]
      omega
    rw [hhigh, hlow]

theorem call_of_ill_formed (t : T32To16) {u : UInt32}
    (hu : IsSurrogate u.toNat ∨ maxCodePoint < u.toNat) :
    t.call u = ({ t with wellFormed := false }, utf16Word replacement) := by
  have hrepl : [UInt16.ofNat replacementChar] = utf16Word replacement := by decide
  simp only [call]
  rw [if_pos hu, hrepl]

end T32To16

namespace T32To32

theorem call_val (t : T32To32) (c : Char) : t.call c.val = (t, [c.val]) :=
  if_neg (not_or.mpr ⟨not_lt.mpr (toNat_le_maxCodePoint c), not_isSurrogate_toNat c⟩)

theorem call_of_ill_formed (t : T32To32) {u : UInt32}
    (hu : IsSurrogate u.toNat ∨ maxCodePoint < u.toNat) :
    t.call u = ({ t with wellFormed := false }, [replacement.val]) :=
  if_pos hu.symm

end T32To32

/-! ### Encoders -/

/-- The transcoder `t` encodes UTF-32 in `T`: every call writes one word, that of the unit or, if
the unit is no scalar value, that of U+FFFD, and there is nothing to flush. -/
structure IsEncoder {σ : Type} (T : CharType) (t : Transcoder σ UInt32 T.Unit) : Prop where
  /-- A fresh transcoder reports well-formed input. -/
  wellFormed_init : t.wellFormed t.init = true
  /-- One call writes one word. -/
  step (s u) : (t.step s u).2 = T.code.word ((utf32Value u).getD replacement) ∧
    t.wellFormed (t.step s u).1 = (t.wellFormed s && (utf32Value u).isSome)
  /-- There is nothing to flush. -/
  finish (s) : t.finish s = (s, [])
  /-- No call leaves a partial code point. -/
  isPartial (s) : t.isPartial s = false

namespace IsEncoder

variable {σ : Type} {T : CharType} {t : Transcoder σ UInt32 T.Unit}

/-- The condition on the calls, from the two kinds of units: `drop` clears the flag. -/
private theorem of_calls {drop : σ → σ} (hinit : t.wellFormed t.init = true)
    (hval : ∀ s (c : Char), t.step s c.val = (s, T.code.word c))
    (hill : ∀ s (u : UInt32), IsSurrogate u.toNat ∨ maxCodePoint < u.toNat →
      t.step s u = (drop s, T.code.word replacement))
    (hdrop : ∀ s, t.wellFormed (drop s) = false) (hfinish : ∀ s, t.finish s = (s, []))
    (hpart : ∀ s, t.isPartial s = false) : IsEncoder T t where
  wellFormed_init := hinit
  step s u := by
    cases hu : utf32Value u with
    | none =>
      have hbad : IsSurrogate u.toNat ∨ maxCodePoint < u.toNat := by
        by_contra h
        rw [utf32Value, if_neg h] at hu
        cases hu
      rw [hill s u hbad]
      exact ⟨rfl, by rw [hdrop]; simp⟩
    | some c =>
      rw [← val_of_utf32Value hu, hval]
      exact ⟨rfl, by simp⟩
  finish := hfinish
  isPartial := hpart

/-- **Run rule of the encoders**: the output is the encoding of the units, replaced where they are
no scalar values, from any state. -/
theorem feed (h : IsEncoder T t) (s : σ) (us : List UInt32) :
    (t.feed s us).2 = T.code.encode (CharType.char32.scalars us) ∧
      t.wellFormed (t.feed s us).1 =
        (t.wellFormed s && (CharType.char32.read us).all Option.isSome) := by
  induction us generalizing s with
  | nil => simp [CharType.scalars, CharType.read]
  | cons u us ih =>
    obtain ⟨hout, hwf⟩ := h.step s u
    obtain ⟨hout', hwf'⟩ := ih (t.step s u).1
    rw [Transducer.feed_cons]
    constructor
    · rw [hout, hout']
      simp [CharType.scalars, CharType.read]
    · rw [hwf', hwf]
      simp [CharType.read, Bool.and_assoc]

theorem runFrom (h : IsEncoder T t) (s : σ) (us : List UInt32) :
    (t.runFrom s us).2 = T.code.encode (CharType.char32.scalars us) ∧
      t.wellFormed (t.runFrom s us).1 =
        (t.wellFormed s && (CharType.char32.read us).all Option.isSome) := by
  rw [Transducer.runFrom_snd, Transducer.runFrom_fst, h.finish, List.append_nil]
  exact h.feed s us

end IsEncoder

theorem isEncoder_t32_8 : IsEncoder .char8 t32_8 :=
  .of_calls rfl T32To8.call_val (fun s _ hu => s.call_of_ill_formed hu)
    (fun _ => rfl) (fun _ => rfl) fun _ => rfl

theorem isEncoder_t32_16 : IsEncoder .char16 t32_16 :=
  .of_calls rfl T32To16.call_val (fun s _ hu => s.call_of_ill_formed hu)
    (fun _ => rfl) (fun _ => rfl) fun _ => rfl

theorem isEncoder_t32_32 : IsEncoder .char32 t32_32 :=
  .of_calls rfl T32To32.call_val (fun s _ hu => s.call_of_ill_formed hu)
    (fun _ => rfl) (fun _ => rfl) fun _ => rfl

end Icubaby
