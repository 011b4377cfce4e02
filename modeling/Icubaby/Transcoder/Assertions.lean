import Icubaby.Transcoder.Fields

/-!
# The assertions of the code-unit transcoders

The transcoders between character types once more, with their assertions and with the accesses to
`utf8d_` and to the array of the triangulator as steps that can fail. All of them pass, whatever is
called in whatever order (`exists_checks_transcoder`).

One assertion is left out: `assert (coder == this)` in the overload of `end_cp` that takes an
`icubaby::iterator`. It is about the iterator and not about the state of the transcoder; it fails
if the iterator belongs to another object.
-/

namespace Icubaby

open CheckedTransducer (require require_bind Checks)

/-! ### UTF-32 to UTF-8 -/

namespace T32To8

/-- `write2` -/
def checkedWrite2 (codeUnit : ℕ) : Except Assertion (List UInt8) := do
  require (0x80 ≤ codeUnit ∧ codeUnit ≤ 0x7FF) .outOfRange
  return write2 codeUnit

/-- `write3` -/
def checkedWrite3 (codeUnit : ℕ) : Except Assertion (List UInt8) := do
  require (0x800 ≤ codeUnit ∧ codeUnit ≤ 0xFFFF) .outOfRange
  return write3 codeUnit

/-- `write4` -/
def checkedWrite4 (codeUnit : ℕ) : Except Assertion (List UInt8) := do
  require (0x10000 ≤ codeUnit ∧ codeUnit ≤ 0x10FFFF) .outOfRange
  return write4 codeUnit

/-- `not_well_formed` -/
def checkedNotWellFormed (t : T32To8) : Except Assertion (T32To8 × List UInt8) := do
  let us ← checkedWrite3 replacementChar
  return ({ t with wellFormed := false }, us)

/-- `operator()` -/
def checkedCall (t : T32To8) (codeUnit : UInt32) : Except Assertion (T32To8 × List UInt8) :=
  let cu := codeUnit.toNat
  if cu < 0x80 then return (t, [UInt8.ofNat cu])
  else if cu < 0x800 then do
    let us ← checkedWrite2 cu
    return (t, us)
  else if IsSurrogate cu then t.checkedNotWellFormed
  else if cu < 0x10000 then do
    let us ← checkedWrite3 cu
    return (t, us)
  else if cu ≤ maxCodePoint then do
    let us ← checkedWrite4 cu
    return (t, us)
  else t.checkedNotWellFormed

/-- Each of the functions is called for its own range only. -/
theorem checkedCall_eq (t : T32To8) (x : UInt32) : t.checkedCall x = .ok (t.call x) := by
  have hreplaced : t.checkedNotWellFormed = .ok t.notWellFormed := rfl
  rw [checkedCall, call]
  split_ifs with h1 h2 hsurrogate h3 h4
  · rfl
  · rw [checkedWrite2, require_bind ⟨by omega, by omega⟩]
    rfl
  · exact hreplaced
  · rw [checkedWrite3, require_bind ⟨by omega, by omega⟩]
    rfl
  · rw [maxCodePoint] at h4
    rw [checkedWrite4, require_bind ⟨by omega, by omega⟩]
    rfl
  · exact hreplaced

end T32To8

/-! ### The family -/

/-- `transcoder<char32_t, char8>` -/
def checkedT32To8 : CheckedTransducer Assertion T32To8 UInt32 UInt8 where
  init := {}
  step := T32To8.checkedCall
  finish t := .ok t.endCp

/-- `transcoder<char8, char32_t>` -/
def checkedT8To32 : CheckedTransducer Assertion T8To32 UInt8 UInt32 where
  init := {}
  step := T8To32.checkedCall
  finish t := .ok t.endCp

/-- `transcoder<char16_t, char32_t>` -/
def checkedT16To32 : CheckedTransducer Assertion T16To32 UInt16 UInt32 where
  init := {}
  step := T16To32.checkedCall
  finish t := .ok t.endCp

/-- `transcoder<char32_t, char16_t>`, which makes no assertions -/
def checkedT32To16 : CheckedTransducer Assertion T32To16 UInt32 UInt16 :=
  .ofTransducer t32_16.toTransducer

/-- `details::triangulator` from `F` -/
def checkedTriangulator {σ τ β : Type} (F : CharType)
    (intermediate : CheckedTransducer Assertion σ F.Unit UInt32)
    (output : CheckedTransducer Assertion τ UInt32 β) :
    CheckedTransducer Assertion (σ × τ) F.Unit β :=
  intermediate.comp output (triangulatorIntermediateCodeUnits F) .intermediate

/-- `transcoder<FromEncoding, ToEncoding>` -/
def checkedTranscoder : (F T : CharType) →
    CheckedTransducer Assertion (TranscoderState F T) F.Unit T.Unit
  | .char8, .char8 => checkedTriangulator .char8 checkedT8To32 checkedT32To8
  | .char8, .char16 => checkedTriangulator .char8 checkedT8To32 checkedT32To16
  | .char8, .char32 => checkedT8To32
  | .char16, .char8 => checkedTriangulator .char16 checkedT16To32 checkedT32To8
  | .char16, .char16 => checkedTriangulator .char16 checkedT16To32 checkedT32To16
  | .char16, .char32 => checkedT16To32
  | .char32, .char8 => checkedT32To8
  | .char32, .char16 => checkedT32To16
  | .char32, .char32 => .ofTransducer t32_32.toTransducer

theorem checks_t32_8 : Checks (fun _ => True) checkedT32To8 t32_8.toTransducer where
  init := ⟨rfl, trivial⟩
  step _ x := ⟨T32To8.checkedCall_eq _ x, trivial⟩
  finish _ := ⟨rfl, trivial⟩

theorem checks_t8_32 : Checks T8To32.Bounded checkedT8To32 t8_32.toTransducer where
  init := ⟨rfl, .inl ⟨[], T8To32.standsFor_init⟩⟩
  step h x := ⟨h.checkedCall x, h.call x⟩
  finish h := ⟨rfl, h.endCp⟩

theorem checks_t16_32 : Checks (fun _ => True) checkedT16To32 t16_32.toTransducer where
  init := ⟨rfl, trivial⟩
  step _ x := ⟨T16To32.checkedCall_eq _ x, trivial⟩
  finish _ := ⟨rfl, trivial⟩

/-- The array between the two parts of a triangulator has enough room. -/
theorem checks_triangulator {σ τ β : Type} {F : CharType} {I : σ → Prop} {J : τ → Prop}
    {intermediate : CheckedTransducer Assertion σ F.Unit UInt32}
    {output : CheckedTransducer Assertion τ UInt32 β} {t : Transcoder σ F.Unit UInt32}
    {t' : Transcoder τ UInt32 β} (h : Checks I intermediate t.toTransducer)
    (h' : Checks J output t'.toTransducer) (hsuffices : ∀ s, IntermediateSuffices F t s) :
    Checks (fun s => I s.1 ∧ J s.2) (checkedTriangulator F intermediate output)
      (triangulator t t').toTransducer :=
  h.comp h' .intermediate (fun s _ => (hsuffices s).length_step_le)
    fun s _ => (hsuffices s).length_finish_le

/-- **The assertions of the transcoders** hold in the states of an invariant. -/
theorem exists_checks_transcoder (F T : CharType) :
    ∃ I, Checks I (checkedTranscoder F T) (transcoder F T).toTransducer := by
  have hplain : Checks (fun _ => True) checkedT32To16 t32_16.toTransducer :=
    CheckedTransducer.checks_ofTransducer t32_16.toTransducer
  cases F with
  | char8 =>
    cases T with
    | char8 => exact ⟨_, checks_triangulator checks_t8_32 checks_t32_8 intermediateSuffices_t8_32⟩
    | char16 => exact ⟨_, checks_triangulator checks_t8_32 hplain intermediateSuffices_t8_32⟩
    | char32 => exact ⟨_, checks_t8_32⟩
  | char16 =>
    cases T with
    | char8 => exact ⟨_, checks_triangulator checks_t16_32 checks_t32_8 intermediateSuffices_t16_32⟩
    | char16 => exact ⟨_, checks_triangulator checks_t16_32 hplain intermediateSuffices_t16_32⟩
    | char32 => exact ⟨_, checks_t16_32⟩
  | char32 =>
    cases T with
    | char8 => exact ⟨_, checks_t32_8⟩
    | char16 => exact ⟨_, hplain⟩
    | char32 => exact ⟨_, CheckedTransducer.checks_ofTransducer t32_32.toTransducer⟩

end Icubaby
