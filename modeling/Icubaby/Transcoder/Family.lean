import Icubaby.Transcoder.Utf8
import Icubaby.Transcoder.Utf16
import Icubaby.Transcoder.Utf32

/-!
# The nine code-unit transcoders

`triangulator` converts by way of UTF-32: it is the cascade of a decoder to UTF-32 and an encoder
from UTF-32. With the five direct transcoders it makes up the family `transcoder F T`, for all
source and target types.

`Converts F T t R` is the specification that all members meet: with the flush, the output is the
specified conversion `CharType.decodeTo` of what the state stands for followed by the input, and
the flag tells whether that was well formed. What a state stands for is empty exactly when
`partial ()` is false. The triangulator inherits the specification from its two parts.
-/

namespace Icubaby

variable {σ τ : Type} {F T : CharType}

/-! ### The triangulator -/

/-- `details::triangulator`: the intermediate transcoder is fed, and what it writes is copied
through the output transcoder. -/
def triangulator {α β : Type} (intermediate : Transcoder σ α UInt32)
    (output : Transcoder τ UInt32 β) : Transcoder (σ × τ) α β where
  toTransducer := intermediate.toTransducer.comp output.toTransducer
  wellFormed s := intermediate.wellFormed s.1 && output.wellFormed s.2
  isPartial s := intermediate.isPartial s.1

/-- The number of code units that the intermediate array holds. -/
def triangulatorIntermediateCodeUnits : CharType → ℕ
  | .char16 => 2
  | _ => 1

/-- `transcoder<char8, char8>` -/
def t8_8 : Transcoder (T8To32 × T32To8) UInt8 UInt8 := triangulator t8_32 t32_8
/-- `transcoder<char8, char16_t>` -/
def t8_16 : Transcoder (T8To32 × T32To16) UInt8 UInt16 := triangulator t8_32 t32_16
/-- `transcoder<char16_t, char8>` -/
def t16_8 : Transcoder (T16To32 × T32To8) UInt16 UInt8 := triangulator t16_32 t32_8
/-- `transcoder<char16_t, char16_t>` -/
def t16_16 : Transcoder (T16To32 × T32To16) UInt16 UInt16 := triangulator t16_32 t32_16

/-! ### The family -/

/-- The state of the transcoder between two types. -/
def TranscoderState : CharType → CharType → Type
  | .char8, .char8 => T8To32 × T32To8
  | .char8, .char16 => T8To32 × T32To16
  | .char8, .char32 => T8To32
  | .char16, .char8 => T16To32 × T32To8
  | .char16, .char16 => T16To32 × T32To16
  | .char16, .char32 => T16To32
  | .char32, .char8 => T32To8
  | .char32, .char16 => T32To16
  | .char32, .char32 => T32To32

/-- `transcoder<FromEncoding, ToEncoding>` -/
def transcoder : (F T : CharType) → Transcoder (TranscoderState F T) F.Unit T.Unit
  | .char8, .char8 => t8_8
  | .char8, .char16 => t8_16
  | .char8, .char32 => t8_32
  | .char16, .char8 => t16_8
  | .char16, .char16 => t16_16
  | .char16, .char32 => t16_32
  | .char32, .char8 => t32_8
  | .char32, .char16 => t32_16
  | .char32, .char32 => t32_32

/-! ### The specification -/

/-- The transcoder `t` converts from `F` to `T`; `R` says which undecided units a state stands
for. -/
structure Converts (F T : CharType) (t : Transcoder σ F.Unit T.Unit)
    (R : σ → List F.Unit → Prop) : Prop where
  /-- A fresh transcoder stands for no units and has seen nothing ill formed. -/
  init : R t.init [] ∧ t.wellFormed t.init = true
  /-- `partial ()` observes whether the state stands for any units. -/
  isPartial {s p} : R s p → (t.isPartial s = false ↔ p = [])
  /-- Without the flush the state stands for what is undecided. -/
  feed {s p} (us) : R s p → R (t.feed s us).1 (F.rest (p ++ us))
  /-- With the flush the conversion is written and the flag is right. -/
  runFrom {s p} (us) : R s p → (t.runFrom s us).2 = F.decodeTo T (p ++ us) ∧
    t.wellFormed (t.runFrom s us).1 = (t.wellFormed s && (F.read (p ++ us)).all Option.isSome)
  /-- When the state stands for no units, `end_cp` does nothing. -/
  settled {s} : R s [] → t.finish s = (s, [])
  /-- `end_cp` forgets what the state stands for. -/
  finish {s p} : F ≠ .char8 → R s p → R (t.finish s).1 []
  /-- The exception is the begin of a UTF-8 sequence: it leaves the automaton in `reject`. -/
  reject {s p} : R s p → F = .char8 → p ≠ [] → t.isPartial (t.finish s).1 = true

namespace Converts

variable {t : Transcoder σ F.Unit T.Unit} {R : σ → List F.Unit → Prop}

/-- A fresh transcoder writes the conversion of its input. -/
theorem run (h : Converts F T t R) (us : List F.Unit) :
    (t.run us).2 = F.decodeTo T us ∧
      t.wellFormed (t.run us).1 = (F.read us).all Option.isSome := by
  obtain ⟨hout, hwf⟩ := h.runFrom us h.init.1
  rw [List.nil_append] at hout hwf
  rw [h.init.2, Bool.true_and] at hwf
  exact ⟨hout, hwf⟩

/-- Feeding leaves a fresh transcoder standing for what is undecided. -/
theorem feed_init (h : Converts F T t R) (us : List F.Unit) :
    R (t.feed t.init us).1 (F.rest us) := h.feed us h.init.1

end Converts

private theorem map_pieceUnit (os : List (Option Char)) :
    os.map pieceUnit = utf32.encode (os.map fun o => o.getD replacement) := by
  induction os with
  | nil => rfl
  | cons o os ih =>
    rw [List.map_cons, ih, List.map_cons, PrefixCode.encode_cons]
    rfl

theorem converts_t8_32 : Converts .char8 .char32 t8_32 T8To32.StandsFor where
  init := ⟨T8To32.standsFor_init, rfl⟩
  isPartial h := by
    rw [h.eq_nil_iff]
    simp [t8_32]
  feed us h := decodes_t8_32.feed_rest h us
  runFrom us h := by
    obtain ⟨hout, hwf⟩ := decodes_t8_32.reads.runFrom h us
    exact ⟨hout.trans (map_pieceUnit _), hwf⟩
  settled h := h.endCp
  finish hF := absurd rfl hF
  reject {s p} h _ hp := by
    rw [show t8_32.finish s = s.endCp from rfl, h.endCp_of_ne_nil hp]
    rfl

/-- What UTF-16 is read as are scalar values, so the readings in numbers and in scalar values
agree. -/
private theorem map_codePointUnit (us : List UInt16) :
    (utf16Reading us).map codePointUnit = (utf16Read us).map pieceUnit := by
  rw [utf16Read, List.map_map, List.map_inj_left]
  rintro (_ | n) hn
  · rfl
  · obtain ⟨hsur, hmax⟩ := scalar_of_mem_utf16Reading hn
    rw [codePointUnit_some, ← UInt32.toNat_inj, Function.comp_apply, Option.map_some, pieceUnit,
      Option.getD_some, Char.toNat_val, toNat_ofNat hsur hmax, UInt32.toNat_ofNat']
    rw [maxCodePoint] at hmax
    exact Nat.mod_eq_of_lt (by omega)

theorem converts_t16_32 : Converts .char16 .char32 t16_32 T16To32.StandsFor where
  init := ⟨T16To32.standsFor_init, rfl⟩
  isPartial h := h.eq_nil_iff.symm
  feed us h := feed_rest_t16_32 h us
  runFrom us h := by
    obtain ⟨hout, hwf⟩ := reads_t16_32.runFrom h us
    refine ⟨hout.trans ((map_codePointUnit _).trans (map_pieceUnit _)), hwf.trans ?_⟩
    simp [CharType.read, utf16Read, Function.comp_def]
  settled h := h.endCp_nil
  finish _ h := h.endCp
  reject _ hF := by cases hF

/-- An encoder never stands for any units. -/
theorem IsEncoder.converts {t : Transcoder σ UInt32 T.Unit} (h : IsEncoder T t) :
    Converts .char32 T t fun _ p => p = [] where
  init := ⟨rfl, h.wellFormed_init⟩
  isPartial {s p} hp := by simp [h.isPartial, hp]
  feed _ _ := rfl
  runFrom {s p} us hp := by
    rw [hp]
    exact h.runFrom s us
  settled {s} _ := h.finish s
  finish _ _ := rfl
  reject _ hF := by cases hF

/-- **The triangulator converts**: decoding to UTF-32 loses nothing that the encoder needs. -/
theorem Converts.triangulator {t : Transcoder σ F.Unit UInt32} {R : σ → List F.Unit → Prop}
    {t' : Transcoder τ UInt32 T.Unit} (h : Converts F .char32 t R) (h' : IsEncoder T t') :
    Converts F T (triangulator t t') fun s => R s.1 where
  init := ⟨h.init.1, Bool.and_eq_true_iff.mpr ⟨h.init.2, h'.wellFormed_init⟩⟩
  isPartial hs := h.isPartial hs
  feed us hs := by
    rw [Icubaby.triangulator, Transducer.feed_comp]
    exact h.feed us hs
  runFrom {s p} us hs := by
    obtain ⟨hout, hwf⟩ := h.runFrom us hs
    -- what the decoder writes is well formed, so the encoder has nothing to report
    obtain ⟨hout', hwf'⟩ := h'.runFrom s.2 (F.decodeTo .char32 (p ++ us))
    rw [F.read_decodeTo, Bool.and_true] at hwf'
    simp only [Icubaby.triangulator, Transducer.runFrom_comp, hout, hwf, hout', hwf']
    exact ⟨F.decodeTo_decodeTo .char32 T _, by rw [Bool.and_right_comm]⟩
  settled {s} hs := by
    have hfinish : (Icubaby.triangulator t t').finish s =
        (((t.finish s.1).1, (t'.runFrom s.2 (t.finish s.1).2).1),
          (t'.runFrom s.2 (t.finish s.1).2).2) := rfl
    rw [hfinish, h.settled hs, Transducer.runFrom, Transducer.feed_nil, h'.finish]
    rfl
  finish hF hs := h.finish hF hs
  reject hs hF hp := h.reject hs hF hp

/-- What a state of the family stands for. -/
def TranscoderState.StandsFor :
    {F T : CharType} → TranscoderState F T → List F.Unit → Prop
  | .char8, .char8, s => T8To32.StandsFor s.1
  | .char8, .char16, s => T8To32.StandsFor s.1
  | .char8, .char32, s => T8To32.StandsFor s
  | .char16, .char8, s => T16To32.StandsFor s.1
  | .char16, .char16, s => T16To32.StandsFor s.1
  | .char16, .char32, s => T16To32.StandsFor s
  | .char32, _, _ => fun p => p = []

/-- **Every transcoder of the family converts.** -/
theorem converts_transcoder (F T : CharType) :
    Converts F T (transcoder F T) TranscoderState.StandsFor := by
  cases F with
  | char8 =>
    cases T with
    | char8 => exact converts_t8_32.triangulator isEncoder_t32_8
    | char16 => exact converts_t8_32.triangulator isEncoder_t32_16
    | char32 => exact converts_t8_32
  | char16 =>
    cases T with
    | char8 => exact converts_t16_32.triangulator isEncoder_t32_8
    | char16 => exact converts_t16_32.triangulator isEncoder_t32_16
    | char32 => exact converts_t16_32
  | char32 =>
    cases T with
    | char8 => exact isEncoder_t32_8.converts
    | char16 => exact isEncoder_t32_16.converts
    | char32 => exact isEncoder_t32_32.converts

end Icubaby
