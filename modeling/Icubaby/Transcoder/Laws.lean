import Icubaby.Transcoder.Family

/-!
# Laws of the code-unit transcoders

What follows for whole conversions from the specification `Converts` that every member of the
family meets: encoding and decoding are mutually inverse exactly on well-formed units, conversions
by way of another encoding agree with direct ones, and one object can be used for a second input
after `end_cp`, unless it was left inside a UTF-8 sequence.
-/

namespace Icubaby

variable {F T : CharType}

/-! ### Whole conversions -/

theorem transcoder_run (F T : CharType) (us : List F.Unit) :
    ((transcoder F T).run us).2 = F.decodeTo T us ∧
      (transcoder F T).wellFormed ((transcoder F T).run us).1 =
        (F.read us).all Option.isSome :=
  (converts_transcoder F T).run us

/-- The flag after a conversion tells whether the input was well formed. -/
theorem wellFormed_run_iff (us : List F.Unit) :
    (transcoder F T).wellFormed ((transcoder F T).run us).1 = true ↔ F.code.WellFormed us := by
  rw [(transcoder_run F T us).2, F.wellFormed_iff_read]

/-! ### Round trips -/

/-- The UTF-32 units of scalar values are their encoding. -/
theorem map_val_eq_encode (cps : List Char) : cps.map Char.val = CharType.char32.code.encode cps :=
  List.map_eq_flatMap

/-- Encoding scalar values gives the concatenation of their words. -/
theorem encode_run (T : CharType) (cps : List Char) :
    ((transcoder .char32 T).run (cps.map Char.val)).2 = T.code.encode cps := by
  rw [(transcoder_run .char32 T _).1, CharType.decodeTo, map_val_eq_encode,
    CharType.scalars_encode]

/-- **Encode and decode are mutually inverse** between lists of scalar values and well-formed
lists of units, and on no other lists of units. -/
theorem round_trip (F : CharType) :
    (∀ cps : List Char,
      let e := (transcoder .char32 F).run (cps.map Char.val)
      let d := (transcoder F .char32).run e.2
      d.2 = cps.map Char.val ∧ (transcoder .char32 F).wellFormed e.1 = true ∧
        (transcoder F .char32).wellFormed d.1 = true) ∧
    ∀ us : List F.Unit,
      ((transcoder .char32 F).run ((transcoder F .char32).run us).2).2 = us ↔
        F.code.WellFormed us := by
  refine ⟨fun cps => ⟨?_, ?_, ?_⟩, fun us => ?_⟩
  · rw [encode_run, (transcoder_run F .char32 _).1, CharType.decodeTo, CharType.scalars_encode,
      map_val_eq_encode]
  · rw [wellFormed_run_iff, map_val_eq_encode]
    exact ⟨cps, rfl⟩
  · rw [wellFormed_run_iff, encode_run]
    exact ⟨cps, rfl⟩
  · rw [(transcoder_run F .char32 us).1, (transcoder_run .char32 F _).1,
      CharType.decodeTo_decodeTo]
    constructor
    · intro h
      exact ⟨F.scalars us, h⟩
    · rintro ⟨cs, rfl⟩
      rw [CharType.decodeTo, CharType.scalars_encode]

/-! ### A second input -/

/-- On one object: `us`, `end_cp`, `vs`, `end_cp` write what two fresh transcoders write, and the
first `end_cp` returns the decoder to its start, so that a second one writes nothing. -/
def ReusableAfter (F T : CharType) (us vs : List F.Unit) : Prop :=
  let t := transcoder F T
  let s := (t.run us).1
  (t.run us).2 ++ (t.runFrom s vs).2 = (t.run us).2 ++ (t.run vs).2 ∧
    t.isPartial s = false ∧ (t.finish s).2 = []

/-- **A second input on the same object.** Feeding and flushing can be repeated exactly when the
first input does not make the UTF-8 decoder stop inside a sequence: then `end_cp` leaves its
automaton in `reject` instead of `accept`. -/
theorem reusableAfter_iff (F T : CharType) (us vs : List F.Unit) :
    ReusableAfter F T us vs ↔ (F = .char8 → F.rest us = []) := by
  have ht := converts_transcoder F T
  have hfed := ht.feed_init us
  constructor
  · rintro ⟨-, hpart, -⟩ hF
    by_contra hrest
    -- the flush leaves the automaton in `reject`
    have htrue := ht.reject hfed hF hrest
    rw [← Transducer.runFrom_fst] at htrue
    rw [Transducer.run, htrue] at hpart
    cases hpart
  · intro hcond
    -- the object stands for no units after the flush
    have hstart : TranscoderState.StandsFor ((transcoder F T).run us).1 [] := by
      by_cases hF : F = .char8
      · rw [hcond hF] at hfed
        rw [Transducer.run, Transducer.runFrom_fst, ht.settled hfed]
        exact hfed
      · exact ht.finish hF hfed
    refine ⟨?_, (ht.isPartial hstart).mpr rfl, ?_⟩
    · rw [(ht.runFrom vs hstart).1, (ht.run vs).1, List.nil_append]
    · rw [ht.settled hstart]

/-- A lead byte alone is one of the inputs that spoil the object. -/
theorem not_reusableAfter_lead : ¬ ReusableAfter .char8 .char32 [0xC2] [] := by
  rintro ⟨hout, -⟩
  exact absurd hout (by decide)

end Icubaby
