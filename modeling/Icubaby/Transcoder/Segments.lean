import Icubaby.ForMathlib.Segments
import Icubaby.Transcoder.Online

/-!
# Calls of `operator()` and `end_cp` in any order

One object of a code-unit transcoder can be fed and flushed again and again. The units between two
calls of `end_cp` are read on their own, with one exception: when `end_cp` finds the UTF-8 decoder
inside a sequence, it leaves the automaton in its reject state. The next unit is then dropped for a
U+FFFD, and a further `end_cp` before it writes a U+FFFD as well. `readSegments` is this reading,
and `transcoder_interactive` says that all nine transcoders compute it, whatever is called.
-/

namespace Icubaby

open Transducer

variable {σ τ : Type} {F T : CharType}

/-! ### The reading of a sequence of calls -/

namespace CharType

/-- The reading of units that `end_cp` ends. After an `end_cp` inside a UTF-8 sequence the object is
dead, and the first unit, or else the `end_cp`, is read as ill formed. -/
noncomputable def segmentRead (F : CharType) (dead : Bool) (us : List F.Unit) :
    List (Option Char) :=
  if dead then none :: F.read us.tail else F.read us

/-- The reading of units that no `end_cp` has ended yet. -/
noncomputable def openRead (F : CharType) (dead : Bool) : List F.Unit → List (Option Char)
  | [] => []
  | u :: us => if dead then none :: F.read (F.settled us) else F.read (F.settled (u :: us))

/-- Whether some units, not ended yet, leave the object inside a code point. -/
noncomputable def openPartial (F : CharType) (dead : Bool) (us : List F.Unit) : Bool :=
  if dead then us.isEmpty || !(F.rest us.tail).isEmpty else !(F.rest us).isEmpty

/-- The object is dead after `end_cp` if that has found it inside a UTF-8 sequence. -/
noncomputable def diesAfter (F : CharType) (dead : Bool) (us : List F.Unit) : Bool :=
  F = char8 && F.openPartial dead us

/-- The reading of segments and of the units after the last `end_cp`. -/
noncomputable def readSegments (F : CharType) :
    Bool → List (List F.Unit) → List F.Unit → List (Option Char)
  | dead, [], last => F.openRead dead last
  | dead, us :: segs, last =>
    F.segmentRead dead us ++ readSegments F (F.diesAfter dead us) segs last

/-- Whether the object is left inside a code point. -/
noncomputable def segmentsPartial (F : CharType) :
    Bool → List (List F.Unit) → List F.Unit → Bool
  | dead, [], last => F.openPartial dead last
  | dead, us :: segs, last => segmentsPartial F (F.diesAfter dead us) segs last

end CharType

/-- The begin of a code point is read as ill formed. -/
theorem CharType.read_of_pending {F : CharType} {p : List F.Unit} (hp : F.code.Pending p)
    (hne : p ≠ []) : F.read p = [none] := by
  cases F with
  | char8 => exact PrefixCode.read_of_pending hp hne
  | char16 =>
    obtain rfl | ⟨h, rfl, hhigh⟩ := utf16_pending_iff.mp hp
    · exact absurd rfl hne
    · have hread : CharType.char16.read [h] = [(unitValue h).map Char.ofNat] := rfl
      rw [hread, unitValue_of_surrogate (.inl hhigh)]
      rfl
  | char32 => exact absurd (eq_nil_of_utf32_pending hp) hne

/-- What a piece of a reading is written as. -/
def encodePieces (T : CharType) (pieces : List (Option Char)) : List T.Unit :=
  T.code.encode (pieces.map fun o => o.getD replacement)

theorem encodePieces_append (T : CharType) (pieces pieces' : List (Option Char)) :
    encodePieces T (pieces ++ pieces') = encodePieces T pieces ++ encodePieces T pieces' := by
  rw [encodePieces, List.map_append, PrefixCode.encode_append]
  rfl

theorem encodePieces_none_cons (T : CharType) (pieces : List (Option Char)) :
    encodePieces T (none :: pieces) = T.code.word replacement ++ encodePieces T pieces :=
  PrefixCode.encode_cons (C := T.code) replacement _

/-! ### What the transcoders do after `end_cp` -/

/-- The transcoder `t` converts, and `D` holds of the dead states: those that `end_cp` leaves behind
inside a UTF-8 sequence. -/
structure Restarts (F T : CharType) (t : Transcoder σ F.Unit T.Unit)
    (R : σ → List F.Unit → Prop) (D : σ → Prop) : Prop extends Converts F T t R where
  /-- `end_cp` inside a UTF-8 sequence kills the object. -/
  dies {s p} : F = .char8 → R s p → p ≠ [] → D (t.finish s).1
  dead {s} : D s → F = .char8 ∧ t.wellFormed s = false ∧ t.isPartial s = true
  /-- The next unit is dropped. -/
  dead_step {s} (x) : D s →
    R (t.step s x).1 [] ∧ (t.step s x).2 = T.code.word replacement ∧
      t.wellFormed (t.step s x).1 = false
  /-- Another `end_cp` does the same again. -/
  dead_finish {s} : D s → D (t.finish s).1 ∧ (t.finish s).2 = T.code.word replacement

private theorem T8To32.wellFormed_of_call {s : T8To32} {x : UInt8}
    (h : (s.call x).1.wellFormed = true) : s.wellFormed = true := by
  simp only [T8To32.call, T8To32.callWith] at h
  split_ifs at h <;> exact h

theorem restarts_t8_32 :
    Restarts .char8 .char32 t8_32 T8To32.StandsFor fun s =>
      s.state = T8To32.reject ∧ s.wellFormed = false where
  toConverts := converts_t8_32
  dies {s p} _ h hp := by
    rw [show t8_32.finish s = s.endCp from rfl, h.endCp_of_ne_nil hp]
    exact ⟨rfl, rfl⟩
  dead {s} h := by
    refine ⟨rfl, h.2, ?_⟩
    change decide (s.state ≠ T8To32.accept) = true
    rw [h.1]
    rfl
  dead_step {s} x h := by
    obtain ⟨hR, hout⟩ := T8To32.call_of_state_reject h.1 x
    refine ⟨hR, hout, ?_⟩
    -- a call does not set the flag
    rw [Bool.eq_false_iff]
    intro hwf
    exact absurd (T8To32.wellFormed_of_call hwf) (by simp [h.2])
  dead_finish {s} h := by
    have hfinish : t8_32.finish s =
        ({ s with state := T8To32.reject, wellFormed := false },
          [UInt32.ofNat replacementChar]) := if_pos (by rw [h.1]; decide)
    rw [hfinish]
    exact ⟨⟨rfl, rfl⟩, rfl⟩

/-- Only the decoder of UTF-8 can die. -/
theorem Converts.restarts {t : Transcoder σ F.Unit T.Unit} {R : σ → List F.Unit → Prop}
    (h : Converts F T t R) (hF : F ≠ .char8) : Restarts F T t R fun _ => False where
  toConverts := h
  dies hchar8 := absurd hchar8 hF
  dead hs := hs.elim
  dead_step _ hs := hs.elim
  dead_finish hs := hs.elim

/-- Encoding a single U+FFFD. -/
private theorem IsEncoder.run_replacement {t : Transcoder τ UInt32 T.Unit} (h : IsEncoder T t)
    (s : τ) :
    (t.feed s [replacement.val]).2 = T.code.word replacement ∧
      (t.runFrom s [replacement.val]).2 = T.code.word replacement ∧
      t.wellFormed (t.feed s [replacement.val]).1 = t.wellFormed s := by
  have hscalars : CharType.char32.scalars [replacement.val] = [replacement] := by
    simp [CharType.scalars, CharType.read, utf32Value_val]
  have hread : CharType.char32.read [replacement.val] = [some replacement] := by
    simp [CharType.read, utf32Value_val]
  refine ⟨?_, ?_, ?_⟩
  · rw [(h.feed s _).1, hscalars, PrefixCode.encode_cons,
      PrefixCode.encode_nil, List.append_nil]
  · rw [(h.runFrom s _).1, hscalars, PrefixCode.encode_cons,
      PrefixCode.encode_nil, List.append_nil]
  · rw [(h.feed s _).2, hread]
    exact Bool.and_true _

/-- **The triangulator dies with its decoder.** -/
theorem Restarts.triangulator {t : Transcoder σ F.Unit UInt32} {R : σ → List F.Unit → Prop}
    {D : σ → Prop} {t' : Transcoder τ UInt32 T.Unit} (h : Restarts F .char32 t R D)
    (h' : IsEncoder T t') :
    Restarts F T (triangulator t t') (fun s => R s.1) fun s => D s.1 where
  toConverts := h.toConverts.triangulator h'
  dies hF hs hp := h.dies hF hs hp
  dead {s} hs := by
    obtain ⟨hF, hwf, hpart⟩ := h.dead hs
    refine ⟨hF, ?_, hpart⟩
    change (t.wellFormed s.1 && t'.wellFormed s.2) = false
    rw [hwf, Bool.false_and]
  dead_step {s} x hs := by
    obtain ⟨hR, hout, hwf⟩ := h.dead_step x hs
    have hword : (t.step s.1 x).2 = [replacement.val] := hout
    have hstep : (Icubaby.triangulator t t').step s x =
        (((t.step s.1 x).1, (t'.feed s.2 (t.step s.1 x).2).1),
          (t'.feed s.2 (t.step s.1 x).2).2) := rfl
    rw [hstep, hword]
    refine ⟨hR, (h'.run_replacement s.2).1, ?_⟩
    change (t.wellFormed (t.step s.1 x).1 && _) = false
    rw [hwf, Bool.false_and]
  dead_finish {s} hs := by
    obtain ⟨hD, hout⟩ := h.dead_finish hs
    have hword : (t.finish s.1).2 = [replacement.val] := hout
    refine ⟨hD, ?_⟩
    change (t'.runFrom s.2 (t.finish s.1).2).2 = _
    rw [hword]
    exact (h'.run_replacement s.2).2.1

/-- The states that `end_cp` leaves behind inside a UTF-8 sequence. -/
def TranscoderState.Dead : {F T : CharType} → TranscoderState F T → Prop
  | .char8, .char8, s => s.1.state = T8To32.reject ∧ s.1.wellFormed = false
  | .char8, .char16, s => s.1.state = T8To32.reject ∧ s.1.wellFormed = false
  | .char8, .char32, s => s.state = T8To32.reject ∧ s.wellFormed = false
  | .char16, _, _ => False
  | .char32, _, _ => False

/-- **Every transcoder of the family restarts**, or dies as the decoder of UTF-8 does. -/
theorem restarts_transcoder (F T : CharType) :
    Restarts F T (transcoder F T) TranscoderState.StandsFor TranscoderState.Dead := by
  cases F with
  | char8 =>
    cases T with
    | char8 => exact restarts_t8_32.triangulator isEncoder_t32_8
    | char16 => exact restarts_t8_32.triangulator isEncoder_t32_16
    | char32 => exact restarts_t8_32
  | char16 => exact (converts_transcoder .char16 T).restarts (by decide)
  | char32 => exact (converts_transcoder .char32 T).restarts (by decide)

/-! ### Runs of calls -/

namespace Restarts

variable {t : Transcoder σ F.Unit T.Unit} {R : σ → List F.Unit → Prop} {D : σ → Prop}

/-- The object after `end_cp`: dead, or at its start. -/
def At (R : σ → List F.Unit → Prop) (D : σ → Prop) (s : σ) : Bool → Prop
  | true => D s
  | false => R s []

private theorem segment_live (h : Restarts F T t R D) {s : σ} (hs : R s []) (us : List F.Unit) :
    let r := t.runFrom s us
    r.2 = encodePieces T (F.read us) ∧
      t.wellFormed r.1 = (t.wellFormed s && (F.read us).all Option.isSome) ∧
      At R D r.1 (F.diesAfter false us) := by
  obtain ⟨hout, hwf⟩ := h.runFrom us hs
  have hfed := h.feed us hs
  rw [List.nil_append] at hout hwf hfed
  refine ⟨hout, hwf, ?_⟩
  rw [Transducer.runFrom_fst, CharType.diesAfter, CharType.openPartial]
  by_cases hrest : F.rest us = []
  · rw [hrest] at hfed ⊢
    rw [h.settled hfed]
    simpa [At] using hfed
  · have hempty : (F.rest us).isEmpty = false := List.isEmpty_eq_false_iff.mpr hrest
    rw [hempty]
    by_cases hF : F = .char8
    · simpa [At, hF] using h.dies hF hfed hrest
    · simpa [At, hF] using h.finish hF hfed

/-- **A segment**: units that `end_cp` ends. -/
theorem segment (h : Restarts F T t R D) {s : σ} {dead : Bool} (hs : At R D s dead)
    (us : List F.Unit) :
    let r := t.runFrom s us
    r.2 = encodePieces T (F.segmentRead dead us) ∧
      t.wellFormed r.1 = (t.wellFormed s && (F.segmentRead dead us).all Option.isSome) ∧
      At R D r.1 (F.diesAfter dead us) := by
  cases dead with
  | false => exact h.segment_live hs us
  | true =>
    obtain ⟨hF, hwf, -⟩ := h.dead hs
    cases us with
    | nil =>
      obtain ⟨hD, hout⟩ := h.dead_finish hs
      have hrun : t.runFrom s [] = t.finish s := rfl
      have hread : F.read [] = [] := by simpa using F.read_encode []
      dsimp only
      rw [hrun]
      refine ⟨?_, ?_, ?_⟩
      · simpa [CharType.segmentRead, encodePieces, hread] using hout
      · rw [(h.dead hD).2.1, hwf, Bool.false_and]
      · simpa [CharType.diesAfter, CharType.openPartial, hF, At] using hD
    | cons u us =>
      -- the first unit is dropped, and the others are read from the start
      obtain ⟨hR, hout, hwf'⟩ := h.dead_step u hs
      obtain ⟨hout', hwf'', hat⟩ := h.segment_live hR us
      have hsplit := t.runFrom_append s [u] us
      rw [Transducer.feed_singleton, List.singleton_append] at hsplit
      dsimp only
      rw [hsplit, hwf'', hwf', hwf, hout, hout', Bool.false_and, Bool.false_and]
      refine ⟨?_, rfl, ?_⟩
      · rw [CharType.segmentRead, if_pos rfl, List.tail_cons, encodePieces_none_cons]
      · simpa [CharType.diesAfter, CharType.openPartial] using hat

private theorem opened_live (h : Restarts F T t R D) {s : σ} (hs : R s []) (us : List F.Unit) :
    let r := t.feed s us
    r.2 = encodePieces T (F.read (F.settled us)) ∧
      t.wellFormed r.1 = (t.wellFormed s && (F.read (F.settled us)).all Option.isSome) ∧
      t.isPartial r.1 = !(F.rest us).isEmpty ∧ R r.1 (F.rest us) := by
  obtain ⟨hout, hwf⟩ := h.feed_out hs us
  have hfed := h.feed us hs
  rw [List.nil_append] at hout hwf hfed
  refine ⟨hout, hwf, ?_, hfed⟩
  rw [Bool.eq_iff_iff, ← not_iff_not, Bool.not_eq_true, h.isPartial hfed]
  simp

/-- **Units that no `end_cp` has ended yet.** -/
theorem opened (h : Restarts F T t R D) {s : σ} {dead : Bool} (hs : At R D s dead)
    (us : List F.Unit) :
    let r := t.feed s us
    r.2 = encodePieces T (F.openRead dead us) ∧
      t.wellFormed r.1 = (t.wellFormed s && (F.openRead dead us).all Option.isSome) ∧
      t.isPartial r.1 = F.openPartial dead us ∧ ((∃ p, R r.1 p) ∨ D r.1) := by
  have hnil : F.openRead dead [] = [] := rfl
  cases us with
  | nil =>
    dsimp only
    rw [Transducer.feed_nil, hnil]
    refine ⟨rfl, (Bool.and_true _).symm, ?_, ?_⟩
    · cases dead with
      | false =>
        rw [CharType.openPartial, CharType.rest_of_pending F.code.pending_nil]
        exact (h.isPartial hs).mpr rfl
      | true => exact (h.dead hs).2.2
    · cases dead with
      | false => exact .inl ⟨[], hs⟩
      | true => exact .inr hs
  | cons u us =>
    cases dead with
    | false =>
      obtain ⟨hout, hwf, hpart, hR⟩ := h.opened_live hs (u :: us)
      exact ⟨hout, hwf, hpart, .inl ⟨_, hR⟩⟩
    | true =>
      obtain ⟨hR, hout, hwf⟩ := h.dead_step u hs
      obtain ⟨hout', hwf', hpart, hR'⟩ := h.opened_live hR us
      dsimp only
      rw [Transducer.feed_cons, hwf', hwf, (h.dead hs).2.1, hout, hout', hpart, Bool.false_and,
        Bool.false_and]
      refine ⟨?_, rfl, ?_, .inl ⟨_, hR'⟩⟩
      · rw [CharType.openRead, if_pos rfl, encodePieces_none_cons]
      · rw [CharType.openPartial, if_pos rfl, List.tail_cons, List.isEmpty_cons, Bool.false_or]

/-- A fresh transcoder is at the begin of a segment. -/
theorem at_init (h : Restarts F T t R D) : At R D t.init false := h.init.1

/-- **Run rule**: all sequences of calls, by induction along the segments. -/
theorem interactive (h : Restarts F T t R D) {s : σ} {dead : Bool} (hs : At R D s dead)
    (calls : List (Call F.Unit)) :
    let r := t.interactive.feed s calls
    let pieces := F.readSegments dead (Call.segments calls).1 (Call.segments calls).2
    r.2 = encodePieces T pieces ∧
      t.wellFormed r.1 = (t.wellFormed s && pieces.all Option.isSome) ∧
      t.isPartial r.1 = F.segmentsPartial dead (Call.segments calls).1 (Call.segments calls).2 ∧
      ((∃ p, R r.1 p) ∨ D r.1) := by
  induction calls using Call.segments_induction generalizing s dead with
  | last us =>
    rw [feed_interactive_map_step, Call.segments_map_step]
    exact h.opened hs us
  | segment us rest ih =>
    obtain ⟨hout, hwf, hat⟩ := h.segment hs us
    obtain ⟨hout', hwf', hpart, hreach⟩ := ih hat
    dsimp only
    rw [feed_interactive_segment, Call.segments_append_finish]
    refine ⟨?_, ?_, hpart, hreach⟩
    · rw [CharType.readSegments, encodePieces_append, hout, hout']
    · rw [CharType.readSegments, hwf', hwf, List.all_append, Bool.and_assoc]

/-- **The flush** in every state that can be reached. -/
theorem flush (h : Restarts F T t R D) {s : σ} (hs : (∃ p, R s p) ∨ D s) :
    (t.finish s).2 = (if t.isPartial s then T.code.word replacement else []) ∧
      t.wellFormed (t.finish s).1 = (t.wellFormed s && !t.isPartial s) := by
  rcases hs with ⟨q, hq⟩ | hD
  · -- what the state stands for can be taken to be the begin of a code point
    have hp : R s (F.rest q) := by simpa using h.feed [] hq
    have hpending := F.pending_rest q
    generalize F.rest q = p at hp hpending
    obtain ⟨hout, hwf⟩ := h.runFrom [] hp
    rw [List.append_nil] at hout hwf
    by_cases hnil : p = []
    · subst hnil
      have hpart := (h.isPartial hp).mpr rfl
      rw [h.settled hp, hpart]
      exact ⟨rfl, (Bool.and_true _).symm⟩
    · have hpart : t.isPartial s = true := by
        rw [← Bool.not_eq_false, h.isPartial hp]
        exact hnil
      have hread := CharType.read_of_pending hpending hnil
      have hword : F.decodeTo T p = T.code.word replacement := by
        simp [CharType.decodeTo, CharType.scalars, hread]
      rw [hpart]
      exact ⟨hout.trans hword, hwf.trans (by simp [hread])⟩
  · obtain ⟨-, hwf, hpart⟩ := h.dead hD
    obtain ⟨hD', hout⟩ := h.dead_finish hD
    rw [hpart, hout, (h.dead hD').2.1, hwf]
    exact ⟨rfl, rfl⟩

end Restarts

/-- **Calls in any order.** Whatever is called on one object of a code-unit transcoder, it has
written the encoding of the segment-wise reading of the calls, with U+FFFD for the ill-formed
pieces; the flag tells whether there are any, and `partial ()` whether the object is inside a code
point or dead. -/
theorem transcoder_interactive (F T : CharType) (calls : List (Call F.Unit)) :
    let r := (transcoder F T).interactive.feed (transcoder F T).init calls
    let pieces := F.readSegments false (Call.segments calls).1 (Call.segments calls).2
    r.2 = T.code.encode (pieces.map fun o => o.getD replacement) ∧
      (transcoder F T).wellFormed r.1 = pieces.all Option.isSome ∧
      (transcoder F T).isPartial r.1 =
        F.segmentsPartial false (Call.segments calls).1 (Call.segments calls).2 := by
  have h := restarts_transcoder F T
  obtain ⟨hout, hwf, hpart, -⟩ := h.interactive h.at_init calls
  rw [h.init.2, Bool.true_and] at hwf
  exact ⟨hout, hwf, hpart⟩

/-- What one more `end_cp` does: it writes U+FFFD if `partial ()` is true and nothing otherwise, and
it leaves the flag cleared in the first case and as it was in the second. -/
theorem transcoder_flush (F T : CharType) (calls : List (Call F.Unit)) :
    let t := transcoder F T
    let s := (t.interactive.feed t.init calls).1
    (t.finish s).2 = (if t.isPartial s then T.code.word replacement else []) ∧
      t.wellFormed (t.finish s).1 = (t.wellFormed s && !t.isPartial s) := by
  have h := restarts_transcoder F T
  exact h.flush (h.interactive h.at_init calls).2.2.2

end Icubaby
