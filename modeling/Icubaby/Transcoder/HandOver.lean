import Icubaby.Transcoder.Segments

/-!
# Streams in several encodings

Four of the transcoders can be constructed with an initial value of the flag, for streams of data
that use different encodings: every part of the stream gets a transcoder of its own, which is given
the flag of the one before it. `handOver` does that, with any calls of `operator()` and `end_cp` for
each part, and `handOver_run` says that nothing is lost in between: the flag is the one of the whole
stream.
-/

namespace Icubaby

open Transducer

variable {F T : CharType}

/-! ### The constructors -/

/-- `transcoder<char32_t, char8> (well_formed)` -/
def T32To8.ofWellFormed (wellFormed : Bool) : T32To8 where
  wellFormed := wellFormed

/-- `transcoder<char8, char32_t> (well_formed)` -/
def T8To32.ofWellFormed (wellFormed : Bool) : T8To32 where
  codePoint := 0
  wellFormed := wellFormed
  state := T8To32.accept

/-- `transcoder<char32_t, char16_t> (well_formed)` -/
def T32To16.ofWellFormed (wellFormed : Bool) : T32To16 where
  wellFormed := wellFormed

/-- `transcoder<char16_t, char32_t> (well_formed)` -/
def T16To32.ofWellFormed (wellFormed : Bool) : T16To32 where
  high := 0
  hasHigh := false
  wellFormed := wellFormed

/-- The transcoders that have a constructor with an initial flag. -/
inductive FlagConstructor : CharType → CharType → Type
  | t32_8 : FlagConstructor .char32 .char8
  | t8_32 : FlagConstructor .char8 .char32
  | t32_16 : FlagConstructor .char32 .char16
  | t16_32 : FlagConstructor .char16 .char32

namespace FlagConstructor

/-- The object that is constructed. -/
def construct : FlagConstructor F T → Bool → TranscoderState F T
  | t32_8, wellFormed => T32To8.ofWellFormed wellFormed
  | t8_32, wellFormed => T8To32.ofWellFormed wellFormed
  | t32_16, wellFormed => T32To16.ofWellFormed wellFormed
  | t16_32, wellFormed => T16To32.ofWellFormed wellFormed

/-- With the flag set the object is a fresh one, as the default constructor of
`transcoder<char16_t, char32_t>` takes for granted. -/
theorem construct_true (c : FlagConstructor F T) : c.construct true = (transcoder F T).init := by
  cases c <;> rfl

theorem wellFormed_construct (c : FlagConstructor F T) (wellFormed : Bool) :
    (transcoder F T).wellFormed (c.construct wellFormed) = wellFormed := by
  cases c <;> rfl

/-- Whatever the flag, the object is at the begin of a segment. -/
theorem at_construct (c : FlagConstructor F T) (wellFormed : Bool) :
    Restarts.At TranscoderState.StandsFor TranscoderState.Dead (c.construct wellFormed) false := by
  cases c with
  | t32_8 => exact (rfl : ([] : List UInt32) = [])
  | t8_32 => exact .inl ⟨rfl, rfl⟩
  | t32_16 => exact (rfl : ([] : List UInt32) = [])
  | t16_32 => exact .inl ⟨rfl, rfl⟩

end FlagConstructor

/-! ### Handing the flag over -/

/-- A part of a stream: the encoding that it is in, and the calls that are made for it. -/
structure Part (T : CharType) where
  encoding : CharType
  constructor : FlagConstructor encoding T
  calls : List (Call encoding.Unit)

/-- The pieces that a part is read as. -/
noncomputable def Part.pieces (p : Part T) : List (Option Char) :=
  p.encoding.readSegments false (Call.segments p.calls).1 (Call.segments p.calls).2

/-- One transcoder for each part, constructed with the flag of the one before it: the last flag,
and what all of them have written. -/
def handOver : Bool → List (Part T) → Bool × List T.Unit
  | wellFormed, [] => (wellFormed, [])
  | wellFormed, p :: parts =>
    let t := transcoder p.encoding T
    let r := t.interactive.feed (p.constructor.construct wellFormed) p.calls
    let rest := handOver (t.wellFormed r.1) parts
    (rest.1, r.2 ++ rest.2)

/-- One part. -/
theorem Part.feed (p : Part T) (wellFormed : Bool) :
    let t := transcoder p.encoding T
    let r := t.interactive.feed (p.constructor.construct wellFormed) p.calls
    r.2 = encodePieces T p.pieces ∧
      t.wellFormed r.1 = (wellFormed && p.pieces.all Option.isSome) := by
  have h := restarts_transcoder p.encoding T
  obtain ⟨hout, hwf, -, -⟩ :=
    h.interactive (p.constructor.at_construct wellFormed) p.calls
  rw [p.constructor.wellFormed_construct] at hwf
  exact ⟨hout, hwf⟩

/-- **Handing the flag over.** The transcoders write all parts, one after the other, and in the end
the flag tells whether any piece of any part was ill formed. -/
theorem handOver_run (wellFormed : Bool) (parts : List (Part T)) :
    let pieces := parts.flatMap Part.pieces
    handOver wellFormed parts = (wellFormed && pieces.all Option.isSome,
      T.code.encode (pieces.map fun o => o.getD replacement)) := by
  induction parts generalizing wellFormed with
  | nil =>
    rw [handOver]
    exact Prod.ext (Bool.and_true wellFormed).symm rfl
  | cons p parts ih =>
    obtain ⟨hout, hwf⟩ := p.feed wellFormed
    dsimp only at ih ⊢
    rw [handOver, hout, hwf, ih, List.flatMap_cons, List.all_append, Bool.and_assoc]
    exact Prod.ext rfl (encodePieces_append T p.pieces _).symm

/-- A part that consists of units and one `end_cp` at their end is read as a whole. -/
theorem Part.pieces_units (c : FlagConstructor F T) (us : List F.Unit) :
    Part.pieces ⟨F, c, us.map .step ++ [.finish]⟩ = F.read us := by
  have hsegments : Call.segments (us.map .step ++ [.finish]) = ([us], []) :=
    Call.segments_append_finish us []
  rw [Part.pieces, hsegments]
  exact List.append_nil _

end Icubaby
