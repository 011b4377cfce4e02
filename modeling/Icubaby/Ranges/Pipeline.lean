import Icubaby.Byte.Dialogue
import Icubaby.Ranges.Adaptor
import Icubaby.Ranges.Room

/-!
# Pipelines of views

`views::transcode` can be applied to the result of another `views::transcode`, by `operator|`. The
base view of a view is then a view itself: its iterators are cursors that fill buffers of their own
and its flag is one more member of the world.

However many views of code units there are, reading the last one yields what a single transcoder
writes, from the first encoding to the last (`pipeline_run`). The flag of the first view tells
whether the input was well formed, and the others stay set.

If the first view is one of bytes, all of this holds when that view can be read to its end, and
otherwise the pipeline cannot either (`pipeline_run_bytes`): the stream has to end in a code unit,
as the last call of `fill` has nothing to show if it does not, and there has to be room in the array
for what is written at each byte.
-/

namespace Icubaby

open Adaptor TranscodeView

variable {σ α : Type} {F T U : CharType}

/-- The views of code units have room for all that is written. -/
theorem serves_transcoder (F T : CharType) :
    Serves (transcoder F T) (maxOutputBytes F T) fun _ => True := by
  have ht := converts_transcoder F T
  exact .of_fits (fits_transcoder F T) (by rw [ht.settled ht.init.1])

theorem fillable_transcoder (F T : CharType) (s : TranscoderState F T) (us : List F.Unit) :
    Fillable (transcoder F T) (maxOutputBytes F T) s us :=
  fillable_of_fits (fits_transcoder F T) (productive_transcoder F T s us)

/-- One view of a container of units. -/
theorem delivers_transcoder (F T : CharType) (us : List F.Unit) {fuel : ℕ}
    (hfuel : us.length ≤ fuel) :
    let r := (transcoder F T).run us
    (adaptor (transcoder F T) (maxOutputBytes F T) fuel
      (CursorRange.ofList RangeFault.pastEnd us)).Delivers ((), true)
        r.2 ((), (transcoder F T).wellFormed r.1) :=
  delivers (serves_transcoder F T) (CursorRange.delivers_ofList .pastEnd us)
    (fillable_transcoder F T _ us) hfuel true

/-- The views that follow a first one with the target `T`: `range | transcode<…> | transcode<…>`. -/
inductive Pipeline (T : CharType) : CharType → Type
  /-- The first view alone. -/
  | first : Pipeline T T
  /-- `operator|` -/
  | pipe {U : CharType} (p : Pipeline T U) (V : CharType) : Pipeline T V

namespace Pipeline

/-- The flags of all views, in the order in which they are nested. -/
def World {T : CharType} : {U : CharType} → Pipeline T U → Type
  | _, first => Unit × Bool
  | _, pipe p _ => p.World × Bool

/-- The iterators of the last view, if the first one has a transcoder with states `σ`. -/
def Cursor {T : CharType} (σ : Type) : {U : CharType} → Pipeline T U → Type
  | _, first => Iterator ℕ σ T.Unit
  | _, @pipe _ U p V => Iterator (p.Cursor σ) (TranscoderState U V) V.Unit

/-- The last view of a pipeline over the list `xs`, whose first view has the transcoder `t` and an
array of `room` units. -/
def range {T : CharType} (t : Transcoder σ α T.Unit) (room fuel : ℕ) (xs : List α) :
    {U : CharType} → (p : Pipeline T U) → CursorRange p.World (p.Cursor σ) RangeFault U.Unit
  | _, first => adaptor t room fuel (CursorRange.ofList .pastEnd xs)
  | _, @pipe _ U p V =>
    adaptor (transcoder U V) (maxOutputBytes U V) fuel (range t room fuel xs p)

/-- All flags are set. -/
def fresh {T : CharType} : {U : CharType} → (p : Pipeline T U) → p.World
  | _, first => ((), true)
  | _, pipe p _ => (p.fresh, true)

/-- The flags, those of later views first. -/
def flags {T : CharType} : {U : CharType} → (p : Pipeline T U) → p.World → List Bool
  | _, first, w => [w.2]
  | _, pipe p _, w => w.2 :: p.flags w.1

/-- The number of views after the first. -/
def length {T : CharType} : {U : CharType} → Pipeline T U → ℕ
  | _, first => 0
  | _, pipe p _ => p.length + 1

/-- **A pipeline delivers what its first view writes**, in its last encoding. -/
theorem exists_delivers {t : Transcoder σ α T.Unit} {room : ℕ} {I : σ → Prop}
    (h : Serves t room I) {xs : List α} {cs : List Char} (hout : (t.run xs).2 = T.code.encode cs)
    (hfillable : Fillable t room t.init xs) (p : Pipeline T U) :
    ∃ N, ∀ fuel, N ≤ fuel → ∃ w,
      (p.range t room fuel xs).Delivers p.fresh (U.code.encode cs) w ∧
        p.flags w = List.replicate p.length true ++ [t.wellFormed (t.run xs).1] := by
  induction p with
  | first =>
    refine ⟨xs.length, fun fuel hfuel => ⟨((), true && t.wellFormed (t.run xs).1), ?_, rfl⟩⟩
    rw [← hout]
    exact delivers h (CursorRange.delivers_ofList .pastEnd xs) hfillable hfuel true
  | @pipe U p V ih =>
    obtain ⟨N, ih⟩ := ih
    refine ⟨max N (U.code.encode cs).length, fun fuel hfuel => ?_⟩
    obtain ⟨w, hbase, hflags⟩ := ih fuel ((le_max_left _ _).trans hfuel)
    -- one more view re-encodes what is well formed
    have hview := delivers (serves_transcoder U V) hbase (fillable_transcoder U V _ _)
      ((le_max_right _ _).trans hfuel) true
    obtain ⟨hrun, hwf⟩ := (converts_transcoder U V).run (U.code.encode cs)
    have hwell : (U.read (U.code.encode cs)).all Option.isSome = true :=
      (U.wellFormed_iff_read _).mp ⟨cs, rfl⟩
    rw [hrun, hwf, hwell, CharType.decodeTo, CharType.scalars_encode, Bool.and_true] at hview
    refine ⟨(w, true), hview, ?_⟩
    change true :: p.flags w = _
    rw [hflags, length, List.replicate_succ, List.cons_append]

/-- Conversely, if a pipeline can be read to its end, so can its first view. -/
theorem fillable_of_delivers {t : Transcoder σ α T.Unit} {room : ℕ} {xs : List α} {fuel : ℕ}
    (p : Pipeline T U) {w w' : p.World} {us : List U.Unit}
    (h : (p.range t room fuel xs).Delivers w us w') : Fillable t room t.init xs := by
  induction p with
  | first =>
    obtain ⟨ys, hys, hfillable⟩ := exists_delivers_base h
    obtain ⟨rfl, -⟩ := (CursorRange.delivers_ofList RangeFault.pastEnd xs).unique hys
    exact hfillable
  | pipe p V ih =>
    obtain ⟨vs, hvs, -⟩ := exists_delivers_base h
    exact ih hvs

end Pipeline

/-- **A pipeline of views of code units is one conversion.** Reading `us | transcode<F, T> | …`,
where `us` are units of a character type, meets no empty buffer and overflows none, however many
views follow. It yields the units that a fresh transcoder from `F` to the last encoding writes, and
leaves the flag of the first view as that of this transcoder and all others set. -/
theorem pipeline_run (p : Pipeline T U) (us : List F.Unit) :
    ∃ N, ∀ fuel, N ≤ fuel → ∃ w,
      (p.range (transcoder F T) (maxOutputBytes F T) fuel us).collectAll .outOfFuel fuel p.fresh =
          .ok (((transcoder F U).run us).2, w) ∧
        p.flags w = List.replicate p.length true ++
          [(transcoder F U).wellFormed ((transcoder F U).run us).1] := by
  have ht := converts_transcoder F T
  obtain ⟨N, hN⟩ := p.exists_delivers (serves_transcoder F T) (ht.run us).1
    (fillable_transcoder F T _ us)
  refine ⟨max N (U.code.encode (F.scalars us)).length, fun fuel hfuel => ?_⟩
  obtain ⟨w, hdelivers, hflags⟩ := hN fuel ((le_max_left _ _).trans hfuel)
  refine ⟨w, ?_, ?_⟩
  · rw [((converts_transcoder F U).run us).1]
    exact hdelivers.collectAll ((le_max_right _ _).trans hfuel)
  · rw [hflags, (ht.run us).2, ((converts_transcoder F U).run us).2]

/-! ### Pipelines over bytes -/

/-- The states of the byte transcoder that calls can lead to. -/
def ByteTranscoder.Called (b : ByteTranscoder T) : Prop :=
  ∃ calls, ((tx T).interactive.feed (tx T).init calls).1 = b

theorem ByteTranscoder.Called.exists_holds {b : ByteTranscoder T} (h : b.Called) :
    ∃ (d : Dialogue) (out : List T.Unit), d.Holds b out := by
  obtain ⟨calls, rfl⟩ := h
  exact ⟨_, _, Dialogue.holds_ofCalls T calls⟩

/-- A call does not set the flag. -/
private theorem wellFormed_of_call {b : ByteTranscoder T} (h : b.Called) {x : UInt8}
    (hwf : (b.call x).1.wellFormed = true) : b.wellFormed = true := by
  obtain ⟨d, out, hd⟩ := h.exists_holds
  cases d with
  | detecting seen =>
    obtain ⟨hb, -⟩ := hd
    cases hb <;> rfl
  | utf8 calls =>
    obtain ⟨hstate, hvar, -⟩ := hd
    obtain ⟨state, buffer, variant⟩ := b
    obtain rfl : state = .run8 := hstate
    obtain rfl : variant = .t8 _ := hvar
    exact (fits_transcoder .char8 T).of_step hwf
  | utf16 e calls =>
    obtain ⟨hstate, hlen, hheld, hvar, -⟩ := hd
    obtain ⟨-, -, hvar', -⟩ := Framing.call_run16 hlen hstate hheld hvar x
    rw [ByteTranscoder.wellFormed, hvar'] at hwf
    rw [ByteTranscoder.wellFormed, hvar]
    exact (fits_transcoder .char16 T).of_feed rfl hwf
  | utf32 e calls =>
    obtain ⟨hstate, hlen, hheld, hvar, -⟩ := hd
    obtain ⟨-, -, hvar', -⟩ := Framing.call_run32 hlen hstate hheld hvar x
    rw [ByteTranscoder.wellFormed, hvar'] at hwf
    rw [ByteTranscoder.wellFormed, hvar]
    exact (fits_transcoder .char32 T).of_feed rfl hwf

/-- Neither does `end_cp`, and a second one leaves the flag alone. -/
private theorem wellFormed_endCp {b : ByteTranscoder T} (h : b.Called) :
    (b.endCp.1.wellFormed = true → b.wellFormed = true) ∧
      b.endCp.1.endCp.1.wellFormed = b.endCp.1.wellFormed := by
  obtain ⟨d, out, hd⟩ := h.exists_holds
  cases d with
  | detecting seen =>
    obtain ⟨hb, -⟩ := hd
    refine ⟨fun _ => by cases hb <;> rfl, ?_⟩
    have ht := converts_transcoder .char8 T
    have hseen : seen ∈ partialMarks := by cases hb <;> decide
    rw [hb.endCp]
    rw [Framing.endCp_t8 rfl]
    -- what has been replayed leaves nothing to be flushed
    change (transcoder .char8 T).wellFormed ((transcoder .char8 T).finish _).1 = _
    split_ifs with hnil
    · rw [Transducer.feed_nil, ht.settled ht.init.1]
      rfl
    · have hrun := congrArg Prod.fst (Framing.run_replay T hseen)
      rw [Transducer.run, Transducer.runFrom_fst] at hrun
      rw [hrun]
      rfl
  | utf8 calls =>
    obtain ⟨-, hvar, -⟩ := hd
    rw [Framing.endCp_t8 hvar, Framing.endCp_t8 rfl, ByteTranscoder.wellFormed,
      ByteTranscoder.wellFormed, ByteTranscoder.wellFormed, hvar]
    exact ⟨(fits_transcoder .char8 T).of_finish, (fits_transcoder .char8 T).finish_finish _⟩
  | utf16 e calls =>
    obtain ⟨-, -, -, hvar, -⟩ := hd
    rw [Framing.endCp_t16 hvar, Framing.endCp_t16 rfl, ByteTranscoder.wellFormed,
      ByteTranscoder.wellFormed, ByteTranscoder.wellFormed, hvar]
    exact ⟨(fits_transcoder .char16 T).of_finish, (fits_transcoder .char16 T).finish_finish _⟩
  | utf32 e calls =>
    obtain ⟨-, -, -, hvar, -⟩ := hd
    rw [Framing.endCp_t32 hvar, Framing.endCp_t32 rfl, ByteTranscoder.wellFormed,
      ByteTranscoder.wellFormed, ByteTranscoder.wellFormed, hvar]
    exact ⟨(fits_transcoder .char32 T).of_finish, (fits_transcoder .char32 T).finish_finish _⟩

/-- The flag of the byte transcoder is a latch, whatever is called. -/
theorem latchesOn_tx (T : CharType) : LatchesOn (tx T) ByteTranscoder.Called where
  init := ⟨[], rfl⟩
  step {b} x h := by
    obtain ⟨calls, rfl⟩ := h
    refine ⟨calls ++ [.step x], ?_⟩
    rw [Transducer.feed_append, Transducer.feed_singleton]
    rfl
  finish {b} h := by
    obtain ⟨calls, rfl⟩ := h
    refine ⟨calls ++ [.finish], ?_⟩
    rw [Transducer.feed_append, Transducer.feed_singleton]
    rfl
  finish_init := (converts_transcoder .char8 T).init.2
  of_step h hwf := wellFormed_of_call h hwf
  of_finish h hwf := (wellFormed_endCp h).1 hwf
  finish_finish h := (wellFormed_endCp h).2

theorem serves_tx (T : CharType) :
    Serves (tx T) (maxOutputBytesOfBytes T) ByteTranscoder.Called where
  toLatchesOn := latchesOn_tx T
  finish_init_snd := by simp [tx, ByteTranscoder.endCp, ByteTranscoder.run8Start]
  length_finish_finish_le _ := length_endCp_endCp_le _

/-- A view of the bytes as units of `T` can be read to its end: they end in a code unit, and there
is room for what is written at each of them. -/
def CanBeRead (T : CharType) (bytes : List UInt8) : Prop :=
  (Framing.ofBytes bytes).EndsInUnit ∧
    ∀ ys x zs, bytes = ys ++ x :: zs → (Framing.ofBytes ys).HasRoom T x zs.isEmpty

theorem fillable_tx_iff (T : CharType) (bytes : List UInt8) :
    Fillable (tx T) (maxOutputBytesOfBytes T) (tx T).init bytes ↔ CanBeRead T bytes := by
  rw [fillable_iff, Framing.productive_tx_iff, forall_mem_pulls_tx_iff, CanBeRead]

/-- **A pipeline over bytes** can be read to its end exactly when the stream ends in a code unit and
there is room in the array of the first view for what is written at each byte. Reading it then
yields what a fresh byte transcoder to the last encoding writes, and leaves the flag of the first
view as that of this transcoder and all others set. -/
theorem pipeline_run_bytes (p : Pipeline T U) (bytes : List UInt8) :
    (CanBeRead T bytes → ∃ N, ∀ fuel, N ≤ fuel → ∃ w,
        (p.range (tx T) (maxOutputBytesOfBytes T) fuel bytes).collectAll .outOfFuel fuel p.fresh =
            .ok (((tx U).run bytes).2, w) ∧
          p.flags w = List.replicate p.length true ++ [(tx U).wellFormed ((tx U).run bytes).1]) ∧
      (¬ CanBeRead T bytes → ∀ fuel r,
        (p.range (tx T) (maxOutputBytesOfBytes T) fuel bytes).collectAll .outOfFuel fuel p.fresh ≠
          .ok r) := by
  constructor
  · intro hread
    obtain ⟨hout, hwf, -⟩ := Framing.tx_run T bytes
    obtain ⟨hout', hwf', -⟩ := Framing.tx_run U bytes
    -- both byte transcoders run over the text of one framing
    have htext := (converts_transcoder (Framing.ofBytes bytes).text.1 T).run
      (Framing.ofBytes bytes).text.2
    have htext' := (converts_transcoder (Framing.ofBytes bytes).text.1 U).run
      (Framing.ofBytes bytes).text.2
    obtain ⟨N, hN⟩ := p.exists_delivers (serves_tx T) (hout.trans htext.1)
      ((fillable_tx_iff T bytes).mpr hread)
    refine ⟨max N ((tx U).run bytes).2.length, fun fuel hfuel => ?_⟩
    obtain ⟨w, hdelivers, hflags⟩ := hN fuel ((le_max_left _ _).trans hfuel)
    have hunits : U.code.encode ((Framing.ofBytes bytes).text.1.scalars
        (Framing.ofBytes bytes).text.2) = ((tx U).run bytes).2 := (hout'.trans htext'.1).symm
    rw [hunits] at hdelivers
    refine ⟨w, hdelivers.collectAll ((le_max_right _ _).trans hfuel), ?_⟩
    rw [hflags, hwf, hwf', htext.2, htext'.2]
  · intro hread fuel r hr
    have hdelivers : (p.range (tx T) (maxOutputBytesOfBytes T) fuel bytes).Delivers p.fresh
        r.1 r.2 := CursorRange.delivers_of_collectAll hr
    exact hread ((fillable_tx_iff T bytes).mp (p.fillable_of_delivers hdelivers))

/-- A null byte that has been held back and the letter after it do not fit into one unit. -/
example : (adaptor (tx .char32) (maxOutputBytesOfBytes .char32) 2
    (CursorRange.ofList .pastEnd [0x00, 0x41])).collectAll .outOfFuel 2 ((), true) =
      .error .overflow := by
  rfl

end Icubaby
