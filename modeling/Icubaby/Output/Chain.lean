import Icubaby.ForMathlib.Checked
import Icubaby.ForMathlib.Sink
import Icubaby.Byte.Conversion
import Icubaby.Output.Iterator

/-!
# Chains of output iterator adaptors

The destination of an `icubaby::iterator` can be any output iterator, another adaptor included. A
`Chain` is a destination that consists of adaptors for the code-unit transcoders, each for an object
of its own, and, at its end, of an inserter.

A transcoder writes with `*(dest++) = u`, which assigns to a copy. That is a loss if the copy moves
(`agrees_iff`), but inserters are stationary, and so is an adaptor over a stationary sink. What is
written through a chain is therefore converted as by a single transcoder, whatever idioms are used.

`end_cp` is overloaded for adaptors of its own type, and asserts that they are adaptors of its own
object. It calls itself with the destination of the adaptor. If that is an adaptor of the same type
the overload is chosen once more, and the assertion fails, as the object is another one. A byte
transcoder passes the destination on to `end_cp` of the transcoder that it has selected, so it can
meet the same assertion. `chain_run` says for which chains and inputs none fails, and that they are
converted then. Output chains agree in this with pipelines of views; unlike these they do not need
the streams of bytes to end in a code unit, as nobody asks for output before there is some.
-/

namespace Icubaby

open CheckedTransducer (require require_bind)

namespace Output

variable {σ α β ω π μ : Type}

/-! ### The adaptor over any sink -/

/-- `icubaby::iterator` over the output iterators `S`. -/
def adaptor (t : Transcoder σ α β) (S : Sink ω π β) : Sink (Shared σ ω) (Iterator π) α where
  assign w it x :=
    let r := t.step w.transcoder x
    let d := S.write (w.memory, it.deref.out) r.2
    (⟨r.1, d.1⟩, ⟨d.2⟩)
  preIncr := Iterator.preIncr
  postIncr := Iterator.postIncr

/-- `it = t.end_cp (it)`, for a destination that is not an adaptor of the same type. -/
def adaptorEndCp (t : Transcoder σ α β) (S : Sink ω π β) (d : Shared σ ω × Iterator π) :
    Shared σ ω × Iterator π :=
  let r := t.finish d.1.transcoder
  let d' := S.write (d.1.memory, d.2.base) r.2
  (⟨r.1, d'.1⟩, ⟨d'.2⟩)

section Pointer

variable (t : Transcoder σ α β) (o : OutputIterator μ π β)

/-- An output iterator whose position is part of its value. -/
def OutputIterator.toSink : Sink μ π β where
  assign m p u := (o.assign m p u, p)
  preIncr := o.next
  postIncr p := (p, o.next p)

/-- **Pointers are an instance**: the idioms of the adaptor over a pointer are those of the adaptor
over this sink. -/
theorem put_adaptor_toSink (d : Shared σ μ × Iterator π) (x : α) :
    (adaptor t o.toSink).put d .pre x = Iterator.putPre t o d x ∧
      (adaptor t o.toSink).put d .post x = Iterator.putPost t o d x := by
  constructor <;> rfl

end Pointer

section Stationary

variable {t : Transcoder σ α β} {S : Sink ω π β}

theorem stationary_adaptor (h : S.Stationary) : (adaptor t S).Stationary where
  assign_snd _ _ _ := congrArg Iterator.mk (h.write_snd _ _)
  preIncr_eq _ := rfl
  postIncr_eq _ := rfl

/-- Writing through the adaptor feeds the transcoder and writes what comes out of it. -/
theorem write_adaptor (h : S.Stationary) (w : Shared σ ω) (p : π) (xs : List α) :
    (adaptor t S).write (w, ⟨p⟩) xs =
      (⟨(t.feed w.transcoder xs).1, (S.write (w.memory, p) (t.feed w.transcoder xs).2).1⟩,
        ⟨p⟩) := by
  induction xs generalizing w with
  | nil => rfl
  | cons x xs ih =>
    have hassign : ((adaptor t S).assign w ⟨p⟩ x).1 = ⟨(t.step w.transcoder x).1,
        (S.write (w.memory, p) (t.step w.transcoder x).2).1⟩ := rfl
    have hrest := ih ((adaptor t S).assign w ⟨p⟩ x).1
    rw [hassign] at hrest
    rw [Sink.write, List.foldl_cons, (stationary_adaptor h).put_eq, hassign]
    refine hrest.trans ?_
    have hp : S.write (w.memory, p) (t.step w.transcoder x).2 =
        ((S.write (w.memory, p) (t.step w.transcoder x).2).1, p) :=
      Prod.ext rfl (h.write_snd _ _)
    rw [Transducer.feed_cons, S.write_append, ← hp]

/-- **Writing everything and `end_cp`** is a run. -/
theorem endCp_write_adaptor (h : S.Stationary) (w : Shared σ ω) (p : π) (xs : List α) :
    adaptorEndCp t S ((adaptor t S).write (w, ⟨p⟩) xs) =
      (⟨(t.runFrom w.transcoder xs).1, (S.write (w.memory, p) (t.runFrom w.transcoder xs).2).1⟩,
        ⟨p⟩) := by
  have hp : S.write (w.memory, p) (t.feed w.transcoder xs).2 =
      ((S.write (w.memory, p) (t.feed w.transcoder xs).2).1, p) :=
    Prod.ext rfl (h.write_snd _ _)
  rw [write_adaptor h, adaptorEndCp, Iterator.base, ← hp, ← S.write_append]
  exact Prod.ext rfl (congrArg Iterator.mk (h.write_snd _ _))

/-- `t.end_cp (std::copy (xs.begin (), xs.end (), icubaby::iterator{&t, std::back_inserter (out)}))`
for an empty container: the transcoder and the container afterwards. -/
def copyThrough (t : Transcoder σ α β) (s : σ) (xs : List α) : σ × List β :=
  let S := Sink.inserter β
  let d := adaptorEndCp t S ((adaptor t S).putAll (⟨s, []⟩, ⟨()⟩) (xs.map fun x => (.pre, x)))
  (d.1.transcoder, d.1.memory)

theorem copyThrough_eq (t : Transcoder σ α β) (s : σ) (xs : List α) :
    copyThrough t s xs = t.runFrom s xs := by
  have hxs : (xs.map fun x => (Sink.Idiom.pre, x)).map Prod.snd = xs := by
    rw [List.map_map]
    exact List.map_id xs
  rw [copyThrough, (stationary_adaptor Sink.stationary_inserter).putAll_eq, hxs,
    endCp_write_adaptor Sink.stationary_inserter, Sink.write_inserter]
  rfl

end Stationary

/-! ### Chains -/

/-- A destination for code units of one encoding that inserts code units of another one. -/
inductive Chain : CharType → CharType → Type
  /-- `std::back_inserter (out)` -/
  | inserter (U : CharType) : Chain U U
  /-- `icubaby::iterator{&t, dest}` -/
  | adapt (T : CharType) {M U : CharType} (dest : Chain M U) : Chain T U

/-- What goes wrong when a chain is flushed. -/
inductive Fault
  /-- `assert (coder == this)` -/
  | coder
  deriving DecidableEq, Repr

namespace Chain

variable {F T U : CharType}

/-- The transcoders and the container. -/
def World : {T U : CharType} → Chain T U → Type
  | _, _, inserter U => List U.Unit
  | _, _, @adapt T M _ dest => Shared (TranscoderState T M) dest.World

/-- The iterators. -/
def Position : {T U : CharType} → Chain T U → Type
  | _, _, inserter _ => Unit
  | _, _, adapt _ dest => Iterator dest.Position

/-- A chain as an output iterator. -/
def sink : {T U : CharType} → (c : Chain T U) → Sink c.World c.Position T.Unit
  | _, _, inserter U => Sink.inserter U.Unit
  | _, _, @adapt T M _ dest => adaptor (transcoder T M) dest.sink

/-- Fresh transcoders and an empty container. -/
def fresh : {T U : CharType} → (c : Chain T U) → c.World × c.Position
  | _, _, inserter _ => ([], ())
  | _, _, @adapt T M _ dest => (⟨(transcoder T M).init, dest.fresh.1⟩, ⟨dest.fresh.2⟩)

/-- The two encodings of the transcoder that an adaptor is for, which say what its type is. -/
def transcoderType : {T U : CharType} → Chain T U → Option (CharType × CharType)
  | _, _, inserter _ => none
  | _, _, @adapt T M _ _ => some (T, M)

/-- `it = t.end_cp (it)` for an adaptor over the chain, where `flushed` is the input encoding of the
code-unit transcoder whose `end_cp` is called with the chain, if there is one: `t` itself or, for a
byte transcoder, the one that it has selected. -/
def adaptorEndCp (t : Transcoder σ α T.Unit) (flushed : σ → Option CharType) (c : Chain T U)
    (d : Shared σ c.World × Iterator c.Position) :
    Except Fault (Shared σ c.World × Iterator c.Position) := do
  -- an adaptor of the same type is for another object; the second half of a triangulator is flushed
  -- as well, but it reads UTF-32, and no adaptor that takes its units does
  require (∀ F ∈ flushed d.1.transcoder, c.transcoderType ≠ some (F, T)) .coder
  return Output.adaptorEndCp t c.sink d

/-- `end_cp` of each of the transcoders, with the iterator that the one before has returned. -/
def endCp : {T U : CharType} → (c : Chain T U) → c.World × c.Position →
    Except Fault (c.World × c.Position)
  | _, _, inserter _, d => .ok d
  | _, _, @adapt T M _ dest, d => do
    let d' ← dest.adaptorEndCp (transcoder T M) (fun _ => some T) d
    let r ← dest.endCp (d'.1.memory, d'.2.base)
    return (⟨d'.1.transcoder, r.1⟩, ⟨r.2⟩)

/-- What has been inserted. -/
def container : {T U : CharType} → (c : Chain T U) → c.World → List U.Unit
  | _, _, inserter _, w => w
  | _, _, adapt _ dest, w => dest.container w.memory

/-- The flags of the transcoders. -/
def flags : {T U : CharType} → (c : Chain T U) → c.World → List Bool
  | _, _, inserter _, _ => []
  | _, _, @adapt T M _ dest, w =>
    (transcoder T M).wellFormed w.transcoder :: dest.flags w.memory

/-- No adaptor writes to another one of the same type. -/
def NeighboursDiffer : {T U : CharType} → Chain T U → Prop
  | _, _, inserter _ => True
  | _, _, @adapt T M _ dest => dest.transcoderType ≠ some (T, M) ∧ dest.NeighboursDiffer

/-- The chain can be flushed after a code-unit transcoder from the encoding given, or after a
transcoder that does not pass it on. -/
def Flushable (c : Chain T U) (F : Option CharType) : Prop :=
  (∀ F' ∈ F, c.transcoderType ≠ some (F', T)) ∧ c.NeighboursDiffer

theorem stationary_sink (c : Chain T U) : c.sink.Stationary := by
  induction c with
  | inserter U => exact Sink.stationary_inserter
  | adapt T dest ih => exact stationary_adaptor ih

/-- What is left when units have been written to an adaptor over a chain and `end_cp` has been
called for all transcoders. -/
def written (t : Transcoder σ α T.Unit) (flushed : σ → Option CharType) (c : Chain T U)
    (xs : List (Sink.Idiom × α)) : Except Fault (Shared σ c.World) := do
  let it := (adaptor t c.sink).putAll (⟨t.init, c.fresh.1⟩, ⟨c.fresh.2⟩) xs
  let d ← c.adaptorEndCp t flushed it
  let r ← c.endCp (d.1.memory, d.2.base)
  return ⟨d.1.transcoder, r.1⟩

section Flush

variable (t : Transcoder σ α T.Unit) (flushed : σ → Option CharType) {c : Chain T U}
  {d : Shared σ c.World × Iterator c.Position}

theorem adaptorEndCp_eq_ok
    (h : ∀ F ∈ flushed d.1.transcoder, c.transcoderType ≠ some (F, T)) :
    c.adaptorEndCp t flushed d = .ok (Output.adaptorEndCp t c.sink d) := by
  rw [adaptorEndCp, require_bind h]
  rfl

/-- If the chain is an adaptor of the type that is flushed, the assertion fails. -/
theorem adaptorEndCp_eq_error
    (h : ¬ ∀ F ∈ flushed d.1.transcoder, c.transcoderType ≠ some (F, T)) :
    c.adaptorEndCp t flushed d = .error .coder := by
  rw [adaptorEndCp, require, if_neg h]
  rfl

variable (c) in
/-- The state in which the transcoder is flushed. -/
theorem transcoder_write (xs : List α) :
    ((adaptor t c.sink).write (⟨t.init, c.fresh.1⟩, ⟨c.fresh.2⟩) xs).1.transcoder =
      (t.feed t.init xs).1 := by
  rw [write_adaptor c.stationary_sink]

/-- **The first flush** leaves the chain with what a run has written. -/
theorem adaptorEndCp_bind {γ : Type} (f : σ → c.World × c.Position → Except Fault γ) (xs : List α)
    (h : ∀ F ∈ flushed (t.feed t.init xs).1, c.transcoderType ≠ some (F, T)) :
    (do
      let d ← c.adaptorEndCp t flushed
        ((adaptor t c.sink).write (⟨t.init, c.fresh.1⟩, ⟨c.fresh.2⟩) xs)
      let r ← c.endCp (d.1.memory, d.2.base)
      f d.1.transcoder r) =
      c.endCp (c.sink.write c.fresh (t.run xs).2) >>= f (t.run xs).1 := by
  have hfresh : c.sink.write c.fresh (t.run xs).2 =
      ((c.sink.write c.fresh (t.run xs).2).1, c.fresh.2) :=
    Prod.ext rfl (c.stationary_sink.write_snd _ _)
  rw [← transcoder_write t c xs] at h
  rw [adaptorEndCp_eq_ok t flushed h, endCp_write_adaptor c.stationary_sink, hfresh]
  rfl

end Flush

/-- **A chain re-encodes what is well formed**, if its neighbours differ. -/
theorem exists_endCp_write {c : Chain T U} (hc : c.NeighboursDiffer) (cs : List Char) :
    ∃ d, c.endCp (c.sink.write c.fresh (T.code.encode cs)) = .ok d ∧
      c.container d.1 = U.code.encode cs ∧ ∀ b ∈ c.flags d.1, b = true := by
  induction c with
  | inserter U =>
    refine ⟨_, rfl, ?_, fun b hb => absurd hb List.not_mem_nil⟩
    exact congrArg Prod.fst (Sink.write_inserter ([], ()) _)
  | @adapt T M U dest ih =>
    obtain ⟨hdiffers, hdest⟩ := hc
    obtain ⟨d, hd, hcontainer, hflags⟩ := ih hdest
    obtain ⟨hrun, hwf⟩ := (converts_transcoder T M).run (T.code.encode cs)
    rw [CharType.decodeTo, CharType.scalars_encode] at hrun
    rw [(T.wellFormed_iff_read _).mp ⟨cs, rfl⟩] at hwf
    have hfirst : ∀ F ∈ some T, dest.transcoderType ≠ some (F, M) := by simpa using hdiffers
    have hflush := adaptorEndCp_bind (transcoder T M) (fun _ => some T)
      (fun s r => .ok ((⟨s, r.1⟩, ⟨r.2⟩) : (adapt T dest).World × (adapt T dest).Position))
      (T.code.encode cs) hfirst
    rw [hrun, hd] at hflush
    refine ⟨_, hflush, hcontainer, fun b hb => ?_⟩
    rcases List.mem_cons.mp hb with rfl | hb
    · exact hwf
    · exact hflags b hb

/-- **Two neighbours of one type** cannot be flushed, whatever has been written. -/
theorem endCp_of_not_neighboursDiffer {c : Chain T U} (hc : ¬ c.NeighboursDiffer)
    (d : c.World × c.Position) : c.endCp d = .error .coder := by
  induction c with
  | inserter U => exact absurd trivial hc
  | @adapt T M U dest ih =>
    revert d
    intro (d : Shared (TranscoderState T M) dest.World × Iterator dest.Position)
    change (dest.adaptorEndCp (transcoder T M) (fun _ => some T) d >>= _) = _
    by_cases hfirst : ∀ F ∈ some T, dest.transcoderType ≠ some (F, M)
    · have hdest : ¬ dest.NeighboursDiffer := fun h => hc ⟨hfirst T rfl, h⟩
      rw [adaptorEndCp_eq_ok (transcoder T M) _ hfirst]
      change (dest.endCp _ >>= _) = _
      rw [ih hdest]
      rfl
    · rw [adaptorEndCp_eq_error (transcoder T M) _ hfirst]
      rfl

/-- **Writing through a chain**, if the first transcoder writes code points. -/
theorem exists_written {t : Transcoder σ α T.Unit} (flushed : σ → Option CharType) {c : Chain T U}
    {xs : List (Sink.Idiom × α)} {cs : List Char}
    (hout : (t.run (xs.map Prod.snd)).2 = T.code.encode cs)
    (hc : c.Flushable (flushed (t.feed t.init (xs.map Prod.snd)).1)) :
    ∃ w, written t flushed c xs = .ok w ∧ c.container w.memory = U.code.encode cs ∧
      w.transcoder = (t.run (xs.map Prod.snd)).1 ∧ ∀ b ∈ c.flags w.memory, b = true := by
  obtain ⟨d, hd, hcontainer, hflags⟩ := exists_endCp_write hc.2 cs
  refine ⟨⟨_, d.1⟩, ?_, hcontainer, rfl, hflags⟩
  rw [written, (stationary_adaptor c.stationary_sink).putAll_eq]
  have hflush := adaptorEndCp_bind t flushed (fun s r => .ok (⟨s, r.1⟩ : Shared σ c.World)) _ hc.1
  rw [hout, hd] at hflush
  exact hflush

/-- **A chain that cannot be flushed** fails, whatever is written. -/
theorem written_of_not_flushable {t : Transcoder σ α T.Unit} (flushed : σ → Option CharType)
    {c : Chain T U} {xs : List (Sink.Idiom × α)}
    (hc : ¬ c.Flushable (flushed (t.feed t.init (xs.map Prod.snd)).1)) :
    written t flushed c xs = .error .coder := by
  rw [written, (stationary_adaptor c.stationary_sink).putAll_eq]
  by_cases hfirst : ∀ F ∈ flushed (t.feed t.init (xs.map Prod.snd)).1,
      c.transcoderType ≠ some (F, T)
  · have hflush := adaptorEndCp_bind t flushed (fun s r => .ok (⟨s, r.1⟩ : Shared σ c.World)) _
      hfirst
    rw [endCp_of_not_neighboursDiffer fun hdiffer => hc ⟨hfirst, hdiffer⟩] at hflush
    exact hflush
  · rw [← transcoder_write t c] at hfirst
    rw [adaptorEndCp_eq_error t flushed hfirst]
    rfl

end Chain

end Output

open Output

/-- The input encoding of the code-unit transcoder in the variant. -/
def ByteTranscoder.source {T : CharType} (b : ByteTranscoder T) : Option CharType :=
  match b.variant with
  | .monostate => none
  | .t8 _ => some .char8
  | .t16 _ => some .char16
  | .t32 _ => some .char32

/-- The encoding that has been detected. -/
def Framing.source : Framing → Option CharType
  | detecting _ => none
  | utf8 _ => some .char8
  | utf16 _ _ => some .char16
  | utf32 _ _ => some .char32

theorem Framing.HoldsBack.source_eq {T : CharType} {seen : List UInt8} {b : ByteTranscoder T}
    (h : HoldsBack seen b) : b.source = none := by
  cases h <;> rfl

theorem Framing.source_feed_tx (T : CharType) (bytes : List UInt8) :
    ((tx T).feed (tx T).init bytes).1.source = (ofBytes bytes).source := by
  have h := holds_ofBytes T bytes
  cases hf : ofBytes bytes with
  | detecting seen =>
    rw [hf] at h
    exact h.1.source_eq
  | utf8 p =>
    rw [hf] at h
    rw [ByteTranscoder.source, h.2.1]
    rfl
  | utf16 e p =>
    rw [hf] at h
    rw [ByteTranscoder.source, h.2.2.1]
    rfl
  | utf32 e p =>
    rw [hf] at h
    rw [ByteTranscoder.source, h.2.2.1]
    rfl

/-- **Output chains convert like a single transcoder.** Units are written, with whatever idioms,
through an adaptor for a transcoder from `F` or for a byte transcoder and any number of adaptors
after it. If no transcoder is flushed into an adaptor of its own type, the container gets what a
fresh transcoder to the last encoding writes; the flag of the first transcoder is that of this one,
and all others stay set. Otherwise an assertion fails in `end_cp`. -/
theorem chain_run {T U : CharType} (c : Chain T U) :
    (∀ (F : CharType) (us : List (Sink.Idiom × F.Unit)),
      let written := Chain.written (transcoder F T) (fun _ => some F) c us
      let r := (transcoder F U).run (us.map Prod.snd)
      (c.Flushable (some F) → ∃ w, written = .ok w ∧ c.container w.memory = r.2 ∧
        (transcoder F T).wellFormed w.transcoder = (transcoder F U).wellFormed r.1 ∧
        ∀ b ∈ c.flags w.memory, b = true) ∧
      (¬ c.Flushable (some F) → written = .error .coder)) ∧
    ∀ bytes : List (Sink.Idiom × UInt8),
      let written := Chain.written (tx T) ByteTranscoder.source c bytes
      let source := (Framing.ofBytes (bytes.map Prod.snd)).source
      let r := (tx U).run (bytes.map Prod.snd)
      (c.Flushable source → ∃ w, written = .ok w ∧ c.container w.memory = r.2 ∧
        (tx T).wellFormed w.transcoder = (tx U).wellFormed r.1 ∧
        w.transcoder.selectedEncoding = r.1.selectedEncoding ∧
        ∀ b ∈ c.flags w.memory, b = true) ∧
      (¬ c.Flushable source → written = .error .coder) := by
  constructor
  · intro F us
    obtain ⟨hout, hwf⟩ := transcoder_run F T (us.map Prod.snd)
    obtain ⟨hout', hwf'⟩ := transcoder_run F U (us.map Prod.snd)
    refine ⟨fun hc => ?_, fun hc => Chain.written_of_not_flushable _ hc⟩
    obtain ⟨w, hw, hcontainer, htrans, hflags⟩ := Chain.exists_written (fun _ => some F) hout hc
    refine ⟨w, hw, ?_, ?_, hflags⟩
    · exact hcontainer.trans hout'.symm
    · rw [htrans, hwf, hwf']
  · intro bytes
    -- both byte transcoders run over the text of one framing
    obtain ⟨hout, hwf, henc⟩ := Framing.tx_run T (bytes.map Prod.snd)
    obtain ⟨hout', hwf', henc'⟩ := Framing.tx_run U (bytes.map Prod.snd)
    have hrun := transcoder_run (Framing.ofBytes (bytes.map Prod.snd)).text.1 T
      (Framing.ofBytes (bytes.map Prod.snd)).text.2
    have hrun' := transcoder_run (Framing.ofBytes (bytes.map Prod.snd)).text.1 U
      (Framing.ofBytes (bytes.map Prod.snd)).text.2
    dsimp only
    rw [← Framing.source_feed_tx T]
    refine ⟨fun hc => ?_, fun hc => Chain.written_of_not_flushable _ hc⟩
    obtain ⟨w, hw, hcontainer, htrans, hflags⟩ :=
      Chain.exists_written ByteTranscoder.source (hout.trans hrun.1) hc
    refine ⟨w, hw, ?_, ?_, ?_, hflags⟩
    · exact hcontainer.trans (hout'.trans hrun'.1).symm
    · rw [htrans, hwf, hwf', hrun.2, hrun'.2]
    · rw [htrans, henc, henc']

/-- The transcoder that a stream of UTF-8 has selected meets an adaptor of its own type. -/
example : Chain.written (tx .char8) ByteTranscoder.source
    (.adapt .char8 (M := .char8) (.inserter .char8)) [(.post, 0x41)] = .error .coder := by
  rfl

end Icubaby
