import Icubaby.Byte.Framing
import Icubaby.Byte.Transcoder
import Icubaby.Transcoder.Online

/-!
# The byte transcoder follows the framing

`Framing.Holds` relates the framing of the bytes consumed to the members of the transcoder and to
what it has written, and is preserved by every call (`Holds.next`). So a whole run is the run of
one code-unit transcoder over `Framing.text` (`tx_run`), whatever the target encoding, and what is
written by then is what the framing has delivered (`Holds.wrote`).
-/

namespace Icubaby

namespace Framing

/-! ### One call -/

variable {T : CharType}

open ByteTranscoder

private theorem vector4 (v : Vector UInt8 4) : ∃ y₀ y₁ y₂ y₃, v = #v[y₀, y₁, y₂, y₃] := by
  refine ⟨v[0], v[1], v[2], v[3], ?_⟩
  ext i hi
  interval_cases i <;> rfl

/-- The transcoder that holds back the begin of a mark. -/
inductive HoldsBack : List UInt8 → ByteTranscoder T → Prop
  | start : HoldsBack [] ⟨.start, #v[0, 0, 0, 0], .monostate⟩
  | utf8BomByte1 : HoldsBack [0xEF] ⟨.utf8BomByte1, #v[0xEF, 0, 0, 0], .monostate⟩
  | utf8BomByte2 : HoldsBack [0xEF, 0xBB] ⟨.utf8BomByte2, #v[0xEF, 0xBB, 0, 0], .monostate⟩
  | utf16BeBomByte1 : HoldsBack [0xFE] ⟨.utf16BeBomByte1, #v[0xFE, 0, 0, 0], .monostate⟩
  | utf32Or16BeBomByte1 :
    HoldsBack [0x00] ⟨.utf32Or16BeBomByte1, #v[0x00, 0, 0, 0], .monostate⟩
  | utf32BeBomByte2 :
    HoldsBack [0x00, 0x00] ⟨.utf32BeBomByte2, #v[0x00, 0x00, 0, 0], .monostate⟩
  | utf32BeBomByte3 :
    HoldsBack [0x00, 0x00, 0xFE] ⟨.utf32BeBomByte3, #v[0x00, 0x00, 0xFE, 0], .monostate⟩
  | utf32Or16LeBomByte1 :
    HoldsBack [0xFF] ⟨.utf32Or16LeBomByte1, #v[0xFF, 0, 0, 0], .monostate⟩
  | utf32Or16LeBomByte2 :
    HoldsBack [0xFF, 0xFE] ⟨.utf32Or16LeBomByte2, #v[0xFF, 0xFE, 0, 0], .monostate⟩
  | utf32LeBomByte3 :
    HoldsBack [0xFF, 0xFE, 0x00] ⟨.utf32LeBomByte3, #v[0xFF, 0xFE, 0x00, 0], .monostate⟩

/-- The state of the machine when some bytes of a 16-bit unit have been gathered. -/
def run16State (e : Endian) (held : List UInt8) : States :=
  match e, held with
  | .big, [] => .run16beByte0
  | .big, _ => .run16beByte1
  | .little, [] => .run16leByte0
  | .little, _ => .run16leByte1

/-- The state of the machine when some bytes of a 32-bit unit have been gathered. -/
def run32State (e : Endian) (held : List UInt8) : States :=
  match e, held with
  | .big, [] => .run32beByte0
  | .big, [_] => .run32beByte1
  | .big, [_, _] => .run32beByte2
  | .big, _ => .run32beByte3
  | .little, [] => .run32leByte0
  | .little, [_] => .run32leByte1
  | .little, [_, _] => .run32leByte2
  | .little, _ => .run32leByte3

/-- What a framing says about the transcoder and about what it has written. -/
def Holds : Framing → ByteTranscoder T → List T.Unit → Prop
  | detecting seen, b, out => HoldsBack seen b ∧ out = []
  | utf8 p, b, out =>
    let r := (transcoder .char8 T).feed (transcoder .char8 T).init p
    b.state = .run8 ∧ b.variant = .t8 r.1 ∧ out = r.2
  | utf16 e p, b, out =>
    let a := e.assembler16.feed [] p
    let r := (transcoder .char16 T).feed (transcoder .char16 T).init a.2
    b.state = run16State e a.1 ∧ a.1 <+: b.buffer.toList ∧ b.variant = .t16 r.1 ∧ out = r.2
  | utf32 e p, b, out =>
    let a := e.assembler32.feed [] p
    let r := (transcoder .char32 T).feed (transcoder .char32 T).init a.2
    b.state = run32State e a.1 ∧ a.1 <+: b.buffer.toList ∧ b.variant = .t32 r.1 ∧ out = r.2

/-- A byte that continues no mark makes the machine replay what it has held back. -/
theorem HoldsBack.replay {seen : List UInt8} {b : ByteTranscoder T} (h : HoldsBack seen b)
    (x : UInt8) :
    (utf8 (seen ++ [x])).Holds ((b.store x).run8Start true).1 ((b.store x).run8Start true).2 := by
  have htake : (b.store x).buffer.toList.take ((b.store x).state.byteIndex + 1) = seen ++ [x] := by
    cases h <;> simp [ByteTranscoder.store]
  simp only [ByteTranscoder.run8Start, if_true, htake]
  exact ⟨rfl, rfl, rfl⟩

private theorem holds_of_eq {seen : List UInt8} {f : Framing} {b : ByteTranscoder T} {x : UInt8}
    {r : ByteTranscoder T × List T.Unit} (hseen : ofSeen seen = f) (hcall : b.call x = r)
    (h : f.Holds r.1 r.2) : (ofSeen seen).Holds (b.call x).1 (b.call x).2 := by
  rw [hseen, hcall]
  exact h

private theorem holds_detecting {seen : List UInt8} {b b' : ByteTranscoder T} {x : UInt8}
    (h : HoldsBack seen b') (hseen : ofSeen seen = detecting seen) (hcall : b.call x = (b', [])) :
    (ofSeen seen).Holds (b.call x).1 (b.call x).2 :=
  holds_of_eq hseen hcall ⟨h, rfl⟩

/-- **One more byte** while a mark is being identified: it continues the mark or completes it, or
what has been held back is replayed. -/
theorem HoldsBack.next {seen : List UInt8} {b : ByteTranscoder T} (h : HoldsBack seen b)
    (x : UInt8) : (ofSeen (seen ++ [x])).Holds (b.call x).1 (b.call x).2 := by
  have hreplay := h.replay x
  cases h with
  | start =>
    by_cases h₁ : x = 0xEF
    · subst h₁
      exact holds_detecting .utf8BomByte1 (by decide) (by simp [call, startState])
    by_cases h₂ : x = 0xFE
    · subst h₂
      exact holds_detecting .utf16BeBomByte1 (by decide) (by simp [call, startState])
    by_cases h₃ : x = 0xFF
    · subst h₃
      exact holds_detecting .utf32Or16LeBomByte1 (by decide) (by simp [call, startState])
    by_cases h₄ : x = 0x00
    · subst h₄
      exact holds_detecting .utf32Or16BeBomByte1 (by decide) (by simp [call, startState])
    · exact holds_of_eq (by simp [ofSeen, utf8Mark, partialMarks, marks_eq, h₁, h₂, h₃, h₄])
        (by simp [call, startState, store, h₁, h₂, h₃, h₄]) hreplay
  | utf8BomByte1 =>
    by_cases hx : x = 0xBB
    · subst hx
      exact holds_detecting .utf8BomByte2 (by decide) (by simp [call, bomByte, store])
    · exact holds_of_eq (by simp [ofSeen, utf8Mark, partialMarks, marks_eq, hx])
        (by simp [call, bomByte, store, hx]) hreplay
  | utf8BomByte2 =>
    by_cases hx : x = 0xBF
    · subst hx
      exact holds_of_eq (f := utf8 [])
        (r := ⟨⟨.run8, #v[0xEF, 0xBB, 0xBF, 0], .t8 (transcoder .char8 T).init⟩, []⟩)
        (by decide) (by simp [call, run8Start, store]) ⟨rfl, rfl, rfl⟩
    · exact holds_of_eq (by simp [ofSeen, utf8Mark, partialMarks, marks_eq, hx])
        (by simp [call, store, hx]) hreplay
  | utf16BeBomByte1 =>
    by_cases hx : x = 0xFF
    · subst hx
      exact holds_of_eq (f := utf16 .big [])
        (r := ⟨⟨.run16beByte0, #v[0xFE, 0xFF, 0, 0], .t16 (transcoder .char16 T).init⟩, []⟩)
        (by decide) (by simp [call, run16Start, store]) ⟨rfl, List.nil_prefix, rfl, rfl⟩
    · exact holds_of_eq (by simp [ofSeen, utf8Mark, partialMarks, marks_eq, hx])
        (by simp [call, store, hx]) hreplay
  | utf32Or16BeBomByte1 =>
    by_cases hx : x = 0x00
    · subst hx
      exact holds_detecting .utf32BeBomByte2 (by decide) (by simp [call, bomByte, store])
    · exact holds_of_eq (by simp [ofSeen, utf8Mark, partialMarks, marks_eq, hx])
        (by simp [call, bomByte, store, hx]) hreplay
  | utf32BeBomByte2 =>
    by_cases hx : x = 0xFE
    · subst hx
      exact holds_detecting .utf32BeBomByte3 (by decide) (by simp [call, bomByte, store])
    · exact holds_of_eq (by simp [ofSeen, utf8Mark, partialMarks, marks_eq, hx])
        (by simp [call, bomByte, store, hx]) hreplay
  | utf32BeBomByte3 =>
    by_cases hx : x = 0xFF
    · subst hx
      exact holds_of_eq (f := utf32 .big [])
        (r := ⟨⟨.run32beByte0, #v[0x00, 0x00, 0xFE, 0xFF], .t32 (transcoder .char32 T).init⟩, []⟩)
        (by decide) (by simp [call, store]) ⟨rfl, List.nil_prefix, rfl, rfl⟩
    · exact holds_of_eq (by simp [ofSeen, utf8Mark, partialMarks, marks_eq, hx])
        (by simp [call, store, hx]) hreplay
  | utf32Or16LeBomByte1 =>
    by_cases hx : x = 0xFE
    · subst hx
      exact holds_detecting .utf32Or16LeBomByte2 (by decide) (by simp [call, bomByte, store])
    · exact holds_of_eq (by simp [ofSeen, utf8Mark, partialMarks, marks_eq, hx])
        (by simp [call, bomByte, store, hx]) hreplay
  | utf32Or16LeBomByte2 =>
    by_cases hx : x = 0x00
    · subst hx
      exact holds_detecting .utf32LeBomByte3 (by decide) (by simp [call, bomByte, store])
    · -- the text of UTF-16 LE starts with this byte
      exact holds_of_eq (f := utf16 .little [x])
        (r := ⟨⟨.run16leByte1, #v[x, 0xFE, 0, 0], .t16 (transcoder .char16 T).init⟩, []⟩)
        (by simp [ofSeen, utf8Mark, partialMarks, marks_eq, hx])
        (by simp [call, run16Start, hx]) ⟨rfl, ⟨[0xFE, 0, 0], rfl⟩, rfl, rfl⟩
  | utf32LeBomByte3 =>
    by_cases hx : x = 0x00
    · subst hx
      exact holds_of_eq (f := utf32 .little [])
        (r := ⟨⟨.run32leByte0, #v[0xFF, 0xFE, 0x00, 0x00], .t32 (transcoder .char32 T).init⟩, []⟩)
        (by decide) (by simp [call, store]) ⟨rfl, List.nil_prefix, rfl, rfl⟩
    · exact holds_of_eq (by simp [ofSeen, utf8Mark, partialMarks, marks_eq, hx])
        (by simp [call, store, hx]) hreplay

/-- One more byte of a run of UTF-16: it is kept, or it completes a code unit. -/
theorem call_run16 {e : Endian} {held : List UInt8} {b : ByteTranscoder T}
    {t : TranscoderState .char16 T} (hlen : held.length < 2) (hstate : b.state = run16State e held)
    (hheld : held <+: b.buffer.toList) (hvar : b.variant = .t16 t) (x : UInt8) :
    let a := e.assembler16.step held x
    let r := (transcoder .char16 T).feed t a.2
    (b.call x).1.state = run16State e a.1 ∧ a.1 <+: (b.call x).1.buffer.toList ∧
      (b.call x).1.variant = .t16 r.1 ∧ (b.call x).2 = r.2 := by
  obtain ⟨state, buffer, variant⟩ := b
  obtain ⟨y₀, y₁, y₂, y₃, rfl⟩ := vector4 buffer
  obtain rfl : variant = .t16 t := hvar
  obtain rfl : state = run16State e held := hstate
  match held with
  -- the position in the buffer is the number of bytes gathered
  | [] =>
    cases e <;> simp [call, store, run16State, Endian.assembler16, Transducer.assembler]
  | [y] =>
    obtain rfl : y = y₀ := by simpa using hheld
    cases e <;> simp [call, run16, run16State, Endian.assembler16, Transducer.assembler,
      char16FromBigEndianBuffer, char16FromLittleEndianBuffer, Endian.join16]

/-- One more byte of a run of UTF-32: it is kept, or it completes a code unit. -/
theorem call_run32 {e : Endian} {held : List UInt8} {b : ByteTranscoder T}
    {t : TranscoderState .char32 T} (hlen : held.length < 4) (hstate : b.state = run32State e held)
    (hheld : held <+: b.buffer.toList) (hvar : b.variant = .t32 t) (x : UInt8) :
    let a := e.assembler32.step held x
    let r := (transcoder .char32 T).feed t a.2
    (b.call x).1.state = run32State e a.1 ∧ a.1 <+: (b.call x).1.buffer.toList ∧
      (b.call x).1.variant = .t32 r.1 ∧ (b.call x).2 = r.2 := by
  obtain ⟨state, buffer, variant⟩ := b
  obtain ⟨y₀, y₁, y₂, y₃, rfl⟩ := vector4 buffer
  obtain rfl : variant = .t32 t := hvar
  obtain rfl : state = run32State e held := hstate
  match held with
  | [] =>
    cases e <;> simp [call, store, run32State, Endian.assembler32, Transducer.assembler]
  | [z₀] =>
    obtain rfl : z₀ = y₀ := by simpa using hheld
    cases e <;> simp [call, store, run32State, Endian.assembler32, Transducer.assembler]
  | [z₀, z₁] =>
    obtain ⟨rfl, rfl⟩ : z₀ = y₀ ∧ z₁ = y₁ := by simpa using hheld
    cases e <;> simp [call, store, run32State, Endian.assembler32, Transducer.assembler]
  | [z₀, z₁, z₂] =>
    obtain ⟨rfl, rfl, rfl⟩ : z₀ = y₀ ∧ z₁ = y₁ ∧ z₂ = y₂ := by simpa using hheld
    cases e <;> simp [call, run32, run32State, Endian.assembler32, Transducer.assembler,
      char32FromBigEndianBuffer, char32FromLittleEndianBuffer, Endian.join32]

/-- **Every call preserves the relation** with the framing of the bytes consumed. -/
theorem Holds.next {f : Framing} {b : ByteTranscoder T} {out : List T.Unit} (h : f.Holds b out)
    (x : UInt8) : (f.next x).Holds (b.call x).1 (out ++ (b.call x).2) := by
  cases f with
  | detecting seen =>
    obtain ⟨hb, rfl⟩ := h
    exact hb.next x
  | utf8 p =>
    obtain ⟨hstate, hvar, rfl⟩ := h
    obtain ⟨state, buffer, variant⟩ := b
    obtain rfl : state = .run8 := hstate
    obtain rfl : variant = .t8 _ := hvar
    rw [Framing.next, Holds, Transducer.feed_append, Transducer.feed_singleton]
    exact ⟨rfl, rfl, rfl⟩
  | utf16 e p =>
    obtain ⟨hstate, hheld, hvar, rfl⟩ := h
    have hlen := e.length_feed_assembler16_lt p
    obtain ⟨hstate', hheld', hvar', hout⟩ := call_run16 hlen hstate hheld hvar x
    rw [Framing.next, Holds, Transducer.feed_append, Transducer.feed_singleton,
      Transducer.feed_append, hout]
    exact ⟨hstate', hheld', hvar', rfl⟩
  | utf32 e p =>
    obtain ⟨hstate, hheld, hvar, rfl⟩ := h
    have hlen := e.length_feed_assembler32_lt p
    obtain ⟨hstate', hheld', hvar', hout⟩ := call_run32 hlen hstate hheld hvar x
    rw [Framing.next, Holds, Transducer.feed_append, Transducer.feed_singleton,
      Transducer.feed_append, hout]
    exact ⟨hstate', hheld', hvar', rfl⟩

/-- **The transcoder follows the framing** of whatever it is fed. -/
theorem holds_ofBytes (T : CharType) (bytes : List UInt8) :
    (ofBytes bytes).Holds ((tx T).feed (tx T).init bytes).1 ((tx T).feed (tx T).init bytes).2 := by
  induction bytes using List.reverseRecOn with
  | nil => exact ⟨.start, rfl⟩
  | append_singleton bytes x ih =>
    rw [ofBytes_concat, Transducer.feed_append, Transducer.feed_singleton]
    exact ih.next x

/-! ### Whole runs -/

theorem selectedEncoding_run16 {b : ByteTranscoder T} {e : Endian} {held : List UInt8}
    (h : b.state = run16State e held) (p : List UInt8) :
    b.selectedEncoding = (utf16 e p).encoding := by
  rw [selectedEncoding, h]
  cases e <;> cases held <;> simp [run16State, encoding]

theorem selectedEncoding_run32 {b : ByteTranscoder T} {e : Endian} {held : List UInt8}
    (h : b.state = run32State e held) (p : List UInt8) :
    b.selectedEncoding = (utf32 e p).encoding := by
  rw [selectedEncoding, h]
  match held with
  | [] | [_] | [_, _] | _ :: _ :: _ :: _ => cases e <;> simp [run32State, encoding]

/-- The byte that is replayed in excess leaves no partial sequence. -/
private theorem rest_replay : ∀ seen ∈ partialMarks, CharType.char8.rest (seen ++ [0]) = [] := by
  have hpart : ∀ seen ∈ partialMarks,
      t8_32.isPartial (t8_32.feed t8_32.init (seen ++ [0])).1 = false := by decide
  intro seen hseen
  exact (converts_t8_32.isPartial (converts_t8_32.feed_init _)).mp (hpart seen hseen)

/-- The byte that is replayed in excess leaves nothing to be flushed. -/
theorem run_replay (T : CharType) {seen : List UInt8} (h : seen ∈ partialMarks) :
    (transcoder .char8 T).run (seen ++ [0]) =
      (transcoder .char8 T).feed (transcoder .char8 T).init (seen ++ [0]) := by
  have ht := converts_transcoder .char8 T
  have hfed := ht.feed_init (seen ++ [0])
  rw [rest_replay seen h] at hfed
  rw [Transducer.run, Transducer.runFrom, ht.settled hfed, List.append_nil]

/-- The flush of a transcoder that holds something back replays the buffer up to and including
the byte that it has been waiting for. -/
theorem HoldsBack.endCp {seen : List UInt8} {b : ByteTranscoder T} (h : HoldsBack seen b) :
    let r := (transcoder .char8 T).feed (transcoder .char8 T).init
      (if seen = [] then [] else seen ++ [0])
    b.endCp = (⟨.run8, b.buffer, .t8 r.1⟩, r.2) := by
  cases h <;> simp [ByteTranscoder.endCp, run8Start]

theorem endCp_t8 {b : ByteTranscoder T} {t : TranscoderState .char8 T} (h : b.variant = .t8 t) :
    b.endCp = ({ b with variant := .t8 ((transcoder .char8 T).finish t).1 },
      ((transcoder .char8 T).finish t).2) := by
  rw [ByteTranscoder.endCp, h]

theorem endCp_t16 {b : ByteTranscoder T} {t : TranscoderState .char16 T}
    (h : b.variant = .t16 t) :
    b.endCp = ({ b with variant := .t16 ((transcoder .char16 T).finish t).1 },
      ((transcoder .char16 T).finish t).2) := by
  rw [ByteTranscoder.endCp, h]

theorem endCp_t32 {b : ByteTranscoder T} {t : TranscoderState .char32 T}
    (h : b.variant = .t32 t) :
    b.endCp = ({ b with variant := .t32 ((transcoder .char32 T).finish t).1 },
      ((transcoder .char32 T).finish t).2) := by
  rw [ByteTranscoder.endCp, h]

/-- **A whole run is the run of one code-unit transcoder** over the code units of the framing,
whatever the target. -/
theorem tx_run (T : CharType) (bytes : List UInt8) :
    let u := (ofBytes bytes).text
    let r := (transcoder u.1 T).run u.2
    ((tx T).run bytes).2 = r.2 ∧
      (tx T).wellFormed ((tx T).run bytes).1 = (transcoder u.1 T).wellFormed r.1 ∧
      ((tx T).run bytes).1.selectedEncoding = (ofBytes bytes).encoding := by
  have hfeed := holds_ofBytes T bytes
  rw [Transducer.run, Transducer.runFrom_fst, Transducer.runFrom_snd]
  generalize (tx T).feed (tx T).init bytes = s at hfeed ⊢
  obtain ⟨b, out⟩ := s
  have hfinish : (tx T).finish b = b.endCp := rfl
  simp only [hfinish]
  cases hf : ofBytes bytes with
  | detecting seen =>
    -- the flush replays what is held back
    rw [hf] at hfeed
    obtain ⟨hb, rfl⟩ := hfeed
    have hseen : seen ∈ partialMarks := by cases hb <;> decide
    rw [hb.endCp]
    by_cases hnil : seen = []
    · subst hnil
      have hinit := (converts_transcoder .char8 T).settled (converts_transcoder .char8 T).init.1
      simp only [text, Transducer.run, Transducer.runFrom, Transducer.feed_nil, hinit, if_true]
      exact ⟨trivial, rfl, States.selectedEncoding_eq.1⟩
    · obtain ⟨y, ys, rfl⟩ := List.exists_cons_of_ne_nil hnil
      have htext : (detecting (y :: ys)).text = ⟨.char8, y :: ys ++ [0]⟩ := rfl
      rw [if_neg hnil, htext, run_replay T hseen]
      exact ⟨rfl, rfl, States.selectedEncoding_eq.1⟩
  | utf8 p =>
    rw [hf] at hfeed
    obtain ⟨hstate, hvar, rfl⟩ := hfeed
    rw [endCp_t8 hvar]
    refine ⟨rfl, rfl, ?_⟩
    rw [selectedEncoding, hstate]
    exact States.selectedEncoding_eq.1
  | utf16 e p =>
    rw [hf] at hfeed
    obtain ⟨hstate, hheld, hvar, rfl⟩ := hfeed
    rw [endCp_t16 hvar]
    exact ⟨rfl, rfl, selectedEncoding_run16 hstate p⟩
  | utf32 e p =>
    rw [hf] at hfeed
    obtain ⟨hstate, hheld, hvar, rfl⟩ := hfeed
    rw [endCp_t32 hvar]
    exact ⟨rfl, rfl, selectedEncoding_run32 hstate p⟩

/-! ### What one byte makes it write -/

/-- A mark comes with at most one byte of payload. -/
theorem length_of_ofSeen {seen : List UInt8} {e : Endian} {p : List UInt8} :
    (ofSeen seen = utf16 e p → p.length ≤ 1) ∧ (ofSeen seen = utf32 e p → p = []) := by
  constructor
  · intro h
    rw [ofSeen] at h
    split_ifs at h with h₁ h₂ h₃ h₄ h₅ h₆
    · obtain ⟨-, rfl⟩ := utf16.inj h
      exact Nat.zero_le _
    · obtain ⟨-, rfl⟩ := utf16.inj h
      have hlen := congrArg List.length h₆
      rw [List.length_dropLast, Endian.mark16, Endian.length_bytes16] at hlen
      rw [List.length_drop]
      omega
  · intro h
    rw [ofSeen] at h
    split_ifs at h with h₁ h₂ h₃ h₄ h₅ h₆
    · exact (utf32.inj h).2.symm
    · exact (utf32.inj h).2.symm

/-- So the bytes that come with a mark complete no code unit. -/
theorem feed_assembler16_of_ofSeen {seen : List UInt8} {e : Endian} {p : List UInt8}
    (h : ofSeen seen = utf16 e p) : (e.assembler16.feed [] p).2 = [] := by
  have hlen := length_of_ofSeen.1 h
  match p with
  | [] => rfl
  | [y] => rfl

/-- The scalar values that are written for the byte `x`, which may be the last byte. -/
noncomputable def delivered (x : UInt8) (last : Bool) : Framing → List Char
  | detecting seen =>
    match ofSeen (seen ++ [x]) with
    | detecting seen' => if last then CharType.char8.scalars (seen' ++ [0]) else []
    | utf8 p => CharType.char8.delivered p last
    | _ => []
  | utf8 p => CharType.char8.delivered (CharType.char8.rest p ++ [x]) last
  | utf16 e p =>
    let a := e.assembler16.feed [] p
    CharType.char16.delivered (CharType.char16.rest a.2 ++ (e.assembler16.step a.1 x).2) last
  | utf32 e p =>
    CharType.char32.delivered (e.assembler32.step (e.assembler32.feed [] p).1 x).2 last

/-- What the byte transcoder writes is what the transcoder of the code units writes. -/
private theorem wrote_eq {F : CharType} {b : ByteTranscoder T} {x : UInt8}
    {t : TranscoderState F T} {p us : List F.Unit} (ht : t.StandsFor p)
    (hcall : (b.call x).2 = ((transcoder F T).feed t us).2)
    (hend : (b.call x).1.endCp.2 = ((transcoder F T).finish ((transcoder F T).feed t us).1).2)
    (zs : List UInt8) :
    (tx T).wrote b x zs = T.code.encode (F.delivered (p ++ us) zs.isEmpty) := by
  rw [Transducer.wrote_eq, ← (converts_transcoder F T).delivers ht us, ← hcall, ← hend]
  rfl

/-- The next byte while a mark is being identified. -/
private theorem HoldsBack.wrote {seen : List UInt8} {b : ByteTranscoder T} (h : HoldsBack seen b)
    (x : UInt8) (zs : List UInt8) :
    (tx T).wrote b x zs = T.code.encode ((detecting seen).delivered x zs.isEmpty) := by
  have hnext := h.next x
  have hacc := accounts_ofSeen (seen ++ [x])
  have hnil : ∀ (F : CharType) (last : Bool), F.delivered [] last = [] := fun F last =>
    List.eq_nil_of_length_eq_zero (Nat.le_zero.mp ((F.length_delivered_le [] last).trans_eq
      (congrArg List.length F.scalars_nil)))
  rw [delivered]
  cases hf : ofSeen (seen ++ [x]) with
  | detecting seen' =>
    rw [hf] at hnext hacc
    obtain ⟨hb, hout⟩ := hnext
    obtain ⟨rfl, hmem⟩ := hacc
    -- nothing is written before the flush, which replays what is held back
    have hend := congrArg Prod.snd hb.endCp
    rw [if_neg (by simp), ← run_replay T hmem, ((converts_transcoder .char8 T).run _).1] at hend
    have hwrote : (tx T).wrote b x zs =
        (b.call x).2 ++ if zs.isEmpty then (b.call x).1.endCp.2 else [] :=
      Transducer.wrote_eq b x zs
    rw [hwrote, hout, hend, List.nil_append]
    cases zs.isEmpty <;> rfl
  | utf8 p =>
    rw [hf] at hnext
    obtain ⟨-, hvar, hout⟩ := hnext
    exact wrote_eq (converts_transcoder .char8 T).init.1 hout (by rw [endCp_t8 hvar]) zs
  | utf16 e p =>
    rw [hf] at hnext
    obtain ⟨-, -, hvar, hout⟩ := hnext
    have hunits := feed_assembler16_of_ofSeen hf
    rw [wrote_eq (converts_transcoder .char16 T).init.1 hout (by rw [endCp_t16 hvar]), hunits]
    exact congrArg T.code.encode (hnil .char16 _)
  | utf32 e p =>
    rw [hf] at hnext
    obtain ⟨-, -, hvar, hout⟩ := hnext
    obtain rfl := length_of_ofSeen.2 hf
    rw [wrote_eq (converts_transcoder .char32 T).init.1 hout (by rw [endCp_t32 hvar])]
    exact congrArg T.code.encode (hnil .char32 _)

/-- **What one byte makes the transcoder write**, and the flush after it if it is the last, depends
on the framing only. -/
theorem Holds.wrote {f : Framing} {b : ByteTranscoder T} {out : List T.Unit} (h : f.Holds b out)
    (x : UInt8) (zs : List UInt8) :
    (tx T).wrote b x zs = T.code.encode (f.delivered x zs.isEmpty) := by
  cases f with
  | detecting seen => exact h.1.wrote x zs
  | utf8 p =>
    obtain ⟨hstate, hvar, -⟩ := h
    obtain ⟨state, buffer, variant⟩ := b
    obtain rfl : state = .run8 := hstate
    obtain rfl : variant = .t8 _ := hvar
    have hstands := (converts_transcoder .char8 T).feed_init p
    rw [delivered, ← (converts_transcoder .char8 T).delivers hstands, Transducer.feed_singleton]
    exact Transducer.wrote_eq _ x zs
  | utf16 e p =>
    obtain ⟨hstate, hheld, hvar, -⟩ := h
    have hlen := e.length_feed_assembler16_lt p
    obtain ⟨-, -, hvar', hout⟩ := call_run16 hlen hstate hheld hvar x
    exact wrote_eq ((converts_transcoder .char16 T).feed_init _) hout (by rw [endCp_t16 hvar']) zs
  | utf32 e p =>
    obtain ⟨hstate, hheld, hvar, -⟩ := h
    have hlen := e.length_feed_assembler32_lt p
    obtain ⟨-, -, hvar', hout⟩ := call_run32 hlen hstate hheld hvar x
    exact wrote_eq ((converts_transcoder .char32 T).feed_init _) hout (by rw [endCp_t32 hvar']) zs

end Framing

end Icubaby
