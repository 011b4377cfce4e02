import Icubaby.Byte.Simulation
import Icubaby.Transcoder.Segments

/-!
# The byte transcoder under calls in any order

Between the calls of `operator()` there may be calls of `end_cp`, at any place. A `Dialogue` says
what a sequence of calls amounts to: the begin of a byte order mark, or calls that are passed on to
the code-unit transcoder that has been selected. An `end_cp` while a mark is being identified
selects UTF-8, so nothing after it is taken for a mark, and it is not passed on itself; an `end_cp`
in the middle of a code unit leaves the bytes of the unit in the buffer.

`tx_interactive` says that the byte transcoder does what the dialogue says, and
`selectedEncoding_stable` that an encoding is selected once and for all.
-/

namespace Icubaby

open Transducer

variable {T : CharType}

/-- What a sequence of calls is taken to be. -/
inductive Dialogue
  /-- Only the begin of a mark has been seen, and `end_cp` has not been called. -/
  | detecting (seen : List UInt8)
  | utf8 (calls : List (Call UInt8))
  | utf16 (e : Endian) (calls : List (Call UInt8))
  | utf32 (e : Endian) (calls : List (Call UInt8))

/-- Bytes without `end_cp` in between. -/
def Dialogue.ofFraming : Framing → Dialogue
  | .detecting seen => detecting seen
  | .utf8 p => utf8 (p.map .step)
  | .utf16 e p => utf16 e (p.map .step)
  | .utf32 e p => utf32 e (p.map .step)

/-- The bytes that `end_cp` replays while a mark is being identified: what is held back and the
byte after it in the buffer. -/
def replayed (seen : List UInt8) : List UInt8 := if seen = [] then [] else seen ++ [0]

namespace Dialogue

/-- One more call. -/
def next : Dialogue → Call UInt8 → Dialogue
  | detecting seen, .step x => ofFraming (.ofSeen (seen ++ [x]))
  | detecting seen, .finish => utf8 ((replayed seen).map .step)
  | utf8 calls, c => utf8 (calls ++ [c])
  | utf16 e calls, c => utf16 e (calls ++ [c])
  | utf32 e calls, c => utf32 e (calls ++ [c])

/-- The dialogue of a sequence of calls. -/
def ofCalls (calls : List (Call UInt8)) : Dialogue := calls.foldl next (detecting [])

theorem ofCalls_append (calls calls' : List (Call UInt8)) :
    ofCalls (calls ++ calls') = calls'.foldl next (ofCalls calls) := List.foldl_append

theorem ofCalls_concat (calls : List (Call UInt8)) (c : Call UInt8) :
    ofCalls (calls ++ [c]) = (ofCalls calls).next c := ofCalls_append calls [c]

/-- One more byte. -/
theorem next_ofFraming (f : Framing) (x : UInt8) :
    (ofFraming f).next (.step x) = ofFraming (f.next x) := by
  cases f with
  | detecting seen => rfl
  | utf8 p => simp [ofFraming, next, Framing.next]
  | utf16 e p => simp [ofFraming, next, Framing.next]
  | utf32 e p => simp [ofFraming, next, Framing.next]

/-- Without `end_cp` the dialogue is the framing of the bytes. -/
theorem ofCalls_map_step (bytes : List UInt8) :
    ofCalls (bytes.map .step) = ofFraming (.ofBytes bytes) := by
  induction bytes using List.reverseRecOn with
  | nil => rfl
  | append_singleton bytes x ih =>
    rw [List.map_append, List.map_singleton, ofCalls_concat, ih, next_ofFraming,
      Framing.ofBytes_concat]

/-- The encoding that has been selected. -/
def encoding : Dialogue → Encoding
  | detecting _ => .unknown
  | utf8 _ => .utf8
  | utf16 .big _ => .utf16be
  | utf16 .little _ => .utf16le
  | utf32 .big _ => .utf32be
  | utf32 .little _ => .utf32le

/-- A selected encoding stays selected, -/
theorem encoding_next {d : Dialogue} (h : d.encoding ≠ .unknown) (c : Call UInt8) :
    (d.next c).encoding = d.encoding := by
  cases d with
  | detecting seen => exact absurd rfl h
  | utf8 calls => rfl
  | utf16 e calls => cases e <;> rfl
  | utf32 e calls => cases e <;> rfl

/-- and `end_cp` selects one. -/
theorem encoding_next_finish (d : Dialogue) : (d.next .finish).encoding ≠ .unknown := by
  cases d with
  | detecting seen => simp [next, encoding]
  | utf8 calls => simp [next, encoding]
  | utf16 e calls => cases e <;> simp [next, encoding]
  | utf32 e calls => cases e <;> simp [next, encoding]

theorem encoding_foldl_next {d : Dialogue} (h : d.encoding ≠ .unknown) (calls : List (Call UInt8)) :
    (calls.foldl next d).encoding = d.encoding := by
  induction calls generalizing d with
  | nil => rfl
  | cons c calls ih =>
    have hc := encoding_next h c
    rw [List.foldl_cons, ih (hc ▸ h), hc]

/-- As long as no encoding is selected, the calls are the bytes of the begin of a mark. -/
theorem exists_of_encoding {calls : List (Call UInt8)} (h : (ofCalls calls).encoding = .unknown) :
    ∃ seen, ofCalls calls = detecting seen ∧ calls = seen.map .step := by
  rcases Call.exists_first_finish calls with ⟨bytes, rfl⟩ | ⟨bytes, rest, rfl⟩
  · have hacc := Framing.accounts_ofBytes bytes
    rw [ofCalls_map_step] at h ⊢
    cases hf : Framing.ofBytes bytes with
    | detecting seen =>
      rw [hf] at hacc
      exact ⟨seen, rfl, by rw [hacc.1]⟩
    | utf8 p => simp [hf, ofFraming, encoding] at h
    | utf16 e p => cases e <;> simp [hf, ofFraming, encoding] at h
    | utf32 e p => cases e <;> simp [hf, ofFraming, encoding] at h
  · rw [ofCalls_append, List.foldl_cons, encoding_foldl_next (encoding_next_finish _)] at h
    exact absurd h (encoding_next_finish _)

end Dialogue

/-! ### What a dialogue stands for -/

/-- The calls that are passed on to a code-unit transcoder. Bytes are gathered to code units, and
`end_cp` leaves those gathered where they are. -/
def Dialogue.text : Dialogue → (F : CharType) × List (Call F.Unit)
  | detecting _ => ⟨.char8, []⟩
  | utf8 calls => ⟨.char8, calls⟩
  | utf16 e calls => ⟨.char16, (e.assembler16.relay.feed [] calls).2⟩
  | utf32 e calls => ⟨.char32, (e.assembler32.relay.feed [] calls).2⟩

/-- Some bytes of a mark are held back. -/
def Dialogue.holdsMark : Dialogue → Bool
  | detecting seen => !seen.isEmpty
  | _ => false

namespace Dialogue

open ByteTranscoder Framing

/-- What a dialogue says about the members of the transcoder and about what it has written. -/
def Holds : Dialogue → ByteTranscoder T → List T.Unit → Prop
  | detecting seen, b, out => HoldsBack seen b ∧ out = []
  | utf8 calls, b, out =>
    let r := (transcoder .char8 T).interactive.feed (transcoder .char8 T).init calls
    b.state = .run8 ∧ b.variant = .t8 r.1 ∧ out = r.2
  | utf16 e calls, b, out =>
    let a := e.assembler16.relay.feed [] calls
    let r := (transcoder .char16 T).interactive.feed (transcoder .char16 T).init a.2
    b.state = run16State e a.1 ∧ a.1.length < 2 ∧ a.1 <+: b.buffer.toList ∧
      b.variant = .t16 r.1 ∧ out = r.2
  | utf32 e calls, b, out =>
    let a := e.assembler32.relay.feed [] calls
    let r := (transcoder .char32 T).interactive.feed (transcoder .char32 T).init a.2
    b.state = run32State e a.1 ∧ a.1.length < 4 ∧ a.1 <+: b.buffer.toList ∧
      b.variant = .t32 r.1 ∧ out = r.2

/-- What a framing says, its dialogue says. -/
theorem holds_ofFraming {f : Framing} {b : ByteTranscoder T} {out : List T.Unit}
    (h : f.Holds b out) : (ofFraming f).Holds b out := by
  cases f with
  | detecting seen => exact h
  | utf8 p =>
    simp only [ofFraming, Holds, feed_interactive_map_step]
    exact h
  | utf16 e p =>
    simp only [ofFraming, Holds, feed_relay_map_step, feed_interactive_map_step]
    obtain ⟨hstate, hheld, hvar, hout⟩ := h
    exact ⟨hstate, e.length_feed_assembler16_lt p, hheld, hvar, hout⟩
  | utf32 e p =>
    simp only [ofFraming, Holds, feed_relay_map_step, feed_interactive_map_step]
    obtain ⟨hstate, hheld, hvar, hout⟩ := h
    exact ⟨hstate, e.length_feed_assembler32_lt p, hheld, hvar, hout⟩

/-- One more byte of a word: the number gathered stays below the length of a word. -/
private theorem length_step_lt {n : ℕ} {δ : Type} {join : List UInt8 → δ} {held : List UInt8}
    (h : held.length < n) (x : UInt8) : ((assembler n join).step held x).1.length < n := by
  rcases @assembler_step_cases _ _ n join held x with ⟨hlen, hstep⟩ | ⟨hlen, hstep⟩
  · rw [hstep, List.length_nil]
    omega
  · rw [hstep, List.length_append, List.length_singleton]
    omega

/-- **Every call preserves the relation** with the dialogue of the calls. -/
theorem Holds.next {d : Dialogue} {b : ByteTranscoder T} {out : List T.Unit} (h : d.Holds b out)
    (c : Call UInt8) :
    (d.next c).Holds ((tx T).interactive.step b c).1 (out ++ ((tx T).interactive.step b c).2) := by
  have hstep : ∀ x, (tx T).interactive.step b (.step x) = b.call x := fun x => rfl
  have hfinish : (tx T).interactive.step b .finish = b.endCp := rfl
  cases d with
  | detecting seen =>
    obtain ⟨hb, rfl⟩ := h
    cases c with
    | step x =>
      rw [hstep, List.nil_append]
      exact holds_ofFraming (hb.next x)
    | finish =>
      rw [hfinish, hb.endCp, List.nil_append, Dialogue.next, Holds, feed_interactive_map_step]
      exact ⟨rfl, rfl, rfl⟩
  | utf8 calls =>
    obtain ⟨hstate, hvar, rfl⟩ := h
    obtain ⟨state, buffer, variant⟩ := b
    obtain rfl : state = .run8 := hstate
    obtain rfl : variant = .t8 _ := hvar
    rw [Dialogue.next, Holds, feed_append, feed_singleton]
    cases c with
    | step x => exact ⟨rfl, rfl, rfl⟩
    | finish => exact ⟨rfl, rfl, rfl⟩
  | utf16 e calls =>
    obtain ⟨hstate, hlen, hheld, hvar, rfl⟩ := h
    rw [Dialogue.next, Holds, feed_append, feed_singleton]
    cases c with
    | step x =>
      -- the byte completes a code unit, which is passed on, or it is kept
      obtain ⟨hstate', hheld', hvar', hout⟩ := call_run16 hlen hstate hheld hvar x
      have hrelay (held : List UInt8) : e.assembler16.relay.step held (.step x) =
          ((e.assembler16.step held x).1, (e.assembler16.step held x).2.map .step) := rfl
      rw [hstep, hout, hrelay, feed_append, feed_interactive_map_step]
      exact ⟨hstate', length_step_lt hlen x, hheld', hvar', rfl⟩
    | finish =>
      have hrelay (held : List UInt8) :
          e.assembler16.relay.step held .finish = (held, [.finish]) := rfl
      rw [hfinish, endCp_t16 hvar, hrelay, feed_append, feed_singleton]
      exact ⟨hstate, hlen, hheld, rfl, rfl⟩
  | utf32 e calls =>
    obtain ⟨hstate, hlen, hheld, hvar, rfl⟩ := h
    rw [Dialogue.next, Holds, feed_append, feed_singleton]
    cases c with
    | step x =>
      obtain ⟨hstate', hheld', hvar', hout⟩ := call_run32 hlen hstate hheld hvar x
      have hrelay (held : List UInt8) : e.assembler32.relay.step held (.step x) =
          ((e.assembler32.step held x).1, (e.assembler32.step held x).2.map .step) := rfl
      rw [hstep, hout, hrelay, feed_append, feed_interactive_map_step]
      exact ⟨hstate', length_step_lt hlen x, hheld', hvar', rfl⟩
    | finish =>
      have hrelay (held : List UInt8) :
          e.assembler32.relay.step held .finish = (held, [.finish]) := rfl
      rw [hfinish, endCp_t32 hvar, hrelay, feed_append, feed_singleton]
      exact ⟨hstate, hlen, hheld, rfl, rfl⟩

/-- **The transcoder follows the dialogue**, whatever is called. -/
theorem holds_ofCalls (T : CharType) (calls : List (Call UInt8)) :
    (ofCalls calls).Holds ((tx T).interactive.feed (tx T).init calls).1
      ((tx T).interactive.feed (tx T).init calls).2 := by
  induction calls using List.reverseRecOn with
  | nil => exact ⟨.start, rfl⟩
  | append_singleton calls c ih =>
    rw [ofCalls_concat, feed_append, feed_singleton]
    exact ih.next c

theorem Holds.selectedEncoding {d : Dialogue} {b : ByteTranscoder T} {out : List T.Unit}
    (h : d.Holds b out) : b.selectedEncoding = d.encoding := by
  cases d with
  | detecting seen =>
    obtain ⟨hb, -⟩ := h
    cases hb <;> simp [ByteTranscoder.selectedEncoding, encoding]
  | utf8 calls =>
    rw [ByteTranscoder.selectedEncoding, h.1]
    exact States.selectedEncoding_eq.1
  | utf16 e calls =>
    rw [selectedEncoding_run16 h.1 []]
    cases e <;> rfl
  | utf32 e calls =>
    rw [selectedEncoding_run32 h.1 []]
    cases e <;> rfl

/-- What the observers say. -/
theorem Holds.observed {d : Dialogue} {b : ByteTranscoder T} {out : List T.Unit}
    (h : d.Holds b out) :
    let u := d.text
    let r := (transcoder u.1 T).interactive.feed (transcoder u.1 T).init u.2
    out = r.2 ∧ b.wellFormed = (transcoder u.1 T).wellFormed r.1 ∧
      b.isPartial = (d.holdsMark || (transcoder u.1 T).isPartial r.1) := by
  cases d with
  | detecting seen =>
    obtain ⟨hb, rfl⟩ := h
    have hinit := (converts_transcoder .char8 T).init
    have hpart := ((converts_transcoder .char8 T).isPartial hinit.1).mpr rfl
    simp only [text, feed_nil, hinit.2, hpart, holdsMark, Bool.or_false, true_and]
    cases hb <;> exact ⟨rfl, rfl⟩
  | utf8 calls =>
    obtain ⟨-, hvar, rfl⟩ := h
    rw [ByteTranscoder.wellFormed, ByteTranscoder.isPartial, hvar]
    exact ⟨rfl, rfl, rfl⟩
  | utf16 e calls =>
    obtain ⟨-, -, -, hvar, rfl⟩ := h
    rw [ByteTranscoder.wellFormed, ByteTranscoder.isPartial, hvar]
    exact ⟨rfl, rfl, rfl⟩
  | utf32 e calls =>
    obtain ⟨-, -, -, hvar, rfl⟩ := h
    rw [ByteTranscoder.wellFormed, ByteTranscoder.isPartial, hvar]
    exact ⟨rfl, rfl, rfl⟩

/-- What `end_cp` does once a mark has been identified, or ruled out. -/
theorem Holds.flush {d : Dialogue} {b : ByteTranscoder T} {out : List T.Unit}
    (h : d.Holds b out) (hd : d.encoding ≠ .unknown) :
    b.endCp.2 = (if b.isPartial then T.code.word replacement else []) ∧
      b.endCp.1.wellFormed = (b.wellFormed && !b.isPartial) := by
  -- the code-unit transcoder is in a state that calls have led to
  cases d with
  | detecting seen => exact absurd rfl hd
  | utf8 calls =>
    obtain ⟨-, hvar, -⟩ := h
    rw [endCp_t8 hvar, ByteTranscoder.isPartial, ByteTranscoder.wellFormed,
      ByteTranscoder.wellFormed, hvar]
    exact transcoder_flush .char8 T _
  | utf16 e calls =>
    obtain ⟨-, -, -, hvar, -⟩ := h
    rw [endCp_t16 hvar, ByteTranscoder.isPartial, ByteTranscoder.wellFormed,
      ByteTranscoder.wellFormed, hvar]
    exact transcoder_flush .char16 T _
  | utf32 e calls =>
    obtain ⟨-, -, -, hvar, -⟩ := h
    rw [endCp_t32 hvar, ByteTranscoder.isPartial, ByteTranscoder.wellFormed,
      ByteTranscoder.wellFormed, hvar]
    exact transcoder_flush .char32 T _

/-- What `end_cp` replays while a mark is being identified is not empty if anything is held back. -/
theorem replayed_spec {seen : List UInt8} {b : ByteTranscoder T} (h : HoldsBack seen b) :
    b.endCp.2 = CharType.char8.decodeTo T (replayed seen) ∧
      (b.endCp.2 = [] ↔ b.isPartial = false) := by
  have hend := congrArg Prod.snd h.endCp
  dsimp only at hend
  have hpart : b.isPartial = false ↔ seen = [] := by cases h <;> simp [ByteTranscoder.isPartial]
  have hseen : seen ∈ partialMarks := by cases h <;> decide
  have hout : b.endCp.2 = CharType.char8.decodeTo T (replayed seen) := by
    rw [hend, replayed]
    split_ifs with hnil
    · exact (CharType.decodeTo_eq_nil_iff.mpr rfl).symm
    · rw [← run_replay T hseen, ((converts_transcoder .char8 T).run _).1]
  refine ⟨hout, ?_⟩
  rw [hout, CharType.decodeTo_eq_nil_iff, hpart, replayed]
  split_ifs with hnil
  · exact iff_of_true rfl hnil
  · exact iff_of_false (by simp) hnil

end Dialogue

/-- **Calls in any order on the byte transcoder.** Whatever is called, it has written what the
selected code-unit transcoder writes for the calls passed on to it, the flag is that transcoder's,
and `partial ()` is true if that one's is or if bytes of a mark are held back. -/
theorem tx_interactive (T : CharType) (calls : List (Call UInt8)) :
    let r := (tx T).interactive.feed (tx T).init calls
    let d := Dialogue.ofCalls calls
    let r' := (transcoder d.text.1 T).interactive.feed (transcoder d.text.1 T).init d.text.2
    r.2 = r'.2 ∧ (tx T).wellFormed r.1 = (transcoder d.text.1 T).wellFormed r'.1 ∧
      (tx T).isPartial r.1 = (d.holdsMark || (transcoder d.text.1 T).isPartial r'.1) ∧
      r.1.selectedEncoding = d.encoding := by
  have hholds := Dialogue.holds_ofCalls T calls
  obtain ⟨hout, hwf, hpart⟩ := hholds.observed
  exact ⟨hout, hwf, hpart, hholds.selectedEncoding⟩

/-- **An encoding is selected once and for all**, and at the latest by the first `end_cp`. -/
theorem selectedEncoding_stable (T : CharType) (calls more : List (Call UInt8)) :
    let s := ((tx T).interactive.feed (tx T).init calls).1
    let s' := ((tx T).interactive.feed (tx T).init (calls ++ more)).1
    (s.selectedEncoding ≠ .unknown ∨ .finish ∈ calls) →
      s.selectedEncoding ≠ .unknown ∧ s'.selectedEncoding = s.selectedEncoding := by
  intro s s' hs
  have hsel : s.selectedEncoding = (Dialogue.ofCalls calls).encoding :=
    (Dialogue.holds_ofCalls T calls).selectedEncoding
  have hsel' : s'.selectedEncoding = (Dialogue.ofCalls (calls ++ more)).encoding :=
    (Dialogue.holds_ofCalls T (calls ++ more)).selectedEncoding
  have hd : (Dialogue.ofCalls calls).encoding ≠ .unknown := by
    rcases hs with hs | hfinish
    · rwa [hsel] at hs
    · obtain ⟨before, after, rfl⟩ := List.append_of_mem hfinish
      rw [Dialogue.ofCalls_append, List.foldl_cons,
        Dialogue.encoding_foldl_next (Dialogue.encoding_next_finish _)]
      exact Dialogue.encoding_next_finish _
  rw [hsel', hsel, Dialogue.ofCalls_append]
  exact ⟨hd, Dialogue.encoding_foldl_next hd more⟩

theorem selectedEncoding_stable_mark :
    let s := ((tx .char8).interactive.feed (tx .char8).init [.step 0xFE, .step 0xFF]).1
    let s' := ((tx .char8).interactive.feed (tx .char8).init
      ([.step 0xFE, .step 0xFF] ++ [.step 0x00, .finish, .step 0xFF])).1
    s.selectedEncoding ≠ .unknown ∧ s'.selectedEncoding = s.selectedEncoding :=
  selectedEncoding_stable .char8 [.step 0xFE, .step 0xFF] [.step 0x00, .finish, .step 0xFF]
    (.inl (by decide))

/-- **What `end_cp` does on the byte transcoder.** Whatever has been called, `end_cp` writes
something exactly if `partial ()` is true. That is one U+FFFD, which clears the flag, if an encoding
has been selected. Otherwise it is the conversion of what is in the buffer: the bytes that have been
held back, if there are any, and one null byte after them. -/
theorem tx_flush (T : CharType) (calls : List (Call UInt8)) :
    let s := ((tx T).interactive.feed (tx T).init calls).1
    let e := (tx T).finish s
    (e.2 = [] ↔ (tx T).isPartial s = false) ∧
      (s.selectedEncoding ≠ .unknown →
        e.2 = (if (tx T).isPartial s then T.code.word replacement else []) ∧
          (tx T).wellFormed e.1 = ((tx T).wellFormed s && !(tx T).isPartial s)) ∧
      (s.selectedEncoding = .unknown → ∃ seen, calls = seen.map .step ∧
        e.2 = CharType.char8.decodeTo T (replayed seen)) := by
  intro s e
  have hholds := Dialogue.holds_ofCalls T calls
  have hsel : s.selectedEncoding = (Dialogue.ofCalls calls).encoding := hholds.selectedEncoding
  by_cases hd : (Dialogue.ofCalls calls).encoding = .unknown
  · obtain ⟨seen, hseen, rfl⟩ := Dialogue.exists_of_encoding hd
    rw [hseen] at hholds
    obtain ⟨hout, hiff⟩ := Dialogue.replayed_spec hholds.1
    exact ⟨hiff, fun hne => absurd (hsel.trans hd) hne, fun _ => ⟨seen, rfl, hout⟩⟩
  · obtain ⟨hout, hwf⟩ := hholds.flush hd
    refine ⟨?_, fun _ => ⟨hout, hwf⟩, fun heq => absurd (hsel.symm.trans heq) hd⟩
    have hiff : e.2 = [] ↔ s.isPartial = false := by
      rw [show e.2 = _ from hout]
      cases s.isPartial with
      | true => simpa using T.code.word_ne_nil replacement
      | false => simp
    exact hiff

end Icubaby
