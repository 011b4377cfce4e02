import Icubaby.Byte.Simulation
import Icubaby.Transcoder.Laws

/-!
# Conversions of byte streams

What `Framing.tx_run` says about streams that begin with a byte order mark and about streams that
begin with none: which code-unit transcoder a run of the byte transcoder agrees with, and where it
does not. Two streams are misread. A UTF-16 LE stream is taken to be UTF-8 when FF FE is followed
by nothing or by a byte 00, and a stream that is nothing but the begin of a mark of UTF-16 or
UTF-32 is replayed with a byte 00 that it does not have.

Since the framing does not depend on the target, conversions by way of an intermediate encoding
agree with direct ones (`by_way_of`).
-/

namespace Icubaby

variable {T : CharType}

/-- A whole run of the byte transcoder agrees with a run of a code-unit transcoder, and selects the
encoding `E`. -/
def ReadsAs (T : CharType) (bytes : List UInt8) (F : CharType) (us : List F.Unit)
    (E : Encoding) : Prop :=
  let r := (tx T).run bytes
  let r' := (transcoder F T).run us
  r.2 = r'.2 ∧ (tx T).wellFormed r.1 = (transcoder F T).wellFormed r'.1 ∧
    r.1.selectedEncoding = E

/-- Every stream is read as its framing says. -/
theorem readsAs_of_ofBytes {bytes : List UInt8} {f : Framing} (h : .ofBytes bytes = f) :
    ReadsAs T bytes f.text.1 f.text.2 f.encoding := by
  rw [← h]
  exact Framing.tx_run T bytes

/-! ### Streams with a mark -/

/-- After a complete mark everything is payload. -/
theorem Framing.ofBytes_mark (bytes : List UInt8) :
    ofBytes (utf8Mark ++ bytes) = .utf8 bytes ∧
      ofBytes (Endian.big.mark16 ++ bytes) = .utf16 .big bytes ∧
      ∀ e : Endian, ofBytes (e.mark32 ++ bytes) = .utf32 e bytes := by
  have hmarks : ofBytes utf8Mark = .utf8 [] ∧ ofBytes Endian.big.mark16 = .utf16 .big [] ∧
      ∀ e : Endian, ofBytes e.mark32 = .utf32 e [] := by
    refine ⟨by decide, by decide, fun e => ?_⟩
    cases e <;> decide
  obtain ⟨h8, h16, h32⟩ := hmarks
  refine ⟨?_, ?_, fun e => ?_⟩
  · rw [ofBytes_append, h8, foldl_next_utf8, List.nil_append]
  · rw [ofBytes_append, h16, foldl_next_utf16, List.nil_append]
  · rw [ofBytes_append, h32, foldl_next_utf32, List.nil_append]

/-- After FF FE a byte other than 00 is the first of the payload. -/
theorem Framing.ofBytes_mark16_little {x : UInt8} (hx : x ≠ 0) (bytes : List UInt8) :
    ofBytes (Endian.little.mark16 ++ x :: bytes) = .utf16 .little (x :: bytes) := by
  have hdetect : ofBytes Endian.little.mark16 = .detecting Endian.little.mark16 := by decide
  have hseen : ofSeen (Endian.little.mark16 ++ [x]) = .utf16 .little [x] := by
    simp [ofSeen, utf8Mark, partialMarks, marks_eq, hx]
  rw [ofBytes_append, hdetect, List.foldl_cons, next, hseen, foldl_next_utf16,
    List.singleton_append]

/-- After FF FE 00 a byte other than 00 shows that there was no mark. -/
theorem Framing.ofBytes_taken_back {x : UInt8} (hx : x ≠ 0) (bytes : List UInt8) :
    ofBytes (Endian.little.mark16 ++ 0 :: x :: bytes) =
      .utf8 (Endian.little.mark16 ++ 0 :: x :: bytes) := by
  have hdetect : ofBytes (Endian.little.mark16 ++ [0]) =
      .detecting (Endian.little.mark16 ++ [0]) := by decide
  have hseen : ofSeen (Endian.little.mark16 ++ [0] ++ [x]) =
      .utf8 (Endian.little.mark16 ++ [0] ++ [x]) := by
    simp [ofSeen, utf8Mark, partialMarks, marks_eq, hx]
  have hsplit : Endian.little.mark16 ++ 0 :: x :: bytes =
      Endian.little.mark16 ++ [0] ++ x :: bytes := by simp
  rw [hsplit, ofBytes_append, hdetect, List.foldl_cons, next, hseen, foldl_next_utf8]
  simp

theorem readsAs_utf16 {bytes : List UInt8} {e : Endian} {ws : List UInt16}
    (h : .ofBytes bytes = Framing.utf16 e (ws.flatMap e.bytes16)) :
    ReadsAs T bytes .char16 ws (Framing.utf16 e []).encoding := by
  have hread := readsAs_of_ofBytes (T := T) h
  rw [Framing.text, e.feed_assembler16] at hread
  cases e <;> exact hread

theorem readsAs_utf32 {bytes : List UInt8} {e : Endian} {ws : List UInt32}
    (h : .ofBytes bytes = Framing.utf32 e (ws.flatMap e.bytes32)) :
    ReadsAs T bytes .char32 ws (Framing.utf32 e []).encoding := by
  have hread := readsAs_of_ofBytes (T := T) h
  rw [Framing.text, e.feed_assembler32] at hread
  cases e <;> exact hread

/-- **A stream with a mark**, other than that of UTF-16 LE, is read as the code units after the
mark, whatever these are. -/
theorem run_of_mark (T : CharType) :
    (∀ ws : List UInt8, ReadsAs T (utf8Mark ++ ws) .char8 ws .utf8) ∧
      (∀ ws : List UInt16, ReadsAs T (Endian.big.mark16 ++ ws.flatMap Endian.big.bytes16)
        .char16 ws .utf16be) ∧
      (∀ ws : List UInt32, ReadsAs T (Endian.big.mark32 ++ ws.flatMap Endian.big.bytes32)
        .char32 ws .utf32be) ∧
      ∀ ws : List UInt32, ReadsAs T (Endian.little.mark32 ++ ws.flatMap Endian.little.bytes32)
        .char32 ws .utf32le :=
  ⟨fun ws => readsAs_of_ofBytes (Framing.ofBytes_mark ws).1,
    fun _ => readsAs_utf16 (Framing.ofBytes_mark _).2.1,
    fun _ => readsAs_utf32 ((Framing.ofBytes_mark _).2.2 .big),
    fun _ => readsAs_utf32 ((Framing.ofBytes_mark _).2.2 .little)⟩

/-- A run selects one encoding only. -/
theorem ReadsAs.encoding_eq {bytes : List UInt8} {F : CharType} {us : List F.Unit}
    {E : Encoding} (h : ReadsAs T bytes F us E) {f : Framing} (hf : .ofBytes bytes = f) :
    E = f.encoding := h.2.2.symm.trans (readsAs_of_ofBytes hf).2.2

/-- **A stream with the mark of UTF-16 LE** is read as the code units after the mark exactly when
there are any and the low byte of the first is not 00: with a byte 00, or at the end of the input,
the mark is taken for the begin of that of UTF-32 LE, and in the end for text. -/
theorem run_of_mark_utf16le_iff (T : CharType) (ws : List UInt16) (hws : ∀ w ∈ ws.head?, w ≠ 0) :
    ReadsAs T (Endian.little.mark16 ++ ws.flatMap Endian.little.bytes16) .char16 ws .utf16le ↔
      ∃ w ∈ ws.head?, w.toUInt8 ≠ 0 := by
  cases ws with
  | nil =>
    -- the machine still expects the third byte of a mark
    have hdetect : .ofBytes Endian.little.mark16 = Framing.detecting Endian.little.mark16 := by
      decide
    constructor
    · intro h
      exact absurd (h.encoding_eq hdetect) (by decide)
    · rintro ⟨w, hw, -⟩
      cases hw
  | cons w ws =>
    have hbytes : (w :: ws).flatMap Endian.little.bytes16 =
        w.toUInt8 :: (w >>> 8).toUInt8 :: ws.flatMap Endian.little.bytes16 := rfl
    constructor
    · intro h
      refine ⟨w, rfl, fun hlow => ?_⟩
      -- with a low byte 00 the high byte is not 00, and it takes the mark back
      have hhigh : (w >>> 8).toUInt8 ≠ 0 := by
        intro hhigh
        have hjoin := Endian.big.join16_bytes16 w
        rw [Endian.bytes16, hlow, hhigh] at hjoin
        exact hws w rfl hjoin.symm
      rw [hbytes, hlow] at h
      exact absurd (h.encoding_eq (Framing.ofBytes_taken_back hhigh _)) (by simp [Framing.encoding])
    · rintro ⟨w', hw', hlow⟩
      obtain rfl := Option.mem_some_iff.mp hw'
      exact readsAs_utf16 (by rw [hbytes, Framing.ofBytes_mark16_little hlow])

theorem run_of_mark_utf16le_ascii :
    ReadsAs .char8 (Endian.little.mark16 ++ [0x0041].flatMap Endian.little.bytes16)
      .char16 [0x0041] .utf16le :=
  (run_of_mark_utf16le_iff .char8 [0x0041] (by simp)).mpr ⟨_, rfl, by decide⟩

/-- The text U+0100 in UTF-16 LE, with its mark, is taken to be UTF-8. -/
theorem not_run_of_mark_utf16le_latin :
    (∀ w ∈ [(0x0100 : UInt16)].head?, w ≠ 0) ∧
      ¬ ReadsAs .char8 (Endian.little.mark16 ++ [0x0100].flatMap Endian.little.bytes16)
        .char16 [0x0100] .utf16le := by
  refine ⟨by simp, ?_⟩
  rintro ⟨-, -, henc⟩
  exact absurd henc (by decide)

/-! ### Streams without a mark -/

/-- All five byte order marks. -/
def byteOrderMarks : List (List UInt8) :=
  [utf8Mark, Endian.big.mark16, Endian.little.mark16, Endian.big.mark32, Endian.little.mark32]

/-- The whole input is the begin of a mark of UTF-16 or UTF-32. -/
def IsTruncatedMark (bytes : List UInt8) : Prop :=
  bytes ≠ [] ∧ ∃ m ∈ byteOrderMarks.tail, bytes <+: m ∧ bytes ≠ m

instance (bytes : List UInt8) : Decidable (IsTruncatedMark bytes) :=
  inferInstanceAs (Decidable (_ ∧ _))

/-- The truncated marks that are not complete marks themselves. -/
private theorem mem_of_isTruncatedMark {bytes : List UInt8} (h : IsTruncatedMark bytes)
    (hmark : ∀ m ∈ byteOrderMarks, ¬ m <+: bytes) :
    bytes ∈ [[0xFE], [0xFF], [0x00], [0x00, 0x00], [0x00, 0x00, 0xFE]] := by
  obtain ⟨hne, m, hm, hpre, hne'⟩ := h
  have hall : ∀ m ∈ byteOrderMarks.tail, ∀ p ∈ m.inits, p ≠ [] → p ≠ m →
      (∀ m ∈ byteOrderMarks, ¬ m <+: p) →
        p ∈ [[0xFE], [0xFF], [0x00], [0x00, 0x00], [0x00, 0x00, (0xFE : UInt8)]] := by
    decide
  exact hall m hm bytes ((List.mem_inits _ _).mpr hpre) hne hne' hmark

/-- **A stream without a mark** is read as UTF-8 exactly when it is not the begin of a mark of
UTF-16 or UTF-32: such a begin is replayed with a byte 00 in excess. -/
theorem run_of_no_mark_iff (T : CharType) (bytes : List UInt8)
    (hmark : ∀ m ∈ byteOrderMarks, ¬ m <+: bytes) :
    ReadsAs T bytes .char8 bytes .utf8 ↔ ¬ IsTruncatedMark bytes := by
  constructor
  · rintro ⟨hout, -, -⟩ htrunc
    -- five inputs are left, on which the two runs are computed
    have hmem := mem_of_isTruncatedMark htrunc hmark
    fin_cases hmem <;> cases T <;> exact absurd hout (by decide)
  · intro hnot
    have hacc := Framing.accounts_ofBytes bytes
    cases hf : Framing.ofBytes bytes with
    | detecting seen =>
      rw [hf] at hacc
      obtain ⟨rfl, hseen⟩ := hacc
      -- the begin of the mark of UTF-8 is dropped as one piece, with or without the byte 00
      have hutf8 : ReadsAs T [0xEF] .char8 [0xEF] .utf8 ∧
          ReadsAs T [0xEF, 0xBB] .char8 [0xEF, 0xBB] .utf8 := by
        cases T <;> exact ⟨⟨by decide, by decide, by decide⟩, by decide, by decide, by decide⟩
      have hcases : ∀ seen ∈ partialMarks, (∀ m ∈ byteOrderMarks, ¬ m <+: seen) →
          ¬ IsTruncatedMark seen → seen = [] ∨ seen = [0xEF] ∨ seen = [0xEF, 0xBB] := by
        decide
      rcases hcases bytes hseen hmark hnot with rfl | rfl | rfl
      · exact readsAs_of_ofBytes hf
      · exact hutf8.1
      · exact hutf8.2
    | utf8 p =>
      rw [hf] at hacc
      rcases hacc with rfl | rfl
      · exact readsAs_of_ofBytes hf
      · exact absurd (List.prefix_append _ _) (hmark utf8Mark (by decide))
    | utf16 e p =>
      rw [hf] at hacc
      exact absurd ⟨p, hacc.symm⟩ (hmark e.mark16 (by cases e <;> decide))
    | utf32 e p =>
      rw [hf] at hacc
      exact absurd ⟨p, hacc.symm⟩ (hmark e.mark32 (by cases e <;> decide))

theorem run_of_no_mark_ascii : ReadsAs .char16 [0x41] .char8 [0x41] .utf8 :=
  (run_of_no_mark_iff .char16 [0x41] (by decide)).mpr (by decide)

/-- A stream of the single byte FE is replayed as FE 00. -/
theorem not_run_of_no_mark_fe :
    (∀ m ∈ byteOrderMarks, ¬ m <+: [0xFE]) ∧ ¬ ReadsAs .char8 [0xFE] .char8 [0xFE] .utf8 := by
  refine ⟨by decide, ?_⟩
  rintro ⟨hout, -, -⟩
  exact absurd hout (by decide)

/-! ### Intermediate encodings -/

/-- **An intermediate encoding makes no difference**: not for the units written, not for what the
flag says about the input, and not for the encoding detected. -/
theorem by_way_of (M T : CharType) :
    (∀ (F : CharType) (xs : List F.Unit),
      let first := (transcoder F M).run xs
      let second := (transcoder M T).run first.2
      let direct := (transcoder F T).run xs
      second.2 = direct.2 ∧ (transcoder M T).wellFormed second.1 = true ∧
        (transcoder F M).wellFormed first.1 = (transcoder F T).wellFormed direct.1) ∧
    ∀ xs : List UInt8,
      let first := (tx M).run xs
      let second := (transcoder M T).run first.2
      let direct := (tx T).run xs
      second.2 = direct.2 ∧ (transcoder M T).wellFormed second.1 = true ∧
        (tx M).wellFormed first.1 = (tx T).wellFormed direct.1 ∧
        first.1.selectedEncoding = direct.1.selectedEncoding := by
  have hunits : ∀ (F : CharType) (xs : List F.Unit),
      ((transcoder M T).run ((transcoder F M).run xs).2).2 = ((transcoder F T).run xs).2 ∧
        (transcoder M T).wellFormed
          ((transcoder M T).run ((transcoder F M).run xs).2).1 = true ∧
        (transcoder F M).wellFormed ((transcoder F M).run xs).1 =
          (transcoder F T).wellFormed ((transcoder F T).run xs).1 := by
    intro F xs
    rw [(transcoder_run M T _).1, (transcoder_run M T _).2, (transcoder_run F M xs).1,
      (transcoder_run F M xs).2, (transcoder_run F T xs).1, (transcoder_run F T xs).2]
    exact ⟨F.decodeTo_decodeTo M T xs, F.read_decodeTo M xs, rfl⟩
  refine ⟨hunits, fun xs => ?_⟩
  -- both byte transcoders run over the text of one framing
  obtain ⟨hout, hwf, henc⟩ := Framing.tx_run M xs
  obtain ⟨hout', hwf', henc'⟩ := Framing.tx_run T xs
  obtain ⟨hunit, hsecond, hfirst⟩ := hunits (Framing.ofBytes xs).text.1 (Framing.ofBytes xs).text.2
  simp only [hout, hout', hwf, hwf', henc, henc']
  exact ⟨hunit, hsecond, hfirst, trivial⟩

end Icubaby
