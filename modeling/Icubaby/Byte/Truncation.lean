import Icubaby.Byte.Simulation
import Icubaby.Transcoder.Laws
import Icubaby.Transcoder.Online

/-!
# Streams cut inside a code unit

The byte transcoder holds bytes back in two places: in the buffer, while a code unit is incomplete,
and in the code-unit transcoder. `partial ()`, `end_cp` and `well_formed ()` ask the code-unit
transcoder only. So a stream of UTF-16 or UTF-32 that is cut inside a code unit is reported exactly
when the code units before the cut end with a high surrogate (`cut_reported_iff`).
-/

namespace Icubaby

namespace Encoding

/-- The number of bytes of a code unit. -/
def unitSize : Encoding → ℕ
  | .utf16be | .utf16le => 2
  | .utf32be | .utf32le => 4
  | .utf8 | .unknown => 1

/-- The byte order mark of an encoding. -/
def mark : Encoding → List UInt8
  | .utf8 => utf8Mark
  | .utf16be => Endian.big.mark16
  | .utf16le => Endian.little.mark16
  | .utf32be => Endian.big.mark32
  | .utf32le => Endian.little.mark32
  | .unknown => []

/-- The encoding is UTF-16, and the last complete code unit of the bytes is a high surrogate. -/
def EndsHigh (E : Encoding) (bytes : List UInt8) : Prop :=
  match E with
  | .utf16be => ∃ w ∈ (Endian.big.assembler16.feed [] bytes).2.getLast?, IsHighSurrogate w.toNat
  | .utf16le => ∃ w ∈ (Endian.little.assembler16.feed [] bytes).2.getLast?, IsHighSurrogate w.toNat
  | _ => False

end Encoding

/-- The input is reported as incomplete: `partial ()` before `end_cp` and not `well_formed ()`
after it. -/
def ReportsCut {σ α β : Type} (t : Transcoder σ α β) (xs : List α) : Prop :=
  t.isPartial (t.feed t.init xs).1 = true ∧ t.wellFormed (t.run xs).1 = false

/-- A code-unit transcoder reports what is undecided. -/
theorem reportsCut_transcoder_iff (F T : CharType) (us : List F.Unit) :
    ReportsCut (transcoder F T) us ↔ F.rest us ≠ [] := by
  have hpart := (transcoder_feed F T us).2.2
  rw [ReportsCut, ← Bool.not_eq_false, hpart, ← Bool.not_eq_true, wellFormed_run_iff]
  refine and_iff_left_of_imp fun hrest hwf => hrest ?_
  exact CharType.rest_eq_nil_of_wellFormed hwf

namespace Framing

variable {T : CharType}

/-- While a mark is being identified no encoding is selected. -/
theorem HoldsBack.selectedEncoding {seen : List UInt8} {b : ByteTranscoder T}
    (h : HoldsBack seen b) : b.selectedEncoding = .unknown := by
  cases h <;> simp [ByteTranscoder.selectedEncoding]

/-- The byte transcoder reports what its code-unit transcoder reports, in UTF-16 -/
theorem reportsCut_tx_utf16 {bytes p : List UInt8} {e : Endian} (hf : ofBytes bytes = utf16 e p) :
    (ReportsCut (tx T) bytes ↔
        ReportsCut (transcoder .char16 T) (e.assembler16.feed [] p).2) ∧
      ((tx T).feed (tx T).init bytes).1.selectedEncoding = (utf16 e p).encoding := by
  have hholds := holds_ofBytes T bytes
  have hwf := (tx_run T bytes).2.1
  rw [hf] at hholds hwf
  obtain ⟨hstate, -, hvar, -⟩ := hholds
  refine ⟨?_, selectedEncoding_run16 hstate p⟩
  rw [ReportsCut, hwf, ReportsCut, show (tx T).isPartial _ = ByteTranscoder.isPartial _ from rfl,
    ByteTranscoder.isPartial, hvar]
  exact Iff.rfl

/-- and in UTF-32. -/
theorem reportsCut_tx_utf32 {bytes p : List UInt8} {e : Endian} (hf : ofBytes bytes = utf32 e p) :
    (ReportsCut (tx T) bytes ↔
        ReportsCut (transcoder .char32 T) (e.assembler32.feed [] p).2) ∧
      ((tx T).feed (tx T).init bytes).1.selectedEncoding = (utf32 e p).encoding := by
  have hholds := holds_ofBytes T bytes
  have hwf := (tx_run T bytes).2.1
  rw [hf] at hholds hwf
  obtain ⟨hstate, -, hvar, -⟩ := hholds
  refine ⟨?_, selectedEncoding_run32 hstate p⟩
  rw [ReportsCut, hwf, ReportsCut, show (tx T).isPartial _ = ByteTranscoder.isPartial _ from rfl,
    ByteTranscoder.isPartial, hvar]
  exact Iff.rfl

/-- An encoding of more than one byte for a code unit is selected by its mark only. -/
theorem of_selectedEncoding {bytes : List UInt8} {E : Encoding} (hwide : 1 < E.unitSize)
    (hsel : ((tx T).feed (tx T).init bytes).1.selectedEncoding = E) :
    (∃ e p, ofBytes bytes = utf16 e p ∧ E = (utf16 e p).encoding) ∨
      ∃ e p, ofBytes bytes = utf32 e p ∧ E = (utf32 e p).encoding := by
  have hholds := holds_ofBytes T bytes
  cases hf : ofBytes bytes with
  | detecting seen =>
    rw [hf] at hholds
    rw [← hsel, hholds.1.selectedEncoding] at hwide
    exact absurd hwide (by decide)
  | utf8 p =>
    rw [hf] at hholds
    rw [← hsel, ByteTranscoder.selectedEncoding, hholds.1, States.selectedEncoding_eq.1] at hwide
    exact absurd hwide (by decide)
  | utf16 e p => exact .inl ⟨e, p, rfl, hsel.symm.trans (reportsCut_tx_utf16 hf).2⟩
  | utf32 e p => exact .inr ⟨e, p, rfl, hsel.symm.trans (reportsCut_tx_utf32 hf).2⟩

end Framing

/-- **A stream of UTF-16 or UTF-32** is reported as incomplete, by `partial ()` before `end_cp` and
by `well_formed ()` after it, exactly when its last complete code unit is a high surrogate of
UTF-16. Bytes of a code unit after that, which are there when the stream is cut inside one, make no
difference. -/
theorem cut_reported_iff (T : CharType) (bytes : List UInt8) (E : Encoding)
    (hwide : 1 < E.unitSize)
    (hsel : ((tx T).feed (tx T).init bytes).1.selectedEncoding = E) :
    ReportsCut (tx T) bytes ↔ E.EndsHigh (bytes.drop E.mark.length) := by
  have hacc := Framing.accounts_ofBytes bytes
  rcases Framing.of_selectedEncoding hwide hsel with ⟨e, p, hf, rfl⟩ | ⟨e, p, hf, rfl⟩
  · rw [hf] at hacc
    have hmark : (Framing.utf16 e p).encoding.mark = e.mark16 := by cases e <;> rfl
    obtain rfl : bytes = e.mark16 ++ p := hacc
    rw [(Framing.reportsCut_tx_utf16 hf).1, reportsCut_transcoder_iff, hmark, List.drop_left,
      CharType.rest, utf16Rest_ne_nil_iff]
    cases e <;> exact Iff.rfl
  · -- nothing is undecided in UTF-32
    rw [(Framing.reportsCut_tx_utf32 hf).1, reportsCut_transcoder_iff, CharType.rest]
    cases e <;> exact iff_of_false (fun h => h rfl) id

/-- A high surrogate D83D and one byte, in UTF-16 BE. -/
theorem cut_reported_high :
    ReportsCut (tx .char8) [0xFE, 0xFF, 0xD8, 0x3D, 0x00] ↔
      Encoding.EndsHigh .utf16be ([0xFE, 0xFF, 0xD8, 0x3D, 0x00].drop 2) :=
  cut_reported_iff .char8 _ .utf16be (by decide) (by decide)

/-- The mark of UTF-16 BE and one byte: the stream is taken to be complete and well formed. -/
theorem not_cut_reported_mark :
    ((tx .char8).feed (tx .char8).init [0xFE, 0xFF, 0x00]).1.selectedEncoding = .utf16be ∧
      ¬ 2 ∣ [0xFE, 0xFF, (0x00 : UInt8)].length - Encoding.utf16be.mark.length ∧
      ¬ ReportsCut (tx .char8) [0xFE, 0xFF, 0x00] := by
  refine ⟨by decide, by decide, ?_⟩
  rintro ⟨hpart, -⟩
  exact absurd hpart (by decide)

end Icubaby
