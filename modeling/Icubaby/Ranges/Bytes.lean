import Icubaby.Byte.Simulation
import Icubaby.Ranges.Units

/-!
# Views of bytes

`transcode_view<std::byte, ToEncoding>`. The byte transcoder can consume input without writing
anything at any place, and also at the end: a byte order mark with nothing after it, or a code unit
cut short. `fill` then leaves the buffer empty although the iterator is not at the end, and
dereferencing it runs into the assertion of `front`.

`Framing.EndsInUnit` says for which streams that does not happen (`faithful_tx_iff`).
-/

namespace Icubaby

open TranscodeView

variable {T : CharType}

namespace Framing

/-- The stream is not a byte order mark and nothing else, and its last code unit is complete. An
incomplete unit of UTF-16 does no harm after a high surrogate, which the flush replaces. -/
def EndsInUnit : Framing → Prop
  | detecting _ => True
  | utf8 p => p ≠ []
  | utf16 e p =>
    p ≠ [] ∧ (2 ∣ p.length ∨ ∃ w ∈ (e.assembler16.feed [] p).2.getLast?, IsHighSurrogate w.toNat)
  | utf32 _ p => p ≠ [] ∧ 4 ∣ p.length

/-- The last byte, while a mark is being identified. -/
private theorem delivered_detecting_ne_nil_iff (seen : List UInt8) (x : UInt8) :
    (detecting seen).delivered x true ≠ [] ↔ (ofSeen (seen ++ [x])).EndsInUnit := by
  rw [delivered]
  cases hf : ofSeen (seen ++ [x]) with
  | detecting seen' => exact iff_of_true (CharType.scalars_eq_nil_iff.not.mpr (by simp)) trivial
  | utf8 p => exact CharType.scalars_eq_nil_iff.not
  | utf16 e p =>
    have hlen := length_of_ofSeen.1 hf
    rw [EndsInUnit, feed_assembler16_of_ofSeen hf]
    refine iff_of_false (fun h => h rfl) ?_
    rintro ⟨hne, hdvd | ⟨w, hw, -⟩⟩
    · have hpos := List.length_pos_iff.mpr hne
      omega
    · cases hw
  | utf32 e p =>
    obtain rfl := length_of_ofSeen.2 hf
    exact iff_of_false (fun h => h rfl) fun hends => hends.1 rfl

/-- **The last byte** and the flush after it write something when the stream ends in a unit. -/
theorem delivered_ne_nil_iff (f : Framing) (x : UInt8) :
    f.delivered x true ≠ [] ↔ (f.next x).EndsInUnit := by
  cases f with
  | detecting seen => exact delivered_detecting_ne_nil_iff seen x
  | utf8 p =>
    refine iff_of_true ?_ ?_
    · exact CharType.scalars_eq_nil_iff.not.mpr (by simp)
    · rw [Framing.next, EndsInUnit]
      simp
  | utf16 e p =>
    have hlen := e.length_feed_assembler16 p
    rw [Framing.next, EndsInUnit, List.length_append, List.length_singleton,
      Transducer.feed_append, Transducer.feed_singleton, delivered]
    refine CharType.scalars_eq_nil_iff.not.trans ?_
    rcases e.assembler16_step_cases (e.assembler16.feed [] p).1 x with
      ⟨hlast, hstep⟩ | ⟨hlast, hstep⟩
    · -- the byte completes a code unit
      rw [hstep]
      exact iff_of_true (by simp) ⟨by simp, .inl (by omega)⟩
    · -- the byte is kept, so only the flush can write
      have hodd : ¬ 2 ∣ p.length + 1 := by omega
      rw [if_pos rfl, hstep, List.append_nil, List.append_nil, or_iff_right hodd,
        and_iff_right (by simp), ← utf16Rest_ne_nil_iff]
      rfl
  | utf32 e p =>
    have hlen := e.length_feed_assembler32 p
    rw [Framing.next, EndsInUnit, List.length_append, List.length_singleton, delivered]
    refine CharType.scalars_eq_nil_iff.not.trans ?_
    rcases e.assembler32_step_cases (e.assembler32.feed [] p).1 x with
      ⟨hlast, hstep⟩ | ⟨hlast, hstep⟩
    · rw [hstep]
      exact iff_of_true (by simp) ⟨by simp, by omega⟩
    · rw [hstep]
      exact iff_of_false (by simp) fun hends => absurd hends.2 (by omega)

/-- **The byte transcoder ends in output** exactly on the streams that end in a code unit. -/
theorem productive_tx_iff (T : CharType) (bytes : List UInt8) :
    (tx T).Productive (tx T).init bytes ↔ (ofBytes bytes).EndsInUnit := by
  rcases List.eq_nil_or_concat' bytes with rfl | ⟨xs, x, rfl⟩
  · refine iff_of_true ?_ trivial
    intro ys y hys
    simp at hys
  · have hwrote := (holds_ofBytes T xs).wrote x []
    rw [Transducer.wrote] at hwrote
    rw [Transducer.productive_concat_iff, ofBytes_concat, ← not_and_or, ← List.append_eq_nil_iff,
      hwrote, PrefixCode.encode_eq_nil_iff]
    exact delivered_ne_nil_iff _ x

end Framing

/-- **Traversals of a view of bytes** are faithful exactly when the stream ends in a code unit. -/
theorem faithful_tx_iff (T : CharType) (bytes : List UInt8) :
    Faithful (tx T) bytes ↔ (Framing.ofBytes bytes).EndsInUnit := by
  have hinit : ((tx T).finish (tx T).init).2 = [] := by
    simp [tx, ByteTranscoder.endCp, ByteTranscoder.run8Start]
  rw [faithful_iff_productive hinit, Framing.productive_tx_iff]

/-- After a byte order mark and nothing else, `front` finds the buffer empty. -/
theorem not_faithful_mark : ¬ Faithful (tx .char8) utf8Mark := by
  rintro ⟨hnonempty, -⟩
  exact absurd (hnonempty .begin (by decide)) (by decide)

end Icubaby
