import Icubaby.Transcoder.Family
import Icubaby.Ranges.Traversal

/-!
# Views of code units

`transcode_view<FromEncoding, ToEncoding>` for the nine transcoders between character types. What
makes its traversals come out right is a property of single calls: whatever the state, a call and
the flush after it write something between them, so an iterator that has not consumed its input
always has a unit to show; and what they write is one code point or, from UTF-16 only, two code
points below U+10000, which is what the array is sized for.
-/

namespace Icubaby

open TranscodeView

variable {σ τ : Type} {F T : CharType}

/-- `max_output_bytes<FromEncoding, ToEncoding>` -/
def maxOutputBytes : CharType → CharType → ℕ
  | .char16, .char8 => 6
  | .char16, .char32 => 2
  | _, T => T.longestSequence

/-! ### The length of a word -/

/-- The array of a view of UTF-16 has room for the words of two code points below U+10000. -/
theorem length_word_le_of_bmp (T : CharType) {c : Char} (hc : c.toNat ≤ 0xFFFF) :
    2 * (T.code.word c).length ≤ maxOutputBytes .char16 T := by
  rw [CharType.length_word]
  cases T with
  | char8 =>
    rw [CharType.wordLength, maxOutputBytes]
    split_ifs <;> omega
  | char16 =>
    rw [CharType.wordLength, if_pos hc]
    exact le_rfl
  | char32 => exact le_rfl

theorem longestSequence_le_maxOutputBytes (F T : CharType) :
    T.longestSequence ≤ maxOutputBytes F T := by
  cases F <;> cases T <;> decide

/-! ### The code points of one call -/

/-- The code points that a call of a decoder from `F` and the flush after it write. -/
def CallWrites (F : CharType) (us : List UInt32) : Prop :=
  us.length = 1 ∨ F = .char16 ∧ us.length = 2 ∧ ∀ u ∈ us, u.toNat ≤ 0xFFFF

theorem CallWrites.ne_nil {us : List UInt32} (h : CallWrites F us) : us ≠ [] := by
  rintro rfl
  rcases h with h | ⟨-, h, -⟩ <;> simp at h

/-- The scalar value that a unit is read as is the unit or U+FFFD. -/
private theorem toNat_utf32Value_getD {u : UInt32} (hu : u.toNat ≤ 0xFFFF) :
    ((utf32Value u).getD replacement).toNat ≤ 0xFFFF := by
  cases h : utf32Value u with
  | none =>
    rw [Option.getD_none, toNat_replacement]
    decide
  | some c =>
    rw [Option.getD_some, ← Char.toNat_val, val_of_utf32Value h]
    exact hu

/-- **The array is large enough** for the encodings of the code points of one call. -/
theorem CallWrites.length_encode_le {us : List UInt32} (h : CallWrites F us) (T : CharType) :
    (T.code.encode (CharType.char32.scalars us)).length ≤ maxOutputBytes F T := by
  rcases h with h | ⟨rfl, h, hbmp⟩
  · obtain ⟨u, rfl⟩ := List.length_eq_one_iff.mp h
    have hle := length_word_le T ((utf32Value u).getD replacement)
    have hmax := longestSequence_le_maxOutputBytes F T
    simp only [CharType.scalars, CharType.read, List.map_cons, List.map_nil,
      PrefixCode.encode_cons, PrefixCode.encode_nil, List.append_nil]
    omega
  · -- two code points, neither of which takes more than half of the array
    obtain ⟨u, u', rfl⟩ := List.length_eq_two.mp h
    have hle := length_word_le_of_bmp T (toNat_utf32Value_getD (hbmp u (by simp)))
    have hle' := length_word_le_of_bmp T (toNat_utf32Value_getD (hbmp u' (by simp)))
    simp only [CharType.scalars, CharType.read, List.map_cons, List.map_nil,
      PrefixCode.encode_cons, PrefixCode.encode_nil, List.append_nil, List.length_append]
    omega

/-- Something is written for at least one code point. -/
theorem encode_scalars_ne_nil (T : CharType) {us : List UInt32} (h : us ≠ []) :
    T.code.encode (CharType.char32.scalars us) ≠ [] := by
  obtain ⟨u, us, rfl⟩ := List.exists_cons_of_ne_nil h
  simp only [CharType.scalars, CharType.read, List.map_cons, PrefixCode.encode_cons]
  exact List.append_ne_nil_of_left_ne_nil (T.code.word_ne_nil _) _

/-- The calls of a decoder from `F` to UTF-32, from whatever state. -/
structure DecoderCalls (F : CharType) (t : Transcoder σ F.Unit UInt32) : Prop
    extends Latches t where
  /-- A call and the flush after it write one code point, or two below U+10000. -/
  writes (s x) : CallWrites F ((t.step s x).2 ++ (t.finish (t.step s x).1).2)
  /-- The flush writes U+FFFD or nothing. -/
  flushes (s) : (t.finish s).2 = [] ∨ (t.finish s).2 = [replacement.val]

theorem decoderCalls_t8_32 : DecoderCalls .char8 t8_32 where
  finish_init := rfl
  of_step {s x} h := by
    change (s.call x).1.wellFormed = true at h
    simp only [T8To32.call, T8To32.callWith] at h
    split_ifs at h <;> exact h
  of_finish {s} h := by
    change s.endCp.1.wellFormed = true at h
    rw [T8To32.endCp] at h
    split_ifs at h
    exact h
  finish_finish s := by
    change s.endCp.1.endCp.1.wellFormed = s.endCp.1.wellFormed
    by_cases hs : s.state = T8To32.accept
    · have hend : s.endCp = (s, []) := if_neg (not_not.mpr hs)
      rw [hend, hend]
    · have hend : s.endCp.1 = { s with state := T8To32.reject, wellFormed := false } := by
        rw [T8To32.endCp, if_pos hs]
      rw [hend]
      rfl
  writes s x := .inl (T8To32.length_call_endCp s x)
  flushes s := by
    change s.endCp.2 = [] ∨ s.endCp.2 = _
    rw [T8To32.endCp]
    split_ifs
    · exact .inr rfl
    · exact .inl rfl

theorem decoderCalls_t16_32 : DecoderCalls .char16 t16_32 where
  finish_init := rfl
  of_step {s x} h := by
    change (s.call x).1.wellFormed = true at h
    simp only [T16To32.call] at h
    split_ifs at h <;> exact h
  of_finish {s} h := by
    change s.endCp.1.wellFormed = true at h
    rw [T16To32.endCp] at h
    split_ifs at h
    exact h
  finish_finish s := by
    obtain ⟨high, hasHigh, wf⟩ := s
    cases hasHigh <;> rfl
  writes s x := by
    change CallWrites .char16 ((s.call x).2 ++ (s.call x).1.endCp.2)
    have hrepl : (UInt32.ofNat replacementChar).toNat ≤ 0xFFFF := by decide
    have hx : (UInt32.ofNat x.toNat).toNat ≤ 0xFFFF := by
      have hlt := x.toNat_lt
      rw [UInt32.toNat_ofNat', Nat.mod_eq_of_lt (by omega)]
      omega
    obtain ⟨high, hasHigh, wf⟩ := s
    cases hasHigh with
    | false =>
      by_cases hhigh : IsHighSurrogate x.toNat
      · rw [T16To32.call_of_high rfl hhigh]
        exact .inl rfl
      by_cases hlow : IsLowSurrogate x.toNat
      · rw [T16To32.call_of_stray_low rfl hlow hhigh]
        exact .inl rfl
      · rw [T16To32.call_of_not_surrogate rfl (not_or.mpr ⟨hhigh, hlow⟩)]
        exact .inl rfl
    | true =>
      by_cases hlow : IsLowSurrogate x.toNat
      · rw [T16To32.call_of_pair rfl hlow]
        exact .inl rfl
      by_cases hhigh : IsHighSurrogate x.toNat
      · -- the surrogate just remembered is replaced by the flush
        rw [T16To32.call_of_second_high rfl hhigh hlow]
        refine .inr ⟨rfl, rfl, ?_⟩
        simp only [T16To32.endCp, if_true, List.cons_append, List.nil_append, List.mem_cons,
          List.not_mem_nil, or_false, or_self]
        rintro u rfl
        exact hrepl
      · rw [T16To32.call_of_broken_pair rfl (not_or.mpr ⟨hhigh, hlow⟩)]
        refine .inr ⟨rfl, rfl, ?_⟩
        simp only [T16To32.endCp, Bool.false_eq_true, if_false, List.append_nil, List.mem_cons,
          List.not_mem_nil, or_false]
        rintro u (rfl | rfl)
        · exact hrepl
        · exact hx
  flushes s := by
    change s.endCp.2 = [] ∨ s.endCp.2 = _
    rw [T16To32.endCp]
    split_ifs
    · exact .inr rfl
    · exact .inl rfl

/-! ### The transcoders -/

theorem CallWrites.length_le {us : List UInt32} (h : CallWrites F us) :
    us.length ≤ maxOutputBytes F .char32 := by
  rcases h with h | ⟨rfl, h, -⟩
  · exact h.trans_le (longestSequence_le_maxOutputBytes F .char32)
  · exact h.le

theorem DecoderCalls.length_finish_le {t : Transcoder σ F.Unit UInt32} (h : DecoderCalls F t)
    (s : σ) : (t.finish s).2.length ≤ 1 := by
  rcases h.flushes s with hs | hs
  · rw [hs]
    exact Nat.zero_le _
  · rw [hs]
    exact le_rfl

theorem DecoderCalls.fits {t : Transcoder σ F.Unit UInt32} (h : DecoderCalls F t) :
    Fits t (maxOutputBytes F .char32) where
  toLatches := h.toLatches
  length_step_le s x := by
    rw [← List.length_append]
    exact (h.writes s x).length_le
  length_finish_le s := (h.length_finish_le s).trans
    (longestSequence_le_maxOutputBytes F .char32)

/-- A view of a decoder is productive, whatever it is fed. -/
theorem DecoderCalls.productive {t : Transcoder σ F.Unit UInt32} (h : DecoderCalls F t) (s : σ)
    (xs : List F.Unit) : t.Productive s xs := by
  intro ys x hys
  rw [hys, Transducer.feed_append, Transducer.feed_singleton, ← not_and_or,
    ← List.append_eq_nil_iff]
  exact (h.writes _ x).ne_nil

namespace IsEncoder

variable {t : Transcoder σ UInt32 T.Unit}

theorem latches (h : IsEncoder T t) : Latches t where
  finish_init := by rw [h.finish, h.wellFormed_init]
  of_step {s u} hwf := by
    rw [(h.step s u).2, Bool.and_eq_true] at hwf
    exact hwf.1
  of_finish {s} hwf := by rwa [h.finish] at hwf
  finish_finish s := by rw [h.finish, h.finish]

theorem fits (h : IsEncoder T t) : Fits t (maxOutputBytes .char32 T) where
  toLatches := h.latches
  length_step_le s u := by
    rw [h.finish, (h.step s u).1]
    exact (length_word_le T _).trans (longestSequence_le_maxOutputBytes .char32 T)
  length_finish_le s := by
    rw [h.finish]
    exact Nat.zero_le _

theorem productive (h : IsEncoder T t) (s : σ) (us : List UInt32) : t.Productive s us := by
  intro vs u _
  refine .inl ?_
  rw [(h.step _ u).1]
  exact T.code.word_ne_nil _

/-- U+FFFD is a scalar value, so encoding what a decoder flushes leaves the flag alone. -/
theorem wellFormed_runFrom_flush (h : IsEncoder T t) (s : σ) {us : List UInt32}
    (hus : us = [] ∨ us = [replacement.val]) :
    t.wellFormed (t.runFrom s us).1 = t.wellFormed s := by
  rw [(h.runFrom s us).2]
  rcases hus with rfl | rfl
  · exact Bool.and_true _
  · simp [CharType.read, utf32Value_val]

end IsEncoder

namespace DecoderCalls

variable {t : Transcoder σ F.Unit UInt32} {t' : Transcoder τ UInt32 T.Unit}

/-- What a call of the triangulator and the flush after it write. -/
theorem triangulator_writes (h' : IsEncoder T t') (s : σ × τ) (x : F.Unit) :
    ((triangulator t t').step s x).2 ++
        ((triangulator t t').finish ((triangulator t t').step s x).1).2 =
      T.code.encode (CharType.char32.scalars ((t.step s.1 x).2 ++
        (t.finish (t.step s.1 x).1).2)) := by
  have hstep : (triangulator t t').step s x =
      (((t.step s.1 x).1, (t'.feed s.2 (t.step s.1 x).2).1), (t'.feed s.2 (t.step s.1 x).2).2) :=
    rfl
  have hfinish : ∀ p : σ × τ, ((triangulator t t').finish p).2 =
      (t'.runFrom p.2 (t.finish p.1).2).2 := fun p => rfl
  rw [hstep, hfinish, (h'.feed _ _).1, (h'.runFrom _ _).1]
  simp [CharType.scalars, CharType.read, PrefixCode.encode]

/-- The flag after the flush of the triangulator. -/
private theorem wellFormed_finish_triangulator (h : DecoderCalls F t) (h' : IsEncoder T t')
    (s : σ × τ) : (triangulator t t').wellFormed ((triangulator t t').finish s).1 =
      (t.wellFormed (t.finish s.1).1 && t'.wellFormed s.2) := by
  rw [← h'.wellFormed_runFrom_flush s.2 (h.flushes s.1)]
  rfl

theorem latches_triangulator (h : DecoderCalls F t) (h' : IsEncoder T t') :
    Latches (triangulator t t') where
  finish_init := by
    rw [wellFormed_finish_triangulator h h', Bool.and_eq_true]
    exact ⟨h.finish_init, h'.wellFormed_init⟩
  of_step {s x} hwf := by
    have hstep : (triangulator t t').wellFormed ((triangulator t t').step s x).1 =
        (t.wellFormed (t.step s.1 x).1 &&
          t'.wellFormed (t'.feed s.2 (t.step s.1 x).2).1) := rfl
    rw [hstep, (h'.feed _ _).2] at hwf
    simp only [Bool.and_eq_true] at hwf
    exact Bool.and_eq_true_iff.mpr ⟨h.of_step hwf.1, hwf.2.1⟩
  of_finish {s} hwf := by
    rw [wellFormed_finish_triangulator h h', Bool.and_eq_true] at hwf
    exact Bool.and_eq_true_iff.mpr ⟨h.of_finish hwf.1, hwf.2⟩
  finish_finish s := by
    have hstates : ((triangulator t t').finish s).1 =
        ((t.finish s.1).1, (t'.runFrom s.2 (t.finish s.1).2).1) := rfl
    rw [wellFormed_finish_triangulator h h', wellFormed_finish_triangulator h h', hstates]
    dsimp only
    rw [h.finish_finish, h'.wellFormed_runFrom_flush s.2 (h.flushes s.1)]

/-- A flush writes at most one code point, in whatever state. -/
theorem length_finish_triangulator_le (h : DecoderCalls F t) (h' : IsEncoder T t') (s : σ × τ) :
    ((triangulator t t').finish s).2.length ≤ T.longestSequence := by
  have hfinish : ((triangulator t t').finish s).2 = (t'.runFrom s.2 (t.finish s.1).2).2 := rfl
  rw [hfinish, (h'.runFrom _ _).1]
  rcases h.flushes s.1 with hs | hs
  · rw [hs, CharType.scalars_nil]
    exact Nat.zero_le _
  · have hword : T.code.encode (CharType.char32.scalars [replacement.val]) =
        T.code.word replacement := by
      simp [CharType.scalars, CharType.read, utf32Value_val]
    rw [hs, hword]
    exact length_word_le T replacement

theorem fits_triangulator (h : DecoderCalls F t) (h' : IsEncoder T t') :
    Fits (triangulator t t') (maxOutputBytes F T) where
  toLatches := h.latches_triangulator h'
  length_step_le s x := by
    rw [← List.length_append, triangulator_writes h']
    exact (h.writes s.1 x).length_encode_le T
  length_finish_le s := (h.length_finish_triangulator_le h' s).trans
    (longestSequence_le_maxOutputBytes F T)

theorem productive_triangulator (h : DecoderCalls F t) (h' : IsEncoder T t') (s : σ × τ)
    (xs : List F.Unit) : (triangulator t t').Productive s xs := by
  intro ys x hys
  rw [hys, Transducer.feed_append, Transducer.feed_singleton, ← not_and_or,
    ← List.append_eq_nil_iff, triangulator_writes h']
  exact encode_scalars_ne_nil T (h.writes _ x).ne_nil

end DecoderCalls

/-- **The array of a view is large enough**, for every pair of character types. -/
theorem fits_transcoder (F T : CharType) : Fits (transcoder F T) (maxOutputBytes F T) := by
  cases F with
  | char8 =>
    cases T with
    | char8 => exact decoderCalls_t8_32.fits_triangulator isEncoder_t32_8
    | char16 => exact decoderCalls_t8_32.fits_triangulator isEncoder_t32_16
    | char32 => exact decoderCalls_t8_32.fits
  | char16 =>
    cases T with
    | char8 => exact decoderCalls_t16_32.fits_triangulator isEncoder_t32_8
    | char16 => exact decoderCalls_t16_32.fits_triangulator isEncoder_t32_16
    | char32 => exact decoderCalls_t16_32.fits
  | char32 =>
    cases T with
    | char8 => exact isEncoder_t32_8.fits
    | char16 => exact isEncoder_t32_16.fits
    | char32 => exact isEncoder_t32_32.fits

/-- A flush writes at most one code point, in whatever state. -/
theorem length_finish_le (F T : CharType) (s : TranscoderState F T) :
    ((transcoder F T).finish s).2.length ≤ T.longestSequence := by
  cases F with
  | char8 =>
    cases T with
    | char8 => exact decoderCalls_t8_32.length_finish_triangulator_le isEncoder_t32_8 s
    | char16 => exact decoderCalls_t8_32.length_finish_triangulator_le isEncoder_t32_16 s
    | char32 => exact decoderCalls_t8_32.length_finish_le s
  | char16 =>
    cases T with
    | char8 => exact decoderCalls_t16_32.length_finish_triangulator_le isEncoder_t32_8 s
    | char16 => exact decoderCalls_t16_32.length_finish_triangulator_le isEncoder_t32_16 s
    | char32 => exact decoderCalls_t16_32.length_finish_le s
  | char32 =>
    have hmax : maxOutputBytes .char32 T = T.longestSequence := by cases T <;> rfl
    rw [← hmax]
    exact (fits_transcoder .char32 T).length_finish_le s

/-- **The input of a view always ends in something written.** -/
theorem productive_transcoder (F T : CharType) (s : TranscoderState F T) (us : List F.Unit) :
    (transcoder F T).Productive s us := by
  cases F with
  | char8 =>
    cases T with
    | char8 => exact decoderCalls_t8_32.productive_triangulator isEncoder_t32_8 s us
    | char16 => exact decoderCalls_t8_32.productive_triangulator isEncoder_t32_16 s us
    | char32 => exact decoderCalls_t8_32.productive s us
  | char16 =>
    cases T with
    | char8 => exact decoderCalls_t16_32.productive_triangulator isEncoder_t32_8 s us
    | char16 => exact decoderCalls_t16_32.productive_triangulator isEncoder_t32_16 s us
    | char32 => exact decoderCalls_t16_32.productive s us
  | char32 =>
    cases T with
    | char8 => exact isEncoder_t32_8.productive s us
    | char16 => exact isEncoder_t32_16.productive s us
    | char32 => exact isEncoder_t32_32.productive s us

/-- **Traversals of `transcode_view`.** For all character types and every underlying sequence, the
units yielded from `begin ()` to the end are those that a fresh transcoder writes for the sequence
and the flush, and the flag of the view is that of the transcoder; no call of `fill` writes more
than the array holds, and no iterator before the end has an empty buffer. -/
theorem traverse_transcoder (F T : CharType) (us : List F.Unit) :
    (∃ fuel v, traverse (transcoder F T) fuel (begin (transcoder F T) ⟨us, true⟩).1
        (begin (transcoder F T) ⟨us, true⟩).2 = .ok (((transcoder F T).run us).2, v) ∧
        v.wellFormed = (transcoder F T).wellFormed ((transcoder F T).run us).1) ∧
      ∀ v it, Reached (transcoder F T) ⟨us, true⟩ v it →
        it.state.out.length ≤ maxOutputBytes F T ∧
          (it.atEnd v = false → it.state.empty = false) := by
  have hinit := (converts_transcoder F T).settled (converts_transcoder F T).init.1
  exact traverse_of_fits (fits_transcoder F T) (by rw [hinit]) (productive_transcoder F T _ us)

end Icubaby
