import Icubaby.Transcoder.Basic

/-!
# The transcoder that consumes UTF-16

`transcoder<char16_t, char32_t>` remembers a high surrogate, reduced to its ten payload bits, until
it has seen the next unit. One call may write no code point, one, or two: a high surrogate that is
not followed by a low one is replaced, and the unit that revealed it is written as well.
-/

namespace Icubaby

/-- The members of `transcoder<char16_t, char32_t>`. -/
structure T16To32 where
  /-- The previous high surrogate, a field of `utf16Shift` bits. Valid if `hasHigh` is true. -/
  high : ℕ := 0
  /-- True if the previous code unit was a high surrogate. -/
  hasHigh : Bool := false
  /-- True if the input consumed is well formed. -/
  wellFormed : Bool := true
  deriving DecidableEq, Repr

namespace T16To32

/-- A high surrogate value that can be stored in the `high_` field. The source asserts that the
unit is at least `first_high_surrogate`. -/
def adjustedHigh (codeUnit : ℕ) : ℕ := codeUnit - firstHighSurrogate

/-- `operator()` -/
def call (t : T16To32) (codeUnit : UInt16) : T16To32 × List UInt32 :=
  let cu := codeUnit.toNat
  if !t.hasHigh then
    if IsHighSurrogate cu then
      ({ t with high := adjustedHigh cu % 2 ^ utf16Shift, hasHigh := true }, [])
    else if IsLowSurrogate cu then
      -- a low surrogate without a preceding high surrogate
      ({ t with wellFormed := false }, [UInt32.ofNat replacementChar])
    else (t, [UInt32.ofNat cu])
  else if IsLowSurrogate cu then
    ({ t with high := 0, hasHigh := false },
      [UInt32.ofNat (((t.high <<< utf16Shift) ||| (cu - firstLowSurrogate)) +
        utf16FirstSurrogatePair)])
  else if IsHighSurrogate cu then
    -- a second high surrogate: the first is replaced, the second remembered
    ({ t with high := adjustedHigh cu % 2 ^ utf16Shift, wellFormed := false },
      [UInt32.ofNat replacementChar])
  else
    ({ high := 0, hasHigh := false, wellFormed := false },
      [UInt32.ofNat replacementChar, UInt32.ofNat cu])

/-- `end_cp` -/
def endCp (t : T16To32) : T16To32 × List UInt32 :=
  if t.hasHigh then
    ({ high := 0, hasHigh := false, wellFormed := false }, [UInt32.ofNat replacementChar])
  else (t, [])

end T16To32

/-- `transcoder<char16_t, char32_t>` -/
def t16_32 : Transcoder T16To32 UInt16 UInt32 where
  init := {}
  step := T16To32.call
  finish := T16To32.endCp
  wellFormed := T16To32.wellFormed
  isPartial := T16To32.hasHigh

/-- The code point written for a piece of a reading in numbers. -/
def codePointUnit (o : Option ℕ) : UInt32 := UInt32.ofNat (o.getD replacementChar)

@[simp] theorem codePointUnit_none : codePointUnit none = UInt32.ofNat replacementChar := by
  rw [codePointUnit, Option.getD_none]

@[simp] theorem codePointUnit_some (n : ℕ) : codePointUnit (some n) = UInt32.ofNat n := by
  rw [codePointUnit, Option.getD_some]

namespace T16To32

/-! ### The simulation -/

/-- The units that a state stands for: none, or the high surrogate that it remembers. -/
def StandsFor (t : T16To32) (p : List UInt16) : Prop :=
  (p = [] ∧ t.hasHigh = false) ∨
    ∃ h : UInt16, p = [h] ∧ IsHighSurrogate h.toNat ∧ t.hasHigh = true ∧
      t.high = h.toNat - 0xD800

/-- A fresh decoder stands for no units. -/
theorem standsFor_init : StandsFor t16_32.init [] := .inl ⟨rfl, rfl⟩

/-- The payload of a high surrogate fits the field. -/
theorem adjustedHigh_mod {h : UInt16} (hh : IsHighSurrogate h.toNat) :
    adjustedHigh h.toNat % 2 ^ utf16Shift = h.toNat - 0xD800 := by
  rw [isHighSurrogate_iff] at hh
  rw [adjustedHigh, firstHighSurrogate, utf16Shift]
  exact Nat.mod_eq_of_lt (by omega)

/-- The code point rebuilt from the two payloads is that of the pair. -/
theorem joined_eq_pairValue {high : ℕ} {h l : UInt16} (hhigh : high = h.toNat - 0xD800)
    (hl : IsLowSurrogate l.toNat) :
    (high <<< utf16Shift ||| (l.toNat - firstLowSurrogate)) + utf16FirstSurrogatePair =
      pairValue h l := by
  rw [isLowSurrogate_iff] at hl
  have hor := or_shiftLeft (h.toNat - 0xD800) (b := l.toNat - 0xDC00) (i := 10) (by omega)
  rw [hhigh, Nat.or_comm, utf16Shift, firstLowSurrogate, hor]
  unfold utf16FirstSurrogatePair pairValue
  omega

/-- A high surrogate just remembered is what the state stands for. -/
theorem standsFor_high {x : UInt16} (hx : IsHighSurrogate x.toNat) (wf : Bool) :
    StandsFor ⟨adjustedHigh x.toNat % 2 ^ utf16Shift, true, wf⟩ [x] := by
  rw [adjustedHigh_mod hx]
  exact .inr ⟨x, rfl, hx, rfl, rfl⟩

/-! The six branches of a call. -/

theorem call_of_high {t : T16To32} {x : UInt16} (ht : t.hasHigh = false)
    (hx : IsHighSurrogate x.toNat) :
    t.call x = (⟨adjustedHigh x.toNat % 2 ^ utf16Shift, true, t.wellFormed⟩, []) := by
  simp only [call, ht, Bool.not_false, if_true, if_pos hx]

theorem call_of_stray_low {t : T16To32} {x : UInt16} (ht : t.hasHigh = false)
    (hx : IsLowSurrogate x.toNat) (hx' : ¬ IsHighSurrogate x.toNat) :
    t.call x = ({ t with wellFormed := false }, [UInt32.ofNat replacementChar]) := by
  simp only [call, ht, Bool.not_false, if_true, if_neg hx', if_pos hx]

theorem call_of_not_surrogate {t : T16To32} {x : UInt16} (ht : t.hasHigh = false)
    (hx : ¬ IsSurrogate x.toNat) : t.call x = (t, [UInt32.ofNat x.toNat]) := by
  obtain ⟨hhigh, hlow⟩ := not_or.mp hx
  simp only [call, ht, Bool.not_false, if_true, if_neg hhigh, if_neg hlow]

theorem call_of_pair {t : T16To32} {x : UInt16} (ht : t.hasHigh = true)
    (hx : IsLowSurrogate x.toNat) :
    t.call x = ({ t with high := 0, hasHigh := false },
      [UInt32.ofNat (((t.high <<< utf16Shift) ||| (x.toNat - firstLowSurrogate)) +
        utf16FirstSurrogatePair)]) := by
  simp only [call, ht, Bool.not_true, Bool.false_eq_true, if_false, if_pos hx]

theorem call_of_second_high {t : T16To32} {x : UInt16} (ht : t.hasHigh = true)
    (hx : IsHighSurrogate x.toNat) (hx' : ¬ IsLowSurrogate x.toNat) :
    t.call x = (⟨adjustedHigh x.toNat % 2 ^ utf16Shift, true, false⟩,
      [UInt32.ofNat replacementChar]) := by
  simp only [call, ht, Bool.not_true, Bool.false_eq_true, if_false, if_neg hx', if_pos hx]

theorem call_of_broken_pair {t : T16To32} {x : UInt16} (ht : t.hasHigh = true)
    (hx : ¬ IsSurrogate x.toNat) :
    t.call x = (⟨0, false, false⟩, [UInt32.ofNat replacementChar, UInt32.ofNat x.toNat]) := by
  obtain ⟨hhigh, hlow⟩ := not_or.mp hx
  simp only [call, ht, Bool.not_true, Bool.false_eq_true, if_false, if_neg hhigh, if_neg hlow]

/-- A state that remembers no surrogate stands for no units. -/
theorem StandsFor.eq_nil_iff {t : T16To32} {p : List UInt16} (h : t.StandsFor p) :
    p = [] ↔ t.hasHigh = false := by
  rcases h with ⟨rfl, ht⟩ | ⟨h, rfl, -, ht, -⟩ <;> simp [ht]

/-- **One call** settles what the remembered surrogate and the new unit decide. -/
theorem call_reads {t : T16To32} {p : List UInt16} (x : UInt16) (h : t.StandsFor p) :
    ∃ q pieces, q = utf16Rest [x] ∧ (t.call x).1.StandsFor q ∧
      (t.call x).2 = pieces.map codePointUnit ∧
      (t.call x).1.wellFormed = (t.wellFormed && pieces.all Option.isSome) ∧
      ∀ us, utf16Reading (p ++ x :: us) = pieces ++ utf16Reading (q ++ us) := by
  have hrest : utf16Rest [x] = if IsHighSurrogate x.toNat then [x] else [] :=
    utf16Rest_concat [] x
  obtain ⟨high, hasHigh, wf⟩ := t
  rcases h with ⟨rfl, ht⟩ | ⟨h, rfl, hh, ht, hhigh⟩
  · -- no surrogate is remembered
    by_cases hx : IsHighSurrogate x.toNat
    · rw [call_of_high ht hx]
      refine ⟨[x], [], by rw [hrest, if_pos hx], standsFor_high hx _, by simp, by simp, ?_⟩
      intro us
      simp
    by_cases hlow : IsLowSurrogate x.toNat
    · rw [call_of_stray_low ht hlow hx]
      refine ⟨[], [none], by rw [hrest, if_neg hx], .inl ⟨rfl, ht⟩, by simp, by simp, ?_⟩
      intro us
      rw [List.nil_append, utf16Reading_of_not_high hx, unitValue_of_surrogate (.inr hlow)]
      rfl
    · have hsur : ¬ IsSurrogate x.toNat := not_or.mpr ⟨hx, hlow⟩
      rw [call_of_not_surrogate ht hsur]
      refine ⟨[], [some x.toNat], by rw [hrest, if_neg hx], .inl ⟨rfl, ht⟩, by simp, by simp, ?_⟩
      intro us
      rw [List.nil_append, utf16Reading_of_not_high hx, unitValue_of_not_surrogate hsur]
      rfl
  · -- the surrogate `h` is remembered
    by_cases hlow : IsLowSurrogate x.toNat
    · rw [call_of_pair ht hlow, joined_eq_pairValue hhigh hlow]
      refine ⟨[], [some (pairValue h x)], by rw [hrest, if_neg (not_isHighSurrogate hlow)],
        .inl ⟨rfl, rfl⟩, by simp, by simp, ?_⟩
      intro us
      rw [List.singleton_append, utf16Reading_pair hh hlow, List.nil_append,
        List.singleton_append]
    by_cases hx : IsHighSurrogate x.toNat
    · rw [call_of_second_high ht hx hlow]
      refine ⟨[x], [none], by rw [hrest, if_pos hx], standsFor_high hx _, by simp, by simp, ?_⟩
      intro us
      rw [List.singleton_append, utf16Reading_of_not_low hh hlow, List.singleton_append,
        List.singleton_append]
    · have hsur : ¬ IsSurrogate x.toNat := not_or.mpr ⟨hx, hlow⟩
      rw [call_of_broken_pair ht hsur]
      refine ⟨[], [none, some x.toNat], by rw [hrest, if_neg hx], .inl ⟨rfl, rfl⟩, by simp,
        by simp, ?_⟩
      intro us
      rw [List.singleton_append, utf16Reading_of_not_low hh hlow, utf16Reading_of_not_high hx,
        unitValue_of_not_surrogate hsur]
      rfl

theorem StandsFor.endCp_nil {t : T16To32} (h : t.StandsFor []) : t.endCp = (t, []) := by
  rw [T16To32.endCp, h.eq_nil_iff.mp rfl]
  rfl

/-- The flush forgets a surrogate that is still remembered. -/
theorem StandsFor.endCp {t : T16To32} {p : List UInt16} (h : t.StandsFor p) :
    t.endCp.1.StandsFor [] := by
  rcases h with ⟨rfl, ht⟩ | ⟨h, rfl, -, ht, -⟩
  · rw [T16To32.endCp, ht]
    exact .inl ⟨rfl, ht⟩
  · rw [T16To32.endCp, ht]
    exact .inl ⟨rfl, rfl⟩

/-- The flush reports a surrogate that is still remembered. -/
theorem endCp_reads {t : T16To32} {p : List UInt16} (h : t.StandsFor p) :
    t.endCp.2 = (utf16Reading p).map codePointUnit ∧
      t.endCp.1.wellFormed = (t.wellFormed && (utf16Reading p).all Option.isSome) := by
  rcases h with ⟨rfl, ht⟩ | ⟨h, rfl, hh, ht, -⟩
  · simp [endCp, ht, utf16Reading]
  · simp [endCp, ht, utf16Reading, unitValue_of_surrogate (.inl hh), codePointUnit]

/-- Whatever the state, a call writes at most two code points. -/
theorem length_call_le (t : T16To32) (x : UInt16) : (t.call x).2.length ≤ 2 := by
  dsimp only [call]
  repeat' split
  all_goals simp

theorem length_endCp_le (t : T16To32) : t.endCp.2.length ≤ 1 := by
  rw [endCp]
  split_ifs
  · exact le_rfl
  · exact Nat.zero_le _

end T16To32

/-- **The UTF-16 decoder follows the reading** of pairs, unpaired surrogates and other units. -/
theorem reads_t16_32 :
    t16_32.toTransducer.Reads utf16Reading codePointUnit Option.isSome t16_32.wellFormed
      T16To32.StandsFor where
  step x h := by
    obtain ⟨q, pieces, -, hq⟩ := T16To32.call_reads x h
    exact ⟨q, pieces, hq⟩
  flush h := T16To32.endCp_reads h

/-- Without the flush the decoder stands for the high surrogate at the end of what it has read. -/
theorem feed_rest_t16_32 {t : T16To32} {p : List UInt16} (ht : t.StandsFor p) (us : List UInt16) :
    (t16_32.feed t us).1.StandsFor (utf16Rest (p ++ us)) := by
  induction us using List.reverseRecOn with
  | nil =>
    rw [List.append_nil]
    rcases ht with ⟨rfl, ht⟩ | ⟨h, rfl, hh, ht, hhigh⟩
    · exact .inl ⟨rfl, ht⟩
    · rw [← List.nil_append [h], utf16Rest_concat, if_pos hh]
      exact .inr ⟨h, rfl, hh, ht, hhigh⟩
  | append_singleton us u ih =>
    obtain ⟨q, -, rfl, hq, -⟩ := T16To32.call_reads u ih
    rw [Transducer.feed_append, Transducer.feed_singleton, ← List.append_assoc, utf16Rest_concat]
    rwa [← List.nil_append [u], utf16Rest_concat] at hq

/-- **The UTF-16 decoder.** For every list of units the code points written are those of its
left-to-right reading, with U+FFFD for every unpaired surrogate; and the flag is cleared exactly
by an unpaired surrogate. -/
theorem t16_32_run (units : List UInt16) :
    (t16_32.run units).2 = (utf16Reading units).map codePointUnit ∧
      (t16_32.wellFormed (t16_32.run units).1 = true ↔ none ∉ utf16Reading units) := by
  obtain ⟨hout, hsound⟩ := reads_t16_32.runFrom T16To32.standsFor_init units
  rw [List.nil_append] at hout hsound
  refine ⟨hout, ?_⟩
  have hall : (utf16Reading units).all Option.isSome = true ↔ none ∉ utf16Reading units := by
    simp only [List.all_eq_true, Option.isSome_iff_ne_none]
    exact ⟨fun h hmem => h none hmem rfl, fun h o ho hnone => h (hnone ▸ ho)⟩
  rw [Transducer.run, hsound, ← hall]
  exact Iff.rfl

end Icubaby
