import Icubaby.ForMathlib.Checked
import Icubaby.Transcoder.Family

/-!
# The fixed-width fields

The decoders keep what they have read in bit fields, index a table by a sum and, as parts of a
triangulator, write into an array of fixed size. None of this ever overflows, whatever is fed and
in whatever order `operator()` and `end_cp` are called (`fields_suffice`). `checkedCall` is the call
of a decoder in which the accesses to the table and the assertions about `high_` are steps that can
fail, and the result says that none of them does.

The bound on `code_point_` does not follow from the width of the field, since six more bits are
shifted in with every byte. While a byte is owed the payload is that of an incomplete sequence, and
`end_cp`, which leaves the automaton in `reject`, leaves the payload as it is.
-/

namespace Icubaby

open CheckedTransducer (require require_bind)

variable {σ τ β : Type}

/-- What can go wrong in a call. -/
inductive Assertion
  /-- "Code point is out-of-range for … byte UTF-8" -/
  | outOfRange
  /-- An index is not less than `utf8d_.size ()`. -/
  | tableIndex
  /-- "A high surrogate must be at least first_high_surrogate" -/
  | notHigh
  /-- "high_cu won't fit in the high_ field!" -/
  | highField
  /-- `assert (has_high_)` -/
  | hasHigh
  /-- The array of a triangulator is written past its end. -/
  | intermediate
  deriving DecidableEq, Repr

/-! ### The decoder of UTF-8 -/

namespace T8To32

/-- Between two calls the decoder stands for the begin of a sequence, or it is in `reject` with the
payload of one. -/
def Bounded (t : T8To32) : Prop :=
  (∃ p, t.StandsFor p) ∨ t.state = reject ∧ t.codePoint * 64 ≤ maxCodePoint

/-- What is left of a sequence when the decoder is flushed is bounded. -/
theorem StandsFor.payload_le {t : T8To32} {p : List UInt8} (h : t.StandsFor p)
    (ht : t.state ≠ accept) : t.codePoint * 64 ≤ maxCodePoint := by
  rcases h with ⟨-, hstate⟩ | ⟨r, rs, hp, -⟩
  · exact absurd hstate ht
  · exact hp.payload_le

theorem Bounded.call {t : T8To32} (h : t.Bounded) (x : UInt8) : (t.call x).1.Bounded := by
  rcases h with ⟨p, hp⟩ | ⟨hreject, -⟩
  · exact .inl (hp.exists_call x)
  · exact .inl ⟨[], (call_of_state_reject hreject x).1⟩

theorem Bounded.payload_le {t : T8To32} (h : t.Bounded) (ht : t.state ≠ accept) :
    t.codePoint * 64 ≤ maxCodePoint := by
  rcases h with ⟨p, hp⟩ | ⟨-, hle⟩
  · exact hp.payload_le ht
  · exact hle

theorem Bounded.endCp {t : T8To32} (h : t.Bounded) : t.endCp.1.Bounded := by
  by_cases ht : t.state = accept
  · rw [T8To32.endCp, if_neg (not_not.mpr ht)]
    exact h
  · rw [T8To32.endCp, if_pos ht]
    exact .inr ⟨rfl, h.payload_le ht⟩

private theorem unitClass_le : ∀ b < 256, unitClass b ≤ 11 := by
  decide +kernel

private theorem dfaState_le : ∀ l ∈ owedLists, dfaState l ≤ 96 := by
  decide

theorem Bounded.state_le {t : T8To32} (h : t.Bounded) : t.state ≤ 96 := by
  rcases h with ⟨p, ⟨-, ht⟩ | ⟨r, rs, hp, ht⟩⟩ | ⟨ht, -⟩
  · rw [ht]
    decide
  · rw [ht]
    exact dfaState_le _ hp.mem_owedLists
  · rw [ht]
    decide

/-- **The transition is in the table.** -/
theorem Bounded.idx_lt {t : T8To32} (h : t.Bounded) (x : UInt8) : t.idx x.toNat < 364 := by
  have hstate := h.state_le
  have hclass := unitClass_le x.toNat x.toNat_lt
  rw [idx]
  omega

/-- **The value assigned to `code_point_` fits the field**, also when the byte is rejected. -/
theorem Bounded.assemble_lt {t : T8To32} (h : t.Bounded) (x : UInt8) :
    t.assemble x.toNat < 2 ^ 21 := by
  by_cases ht : t.state = accept
  · rw [assemble, if_neg (not_not.mpr ht)]
    exact lt_of_le_of_lt Nat.and_le_right (x.toNat_lt.trans (by decide))
  · have hle := h.payload_le ht
    rw [maxCodePoint] at hle
    rw [assemble_of_ne_accept ht, pushPayload]
    omega

/-- `operator()` -/
def checkedCall (t : T8To32) (codeUnit : UInt8) : Except Assertion (T8To32 × List UInt32) := do
  require (codeUnit.toNat < utf8d.length) .tableIndex
  require (t.idx codeUnit.toNat < utf8d.length) .tableIndex
  return t.call codeUnit

theorem length_utf8d : utf8d.length = 364 := by
  decide +kernel

/-- Both lookups are in the table. -/
theorem Bounded.checkedCall {t : T8To32} (h : t.Bounded) (x : UInt8) :
    t.checkedCall x = .ok (t.call x) := by
  have hx := x.toNat_lt
  have hunit : x.toNat < utf8d.length := by
    rw [length_utf8d]
    omega
  have hidx : t.idx x.toNat < utf8d.length := by
    rw [length_utf8d]
    exact h.idx_lt x
  rw [T8To32.checkedCall, require_bind hunit, require_bind hidx]
  rfl

end T8To32

/-! ### The decoder of UTF-16 -/

namespace T16To32

/-- A high surrogate is not below the first one, and what is left of it fits the field. -/
theorem adjustedHigh_lt {x : UInt16} (hx : IsHighSurrogate x.toNat) :
    firstHighSurrogate ≤ x.toNat ∧ adjustedHigh x.toNat < 2 ^ 10 := by
  rw [isHighSurrogate_iff] at hx
  rw [adjustedHigh, firstHighSurrogate]
  omega

/-- `adjusted_high` -/
def checkedAdjustedHigh (codeUnit : ℕ) : Except Assertion ℕ := do
  require (firstHighSurrogate ≤ codeUnit) .notHigh
  let highCu := codeUnit - firstHighSurrogate
  require (highCu < 0xFFFF ∧ highCu < 2 ^ utf16Shift) .highField
  return adjustedHigh codeUnit

/-- `operator()` -/
def checkedCall (t : T16To32) (codeUnit : UInt16) : Except Assertion (T16To32 × List UInt32) :=
  let cu := codeUnit.toNat
  if !t.hasHigh then
    if IsHighSurrogate cu then do
      let high ← checkedAdjustedHigh cu
      return ({ t with high := high % 2 ^ utf16Shift, hasHigh := true }, [])
    else return t.call codeUnit
  else if IsLowSurrogate cu then return t.call codeUnit
  else if IsHighSurrogate cu then do
    let high ← checkedAdjustedHigh cu
    require (t.hasHigh = true) .hasHigh
    return ({ t with high := high % 2 ^ utf16Shift, wellFormed := false },
      [UInt32.ofNat replacementChar])
  else return t.call codeUnit

theorem checkedAdjustedHigh_eq {x : UInt16} (hx : IsHighSurrogate x.toNat) :
    checkedAdjustedHigh x.toNat = .ok (adjustedHigh x.toNat) := by
  obtain ⟨hle, hlt⟩ := adjustedHigh_lt hx
  rw [checkedAdjustedHigh, require_bind hle]
  exact require_bind ⟨hlt.trans (by decide), hlt⟩ _ _

/-- **The assertions of the decoder of UTF-16** hold in every state: `adjusted_high` is called for
high surrogates only. -/
theorem checkedCall_eq (t : T16To32) (x : UInt16) : t.checkedCall x = .ok (t.call x) := by
  rw [checkedCall]
  split_ifs with hhas hhigh hlow hhigh
  · rw [checkedAdjustedHigh_eq hhigh, call, if_pos hhas, if_pos hhigh]
    rfl
  · rfl
  · rfl
  · have hhas' : t.hasHigh = true := by simpa using hhas
    rw [checkedAdjustedHigh_eq hhigh, call, if_neg hhas, if_neg hlow, if_pos hhigh]
    exact require_bind hhas' _ _
  · rfl

theorem high_lt_call {t : T16To32} (h : t.high < 2 ^ 10) (x : UInt16) :
    (t.call x).1.high < 2 ^ 10 := by
  have hmod : adjustedHigh x.toNat % 2 ^ utf16Shift < 2 ^ 10 := Nat.mod_lt _ (by decide)
  rw [call]
  split_ifs
  · exact hmod
  · exact h
  · exact h
  · exact Nat.two_pow_pos 10
  · exact hmod
  · exact Nat.two_pow_pos 10

theorem high_lt_endCp {t : T16To32} (h : t.high < 2 ^ 10) : t.endCp.1.high < 2 ^ 10 := by
  rw [endCp]
  split_ifs
  · exact Nat.two_pow_pos 10
  · exact h

end T16To32

/-! ### Any calls in any order -/

/-- The next call of the decoder, whatever the unit, stays inside the table and assigns a value to
`code_point_` that the field of 21 bits holds. -/
structure T8To32.FieldsSuffice (t : T8To32) : Prop where
  checkedCall_eq (x : UInt8) : t.checkedCall x = .ok (t.call x)
  idx_lt (x : UInt8) : t.idx x.toNat < 364
  assemble_lt (x : UInt8) : t.assemble x.toNat < 2 ^ 21

/-- The value in `high_` fits the field of ten bits, and so does whatever the next call stores
there: none of the assertions that the call makes fails. -/
structure T16To32.FieldsSuffice (t : T16To32) : Prop where
  high_lt : t.high < 2 ^ 10
  checkedCall_eq (x : UInt16) : t.checkedCall x = .ok (t.call x)
  adjustedHigh_lt (x : UInt16) : IsHighSurrogate x.toNat →
    firstHighSurrogate ≤ x.toNat ∧ adjustedHigh x.toNat < 0xFFFF ∧ adjustedHigh x.toNat < 2 ^ 10

/-- What the next call of the decoder writes fits the array of a triangulator. -/
structure IntermediateSuffices (F : CharType) (t : Transcoder σ F.Unit UInt32) (s : σ) : Prop where
  length_step_le (x : F.Unit) : (t.step s x).2.length ≤ triangulatorIntermediateCodeUnits F
  length_finish_le : (t.finish s).2.length ≤ triangulatorIntermediateCodeUnits F

theorem intermediateSuffices_t8_32 (s : T8To32) : IntermediateSuffices .char8 t8_32 s where
  length_step_le := s.length_call_le
  length_finish_le := s.length_endCp_le

theorem intermediateSuffices_t16_32 (s : T16To32) : IntermediateSuffices .char16 t16_32 s where
  length_step_le := s.length_call_le
  length_finish_le := s.length_endCp_le.trans (by decide)

private theorem suffice_t8_32 (calls : List (Transducer.Call UInt8)) :
    (t8_32.interactive.feed t8_32.init calls).1.FieldsSuffice := by
  have hbounded : (t8_32.interactive.feed t8_32.init calls).1.Bounded :=
    Transducer.interactive_induction (fun _ x h => h.call x) (fun _ h => h.endCp)
      (.inl ⟨[], T8To32.standsFor_init⟩) calls
  exact ⟨hbounded.checkedCall, hbounded.idx_lt, hbounded.assemble_lt⟩

private theorem suffice_t16_32 (calls : List (Transducer.Call UInt16)) :
    (t16_32.interactive.feed t16_32.init calls).1.FieldsSuffice := by
  have hhigh : (t16_32.interactive.feed t16_32.init calls).1.high < 2 ^ 10 :=
    Transducer.interactive_induction (I := fun t : T16To32 => t.high < 2 ^ 10)
      (fun _ x h => T16To32.high_lt_call h x) (fun _ h => T16To32.high_lt_endCp h)
      (Nat.two_pow_pos 10) calls
  refine ⟨hhigh, T16To32.checkedCall_eq _, fun x hx => ?_⟩
  obtain ⟨hle, hlt⟩ := T16To32.adjustedHigh_lt hx
  exact ⟨hle, hlt.trans (by decide), hlt⟩

/-- **The fields suffice.** Whatever is called in whatever order, on the decoders alone and on the
triangulators that begin with them: no assertion of the next call fails, those of `adjusted_high`
included, its transition is in the table, nothing that it assigns to a bit field is truncated, and
it writes no more code points than the array between the two parts of the triangulator has
elements. -/
theorem fields_suffice (output : Transcoder τ UInt32 β) :
    (∀ calls, (t8_32.interactive.feed t8_32.init calls).1.FieldsSuffice) ∧
      (∀ calls, (t16_32.interactive.feed t16_32.init calls).1.FieldsSuffice) ∧
      (∀ calls, let t := triangulator t8_32 output
        let s := (t.interactive.feed t.init calls).1
        s.1.FieldsSuffice ∧ IntermediateSuffices .char8 t8_32 s.1) ∧
      ∀ calls, let t := triangulator t16_32 output
        let s := (t.interactive.feed t.init calls).1
        s.1.FieldsSuffice ∧ IntermediateSuffices .char16 t16_32 s.1 := by
  refine ⟨suffice_t8_32, suffice_t16_32, fun calls => ⟨?_, intermediateSuffices_t8_32 _⟩,
    fun calls => ⟨?_, intermediateSuffices_t16_32 _⟩⟩
  · rw [triangulator, Transducer.fst_feed_interactive_comp]
    exact suffice_t8_32 calls
  · rw [triangulator, Transducer.fst_feed_interactive_comp]
    exact suffice_t16_32 calls

end Icubaby
