import Icubaby.Transcoder.Laws

/-!
# The size of the output

A conversion writes a bounded number of units for each unit that it reads, whatever these are. The
bound is one of the pieces of the reading (`CharType.exists_blocks_read`): a piece that is a word is
not shorter than that word needs, and a piece that is dropped has at least one unit, which is enough
for U+FFFD. Single calls do not keep the bound: a code point comes out with its last unit.
-/

namespace Icubaby

/-- The number of units written to `T` for each unit of `F`, at most. -/
def unitsPerUnit : CharType → CharType → ℕ
  | _, .char32 => 1
  | .char32, .char16 => 2
  | _, .char16 => 1
  | .char32, .char8 => 4
  | _, .char8 => 3

/-- The bound, for a scalar value. -/
private theorem length_word_le_mul (F T : CharType) (c : Char) :
    (T.code.word c).length ≤ unitsPerUnit F T * (F.code.word c).length := by
  rw [CharType.length_word, CharType.length_word]
  cases F <;> cases T <;> simp only [CharType.wordLength, unitsPerUnit] <;>
    (try split_ifs) <;> omega

/-- The bound, for a unit that is dropped. -/
private theorem length_word_replacement_le (F T : CharType) :
    (T.code.word replacement).length ≤ unitsPerUnit F T := by
  rw [CharType.length_word, toNat_replacement]
  cases F <;> cases T <;> decide

/-- The bound, for one piece of a reading. -/
private theorem length_piece_le {F : CharType} (T : CharType) {o : Option Char} {b : List F.Unit}
    (h : b ≠ [] ∧ ∀ c ∈ o, F.code.word c = b) :
    (T.code.word (o.getD replacement)).length ≤ unitsPerUnit F T * b.length := by
  obtain ⟨hne, hword⟩ := h
  cases o with
  | none =>
    calc (T.code.word replacement).length ≤ unitsPerUnit F T := length_word_replacement_le F T
      _ ≤ unitsPerUnit F T * b.length := Nat.le_mul_of_pos_right _ (List.length_pos_iff.mpr hne)
  | some c =>
    rw [← hword c rfl]
    exact length_word_le_mul F T c

/-- The bound, for a reading. -/
private theorem length_encode_le {F : CharType} (T : CharType) {os : List (Option Char)}
    {blocks : List (List F.Unit)}
    (h : List.Forall₂ (fun o b => b ≠ [] ∧ ∀ c ∈ o, F.code.word c = b) os blocks) :
    (T.code.encode (os.map fun o => o.getD replacement)).length ≤
      unitsPerUnit F T * blocks.flatten.length := by
  induction h with
  | nil => exact Nat.zero_le _
  | @cons o b os blocks hb _ ih =>
    have hle := length_piece_le T hb
    rw [List.map_cons, PrefixCode.encode_cons, List.flatten_cons, List.length_append,
      List.length_append, Nat.mul_add]
    exact Nat.add_le_add hle ih

/-- The bound, for a conversion as it is specified. -/
theorem CharType.length_decodeTo_le (F T : CharType) (us : List F.Unit) :
    (F.decodeTo T us).length ≤ unitsPerUnit F T * us.length := by
  obtain ⟨blocks, rfl, hblocks⟩ := F.exists_blocks_read us
  exact length_encode_le T hblocks

/-- **The size of a conversion.** For every input, well formed or not, feeding a fresh transcoder
and flushing it writes at most `unitsPerUnit F T` units for each unit of the input. -/
theorem length_run_le (F T : CharType) (us : List F.Unit) :
    ((transcoder F T).run us).2.length ≤ unitsPerUnit F T * us.length := by
  obtain ⟨blocks, hus, hblocks⟩ := F.exists_blocks_read us
  rw [(transcoder_run F T us).1, CharType.decodeTo, CharType.scalars]
  conv_rhs => rw [← hus]
  exact length_encode_le T hblocks

end Icubaby
