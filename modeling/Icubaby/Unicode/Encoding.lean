import Icubaby.Unicode.Utf8
import Icubaby.Unicode.Utf16

/-!
# The three encodings, uniformly

For each character type the prefix code of its encoding (`CharType.code`) and the reading of an
arbitrary list of its units (`CharType.read`), in which an ill-formed piece is reported as `none`.
Whatever the type, reading inverts encoding and a list is well formed exactly when its reading
reports nothing.

`CharType.decodeTo` is the specification of a whole conversion: read, replace every ill-formed
piece by U+FFFD, encode.
-/

namespace Icubaby

/-- UTF-32 as a prefix code. -/
def utf32 : PrefixCode Char UInt32 where
  word c := [c.val]
  word_ne_nil _ := by simp
  eq_of_isPrefix {c d} h := by simpa [List.prefix_iff_eq_append, Char.val_inj] using h

/-- A unit of UTF-32 is ill formed when it is a surrogate or beyond the last code point. -/
def utf32Value (u : UInt32) : Option Char :=
  if IsSurrogate u.toNat ∨ maxCodePoint < u.toNat then none else some (Char.ofNat u.toNat)

/-- Words of one unit have no begins. -/
theorem eq_nil_of_utf32_pending {p : List UInt32} (h : utf32.Pending p) : p = [] := by
  obtain ⟨c, hpre, hne⟩ := h
  rcases List.prefix_concat_iff.mp (show p <+: [] ++ [c.val] from hpre) with hp | hp
  · exact absurd hp hne
  · exact List.prefix_nil.mp hp

theorem utf32Value_val (c : Char) : utf32Value c.val = some c := by
  have hc : ¬ (IsSurrogate c.val.toNat ∨ maxCodePoint < c.val.toNat) :=
    not_or.mpr ⟨not_isSurrogate_toNat c, not_lt.mpr (toNat_le_maxCodePoint c)⟩
  rw [utf32Value, if_neg hc, Char.toNat_val, Char.ofNat_toNat]

theorem val_of_utf32Value {u : UInt32} {c : Char} (h : utf32Value u = some c) : c.val = u := by
  rw [utf32Value] at h
  split at h
  · cases h
  next hu =>
    rw [not_or, not_lt] at hu
    obtain rfl := Option.some.inj h
    exact UInt32.toNat_inj.mp (toNat_ofNat hu.1 hu.2)

namespace CharType

/-- The encoding of a character type. -/
def code : (T : CharType) → PrefixCode Char T.Unit
  | char8 => utf8
  | char16 => utf16
  | char32 => utf32

/-- The number of units of the word of a scalar value, given by its number. -/
def wordLength : CharType → ℕ → ℕ
  | char8, n => if n ≤ 0x7F then 1 else if n ≤ 0x7FF then 2 else if n ≤ 0xFFFF then 3 else 4
  | char16, n => if n ≤ 0xFFFF then 1 else 2
  | char32, _ => 1

theorem length_word (T : CharType) (c : Char) :
    (T.code.word c).length = T.wordLength c.toNat := by
  cases T with
  | char8 =>
    change (String.utf8EncodeChar c).length = _
    rw [wordLength]
    split_ifs with h1 h2 h3
    · rw [utf8EncodeChar_one h1]
      rfl
    · rw [utf8EncodeChar_two (by omega) h2]
      rfl
    · rw [utf8EncodeChar_three (by omega) h3]
      rfl
    · rw [utf8EncodeChar_four (by omega)]
      rfl
  | char16 =>
    change (utf16Word c).length = _
    rw [utf16Word, wordLength]
    split_ifs <;> rfl
  | char32 => rfl

/-- The reading of a list of units. -/
noncomputable def read : (F : CharType) → List F.Unit → List (Option Char)
  | char8 => utf8.read
  | char16 => utf16Read
  | char32 => List.map utf32Value

/-- What a list of units leaves undecided: the begin of a longer sequence. -/
noncomputable def rest : (F : CharType) → List F.Unit → List F.Unit
  | char8 => utf8.rest
  | char16 => utf16Rest
  | char32 => fun _ => []

/-- A well-formed list is read as the scalar values it encodes. -/
theorem read_encode (F : CharType) (cs : List Char) : F.read (F.code.encode cs) = cs.map some := by
  cases F with
  | char8 => exact utf8.read_encode cs
  | char16 => exact utf16Read_encode cs
  | char32 =>
    induction cs with
    | nil => rfl
    | cons c cs ih =>
      have hread : char32.read (char32.code.encode (c :: cs)) =
          utf32Value c.val :: char32.read (char32.code.encode cs) := rfl
      rw [hread, ih, utf32Value_val, List.map_cons]

/-- **The pieces of a reading** are pieces of the list, one non-empty block of units each, and the
block of a scalar value is its word. -/
theorem exists_blocks_read (F : CharType) (us : List F.Unit) :
    ∃ blocks : List (List F.Unit), blocks.flatten = us ∧
      List.Forall₂ (fun o b => b ≠ [] ∧ ∀ c ∈ o, F.code.word c = b) (F.read us) blocks := by
  cases F with
  | char8 => exact utf8.exists_blocks_read us
  | char16 => exact exists_blocks_utf16Read us
  | char32 =>
    induction us with
    | nil => exact ⟨[], rfl, .nil⟩
    | cons u us ih =>
      obtain ⟨blocks, rfl, hblocks⟩ := ih
      refine ⟨[u] :: blocks, rfl, .cons ⟨by simp, fun c hc => ?_⟩ hblocks⟩
      exact congrArg (fun v => [v]) (val_of_utf32Value hc)

/-- **A list of units is well formed exactly when its reading reports nothing.** -/
theorem wellFormed_iff_read (F : CharType) (us : List F.Unit) :
    F.code.WellFormed us ↔ (F.read us).all Option.isSome = true := by
  constructor
  · rintro ⟨cs, rfl⟩
    rw [read_encode]
    simp
  · obtain ⟨blocks, rfl, hblocks⟩ := F.exists_blocks_read us
    exact PrefixCode.wellFormed_of_blocks hblocks

/-- Code points other than surrogates are well-formed UTF-32. -/
theorem wellFormed_char32 {us : List UInt32}
    (h : ∀ u ∈ us, ¬ IsSurrogate u.toNat ∧ u.toNat ≤ maxCodePoint) :
    char32.code.WellFormed us := by
  induction us with
  | nil => exact ⟨[], rfl⟩
  | cons u us ih =>
    obtain ⟨cs, rfl⟩ := ih fun v hv => h v (List.mem_cons_of_mem u hv)
    have hvalid := isValidChar_iff.mpr (h u List.mem_cons_self)
    exact ⟨⟨u, hvalid⟩ :: cs, rfl⟩

/-! ### What is undecided -/

/-- What is left undecided is the begin of a word. -/
theorem pending_rest (F : CharType) (us : List F.Unit) : F.code.Pending (F.rest us) := by
  cases F with
  | char8 => exact utf8.pending_rest us
  | char16 =>
    rcases utf16Rest_cases us with h | ⟨ws, h, -, hh, hrest⟩
    · rw [rest, h]
      exact PrefixCode.pending_nil _
    · rw [rest, hrest]
      exact utf16_pending_iff.mpr (.inr ⟨h, rfl, hh⟩)
  | char32 => exact PrefixCode.pending_nil _

theorem rest_of_pending {F : CharType} {p : List F.Unit} (hp : F.code.Pending p) :
    F.rest p = p := by
  cases F with
  | char8 => exact PrefixCode.rest_of_pending hp
  | char16 =>
    rcases utf16_pending_iff.mp hp with rfl | ⟨h, rfl, hh⟩
    · rfl
    · exact (utf16Rest_concat [] h).trans (if_pos hh)
  | char32 => exact (eq_nil_of_utf32_pending hp).symm

/-- What has been decided is not looked at again. -/
theorem rest_append (F : CharType) (us vs : List F.Unit) :
    F.rest (us ++ vs) = F.rest (F.rest us ++ vs) := by
  cases F with
  | char8 => exact PrefixCode.rest_append us vs
  | char16 =>
    rcases List.eq_nil_or_concat' vs with rfl | ⟨vs, v, rfl⟩
    · rw [List.append_nil, List.append_nil, rest_of_pending (pending_rest _ _)]
    · rw [← List.append_assoc, ← List.append_assoc]
      exact (utf16Rest_concat _ v).trans (utf16Rest_concat _ v).symm
  | char32 => rfl

/-- The units before what is undecided. -/
noncomputable def settled (F : CharType) (us : List F.Unit) : List F.Unit :=
  us.take (us.length - (F.rest us).length)

/-- What comes before the rest is read independently of what follows. -/
private theorem exists_append_rest (F : CharType) (us : List F.Unit) :
    ∃ ws, ws ++ F.rest us = us ∧
      ∀ vs, F.read (us ++ vs) = F.read ws ++ F.read (F.rest us ++ vs) := by
  cases F with
  | char8 =>
    obtain ⟨ws, hws, hread⟩ := utf8.exists_append_rest us
    refine ⟨ws, hws, fun vs => ?_⟩
    conv_lhs => rw [← hws]
    rw [List.append_assoc]
    exact hread _
  | char16 =>
    rcases utf16Rest_cases us with h | ⟨ws, h, hus, hh, hrest⟩
    · refine ⟨us, by rw [rest, h, List.append_nil], fun vs => ?_⟩
      simp only [rest, h, List.nil_append, read, utf16Read, utf16Reading_append (.inl h),
        List.map_append]
    · subst hus
      have hlow : ∀ vs : List UInt16, ∀ l ∈ ([h] ++ vs).head?, ¬ IsLowSurrogate l.toNat := by
        simpa using fun hl => not_isHighSurrogate hl hh
      refine ⟨ws, by rw [rest, hrest], fun vs => ?_⟩
      simp only [rest, hrest, read, utf16Read, List.append_assoc,
        utf16Reading_append (.inr (hlow vs)), List.map_append]
  | char32 => exact ⟨us, List.append_nil us, fun vs => List.map_append⟩

private theorem settled_eq {F : CharType} {us ws : List F.Unit} (h : ws ++ F.rest us = us) :
    F.settled us = ws := by
  have hlen := congrArg List.length h
  rw [List.length_append] at hlen
  have hws : us.length - (F.rest us).length = ws.length := by omega
  rw [settled, hws]
  conv_lhs => rw [← h]
  exact List.take_left

theorem settled_append_rest (F : CharType) (us : List F.Unit) :
    F.settled us ++ F.rest us = us := by
  obtain ⟨ws, hws, -⟩ := exists_append_rest F us
  rw [settled_eq hws, hws]

/-- **The reading splits** before what is undecided. -/
theorem read_append (F : CharType) (us vs : List F.Unit) :
    F.read (us ++ vs) = F.read (F.settled us) ++ F.read (F.rest us ++ vs) := by
  obtain ⟨ws, hws, hread⟩ := exists_append_rest F us
  rw [settled_eq hws, hread]

/-- Whole words leave nothing undecided. -/
theorem rest_eq_nil_of_wellFormed {F : CharType} {us : List F.Unit} (h : F.code.WellFormed us) :
    F.rest us = [] := by
  have hread := F.read_append us []
  rw [List.append_nil, List.append_nil] at hread
  rw [wellFormed_iff_read, hread, List.all_append, Bool.and_eq_true] at h
  exact (F.pending_rest us).eq_nil_of_wellFormed ((F.wellFormed_iff_read _).mpr h.2)

theorem settled_of_rest_eq_nil {F : CharType} {us : List F.Unit} (h : F.rest us = []) :
    F.settled us = us := by
  rw [settled, h, List.length_nil, Nat.sub_zero, List.take_length]

theorem settled_of_pending {F : CharType} {p : List F.Unit} (hp : F.code.Pending p) :
    F.settled p = [] := by
  rw [settled, rest_of_pending hp, Nat.sub_self, List.take_zero]

/-- Nothing is settled exactly when the whole list is the begin of a word. -/
theorem settled_eq_nil_iff {F : CharType} {us : List F.Unit} :
    F.settled us = [] ↔ F.code.Pending us := by
  constructor
  · intro h
    have hrest := F.settled_append_rest us
    rw [h, List.nil_append] at hrest
    exact hrest ▸ F.pending_rest us
  · exact settled_of_pending

/-- The scalar values of a list of units, ill-formed pieces replaced by U+FFFD. -/
noncomputable def scalars (F : CharType) (us : List F.Unit) : List Char :=
  (F.read us).map fun o => o.getD replacement

@[simp] theorem scalars_encode (F : CharType) (cs : List Char) :
    F.scalars (F.code.encode cs) = cs := by
  simp [scalars, read_encode]

@[simp] theorem scalars_nil (F : CharType) : F.scalars [] = [] := F.scalars_encode []

/-- The specification of a conversion: read with replacement, then encode. -/
noncomputable def decodeTo (F T : CharType) (us : List F.Unit) : List T.Unit :=
  T.code.encode (F.scalars us)

/-- Every list of units but the empty one is read as something. -/
theorem scalars_eq_nil_iff {F : CharType} {us : List F.Unit} : F.scalars us = [] ↔ us = [] := by
  rw [scalars, List.map_eq_nil_iff]
  constructor
  · intro h
    obtain ⟨blocks, rfl, hblocks⟩ := F.exists_blocks_read us
    rw [h, List.forall₂_nil_left_iff] at hblocks
    rw [hblocks, List.flatten_nil]
  · rintro rfl
    exact F.read_encode []

/-- A conversion of something writes something. -/
theorem decodeTo_eq_nil_iff {F T : CharType} {us : List F.Unit} :
    F.decodeTo T us = [] ↔ us = [] := by
  rw [decodeTo, PrefixCode.encode_eq_nil_iff, scalars_eq_nil_iff]

/-- The scalar values split before what is undecided. -/
theorem scalars_append (F : CharType) (us vs : List F.Unit) :
    F.scalars (us ++ vs) = F.scalars (F.settled us) ++ F.scalars (F.rest us ++ vs) := by
  rw [scalars, F.read_append, List.map_append]
  rfl

theorem scalars_settled_append_rest (F : CharType) (us : List F.Unit) :
    F.scalars (F.settled us) ++ F.scalars (F.rest us) = F.scalars us := by
  have hsplit := F.scalars_append us []
  rwa [List.append_nil, List.append_nil, eq_comm] at hsplit

/-- What is settled after more units is settled one after the other. -/
theorem scalars_settled_append (F : CharType) (us vs : List F.Unit) :
    F.scalars (F.settled (us ++ vs)) =
      F.scalars (F.settled us) ++ F.scalars (F.settled (F.rest us ++ vs)) := by
  -- both sides are what comes before the scalar values of the rest
  have hwhole := F.scalars_settled_append_rest (us ++ vs)
  rw [scalars_append, ← scalars_settled_append_rest F (F.rest us ++ vs), ← rest_append,
    ← List.append_assoc] at hwhole
  exact List.append_cancel_right hwhole

/-- A conversion splits before what is undecided. -/
theorem decodeTo_append (F T : CharType) (us vs : List F.Unit) :
    F.decodeTo T (us ++ vs) = F.decodeTo T (F.settled us) ++ F.decodeTo T (F.rest us ++ vs) := by
  rw [decodeTo, scalars_append, PrefixCode.encode_append]
  rfl

/-- What a conversion writes is well formed. -/
theorem read_decodeTo (F T : CharType) (us : List F.Unit) :
    (T.read (F.decodeTo T us)).all Option.isSome = true :=
  (T.wellFormed_iff_read _).mp ⟨_, rfl⟩

/-- **Conversions compose**: an intermediate encoding makes no difference. -/
theorem decodeTo_decodeTo (F M T : CharType) (us : List F.Unit) :
    M.decodeTo T (F.decodeTo M us) = F.decodeTo T us := by
  unfold decodeTo
  rw [scalars_encode]

end CharType

/-- `longest_sequence_v` bounds the length of a word. -/
theorem length_word_le (T : CharType) (c : Char) :
    (T.code.word c).length ≤ T.longestSequence := by
  rw [CharType.length_word]
  cases T with
  | char8 =>
    rw [CharType.wordLength, CharType.longestSequence]
    split_ifs <;> omega
  | char16 =>
    rw [CharType.wordLength, CharType.longestSequence]
    split_ifs <;> omega
  | char32 => exact le_rfl

end Icubaby
