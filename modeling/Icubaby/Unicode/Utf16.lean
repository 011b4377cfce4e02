import Mathlib.Tactic
import Icubaby.ForMathlib.PrefixCode
import Icubaby.Unicode.CodePoint

/-!
# UTF-16: the code and the reading of arbitrary units

`utf16` is UTF-16 as a prefix code: a scalar value of plane 0 is its own word, every other one is
the pair of its high and low surrogate. `utf16Reading` reads any list of units from left to right,
taking a high surrogate together with an immediately following low surrogate and reporting every
other surrogate as `none`. Unlike the reading of `PrefixCode.read` it gives up only the unpaired
surrogate itself: the unit after it is read again.
-/

namespace Icubaby

/-- The word of a scalar value in UTF-16. -/
def utf16Word (c : Char) : List UInt16 :=
  if c.toNat ≤ 0xFFFF then [UInt16.ofNat c.toNat]
  else [UInt16.ofNat (0xD800 + (c.toNat - 0x10000) / 0x400),
    UInt16.ofNat (0xDC00 + (c.toNat - 0x10000) % 0x400)]

/-- The code point of a surrogate pair. -/
def pairValue (h l : UInt16) : ℕ := 0x10000 + (h.toNat - 0xD800) * 0x400 + (l.toNat - 0xDC00)

/-- A unit read alone: itself, unless it is a surrogate. -/
def unitValue (u : UInt16) : Option ℕ := if IsSurrogate u.toNat then none else some u.toNat

/-- The left-to-right reading of a list of units. -/
def utf16Reading : List UInt16 → List (Option ℕ)
  | [] => []
  | [u] => [unitValue u]
  | u :: l :: us =>
    if IsHighSurrogate u.toNat ∧ IsLowSurrogate l.toNat then
      some (pairValue u l) :: utf16Reading us
    else unitValue u :: utf16Reading (l :: us)

/-- The reading, as scalar values. -/
def utf16Read (us : List UInt16) : List (Option Char) :=
  (utf16Reading us).map (Option.map Char.ofNat)

/-- What a list leaves undecided: a high surrogate at its end. -/
def utf16Rest (us : List UInt16) : List UInt16 :=
  us.getLast?.toList.filter fun u => IsHighSurrogate u.toNat

theorem utf16Rest_concat (us : List UInt16) (u : UInt16) :
    utf16Rest (us ++ [u]) = if IsHighSurrogate u.toNat then [u] else [] := by
  simp [utf16Rest, List.filter_cons]

theorem utf16Rest_cons (u : UInt16) {us : List UInt16} (h : us ≠ []) :
    utf16Rest (u :: us) = utf16Rest us := by
  obtain ⟨w, us, rfl⟩ := List.exists_cons_of_ne_nil h
  rw [utf16Rest, List.getLast?_cons_cons, utf16Rest]

/-- Either nothing is left undecided, or a high surrogate at the end is. -/
theorem utf16Rest_cases (us : List UInt16) :
    utf16Rest us = [] ∨ ∃ ws h, us = ws ++ [h] ∧ IsHighSurrogate h.toNat ∧ utf16Rest us = [h] := by
  rcases List.eq_nil_or_concat' us with rfl | ⟨ws, u, rfl⟩
  · exact .inl rfl
  · rw [utf16Rest_concat]
    split_ifs with hu
    · exact .inr ⟨ws, u, rfl, hu, rfl⟩
    · exact .inl rfl

/-- Something is left undecided exactly after a high surrogate. -/
theorem utf16Rest_ne_nil_iff (us : List UInt16) :
    utf16Rest us ≠ [] ↔ ∃ w ∈ us.getLast?, IsHighSurrogate w.toNat := by
  rcases List.eq_nil_or_concat' us with rfl | ⟨ws, u, rfl⟩
  · simp [utf16Rest]
  · rw [utf16Rest_concat, List.getLast?_concat]
    split_ifs with h <;> simp [h]

theorem utf16Rest_eq_singleton_iff {us : List UInt16} {h : UInt16} :
    utf16Rest us = [h] ↔ h ∈ us.getLast? ∧ IsHighSurrogate h.toNat := by
  rcases List.eq_nil_or_concat' us with rfl | ⟨ws, u, rfl⟩
  · simp [utf16Rest]
  · rw [utf16Rest_concat, List.getLast?_concat, Option.mem_some_iff]
    split_ifs with hu
    · rw [List.singleton_inj]
      refine (and_iff_left_of_imp ?_).symm
      rintro rfl
      exact hu
    · refine iff_of_false (by simp) ?_
      rintro ⟨rfl, hh⟩
      exact hu hh

/-! ### The equations of the reading -/

theorem utf16Reading_pair {h l : UInt16} (hh : IsHighSurrogate h.toNat)
    (hl : IsLowSurrogate l.toNat) (us : List UInt16) :
    utf16Reading (h :: l :: us) = some (pairValue h l) :: utf16Reading us := by
  rw [utf16Reading, if_pos ⟨hh, hl⟩]

theorem utf16Reading_of_not_high {u : UInt16} (hu : ¬ IsHighSurrogate u.toNat)
    (us : List UInt16) : utf16Reading (u :: us) = unitValue u :: utf16Reading us := by
  cases us with
  | nil => rfl
  | cons l us => rw [utf16Reading, if_neg fun h => hu h.1]

theorem utf16Reading_of_not_low {h l : UInt16} (hh : IsHighSurrogate h.toNat)
    (hl : ¬ IsLowSurrogate l.toNat) (us : List UInt16) :
    utf16Reading (h :: l :: us) = none :: utf16Reading (l :: us) := by
  rw [utf16Reading, if_neg fun h => hl h.2, unitValue, if_pos (.inl hh)]

theorem unitValue_of_not_surrogate {u : UInt16} (hu : ¬ IsSurrogate u.toNat) :
    unitValue u = some u.toNat := if_neg hu

theorem unitValue_of_surrogate {u : UInt16} (hu : IsSurrogate u.toNat) :
    unitValue u = none := if_pos hu

/-- **The reading splits** wherever no surrogate pair is cut apart. -/
theorem utf16Reading_append {xs ys : List UInt16}
    (h : utf16Rest xs = [] ∨ ∀ l ∈ ys.head?, ¬ IsLowSurrogate l.toNat) :
    utf16Reading (xs ++ ys) = utf16Reading xs ++ utf16Reading ys := by
  induction xs using utf16Reading.induct with
  | case1 => rfl
  | case2 u =>
    by_cases hu : IsHighSurrogate u.toNat
    · -- a high surrogate that is not followed by a low one is read alone
      have hrest : utf16Rest [u] = [u] := by
        rw [← List.nil_append [u], utf16Rest_concat, if_pos hu]
        rfl
      have hys := h.resolve_left (by rw [hrest]; simp)
      cases ys with
      | nil => rw [List.append_nil, utf16Reading, List.append_nil]
      | cons l ys =>
        rw [List.singleton_append, utf16Reading_of_not_low hu (hys l rfl), utf16Reading,
          unitValue_of_surrogate (.inl hu), List.singleton_append]
    · rw [List.singleton_append, utf16Reading_of_not_high hu, utf16Reading, List.singleton_append]
  | case3 u l us hul ih =>
    have hus : utf16Rest us = [] ∨ ∀ l ∈ ys.head?, ¬ IsLowSurrogate l.toNat := by
      rcases eq_or_ne us [] with rfl | hne
      · exact .inl rfl
      · rwa [utf16Rest_cons u (by simp), utf16Rest_cons l hne] at h
    rw [List.cons_append, List.cons_append, utf16Reading_pair hul.1 hul.2,
      utf16Reading_pair hul.1 hul.2, ih hus, List.cons_append]
  | case4 u l us hul ih =>
    rw [utf16Rest_cons u (by simp)] at h
    rw [List.cons_append, List.cons_append, utf16Reading, if_neg hul, utf16Reading, if_neg hul,
      ← List.cons_append, ih h, List.cons_append]

/-- Surrogate pairs stand for the scalar values beyond plane 0. -/
theorem pairValue_bounds {h l : UInt16} (hh : IsHighSurrogate h.toNat)
    (hl : IsLowSurrogate l.toNat) : 0x10000 ≤ pairValue h l ∧ pairValue h l ≤ maxCodePoint := by
  rw [isHighSurrogate_iff] at hh
  rw [isLowSurrogate_iff] at hl
  unfold pairValue maxCodePoint
  constructor <;> omega

/-- Everything that is read is a scalar value. -/
theorem scalar_of_mem_utf16Reading {us : List UInt16} {n : ℕ}
    (hn : some n ∈ utf16Reading us) : ¬ IsSurrogate n ∧ n ≤ maxCodePoint := by
  have hunit : ∀ {u : UInt16}, some n = unitValue u → ¬ IsSurrogate n ∧ n ≤ maxCodePoint := by
    intro u h
    by_cases hu : IsSurrogate u.toNat
    · rw [unitValue_of_surrogate hu] at h
      cases h
    · rw [unitValue_of_not_surrogate hu] at h
      obtain rfl := Option.some.inj h
      have hlt := u.toNat_lt
      exact ⟨hu, by rw [maxCodePoint]; omega⟩
  induction us using utf16Reading.induct with
  | case1 => simp [utf16Reading] at hn
  | case2 u => exact hunit (by simpa [utf16Reading] using hn)
  | case3 u l us hul ih =>
    rw [utf16Reading_pair hul.1 hul.2, List.mem_cons] at hn
    rcases hn with hn | hn
    · have hb := pairValue_bounds hul.1 hul.2
      rw [← Option.some.inj hn] at hb
      exact ⟨by rw [isSurrogate_iff]; omega, hb.2⟩
    · exact ih hn
  | case4 u l us hul ih =>
    rw [utf16Reading, if_neg hul, List.mem_cons] at hn
    rcases hn with hn | hn
    · exact hunit hn
    · exact ih hn

/-! ### The code -/

/-- The word of a scalar value: one unit that is no surrogate, or a surrogate pair. -/
theorem utf16Word_cases (c : Char) :
    (∃ u, utf16Word c = [u] ∧ ¬ IsSurrogate u.toNat ∧ u.toNat = c.toNat) ∨
      ∃ h l, utf16Word c = [h, l] ∧ IsHighSurrogate h.toNat ∧ IsLowSurrogate l.toNat ∧
        pairValue h l = c.toNat := by
  have hmax := toNat_le_maxCodePoint c
  rw [maxCodePoint] at hmax
  rcases Nat.lt_or_ge 0xFFFF c.toNat with hc | hc
  · have hh : (UInt16.ofNat (0xD800 + (c.toNat - 0x10000) / 0x400)).toNat =
        0xD800 + (c.toNat - 0x10000) / 0x400 := by
      rw [UInt16.toNat_ofNat', Nat.mod_eq_of_lt (by omega)]
    have hl : (UInt16.ofNat (0xDC00 + (c.toNat - 0x10000) % 0x400)).toNat =
        0xDC00 + (c.toNat - 0x10000) % 0x400 := by
      rw [UInt16.toNat_ofNat', Nat.mod_eq_of_lt (by omega)]
    refine .inr ⟨_, _, if_neg (by omega), ?_, ?_, ?_⟩
    · rw [hh, isHighSurrogate_iff]
      omega
    · rw [hl, isLowSurrogate_iff]
      omega
    · unfold pairValue
      omega
  · have hu : (UInt16.ofNat c.toNat).toNat = c.toNat := by
      rw [UInt16.toNat_ofNat', Nat.mod_eq_of_lt (by omega)]
    exact .inl ⟨_, if_pos hc, by rw [hu]; exact not_isSurrogate_toNat c, hu⟩

theorem utf16Word_ne_nil (c : Char) : utf16Word c ≠ [] := by
  rw [utf16Word]
  split <;> simp

/-- UTF-16 as a prefix code. -/
def utf16 : PrefixCode Char UInt16 where
  word := utf16Word
  word_ne_nil := utf16Word_ne_nil
  eq_of_isPrefix {c d} h := by
    rcases utf16Word_cases c with ⟨u, hc, hu, huc⟩ | ⟨h₁, l₁, hc, hh₁, hl₁, hv₁⟩ <;>
      rcases utf16Word_cases d with ⟨w, hd, hw, hwd⟩ | ⟨h₂, l₂, hd, hh₂, hl₂, hv₂⟩ <;>
      rw [hc, hd] at h <;> simp only [List.cons_prefix_cons, List.prefix_nil] at h
    · obtain ⟨rfl, -⟩ := h
      exact Char.toNat_inj.mp (huc.symm.trans hwd)
    · obtain ⟨rfl, -⟩ := h
      exact absurd (.inl hh₂) hu
    · simp at h
    · obtain ⟨rfl, rfl, -⟩ := h
      exact Char.toNat_inj.mp (hv₁.symm.trans hv₂)

theorem utf16Read_word_append (c : Char) (us : List UInt16) :
    utf16Read (utf16Word c ++ us) = some c :: utf16Read us := by
  rcases utf16Word_cases c with ⟨u, hc, hu, huc⟩ | ⟨h, l, hc, hh, hl, hv⟩
  · rw [hc, List.singleton_append, utf16Read,
      utf16Reading_of_not_high (fun h => hu (.inl h)), unitValue_of_not_surrogate hu, huc]
    simp [utf16Read]
  · rw [hc, List.cons_append, List.singleton_append, utf16Read, utf16Reading_pair hh hl, hv]
    simp [utf16Read]

/-- Reading inverts encoding. -/
theorem utf16Read_encode (cs : List Char) : utf16Read (utf16.encode cs) = cs.map some := by
  induction cs with
  | nil => rfl
  | cons c cs ih =>
    rw [PrefixCode.encode_cons, show utf16.word c = utf16Word c from rfl,
      utf16Read_word_append, ih, List.map_cons]

private theorem utf16Word_of_unit {u : UInt16} (hu : ¬ IsSurrogate u.toNat) :
    utf16Word (Char.ofNat u.toNat) = [u] := by
  have hlt := u.toNat_lt
  have hn : (Char.ofNat u.toNat).toNat = u.toNat :=
    toNat_ofNat hu (by rw [maxCodePoint]; omega)
  rw [utf16Word, hn, if_pos (by omega), UInt16.ofNat_toNat]

private theorem utf16Word_of_pair {h l : UInt16} (hh : IsHighSurrogate h.toNat)
    (hl : IsLowSurrogate l.toNat) : utf16Word (Char.ofNat (pairValue h l)) = [h, l] := by
  obtain ⟨hlo, hhi⟩ := pairValue_bounds hh hl
  have hn : (Char.ofNat (pairValue h l)).toNat = pairValue h l :=
    toNat_ofNat (by rw [isSurrogate_iff]; generalize pairValue h l = n at *; omega) hhi
  rw [isHighSurrogate_iff] at hh
  rw [isLowSurrogate_iff] at hl
  have hhigh : 0xD800 + (pairValue h l - 0x10000) / 0x400 = h.toNat := by
    unfold pairValue
    omega
  have hlow : 0xDC00 + (pairValue h l - 0x10000) % 0x400 = l.toNat := by
    unfold pairValue
    omega
  rw [utf16Word, hn, if_neg (by generalize pairValue h l = n at *; omega), hhigh, hlow,
    UInt16.ofNat_toNat, UInt16.ofNat_toNat]

/-- The pending strings: none, and a high surrogate. -/
theorem utf16_pending_iff {p : List UInt16} :
    utf16.Pending p ↔ p = [] ∨ ∃ h, p = [h] ∧ IsHighSurrogate h.toNat := by
  constructor
  · rintro ⟨c, hpre, hne⟩
    change p <+: utf16Word c at hpre
    change p ≠ utf16Word c at hne
    rcases utf16Word_cases c with ⟨u, hc, -, -⟩ | ⟨h, l, hc, hh, -, -⟩ <;> rw [hc] at hpre hne
    · rcases List.prefix_concat_iff.mp (show p <+: [] ++ [u] from hpre) with hp | hp
      · exact absurd hp hne
      · exact .inl (List.prefix_nil.mp hp)
    · rcases List.prefix_concat_iff.mp (show p <+: [h] ++ [l] from hpre) with hp | hp
      · exact absurd hp hne
      · rcases List.prefix_concat_iff.mp (show p <+: [] ++ [h] from hp) with hp | hp
        · exact .inr ⟨h, hp, hh⟩
        · exact .inl (List.prefix_nil.mp hp)
  · rintro (rfl | ⟨h, rfl, hh⟩)
    · exact utf16.pending_nil
    · have hl : IsLowSurrogate (0xDC00 : UInt16).toNat := by decide
      have hword := utf16Word_of_pair hh hl
      generalize Char.ofNat (pairValue h 0xDC00) = c at hword
      have hc : utf16.word c = [h, 0xDC00] := hword
      refine ⟨c, ?_⟩
      rw [hc]
      exact ⟨⟨[0xDC00], rfl⟩, by simp⟩

/-- The pieces of the reading are pieces of the list: a unit or a surrogate pair each, and that of
a scalar value is its word. -/
theorem exists_blocks_utf16Read (us : List UInt16) :
    ∃ blocks : List (List UInt16), blocks.flatten = us ∧
      List.Forall₂ (fun o b => b ≠ [] ∧ ∀ c ∈ o, utf16.word c = b) (utf16Read us) blocks := by
  have hunit : ∀ (u : UInt16), ∀ c ∈ (unitValue u).map Char.ofNat, utf16.word c = [u] := by
    intro u c hc
    by_cases hsur : IsSurrogate u.toNat
    · rw [unitValue_of_surrogate hsur] at hc
      cases hc
    · rw [unitValue_of_not_surrogate hsur] at hc
      obtain rfl := Option.mem_some_iff.mp hc
      exact utf16Word_of_unit hsur
  induction us using utf16Reading.induct with
  | case1 => exact ⟨[], rfl, .nil⟩
  | case2 u => exact ⟨[[u]], rfl, .cons ⟨by simp, hunit u⟩ .nil⟩
  | case3 u l us hul ih =>
    obtain ⟨blocks, rfl, hblocks⟩ := ih
    have hword := utf16Word_of_pair hul.1 hul.2
    rw [utf16Read, utf16Reading_pair hul.1 hul.2, List.map_cons, Option.map_some]
    generalize Char.ofNat (pairValue u l) = c at hword ⊢
    refine ⟨[u, l] :: blocks, by simp, .cons ⟨by simp, fun d hd => ?_⟩ hblocks⟩
    rw [← Option.mem_some_iff.mp hd]
    exact hword
  | case4 u l us hul ih =>
    obtain ⟨blocks, hflatten, hblocks⟩ := ih
    rw [utf16Read, utf16Reading, if_neg hul]
    exact ⟨[u] :: blocks, by simp [hflatten], .cons ⟨by simp, hunit u⟩ hblocks⟩

end Icubaby
