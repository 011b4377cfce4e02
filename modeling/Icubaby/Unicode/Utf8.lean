import Mathlib.Tactic
import Icubaby.ForMathlib.PrefixCode
import Icubaby.Unicode.CodePoint

/-!
# UTF-8 as a prefix code

The word of a scalar value is `String.utf8EncodeChar`, the shortest form. Table 3-7 of the Unicode
standard describes the same byte sequences from left to right: the lead byte determines a list of
ranges (`tailRanges`), one for every byte that has to follow. `Owes p rs v` says that the bytes `p`
begin a sequence of that table, that the ranges `rs` are still owed, and that the payload bits
collected so far have the value `v`.

Table and code agree: nothing is owed exactly after a word (`owes_nil_iff`), and something is owed
exactly after a non-empty pending string (`pending_iff`). The prefix code `utf8` rests on this, and
so does the proof that the table-driven decoder follows it.
-/

namespace Icubaby

/-- The range of a continuation byte that the lead byte does not restrict. -/
def contRange : ℕ × ℕ := (0x80, 0xBF)

/-- Table 3-7: the ranges of the bytes that follow a lead byte, or `none` for a byte that leads
no sequence. -/
def tailRanges (lead : ℕ) : Option (List (ℕ × ℕ)) :=
  if lead ≤ 0x7F then some []
  else if lead < 0xC2 then none
  else if lead ≤ 0xDF then some [contRange]
  else if lead = 0xE0 then some [(0xA0, 0xBF), contRange]
  else if lead = 0xED then some [(0x80, 0x9F), contRange]
  else if lead ≤ 0xEF then some [contRange, contRange]
  else if lead = 0xF0 then some [(0x90, 0xBF), contRange, contRange]
  else if lead ≤ 0xF3 then some [contRange, contRange, contRange]
  else if lead = 0xF4 then some [(0x80, 0x8F), contRange, contRange]
  else none

/-- The rows of the table, by the length of the sequence. Only the range of the second byte depends
on the lead byte. -/
private theorem tailRanges_inv {n : ℕ} {rs : List (ℕ × ℕ)} (h : tailRanges n = some rs) :
    (n ≤ 0x7F ∧ rs = []) ∨ (0xC2 ≤ n ∧ n ≤ 0xDF ∧ rs = [contRange]) ∨
      (∃ r : ℕ × ℕ, 0xE0 ≤ n ∧ n ≤ 0xEF ∧ rs = [r, contRange] ∧ (0x80 ≤ r.1 ∧ r.2 ≤ 0xBF) ∧
        (n = 0xE0 → 0xA0 ≤ r.1) ∧ (n = 0xED → r.2 ≤ 0x9F)) ∨
      ∃ r : ℕ × ℕ, 0xF0 ≤ n ∧ n ≤ 0xF4 ∧ rs = [r, contRange, contRange] ∧
        (0x80 ≤ r.1 ∧ r.2 ≤ 0xBF) ∧ (n = 0xF0 → 0x90 ≤ r.1) ∧ (n = 0xF4 → r.2 ≤ 0x8F) := by
  rw [tailRanges] at h
  repeat' split at h
  all_goals cases h
  · exact .inl ⟨by assumption, rfl⟩
  · exact .inr (.inl ⟨by omega, by assumption, rfl⟩)
  -- `E0`, `ED` and the other leads of three bytes
  iterate 3
    · exact .inr (.inr (.inl ⟨_, by omega, by omega, rfl, by decide, by omega, by omega⟩))
  -- `F0`, `F1..F3` and `F4`
  iterate 3
    · exact .inr (.inr (.inr ⟨_, by omega, by omega, rfl, by decide, by omega, by omega⟩))

/-- The bytes that lead no sequence. -/
private theorem tailRanges_eq_none {n : ℕ} (h : tailRanges n = none) :
    0x7F < n ∧ ¬ (0xC2 ≤ n ∧ n ≤ 0xF4) := by
  rw [tailRanges] at h
  repeat' split at h
  all_goals cases h
  all_goals omega

/-- The payload bits of a lead byte. -/
def leadPayload (lead : ℕ) : ℕ :=
  if lead ≤ 0x7F then lead
  else if lead ≤ 0xDF then lead - 0xC0
  else if lead ≤ 0xEF then lead - 0xE0
  else lead - 0xF0

private theorem leadPayload_one {n : ℕ} (h : n ≤ 0x7F) : leadPayload n = n :=
  if_pos h

private theorem leadPayload_two {n : ℕ} (h : 0x7F < n) (h' : n ≤ 0xDF) :
    leadPayload n = n - 0xC0 := by
  rw [leadPayload, if_neg (by omega), if_pos h']

private theorem leadPayload_three {n : ℕ} (h : 0xDF < n) (h' : n ≤ 0xEF) :
    leadPayload n = n - 0xE0 := by
  rw [leadPayload, if_neg (by omega), if_neg (by omega), if_pos h']

private theorem leadPayload_four {n : ℕ} (h : 0xEF < n) : leadPayload n = n - 0xF0 := by
  rw [leadPayload, if_neg (by omega), if_neg (by omega), if_neg (by omega)]

/-- Appends the six payload bits of a continuation byte. -/
def pushPayload (v : ℕ) (b : UInt8) : ℕ := v * 64 + b.toNat % 64

/-- The byte lies in the range. -/
def InRange (b : UInt8) (r : ℕ × ℕ) : Prop := r.1 ≤ b.toNat ∧ b.toNat ≤ r.2

instance (b : UInt8) (r : ℕ × ℕ) : Decidable (InRange b r) := inferInstanceAs (Decidable (_ ∧ _))

/-- The bytes begin a sequence of Table 3-7: the ranges that are still owed and the value of the
payload bits so far. -/
inductive Owes : List UInt8 → List (ℕ × ℕ) → ℕ → Prop
  | lead {b rs} : tailRanges b.toNat = some rs → Owes [b] rs (leadPayload b.toNat)
  | tail {p b r rs v} : Owes p (r :: rs) v → InRange b r → Owes (p ++ [b]) rs (pushPayload v b)

/-! ### The encoding, by length -/

theorem utf8EncodeChar_one {c : Char} (h : c.toNat ≤ 0x7F) :
    String.utf8EncodeChar c = [UInt8.ofNat c.toNat] := by
  rw [String.utf8EncodeChar]
  simp only [Char.toNat_val]
  rw [if_pos h]

theorem utf8EncodeChar_two {c : Char} (h : 0x7F < c.toNat) (h' : c.toNat ≤ 0x7FF) :
    String.utf8EncodeChar c =
      [UInt8.ofNat (c.toNat / 64 + 0xC0), UInt8.ofNat (c.toNat % 64 + 0x80)] := by
  have hlead : c.toNat / 64 % 0x20 = c.toNat / 64 := Nat.mod_eq_of_lt (by omega)
  rw [String.utf8EncodeChar]
  simp only [Char.toNat_val]
  rw [if_neg (by omega), if_pos h', hlead]

theorem utf8EncodeChar_three {c : Char} (h : 0x7FF < c.toNat) (h' : c.toNat ≤ 0xFFFF) :
    String.utf8EncodeChar c =
      [UInt8.ofNat (c.toNat / 4096 + 0xE0), UInt8.ofNat (c.toNat / 64 % 64 + 0x80),
        UInt8.ofNat (c.toNat % 64 + 0x80)] := by
  have hlead : c.toNat / 4096 % 0x10 = c.toNat / 4096 := Nat.mod_eq_of_lt (by omega)
  rw [String.utf8EncodeChar]
  simp only [Char.toNat_val]
  rw [if_neg (by omega), if_neg (by omega), if_pos h', hlead]

theorem utf8EncodeChar_four {c : Char} (h : 0xFFFF < c.toNat) :
    String.utf8EncodeChar c =
      [UInt8.ofNat (c.toNat / 262144 + 0xF0), UInt8.ofNat (c.toNat / 4096 % 64 + 0x80),
        UInt8.ofNat (c.toNat / 64 % 64 + 0x80), UInt8.ofNat (c.toNat % 64 + 0x80)] := by
  have hmax := toNat_le_maxCodePoint c
  have hlead : c.toNat / 262144 % 0x08 = c.toNat / 262144 :=
    Nat.mod_eq_of_lt (by rw [maxCodePoint] at hmax; omega)
  rw [String.utf8EncodeChar]
  simp only [Char.toNat_val]
  rw [if_neg (by omega), if_neg (by omega), if_neg (by omega), hlead]

/-! ### Sequences of the table are encodings -/

/-- A byte is determined by its value. -/
private theorem ofNat_eq_byte {n : ℕ} {b : UInt8} (h : n = b.toNat) : UInt8.ofNat n = b := by
  rw [h, UInt8.ofNat_toNat]

private theorem exists_char_of_one {b : UInt8} (hb : b.toNat ≤ 0x7F) :
    ∃ c : Char, String.utf8EncodeChar c = [b] ∧ c.toNat = b.toNat := by
  have hc : (Char.ofNat b.toNat).toNat = b.toNat :=
    toNat_ofNat (by rw [isSurrogate_iff]; omega) (by rw [maxCodePoint]; omega)
  refine ⟨Char.ofNat b.toNat, ?_, hc⟩
  rw [utf8EncodeChar_one (by omega), ofNat_eq_byte hc]

private theorem exists_char_of_two {b t₁ : UInt8} (hb : 0xC2 ≤ b.toNat) (hb' : b.toNat ≤ 0xDF)
    (h₁ : InRange t₁ contRange) :
    ∃ c : Char, String.utf8EncodeChar c = [b, t₁] ∧
      c.toNat = (b.toNat - 0xC0) * 64 + t₁.toNat % 64 := by
  obtain ⟨hlo, hhi⟩ := h₁
  simp only [contRange] at hlo hhi
  have hc : (Char.ofNat ((b.toNat - 0xC0) * 64 + t₁.toNat % 64)).toNat = _ :=
    toNat_ofNat (by rw [isSurrogate_iff]; omega) (by rw [maxCodePoint]; omega)
  refine ⟨_, ?_, hc⟩
  rw [utf8EncodeChar_two (by omega) (by omega), ofNat_eq_byte (b := b) (by omega),
    ofNat_eq_byte (b := t₁) (by omega)]

private theorem exists_char_of_three {b t₁ t₂ : UInt8} (hb : 0xE0 ≤ b.toNat)
    (hb' : b.toNat ≤ 0xEF) (h₁ : InRange t₁ contRange) (h₂ : InRange t₂ contRange)
    (hlow : b.toNat = 0xE0 → 0xA0 ≤ t₁.toNat) (hsur : b.toNat = 0xED → t₁.toNat ≤ 0x9F) :
    ∃ c : Char, String.utf8EncodeChar c = [b, t₁, t₂] ∧
      c.toNat = ((b.toNat - 0xE0) * 64 + t₁.toNat % 64) * 64 + t₂.toNat % 64 := by
  obtain ⟨hlo₁, hhi₁⟩ := h₁
  obtain ⟨hlo₂, hhi₂⟩ := h₂
  simp only [contRange] at hlo₁ hhi₁ hlo₂ hhi₂
  have hc : (Char.ofNat (((b.toNat - 0xE0) * 64 + t₁.toNat % 64) * 64 + t₂.toNat % 64)).toNat = _ :=
    toNat_ofNat (by rw [isSurrogate_iff]; omega) (by rw [maxCodePoint]; omega)
  refine ⟨_, ?_, hc⟩
  rw [utf8EncodeChar_three (by omega) (by omega), ofNat_eq_byte (b := b) (by omega),
    ofNat_eq_byte (b := t₁) (by omega), ofNat_eq_byte (b := t₂) (by omega)]

private theorem exists_char_of_four {b t₁ t₂ t₃ : UInt8} (hb : 0xF0 ≤ b.toNat)
    (hb' : b.toNat ≤ 0xF4) (h₁ : InRange t₁ contRange) (h₂ : InRange t₂ contRange)
    (h₃ : InRange t₃ contRange)
    (hlow : b.toNat = 0xF0 → 0x90 ≤ t₁.toNat) (hmax : b.toNat = 0xF4 → t₁.toNat ≤ 0x8F) :
    ∃ c : Char, String.utf8EncodeChar c = [b, t₁, t₂, t₃] ∧
      c.toNat = (((b.toNat - 0xF0) * 64 + t₁.toNat % 64) * 64 + t₂.toNat % 64) * 64
        + t₃.toNat % 64 := by
  obtain ⟨hlo₁, hhi₁⟩ := h₁
  obtain ⟨hlo₂, hhi₂⟩ := h₂
  obtain ⟨hlo₃, hhi₃⟩ := h₃
  simp only [contRange] at hlo₁ hhi₁ hlo₂ hhi₂ hlo₃ hhi₃
  have hc : (Char.ofNat ((((b.toNat - 0xF0) * 64 + t₁.toNat % 64) * 64 + t₂.toNat % 64) * 64
      + t₃.toNat % 64)).toNat = _ :=
    toNat_ofNat (by rw [isSurrogate_iff]; omega) (by rw [maxCodePoint]; omega)
  refine ⟨_, ?_, hc⟩
  rw [utf8EncodeChar_four (by omega), ofNat_eq_byte (b := b) (by omega),
    ofNat_eq_byte (b := t₁) (by omega), ofNat_eq_byte (b := t₂) (by omega),
    ofNat_eq_byte (b := t₃) (by omega)]

/-- A byte of a narrower range is a continuation byte. -/
private theorem InRange.cont {b : UInt8} {r : ℕ × ℕ} (h : InRange b r) (hlo : 0x80 ≤ r.1)
    (hhi : r.2 ≤ 0xBF) : InRange b contRange :=
  ⟨hlo.trans h.1, h.2.trans hhi⟩

/-- A complete sequence of the table is the word of a scalar value, whose value is the payload. -/
private theorem exists_char_of_tails {b : UInt8} {rs : List (ℕ × ℕ)}
    (hb : tailRanges b.toNat = some rs) {t : List UInt8} (ht : List.Forall₂ InRange t rs) :
    ∃ c : Char, String.utf8EncodeChar c = b :: t ∧
      c.toNat = t.foldl pushPayload (leadPayload b.toNat) := by
  rcases tailRanges_inv hb with ⟨hhi, rfl⟩ | ⟨hlo, hhi, rfl⟩ | ⟨r, hlo, hhi, rfl, hr, hlow, hsur⟩ |
    ⟨r, hlo, hhi, rfl, hr, hlow, hmax⟩
  all_goals simp only [List.forall₂_cons_right_iff, List.forall₂_nil_right_iff] at ht
  · subst ht
    rw [List.foldl_nil, leadPayload_one hhi]
    exact exists_char_of_one hhi
  · obtain ⟨t₁, _, h₁, rfl, rfl⟩ := ht
    rw [List.foldl_cons, List.foldl_nil, leadPayload_two (by omega) hhi]
    exact exists_char_of_two hlo hhi h₁
  · obtain ⟨t₁, _, h₁, ⟨t₂, _, h₂, rfl, rfl⟩, rfl⟩ := ht
    rw [List.foldl_cons, List.foldl_cons, List.foldl_nil, leadPayload_three (by omega) hhi]
    exact exists_char_of_three hlo hhi (h₁.cont hr.1 hr.2) h₂
      (fun h => (hlow h).trans h₁.1) (fun h => h₁.2.trans (hsur h))
  · obtain ⟨t₁, _, h₁, ⟨t₂, _, h₂, ⟨t₃, _, h₃, rfl, rfl⟩, rfl⟩, rfl⟩ := ht
    rw [List.foldl_cons, List.foldl_cons, List.foldl_cons, List.foldl_nil,
      leadPayload_four (by omega)]
    exact exists_char_of_four hlo hhi (h₁.cont hr.1 hr.2) h₂ h₃
      (fun h => (hlow h).trans h₁.1) (fun h => h₁.2.trans (hmax h))

/-! ### Encodings are sequences of the table -/

private theorem toNat_ofNat_byte {n : ℕ} (h : n < 256) : (UInt8.ofNat n).toNat = n := by
  rw [UInt8.toNat_ofNat', Nat.mod_eq_of_lt h]

private theorem inRange_cont {b : UInt8} {n : ℕ} (h : b.toNat = n % 64 + 0x80) :
    InRange b contRange := by
  simp only [InRange, contRange]
  omega

private theorem owes_two {n : ℕ} (h : 0x7F < n) (h' : n ≤ 0x7FF) {b t₁ : UInt8}
    (hb : b.toNat = n / 64 + 0xC0) (ht₁ : t₁.toNat = n % 64 + 0x80) :
    Owes [b, t₁] [] n := by
  have hr : tailRanges b.toNat = some [contRange] := by
    rw [tailRanges, if_neg (by omega), if_neg (by omega), if_pos (by omega)]
  have hv : pushPayload (leadPayload b.toNat) t₁ = n := by
    rw [pushPayload, leadPayload_two (by omega) (by omega)]
    omega
  exact hv ▸ (Owes.lead hr).tail (inRange_cont ht₁)

private theorem owes_three {n : ℕ} (h : 0x7FF < n) (h' : n ≤ 0xFFFF) (hsur : ¬ IsSurrogate n)
    {b t₁ t₂ : UInt8} (hb : b.toNat = n / 4096 + 0xE0) (ht₁ : t₁.toNat = n / 64 % 64 + 0x80)
    (ht₂ : t₂.toNat = n % 64 + 0x80) : Owes [b, t₁, t₂] [] n := by
  rw [isSurrogate_iff] at hsur
  obtain ⟨r, hr, h₁⟩ : ∃ r, tailRanges b.toNat = some [r, contRange] ∧ InRange t₁ r := by
    rw [tailRanges, if_neg (by omega), if_neg (by omega), if_neg (by omega)]
    repeat' split
    all_goals first | omega | exact ⟨_, rfl, by simp only [InRange, contRange]; omega⟩
  have hv : pushPayload (pushPayload (leadPayload b.toNat) t₁) t₂ = n := by
    rw [leadPayload_three (by omega) (by omega)]
    simp only [pushPayload]
    omega
  exact hv ▸ ((Owes.lead hr).tail h₁).tail (inRange_cont ht₂)

private theorem owes_four {n : ℕ} (h : 0xFFFF < n) (h' : n ≤ maxCodePoint)
    {b t₁ t₂ t₃ : UInt8} (hb : b.toNat = n / 262144 + 0xF0)
    (ht₁ : t₁.toNat = n / 4096 % 64 + 0x80) (ht₂ : t₂.toNat = n / 64 % 64 + 0x80)
    (ht₃ : t₃.toNat = n % 64 + 0x80) : Owes [b, t₁, t₂, t₃] [] n := by
  rw [maxCodePoint] at h'
  obtain ⟨r, hr, h₁⟩ : ∃ r, tailRanges b.toNat = some [r, contRange, contRange] ∧
      InRange t₁ r := by
    rw [tailRanges, if_neg (by omega), if_neg (by omega), if_neg (by omega), if_neg (by omega),
      if_neg (by omega), if_neg (by omega)]
    repeat' split
    all_goals first | omega | exact ⟨_, rfl, by simp only [InRange, contRange]; omega⟩
  have hv : pushPayload (pushPayload (pushPayload (leadPayload b.toNat) t₁) t₂) t₃ = n := by
    rw [leadPayload_four (by omega)]
    simp only [pushPayload]
    omega
  exact hv ▸ (((Owes.lead hr).tail h₁).tail (inRange_cont ht₂)).tail (inRange_cont ht₃)

/-- **The word of a scalar value is a sequence of the table**, and its payload is the value. -/
theorem owes_word (c : Char) : Owes (String.utf8EncodeChar c) [] c.toNat := by
  have hmax := toNat_le_maxCodePoint c
  rw [maxCodePoint] at hmax
  rcases Nat.lt_or_ge 0x7F c.toNat with h1 | h1
  · rcases Nat.lt_or_ge 0x7FF c.toNat with h2 | h2
    · rcases Nat.lt_or_ge 0xFFFF c.toNat with h3 | h3
      · rw [utf8EncodeChar_four h3]
        exact owes_four h3 hmax (toNat_ofNat_byte (by omega)) (toNat_ofNat_byte (by omega))
          (toNat_ofNat_byte (by omega)) (toNat_ofNat_byte (by omega))
      · rw [utf8EncodeChar_three h2 h3]
        exact owes_three h2 h3 (not_isSurrogate_toNat c) (toNat_ofNat_byte (by omega))
          (toNat_ofNat_byte (by omega)) (toNat_ofNat_byte (by omega))
    · rw [utf8EncodeChar_two h1 h2]
      exact owes_two h1 h2 (toNat_ofNat_byte (by omega)) (toNat_ofNat_byte (by omega))
  · have hb : (UInt8.ofNat c.toNat).toNat = c.toNat := toNat_ofNat_byte (by omega)
    have hr : tailRanges (UInt8.ofNat c.toNat).toNat = some [] := by rw [hb]; exact if_pos h1
    have hv : leadPayload (UInt8.ofNat c.toNat).toNat = c.toNat := by rw [hb]; exact if_pos h1
    have h := Owes.lead hr
    rw [hv] at h
    rwa [utf8EncodeChar_one h1]

/-! ### What is owed -/

/-- The lists of ranges that can be owed after the first byte of a sequence. -/
def owedLists : List (List (ℕ × ℕ)) :=
  [[], [contRange], [contRange, contRange], [contRange, contRange, contRange],
    [(0xA0, 0xBF), contRange], [(0x80, 0x9F), contRange],
    [(0x90, 0xBF), contRange, contRange], [(0x80, 0x8F), contRange, contRange]]

theorem mem_owedLists_of_tailRanges {b : ℕ} {rs : List (ℕ × ℕ)} (h : tailRanges b = some rs) :
    rs ∈ owedLists := by
  rw [tailRanges] at h
  repeat' split at h
  all_goals cases h
  all_goals simp [owedLists]

theorem mem_owedLists_of_cons {r : ℕ × ℕ} {rs : List (ℕ × ℕ)} (h : r :: rs ∈ owedLists) :
    rs ∈ owedLists := by
  have hall : ∀ l ∈ owedLists, l.tail ∈ owedLists := by decide
  exact hall _ h

theorem Owes.mem_owedLists {p : List UInt8} {rs : List (ℕ × ℕ)} {v : ℕ} (h : Owes p rs v) :
    rs ∈ owedLists := by
  induction h with
  | lead hb => exact mem_owedLists_of_tailRanges hb
  | tail _ _ ih => exact mem_owedLists_of_cons ih

theorem Owes.ne_nil {p : List UInt8} {rs : List (ℕ × ℕ)} {v : ℕ} (h : Owes p rs v) : p ≠ [] := by
  cases h <;> simp

/-- Every byte that is owed is a continuation byte. -/
theorem Owes.inRange_cont {p : List UInt8} {r : ℕ × ℕ} {rs : List (ℕ × ℕ)} {v : ℕ}
    (h : Owes p (r :: rs) v) {b : UInt8} (hb : InRange b r) : InRange b contRange := by
  have hall : ∀ l ∈ owedLists, ∀ r ∈ l.head?, 0x80 ≤ r.1 ∧ r.2 ≤ 0xBF := by decide
  obtain ⟨hlo, hhi⟩ := hall _ h.mem_owedLists r rfl
  exact hb.cont hlo hhi

/-- **The shape of a sequence**: a byte that is no continuation byte, and continuation bytes. -/
theorem Owes.exists_lead {p : List UInt8} {rs : List (ℕ × ℕ)} {v : ℕ} (h : Owes p rs v) :
    ∃ b t, p = b :: t ∧ ¬ InRange b contRange ∧ ∀ x ∈ t, InRange x contRange := by
  induction h with
  | @lead b rs hb =>
    refine ⟨b, [], rfl, fun hcont => ?_, by simp⟩
    obtain ⟨hlo, hhi⟩ := hcont
    simp only [contRange] at hlo hhi
    rw [tailRanges, if_neg (by omega), if_pos (by omega)] at hb
    cases hb
  | @tail p b r rs v h hr ih =>
    obtain ⟨b', t, rfl, hb', ht⟩ := ih
    refine ⟨b', t ++ [b], rfl, hb', fun x hx => ?_⟩
    rcases List.mem_append.mp hx with hx | hx
    · exact ht x hx
    · rw [List.mem_singleton.mp hx]
      exact h.inRange_cont hr

private theorem Owes.concat_ne_singleton {p : List UInt8} {rs : List (ℕ × ℕ)} {v : ℕ}
    (h : Owes p rs v) (x b : UInt8) : p ++ [x] ≠ [b] := by
  intro hp
  have hlen := congrArg List.length hp
  have hpos := List.length_pos_iff.mpr h.ne_nil
  simp only [List.length_singleton, List.length_append] at hlen
  omega

/-- What has been read determines what is owed and the payload. -/
theorem Owes.unique {p : List UInt8} {rs rs' : List (ℕ × ℕ)} {v v' : ℕ} (h : Owes p rs v)
    (h' : Owes p rs' v') : rs = rs' ∧ v = v' := by
  induction h generalizing rs' v' with
  | @lead b rs hb =>
    generalize hp : [b] = p at h'
    cases h' with
    | lead hb' =>
      obtain rfl := List.singleton_inj.mp hp
      exact ⟨Option.some.inj (hb.symm.trans hb'), rfl⟩
    | tail h' _ => exact absurd hp.symm (h'.concat_ne_singleton _ _)
  | @tail p b r rs v h hr ih =>
    generalize hp : p ++ [b] = q at h'
    cases h' with
    | lead _ => exact absurd hp (h.concat_ne_singleton _ _)
    | tail h' hr' =>
      obtain ⟨rfl, hbb⟩ := List.append_inj' hp rfl
      obtain rfl := List.singleton_inj.mp hbb
      obtain ⟨hrs, rfl⟩ := ih h'
      exact ⟨(List.cons.inj hrs).2, rfl⟩

/-- What is owed after a lead byte. -/
theorem owes_singleton_iff {b : UInt8} {rs : List (ℕ × ℕ)} {v : ℕ} :
    Owes [b] rs v ↔ tailRanges b.toNat = some rs ∧ v = leadPayload b.toNat := by
  constructor
  · intro h
    generalize hp : [b] = p at h
    cases h with
    | lead hb =>
      obtain rfl := List.singleton_inj.mp hp
      exact ⟨hb, rfl⟩
    | tail h _ => exact absurd hp.symm (h.concat_ne_singleton _ _)
  · rintro ⟨hb, rfl⟩
    exact .lead hb

/-- What is owed after one more byte. -/
theorem Owes.concat_iff {p : List UInt8} {r : ℕ × ℕ} {rs rs' : List (ℕ × ℕ)} {v v' : ℕ}
    {x : UInt8} (h : Owes p (r :: rs) v) :
    Owes (p ++ [x]) rs' v' ↔ InRange x r ∧ rs' = rs ∧ v' = pushPayload v x := by
  constructor
  · intro h'
    generalize hp : p ++ [x] = q at h'
    cases h' with
    | lead _ => exact absurd hp (h.concat_ne_singleton _ _)
    | tail h' hr =>
      obtain ⟨rfl, hx⟩ := List.append_inj' hp rfl
      obtain rfl := List.singleton_inj.mp hx
      obtain ⟨hrs, rfl⟩ := h.unique h'
      obtain ⟨rfl, rfl⟩ := List.cons.inj hrs
      exact ⟨hr, rfl, rfl⟩
  · rintro ⟨hr, rfl, rfl⟩
    exact h.tail hr

/-- At a proper non-empty prefix something is still owed. -/
theorem Owes.of_isPrefix {p q : List UInt8} {rs : List (ℕ × ℕ)} {v : ℕ} (h : Owes p rs v)
    (hq : q <+: p) (hne : q ≠ []) : q = p ∨ ∃ r rs' v', Owes q (r :: rs') v' := by
  induction h with
  | @lead b rs hb =>
    rcases List.prefix_cons_iff.mp hq with rfl | ⟨t, rfl, ht⟩
    · exact absurd rfl hne
    · exact .inl (by rw [List.prefix_nil.mp ht])
  | @tail p b r rs v h hr ih =>
    rcases List.prefix_concat_iff.mp hq with rfl | hq
    · exact .inl rfl
    · rcases ih hq with rfl | hex
      · exact .inr ⟨r, rs, v, h⟩
      · exact .inr hex

/-- Bytes that pay what is owed complete the word of a scalar value. -/
theorem Owes.exists_char {p : List UInt8} {rs : List (ℕ × ℕ)} {v : ℕ} (h : Owes p rs v)
    {t : List UInt8} (ht : List.Forall₂ InRange t rs) :
    ∃ c : Char, String.utf8EncodeChar c = p ++ t ∧ c.toNat = t.foldl pushPayload v := by
  induction h generalizing t with
  | lead hb => exact exists_char_of_tails hb ht
  | @tail p b r rs v _ hr ih =>
    obtain ⟨c, hc, hv⟩ := ih (List.Forall₂.cons hr ht)
    exact ⟨c, by simp [hc], hv⟩

/-- The least bytes of the ranges pay what is owed. -/
private theorem forall₂_inRange_least {rs : List (ℕ × ℕ)} (h : rs ∈ owedLists) :
    List.Forall₂ InRange (rs.map fun r => UInt8.ofNat r.1) rs := by
  revert rs
  decide

/-- **Nothing is owed exactly after a word.** -/
theorem owes_nil_iff {p : List UInt8} {v : ℕ} :
    Owes p [] v ↔ ∃ c : Char, String.utf8EncodeChar c = p ∧ c.toNat = v := by
  constructor
  · intro h
    simpa using h.exists_char List.Forall₂.nil
  · rintro ⟨c, rfl, rfl⟩
    exact owes_word c

/-! ### The code -/

/-- UTF-8 as a prefix code: the word of a scalar value is its shortest encoding. -/
def utf8 : PrefixCode Char UInt8 where
  word := String.utf8EncodeChar
  word_ne_nil _ := String.utf8EncodeChar_ne_nil
  eq_of_isPrefix {c d} h := by
    have hc := owes_word c
    rcases (owes_word d).of_isPrefix h String.utf8EncodeChar_ne_nil with heq | ⟨r, rs, v, hr⟩
    · exact Char.toNat_inj.mp ((heq ▸ hc).unique (owes_word d)).2
    · exact absurd (hc.unique hr).1 (by simp)

/-- **Something is owed exactly after a non-empty pending string.** -/
theorem pending_iff {p : List UInt8} (hne : p ≠ []) :
    utf8.Pending p ↔ ∃ r rs v, Owes p (r :: rs) v := by
  constructor
  · rintro ⟨c, hpre, hnw⟩
    rcases (owes_word c).of_isPrefix hpre hne with rfl | hex
    · exact absurd rfl hnw
    · exact hex
  · rintro ⟨r, rs, v, h⟩
    obtain ⟨c, hc, -⟩ := h.exists_char (forall₂_inRange_least h.mem_owedLists)
    refine ⟨c, ⟨_, hc.symm⟩, ?_⟩
    rintro rfl
    exact absurd (h.unique (owes_word c)).1 (by simp)

/-- The symbol of a string after which nothing is owed. -/
theorem symbol?_of_owes {p : List UInt8} {v : ℕ} (h : Owes p [] v) :
    ∃ c, utf8.symbol? p = some c ∧ c.toNat = v := by
  obtain ⟨c, hc, hv⟩ := owes_nil_iff.mp h
  exact ⟨c, utf8.symbol?_eq_some_iff.mpr hc, hv⟩

/-- A string that begins no sequence of the table is neither pending nor a word. -/
theorem dead_of_not_owes {p : List UInt8} (hne : p ≠ []) (h : ∀ rs v, ¬ Owes p rs v) :
    ¬ utf8.Pending p ∧ utf8.symbol? p = none := by
  constructor
  · intro hp
    obtain ⟨r, rs, v, hr⟩ := (pending_iff hne).mp hp
    exact h _ _ hr
  · rw [PrefixCode.symbol?_eq_none_iff]
    rintro c rfl
    exact h _ _ (owes_word c)

/-- **A byte alone** is the word of an ASCII character, the begin of a sequence, or neither. -/
theorem utf8_byte_cases (b : UInt8) :
    (b.toNat ≤ 0x7F ∧ ∃ c, utf8.word c = [b] ∧ c.toNat = b.toNat) ∨
      ((0xC2 ≤ b.toNat ∧ b.toNat ≤ 0xF4) ∧ utf8.Pending [b]) ∨
      ((0x7F < b.toNat ∧ ¬ (0xC2 ≤ b.toNat ∧ b.toNat ≤ 0xF4)) ∧
        ¬ utf8.Pending [b] ∧ utf8.symbol? [b] = none) := by
  have hpending : ∀ r rs, tailRanges b.toNat = some (r :: rs) → utf8.Pending [b] :=
    fun r rs hb => (pending_iff (by simp)).mpr ⟨r, rs, _, .lead hb⟩
  cases hb : tailRanges b.toNat with
  | none =>
    refine .inr (.inr ⟨tailRanges_eq_none hb, dead_of_not_owes (by simp) fun rs v h => ?_⟩)
    rw [owes_singleton_iff, hb] at h
    cases h.1
  | some rs =>
    rcases tailRanges_inv hb with ⟨hhi, rfl⟩ | ⟨hlo, hhi, rfl⟩ | ⟨r, hlo, hhi, rfl, -⟩ |
      ⟨r, hlo, hhi, rfl, -⟩
    · obtain ⟨c, hc, hcv⟩ := owes_nil_iff.mp (Owes.lead hb)
      exact .inl ⟨hhi, c, hc, hcv.trans (leadPayload_one hhi)⟩
    · exact .inr (.inl ⟨⟨hlo, by omega⟩, hpending _ _ hb⟩)
    · exact .inr (.inl ⟨⟨by omega, by omega⟩, hpending _ _ hb⟩)
    · exact .inr (.inl ⟨⟨by omega, hhi⟩, hpending _ _ hb⟩)

private theorem le_foldl_pushPayload (v : ℕ) (t : List UInt8) : v ≤ t.foldl pushPayload v := by
  induction t generalizing v with
  | nil => exact le_rfl
  | cons b t ih =>
    refine le_trans ?_ (ih (pushPayload v b))
    rw [pushPayload]
    omega

/-- While a byte is owed, the payload with six more bits is below the last code point. -/
theorem Owes.payload_le {p : List UInt8} {r : ℕ × ℕ} {rs : List (ℕ × ℕ)} {v : ℕ}
    (h : Owes p (r :: rs) v) : v * 64 ≤ maxCodePoint := by
  obtain ⟨c, -, hv⟩ := h.exists_char (forall₂_inRange_least h.mem_owedLists)
  have hmax := toNat_le_maxCodePoint c
  rw [List.map_cons, List.foldl_cons] at hv
  calc v * 64 ≤ pushPayload v (UInt8.ofNat r.1) := Nat.le_add_right _ _
    _ ≤ _ := le_foldl_pushPayload _ _
    _ = c.toNat := hv.symm
    _ ≤ maxCodePoint := hmax

end Icubaby
