import Icubaby.Transcoder.Laws
import Icubaby.Transcoder.Online

/-!
# Counting code points without decoding

`is_code_point_start`, `length` and `index` look at single code units: a unit begins a code point
when its bits say so. On well-formed input these are the first units of the words, so the offset
found for a position is where a transcoder has written that many code points and holds nothing back
(`index_encode`).
-/

namespace Icubaby

/-- `std::ranges::find_if` with a predicate that has a state: the offset of the first element that
it accepts, or of the end. -/
def findIf {σ α : Type} (pred : σ → α → Bool × σ) (s : σ) : List α → ℕ
  | [] => 0
  | x :: xs =>
    let r := pred s x
    if r.1 then 0 else findIf pred r.2 xs + 1

namespace CharType

/-- `is_code_point_start` -/
def isCodePointStart : (F : CharType) → F.Unit → Bool
  | char8, codeUnit => (codeUnit &&& 0b11000000) ≠ 0b10000000
  | char16, codeUnit => ¬ IsLowSurrogate codeUnit.toNat
  | char32, codeUnit => ¬ IsSurrogate codeUnit.toNat ∧ codeUnit.toNat ≤ maxCodePoint

/-- `length`: the number of code points in a sequence, if it is well formed. -/
def length (F : CharType) (range : List F.Unit) : ℕ := range.countP F.isCodePointStart

/-- The predicate of `index`: it accepts the begin of the `pos`'th code point. Its state is the
number of code points that have begun. -/
def indexPredicate (F : CharType) (pos count : ℕ) (codeUnit : F.Unit) : Bool × ℕ :=
  if F.isCodePointStart codeUnit then (count == pos, count + 1) else (false, count)

/-- `index`: the offset of the begin of the `pos`'th code point in a sequence, or that of its
end. -/
def index (F : CharType) (range : List F.Unit) (pos : ℕ) : ℕ :=
  findIf (F.indexPredicate pos) 0 range

/-! ### On words -/

private theorem isCodePointStart_iff : ∀ b < 256,
    char8.isCodePointStart (UInt8.ofNat b) = true ↔ ¬ InRange (UInt8.ofNat b) contRange := by
  decide +kernel

private theorem isCodePointStart_char8_iff (b : UInt8) :
    char8.isCodePointStart b = true ↔ ¬ InRange b contRange := by
  have h := isCodePointStart_iff b.toNat b.toNat_lt
  rwa [UInt8.ofNat_toNat] at h

/-- **The first unit of a word begins a code point**, and no other unit does. -/
theorem exists_start (F : CharType) (c : Char) :
    ∃ u t, F.code.word c = u :: t ∧ F.isCodePointStart u = true ∧
      ∀ v ∈ t, F.isCodePointStart v = false := by
  cases F with
  | char8 =>
    obtain ⟨b, t, hword, hb, ht⟩ := (owes_word c).exists_lead
    refine ⟨b, t, hword, (isCodePointStart_char8_iff b).mpr hb, fun v hv => ?_⟩
    rw [Bool.eq_false_iff, Ne, isCodePointStart_char8_iff, not_not]
    exact ht v hv
  | char16 =>
    rcases utf16Word_cases c with ⟨u, hc, hu, -⟩ | ⟨h, l, hc, hh, hl, -⟩
    · exact ⟨u, [], hc, decide_eq_true fun h => hu (.inr h), by simp⟩
    · refine ⟨h, [l], hc, decide_eq_true fun h => not_isHighSurrogate h hh, fun v hv => ?_⟩
      rw [List.mem_singleton.mp hv]
      exact decide_eq_false (not_not.mpr hl)
  | char32 =>
    exact ⟨c.val, [], rfl,
      decide_eq_true ⟨not_isSurrogate_toNat c, toNat_le_maxCodePoint c⟩, by simp⟩

/-- `length` counts the words of a well-formed list. -/
theorem length_encode (F : CharType) (cs : List Char) :
    F.length (F.code.encode cs) = cs.length := by
  induction cs with
  | nil => rfl
  | cons c cs ih =>
    obtain ⟨u, t, hword, hu, ht⟩ := F.exists_start c
    have htail : t.countP F.isCodePointStart = 0 :=
      List.countP_eq_zero.mpr fun v hv => by simp [ht v hv]
    rw [length] at ih ⊢
    rw [PrefixCode.encode_cons, List.countP_append, ih, hword, List.countP_cons_of_pos hu, htail,
      List.length_cons, Nat.zero_add, Nat.add_comm]

/-- The search passes over units that begin no code point. -/
private theorem findIf_append {F : CharType} {t : List F.Unit}
    (ht : ∀ v ∈ t, F.isCodePointStart v = false) (pos count : ℕ) (us : List F.Unit) :
    findIf (F.indexPredicate pos) count (t ++ us) =
      t.length + findIf (F.indexPredicate pos) count us := by
  induction t with
  | nil => rw [List.nil_append, List.length_nil, Nat.zero_add]
  | cons v t ih =>
    have hv : F.indexPredicate pos count v = (false, count) := by
      rw [indexPredicate, ht v List.mem_cons_self]
      rfl
    have ih' := ih fun w hw => ht w (List.mem_cons_of_mem v hw)
    rw [List.cons_append, findIf, hv, List.length_cons]
    simp only [Bool.false_eq_true, if_false, ih']
    omega

/-- **The offset found** is the length of the words before the position. -/
private theorem findIf_encode (F : CharType) {pos count : ℕ} (h : count ≤ pos) (cs : List Char) :
    findIf (F.indexPredicate pos) count (F.code.encode cs) =
      (F.code.encode (cs.take (pos - count))).length := by
  induction cs generalizing count with
  | nil => rw [List.take_nil]; rfl
  | cons c cs ih =>
    obtain ⟨u, t, hword, hu, ht⟩ := F.exists_start c
    have hpred : F.indexPredicate pos count u = (count == pos, count + 1) := by
      rw [indexPredicate, hu]
      rfl
    rw [PrefixCode.encode_cons, hword, List.cons_append, findIf, hpred]
    rcases h.eq_or_lt with rfl | hlt
    · rw [Nat.sub_self, List.take_zero]
      simp
    · have htake : pos - count = pos - (count + 1) + 1 := by omega
      have ih' : findIf (F.indexPredicate pos) (count + 1) (F.code.encode cs) = _ := ih hlt
      rw [htake, List.take_succ_cons, PrefixCode.encode_cons, hword, List.length_append,
        List.length_cons, ← ih', findIf_append ht]
      simp only [beq_iff_eq, hlt.ne, if_false]
      omega

/-- `index` is the length of the first words of a well-formed list. -/
theorem index_eq (F : CharType) (cs : List Char) (pos : ℕ) :
    F.index (F.code.encode cs) pos = (F.code.encode (cs.take pos)).length :=
  findIf_encode F (Nat.zero_le pos) cs

/-- A word boundary of a well-formed list lies after some of its words. -/
theorem eq_encode_take {F : CharType} {cs : List Char} {p : List F.Unit}
    (hp : p <+: F.code.encode cs) (hrest : F.rest p = []) :
    p = F.code.encode (cs.take (F.scalars p).length) := by
  obtain ⟨q, hq⟩ := hp
  -- what can be continued to a well-formed list and leaves nothing undecided is well formed
  have hwf : F.code.WellFormed p := by
    rw [← settled_of_rest_eq_nil hrest, wellFormed_settled_iff]
    exact ⟨q, cs, hq.symm⟩
  obtain ⟨ds, rfl⟩ := hwf
  have hread := F.read_append (F.code.encode ds) q
  rw [hq, settled_of_rest_eq_nil hrest, hrest, List.nil_append, read_encode, read_encode] at hread
  have htake := congrArg (List.take ds.length) hread
  rw [List.take_left' (by simp), ← List.map_take] at htake
  rw [scalars_encode, (List.map_injective_iff.mpr (Option.some_injective Char)) htake]

end CharType

/-- **Counting without decoding.** For every well-formed list, `length` is the number of code
points that a transcoder to UTF-32 writes, and `index` is the end of the list or the one offset
after whose units the transcoder has written as many code points as asked for and holds nothing
back. -/
theorem index_encode (F : CharType) (cs : List Char) :
    let ws := F.code.encode cs
    let t := transcoder F .char32
    F.length ws = (t.run ws).2.length ∧
      ∀ k, (F.length ws ≤ k → F.index ws k = ws.length) ∧
        (k < F.length ws → F.index ws k < ws.length ∧ ∀ o ≤ ws.length,
          (t.feed t.init (ws.take o)).2.length = k ∧
              t.isPartial (t.feed t.init (ws.take o)).1 = false ↔ o = F.index ws k) := by
  intro ws t
  have hlength : F.length ws = cs.length := F.length_encode cs
  have hone : ∀ ds : List Char, (CharType.char32.code.encode ds).length = ds.length := fun ds => by
    rw [← map_val_eq_encode, List.length_map]
  refine ⟨?_, fun k => ⟨fun hk => ?_, fun hk => ?_⟩⟩
  · rw [hlength, (transcoder_run F .char32 ws).1, CharType.decodeTo, CharType.scalars_encode, hone]
  · rw [F.index_eq, List.take_of_length_le (hlength ▸ hk)]
  rw [hlength] at hk
  have hsplit : ws = F.code.encode (cs.take k) ++ F.code.encode (cs.drop k) := by
    rw [← PrefixCode.encode_append, List.take_append_drop]
  rw [F.index_eq]
  refine ⟨?_, fun o ho => ?_⟩
  · -- there are words after the position
    have hpos : 0 < (F.code.encode (cs.drop k)).length := by
      rw [List.length_pos_iff, Ne, PrefixCode.encode_eq_nil_iff, List.drop_eq_nil_iff]
      omega
    rw [hsplit, List.length_append]
    omega
  · obtain ⟨hout, -, hpart⟩ := transcoder_feed F .char32 (ws.take o)
    rw [hpart, hout, CharType.decodeTo, hone]
    constructor
    · rintro ⟨hk, hrest⟩
      rw [CharType.settled_of_rest_eq_nil hrest] at hk
      have hprefix := CharType.eq_encode_take (List.take_prefix o ws) hrest
      rw [hk] at hprefix
      rw [← hprefix, List.length_take, Nat.min_eq_left ho]
    · rintro rfl
      have htake : ws.take (F.code.encode (cs.take k)).length = F.code.encode (cs.take k) := by
        rw [hsplit, List.take_left]
      have hrest := CharType.rest_eq_nil_of_wellFormed (F := F) ⟨cs.take k, rfl⟩
      rw [htake, CharType.settled_of_rest_eq_nil hrest, CharType.scalars_encode, List.length_take]
      exact ⟨Nat.min_eq_left hk.le, hrest⟩

end Icubaby
