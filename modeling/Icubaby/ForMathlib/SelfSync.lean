import Icubaby.ForMathlib.PrefixCode
import Mathlib.Order.Nat

/-!
# Codes whose words show where they begin

In many codes the first symbol of a word can be told from the others (`PrefixCode.MarksStarts`). A
reader that comes to the middle of an encoding can then find the next word.

An `Excerpt` of an encoding is what is left if symbols are cut off at both ends. It consists of the
end of a word, of whole words and of the begin of a word (`exists_excerpt`), and of these parts the
symbols that begin words count the last two (`Excerpt.countP_eq`).
-/

namespace PrefixCode

variable {σ α : Type*} {C : PrefixCode σ α} {start : α → Bool}

/-- The predicate holds for the first symbol of each word, and for no other symbol of it. -/
def MarksStarts (C : PrefixCode σ α) (start : α → Bool) : Prop :=
  ∀ c, ∃ x t, C.word c = x :: t ∧ start x = true ∧ ∀ y ∈ t, start y = false

/-! ### Symbols that begin no word -/

theorem MarksStarts.not_isPrefix (h : C.MarksStarts start) {x : α} (hx : start x = false) (c : σ) :
    ¬ [x] <+: C.word c := by
  obtain ⟨y, t, hword, hy, -⟩ := h c
  intro hpre
  rw [hword] at hpre
  obtain rfl := (List.cons_prefix_cons.mp hpre).1
  rw [hx] at hy
  cases hy

theorem MarksStarts.not_pending (h : C.MarksStarts start) {x : α} (hx : start x = false) :
    ¬ C.Pending [x] := fun ⟨c, hpre, _⟩ => h.not_isPrefix hx c hpre

theorem countP_not_start {p : List α} (hp : ∀ x ∈ p, start x = false) : p.countP start = 0 :=
  List.countP_eq_zero.mpr fun x hx => by
    rw [hp x hx]
    exact Bool.false_ne_true

/-- Each word has one symbol that begins it. -/
theorem MarksStarts.countP_encode (h : C.MarksStarts start) (cs : List σ) :
    (C.encode cs).countP start = cs.length := by
  induction cs with
  | nil => rfl
  | cons c cs ih =>
    obtain ⟨x, t, hword, hx, ht⟩ := h c
    rw [encode_cons, List.countP_append, ih, hword, List.countP_cons_of_pos hx,
      countP_not_start ht, List.length_cons, Nat.zero_add, Nat.add_comm]

/-! ### Excerpts -/

/-- The symbols `us` are `p`, the end of a word, the words of `ds` and `q`, the begin of a word,
where `ds` are successive symbols of `cs`; words have at most `l` symbols. -/
structure Excerpt (C : PrefixCode σ α) (start : α → Bool) (l : ℕ) (cs : List σ) (us p : List α)
    (ds : List σ) (q : List α) : Prop where
  eq_append : us = p ++ (C.encode ds ++ q)
  not_start : ∀ x ∈ p, start x = false
  infix_symbols : ds <:+: cs
  pending : C.Pending q
  length_left_lt : p.length < l
  length_right_lt : q.length < l

/-- Symbols cut off at the front. -/
theorem exists_drop_encode (h : C.MarksStarts start) {l : ℕ} (hpos : 0 < l)
    (hl : ∀ c, (C.word c).length ≤ l) (cs : List σ) (a : ℕ) :
    ∃ p ds, (C.encode cs).drop a = p ++ C.encode ds ∧ (∀ x ∈ p, start x = false) ∧ ds <:+ cs ∧
      p.length < l := by
  induction cs generalizing a with
  | nil =>
    refine ⟨[], [], ?_, fun x hx => absurd hx List.not_mem_nil, List.suffix_rfl, hpos⟩
    rw [encode_nil, List.drop_nil, List.nil_append]
  | cons c cs ih =>
    rcases Nat.lt_or_ge a (C.word c).length with ha | ha
    · rcases Nat.eq_zero_or_pos a with rfl | hpos'
      · exact ⟨[], c :: cs, rfl, fun x hx => absurd hx List.not_mem_nil, List.suffix_rfl, hpos⟩
      · -- the end of the first word is left
        obtain ⟨x, t, hword, -, ht⟩ := h c
        obtain ⟨a, rfl⟩ : ∃ n, a = n + 1 := ⟨a - 1, by omega⟩
        have hlen := hl c
        rw [hword, List.length_cons] at ha hlen
        refine ⟨t.drop a, cs, ?_, fun y hy => ht y (List.mem_of_mem_drop hy),
          List.suffix_cons c cs, ?_⟩
        · rw [encode_cons, hword, List.cons_append, List.drop_succ_cons,
            List.drop_append_of_le_length (by omega)]
        · rw [List.length_drop]
          omega
    · obtain ⟨p, ds, hdrop, hp, hds, hlt⟩ := ih (a - (C.word c).length)
      refine ⟨p, ds, ?_, hp, hds.trans (List.suffix_cons c cs), hlt⟩
      rw [encode_cons, List.drop_append, List.drop_eq_nil_of_le ha, List.nil_append, hdrop]

/-- Symbols cut off at the end. -/
theorem exists_take_encode [Nonempty σ] {l : ℕ} (hpos : 0 < l) (hl : ∀ c, (C.word c).length ≤ l)
    (cs : List σ) (b : ℕ) :
    ∃ ds q, (C.encode cs).take b = C.encode ds ++ q ∧ ds <+: cs ∧ C.Pending q ∧ q.length < l := by
  induction cs generalizing b with
  | nil => exact ⟨[], [], List.take_nil, List.prefix_rfl, C.pending_nil, hpos⟩
  | cons c cs ih =>
    rcases Nat.lt_or_ge b (C.word c).length with hb | hb
    · -- the begin of the first word is left
      have hlen : ((C.word c).take b).length = b := List.length_take_of_le hb.le
      refine ⟨[], (C.word c).take b, ?_, List.nil_prefix, ⟨c, List.take_prefix _ _, ?_⟩, ?_⟩
      · rw [encode_cons, List.take_append_of_le_length hb.le]
        rfl
      · intro heq
        rw [heq] at hlen
        exact hb.ne' hlen
      · rw [hlen]
        exact hb.trans_le (hl c)
    · obtain ⟨ds, q, htake, hds, hq, hlt⟩ := ih (b - (C.word c).length)
      refine ⟨c :: ds, q, ?_, (List.prefix_cons_inj c).mpr hds, hq, hlt⟩
      rw [encode_cons, List.take_append, List.take_of_length_le hb, htake, encode_cons,
        List.append_assoc]

/-- **Every excerpt of an encoding** has these parts. -/
theorem exists_excerpt [Nonempty σ] (h : C.MarksStarts start) {l : ℕ}
    (hl : ∀ c, (C.word c).length ≤ l) (cs : List σ) (a b : ℕ) :
    ∃ p ds q, C.Excerpt start l cs (((C.encode cs).drop a).take b) p ds q := by
  have hpos : 0 < l := by
    obtain ⟨c⟩ := ‹Nonempty σ›
    exact (List.length_pos_iff.mpr (C.word_ne_nil c)).trans_le (hl c)
  obtain ⟨p, ds, hdrop, hp, hds, hlt⟩ := exists_drop_encode h hpos hl cs a
  rw [hdrop, List.take_append]
  rcases Nat.lt_or_ge b p.length with hb | hb
  · refine ⟨p.take b, [], [], ?_, fun x hx => hp x (List.mem_of_mem_take hx), List.nil_infix,
      C.pending_nil, ?_, hpos⟩
    · rw [Nat.sub_eq_zero_of_le hb.le, List.take_zero]
      rfl
    · exact (List.length_take_le b p).trans_lt (hb.trans hlt)
  · obtain ⟨es, q, htake, hes, hq, hlt'⟩ := exists_take_encode hpos hl ds (b - p.length)
    refine ⟨p, es, q, ?_, hp, ?_, hq, hlt, hlt'⟩
    · rw [List.take_of_length_le hb, htake]
    · exact hes.isInfix.trans hds.isInfix

namespace Excerpt

variable {l : ℕ} {cs ds : List σ} {us p q : List α}

/-- A symbol that begins a word can only begin one of the whole words or the last part. -/
theorem countP_eq (he : C.Excerpt start l cs us p ds q) (h : C.MarksStarts start) :
    us.countP start = ds.length + if q = [] then 0 else 1 := by
  rw [he.eq_append, List.countP_append, List.countP_append, countP_not_start he.not_start,
    h.countP_encode, Nat.zero_add]
  split_ifs with hq
  · rw [hq, List.countP_nil]
  · obtain ⟨c, hpre, -⟩ := he.pending
    obtain ⟨x, t, hc, hx, ht⟩ := h c
    obtain ⟨y, q, rfl⟩ := List.exists_cons_of_ne_nil hq
    rw [hc, List.cons_prefix_cons] at hpre
    obtain ⟨rfl, hpre⟩ := hpre
    rw [List.countP_cons_of_pos hx, countP_not_start fun z hz => ht z (hpre.subset hz)]

end Excerpt

end PrefixCode
