import Icubaby.Transcoder.Online
import Icubaby.Ranges.Positions
import Icubaby.Ranges.Units

/-!
# Comparing iterators

`operator==` compares the positions of two iterators and not their indices into the buffer, so all
iterators at the units of one pull are equal. The law of forward iterators that equal iterators are
at the same place (`ComparesPlaces`) therefore holds of a view exactly when every pull yields one
unit (`comparesPlaces_iff`): each code point is encoded by one unit, and code points are read one at
a time (`CharType.OneByOne`), which in UTF-16 they are not behind a broken surrogate pair.
-/

namespace Icubaby

open TranscodeView

variable {σ α β : Type}

/-- Equal iterators are at the same place: for all numbers of increments up to the number of units
yielded, the iterators obtained by them are equal exactly when the numbers are. -/
def ComparesPlaces (t : Transcoder σ α β) (xs : List α) : Prop :=
  ∀ m n, m ≤ (t.run xs).2.length → n ≤ (t.run xs).2.length →
    ∃ v v' it it', nth t ⟨xs, true⟩ m = .ok (v, it) ∧ nth t ⟨xs, true⟩ n = .ok (v', it') ∧
      (it.equal it' = true ↔ m = n)

/-! ### Pulls of one unit -/

section Pulls

variable {gs : List (List α × List β)}

theorem readBy_pos (hgs : ∀ g ∈ gs, g.1 ≠ []) (hne : gs ≠ []) : 0 < readBy gs := by
  obtain ⟨g, gs, rfl⟩ := List.exists_cons_of_ne_nil hne
  have hpos := List.length_pos_iff.mpr (hgs g List.mem_cons_self)
  rw [readBy, List.flatMap_cons, List.length_append]
  omega

/-- The position moves with every pull. -/
theorem readBy_take_lt (hgs : ∀ g ∈ gs, g.1 ≠ []) {m n : ℕ} (hmn : m < n) (hn : n ≤ gs.length) :
    readBy (gs.take m) < readBy (gs.take n) := by
  obtain ⟨k, rfl⟩ := Nat.exists_eq_add_of_lt hmn
  have hpos : 0 < readBy ((gs.drop m).take (k + 1)) := by
    refine readBy_pos (fun g hg => hgs g (List.mem_of_mem_drop (List.mem_of_mem_take hg))) ?_
    rw [ne_eq, ← List.length_eq_zero_iff, List.length_take, List.length_drop]
    omega
  rw [Nat.add_assoc, List.take_add, readBy_append]
  omega

theorem yieldedBy_eq_length (hgs : ∀ g ∈ gs, g.2.length = 1) : yieldedBy gs = gs.length := by
  rw [yieldedBy, List.length_flatMap, List.map_congr_left hgs]
  simp

/-- With one unit to a pull the position counts the pulls. -/
private theorem nth_take {t : Transcoder σ α β} {xs : List α} (hxs : t.pulls t.init xs = gs)
    (hgs : ∀ g ∈ gs, g.2.length = 1) {n : ℕ} (hn : n ≤ gs.length) :
    ∃ v it, nth t ⟨xs, true⟩ n = .ok (v, it) ∧ it.current = readBy (gs.take n) := by
  rcases hn.lt_or_eq with hlt | rfl
  · have hsplit : gs = gs.take n ++ gs[n] :: gs.drop (n + 1) := by
      rw [List.cons_getElem_drop_succ, List.take_append_drop]
    obtain ⟨v, it, hnth, -, hshows⟩ := nth_shows (hxs.trans hsplit) (i := 0) (.inr rfl)
    rw [yieldedBy_eq_length fun g hg => hgs g (List.mem_of_mem_take hg), List.length_take,
      Nat.min_eq_left hn] at hnth
    exact ⟨v, it, hnth, hshows.current_eq⟩
  · obtain ⟨v, it, hnth, -, hcurrent⟩ := nth_end hxs fun g hg hnil => by
      have hone := hgs g hg
      rw [hnil] at hone
      cases hone
    have hread : readBy gs = xs.length := by
      rw [readBy, ← hxs, Transducer.flatMap_fst_pulls]
    rw [yieldedBy_eq_length hgs] at hnth
    exact ⟨v, it, hnth, by rw [hcurrent, List.take_length, hread]⟩

end Pulls

/-- **Iterators are compared rightly** exactly when each pull yields one unit. -/
theorem comparesPlaces_iff_pulls {t : Transcoder σ α β} {xs : List α}
    (hprod : t.Productive t.init xs) (hinit : (t.finish t.init).2 = []) :
    ComparesPlaces t xs ↔ ∀ g ∈ t.pulls t.init xs, g.2.length = 1 := by
  have hyielded : (t.run xs).2.length = yieldedBy (t.pulls t.init xs) := by
    rcases eq_or_ne xs [] with rfl | hne
    · rw [Transducer.run, Transducer.runFrom_snd, Transducer.feed_nil, hinit]
      rfl
    · rw [yieldedBy, Transducer.flatMap_snd_pulls _ hne]
      rfl
  rw [ComparesPlaces, hyielded]
  constructor
  · intro h g hg
    have hpos := List.length_pos_iff.mpr (hprod.snd_ne_nil g hg)
    obtain ⟨pre, post, hpulls⟩ := List.append_of_mem hg
    by_contra hone
    -- the first two units of the pull are at one position
    obtain ⟨v, it, hnth, -, hshows⟩ := nth_shows hpulls (i := 0) (.inl hpos)
    obtain ⟨v', it', hnth', -, hshows'⟩ := nth_shows hpulls (i := 1) (.inl (by omega))
    have hle : yieldedBy pre + 1 ≤ yieldedBy (t.pulls t.init xs) := by
      rw [hpulls, yieldedBy_append, ← List.singleton_append, yieldedBy_append,
        yieldedBy_singleton]
      omega
    obtain ⟨w, w', jt, jt', hm, hn, hiff⟩ :=
      h (yieldedBy pre + 0) (yieldedBy pre + 1) (by omega) hle
    obtain ⟨rfl, rfl⟩ := Prod.mk.inj (Except.ok.inj (hm.symm.trans hnth))
    obtain ⟨rfl, rfl⟩ := Prod.mk.inj (Except.ok.inj (hn.symm.trans hnth'))
    have hequal : jt.equal jt' = true :=
      decide_eq_true (hshows.current_eq.trans hshows'.current_eq.symm)
    have := hiff.mp hequal
    omega
  · intro h m n hm hn
    rw [yieldedBy_eq_length h] at hm hn
    obtain ⟨v, it, hnth, hcurrent⟩ := nth_take rfl h hm
    obtain ⟨v', it', hnth', hcurrent'⟩ := nth_take rfl h hn
    refine ⟨v, v', it, it', hnth, hnth', ?_⟩
    have hread : ∀ g ∈ t.pulls t.init xs, g.1 ≠ [] := fun g => Transducer.fst_ne_nil_of_mem_pulls
    rw [Iterator.equal, decide_eq_true_iff, hcurrent, hcurrent']
    constructor
    · intro heq
      rcases Nat.lt_trichotomy m n with hlt | rfl | hlt
      · exact absurd heq (readBy_take_lt hread hlt hn).ne
      · rfl
      · exact absurd heq (readBy_take_lt hread hlt hm).ne'
    · rintro rfl
      rfl

/-! ### Code points one at a time -/

namespace CharType

variable {F : CharType}

/-- The code points of a list of units come one at a time. In UTF-16 a unit can settle two code
points: it replaces a high surrogate and is no low surrogate itself; or it is the last unit. -/
def OneByOne : (F : CharType) → List F.Unit → Prop
  | char16, us => ∀ ys h u zs, us = ys ++ h :: u :: zs → IsHighSurrogate h.toNat →
    IsLowSurrogate u.toNat ∨ IsHighSurrogate u.toNat ∧ zs ≠ []
  | _, _ => True

/-- If there is one code point in all, it is the one that is written, if any. -/
private theorem length_delivered {us : List F.Unit} (hone : (F.scalars us).length = 1)
    {last : Bool} (hlast : last = false → F.delivered us false ≠ []) :
    (F.delivered us last).length = 1 := by
  have hle := F.length_delivered_le us last
  cases last with
  | true => exact hone
  | false =>
    have hpos := List.length_pos_iff.mpr (hlast rfl)
    omega

/-- The code points of UTF-16 that a unit settles. -/
private theorem length_delivered_utf16 {p : List UInt16} (hp : utf16.Pending p) (u : UInt16)
    (last : Bool) :
    ((last = false → char16.delivered (p ++ [u]) false ≠ []) →
        (char16.delivered (p ++ [u]) last).length = 1) ↔
      ∀ h, p = [h] → IsLowSurrogate u.toNat ∨ IsHighSurrogate u.toNat ∧ last = false := by
  rcases utf16_pending_iff.mp hp with rfl | ⟨h, rfl, hh⟩
  · exact iff_of_true (length_delivered (F := .char16) (length_scalars_utf16 u)) (by simp)
  by_cases hlow : IsLowSurrogate u.toNat
  · exact iff_of_true (length_delivered (F := .char16) (length_scalars_pair hh hlow))
      fun _ _ => .inl hlow
  · rw [List.singleton_append, delivered_broken_pair hh hlow, delivered_broken_pair hh hlow,
      List.length_cons]
    by_cases hwaits : IsHighSurrogate u.toNat ∧ last = false
    · rw [if_pos hwaits]
      exact iff_of_true (fun _ => rfl) fun _ _ => .inr hwaits
    · -- one is replaced, the other read
      rw [if_neg hwaits, length_scalars_utf16]
      refine iff_of_false (fun hlen => ?_) fun hall => (hall h rfl).elim hlow hwaits
      exact absurd (hlen fun _ => List.cons_ne_nil _ _) (by decide)

/-- **One at a time** is how the reader is pulled. -/
theorem oneByOne_iff (us : List F.Unit) :
    (∀ g ∈ F.reader.pulls [] us, g.2.length = 1) ↔ F.OneByOne us := by
  have hstate : ∀ ys, (F.reader.feed [] ys).1 = F.rest ys := fun ys => by
    rw [reader_feed F.code.pending_nil, List.nil_append]
  rw [Transducer.forall_mem_pulls_iff (P := fun cs => cs.length = 1)]
  have hstep : ∀ p x, (F.reader.step p x).2 = F.delivered (p ++ [x]) false := fun p x => rfl
  have hempty : ∀ zs : List F.Unit, zs ≠ [] ↔ zs.isEmpty = false := fun zs =>
    List.isEmpty_eq_false_iff.symm
  simp only [hstate, hstep, reader_wrote, hempty]
  by_cases hF : F = char16
  · subst hF
    constructor
    · rintro h ys hi u zs rfl hhigh
      have hrest : char16.rest (ys ++ [hi]) = [hi] := (utf16Rest_concat ys hi).trans (if_pos hhigh)
      rw [hempty]
      exact (length_delivered_utf16 (char16.pending_rest _) u zs.isEmpty).mp
        (h (ys ++ [hi]) u zs (by simp)) hi hrest
    · rintro h ys u zs rfl
      refine (length_delivered_utf16 (char16.pending_rest _) u zs.isEmpty).mpr fun hi hrest => ?_
      rcases utf16Rest_cases ys with hnil | ⟨ws, hi', rfl, hhigh, hrest'⟩
      · exact absurd (hrest.symm.trans hnil) (List.cons_ne_nil _ _)
      · obtain ⟨rfl, -⟩ := List.cons.inj (hrest.symm.trans hrest')
        rw [← hempty]
        exact h ws hi u zs (by simp) hhigh
  · refine iff_of_true ?_ ?_
    · intro ys u zs _ hzs
      exact length_delivered (length_scalars_concat hF (F.pending_rest ys) u) hzs
    · cases F with
      | char8 => trivial
      | char16 => exact absurd rfl hF
      | char32 => trivial

end CharType

/-! ### The views of code units -/

variable {F T : CharType}

/-- One unit in all is one symbol with a word of one unit. -/
private theorem length_encode_eq_one_iff {cs : List Char} :
    (T.code.encode cs).length = 1 ↔ cs.length = 1 ∧ ∀ c ∈ cs, (T.code.word c).length = 1 := by
  have hpos : ∀ c, 0 < (T.code.word c).length := fun c =>
    List.length_pos_iff.mpr (T.code.word_ne_nil c)
  match cs with
  | [] => simp
  | [c] => simp
  | c :: d :: cs =>
    have hc := hpos c
    have hd := hpos d
    refine iff_of_false (fun h => ?_) (by simp)
    rw [PrefixCode.encode_cons, PrefixCode.encode_cons, List.length_append,
      List.length_append] at h
    omega

/-- **The law of forward iterators** holds of a view of code units exactly when every code point
takes one unit in the target encoding and the code points come one at a time. -/
theorem comparesPlaces_iff (F T : CharType) (us : List F.Unit) :
    ComparesPlaces (transcoder F T) us ↔
      F.OneByOne us ∧ ∀ c ∈ F.scalars us, (T.code.word c).length = 1 := by
  have ht := converts_transcoder F T
  have hscalars : (F.reader.pulls [] us).flatMap Prod.snd = F.scalars us := by
    rcases eq_or_ne us [] with rfl | hne
    · exact F.scalars_nil.symm
    · rw [Transducer.flatMap_snd_pulls _ hne, CharType.reader_runFrom]
  rw [comparesPlaces_iff_pulls (productive_transcoder F T _ us) (by rw [ht.settled ht.init.1]),
    ht.pulls ht.init.1, ← CharType.oneByOne_iff, ← hscalars]
  simp only [List.forall_mem_map, Prod.map_snd, length_encode_eq_one_iff, List.mem_flatMap,
    forall_and]
  refine and_congr_right fun _ => ?_
  constructor
  · rintro h c ⟨g, hg, hc⟩
    exact h g hg c hc
  · intro h g hg c hc
    exact h c ⟨g, hg, hc⟩

/-- From UTF-32 to UTF-8 the two units of U+00E9 are shown by iterators that are equal. -/
theorem not_comparesPlaces_two : ¬ ComparesPlaces (transcoder .char32 .char8) [0xE9] := by
  intro h
  obtain ⟨v, v', it, it', h₀, h₁, hiff⟩ := h 0 1 (by decide) (by decide)
  cases h₀
  cases h₁
  exact absurd (hiff.mp rfl) (by decide)

end Icubaby
