import Icubaby.Transcoder.Online
import Icubaby.Ranges.Positions

/-!
# Where the units of a view come from

The pulls of a well-formed sequence are the words of its code points, so a view of it can be traced
back: while a unit of the word of a code point is shown, `base ()` is the position of the first unit
that this code point was read from (`tracesBack`).
-/

namespace Icubaby

open TranscodeView

/-- Traversals of the view of the encoding of `cs` can be traced back to the source. -/
structure TracesBack (F T : CharType) (cs : List Char) : Prop where
  /-- Unit `i` of the word of a code point `c` is yielded after the words of the code points `as`
  before it, and from a position that is after theirs. -/
  base_eq {as c bs i} (h : cs = as ++ c :: bs) (hi : i < (T.code.word c).length) :
    ∃ v it, nth (transcoder F T) ⟨F.code.encode cs, true⟩ ((T.code.encode as).length + i) =
        .ok (v, it) ∧
      it.deref = .ok (T.code.word c)[i] ∧ it.base = (F.code.encode as).length
  /-- The position is that of the end only when everything has been yielded. -/
  base_eq_end_iff {n} (h : n ≤ (T.code.encode cs).length) :
    ∃ v it, nth (transcoder F T) ⟨F.code.encode cs, true⟩ n = .ok (v, it) ∧
      (it.base = (F.code.encode cs).length ↔ n = (T.code.encode cs).length)

/-- The pulls of a well-formed sequence: the words of each code point. -/
theorem pulls_encode (F T : CharType) (cs : List Char) :
    (transcoder F T).pulls (transcoder F T).init (F.code.encode cs) =
      cs.map fun c => (F.code.word c, T.code.word c) := by
  rw [(converts_transcoder F T).pulls (converts_transcoder F T).init.1, F.reader_pulls_encode,
    List.map_map]
  simp [Function.comp_def]

private theorem readBy_map (F T : CharType) (cs : List Char) :
    readBy (cs.map fun c => (F.code.word c, T.code.word c)) = (F.code.encode cs).length := by
  rw [readBy, List.flatMap_map]
  rfl

private theorem yieldedBy_map (F T : CharType) (cs : List Char) :
    yieldedBy (cs.map fun c => (F.code.word c, T.code.word c)) = (T.code.encode cs).length := by
  rw [yieldedBy, List.flatMap_map]
  rfl

/-- **Views can be traced back to the source**: for all character types and every well-formed
sequence `base ()` is, at each step of a traversal, the position of the first unit of the code point
that the current unit belongs to. -/
theorem tracesBack (F T : CharType) (cs : List Char) : TracesBack F T cs := by
  have hunit : ∀ {as c bs i}, cs = as ++ c :: bs → (hi : i < (T.code.word c).length) →
      ∃ v it, nth (transcoder F T) ⟨F.code.encode cs, true⟩ ((T.code.encode as).length + i) =
        .ok (v, it) ∧
      it.deref = .ok (T.code.word c)[i] ∧ it.base = (F.code.encode as).length := by
    rintro as c bs i rfl hi
    have hpulls := pulls_encode F T (as ++ c :: bs)
    rw [List.map_append, List.map_cons] at hpulls
    obtain ⟨v, it, hnth, -, hshows⟩ := nth_shows hpulls (.inl hi)
    rw [yieldedBy_map] at hnth
    exact ⟨v, it, hnth, hshows.deref hi, hshows.current_eq.trans (readBy_map F T as)⟩
  refine ⟨hunit, fun {n} hn => ?_⟩
  rcases hn.lt_or_eq with hlt | rfl
  · obtain ⟨as, c, bs, i, hcs, rfl, hi⟩ := T.code.exists_word_of_lt_length hlt
    obtain ⟨v, it, hnth, -, hbase⟩ := hunit hcs hi
    refine ⟨v, it, hnth, iff_of_false ?_ hlt.ne⟩
    -- the word of the code point is still to come
    have hpos := List.length_pos_iff.mpr (F.code.word_ne_nil c)
    rw [hbase, hcs, PrefixCode.encode_append, PrefixCode.encode_cons, List.length_append,
      List.length_append]
    omega
  · have hpulls := pulls_encode F T cs
    obtain ⟨v, it, hnth, -, hcurrent⟩ := nth_end hpulls fun g hg => by
      obtain ⟨c, -, rfl⟩ := List.mem_map.mp hg
      exact T.code.word_ne_nil c
    rw [yieldedBy_map] at hnth
    exact ⟨v, it, hnth, iff_of_true hcurrent rfl⟩

end Icubaby
