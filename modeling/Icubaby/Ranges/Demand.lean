import Icubaby.ForMathlib.Demand
import Icubaby.Ranges.Positions
import Icubaby.Ranges.Units

/-!
# How much of its input a view has read

`fill` stops as soon as it has something to yield. So an iterator of a view of code units has read
the units that the unit it shows needs, and no others (`reads_on_demand`): the view can be used on
input that arrives bit by bit, and what has not been asked for has no influence on the flag.

`Reached.transcoder_eq` is the reason. The transcoder of an iterator is a fresh one that has been
fed the input before the position of the iterator, and flushed if that is all of it.
-/

namespace Icubaby

namespace TranscodeView

variable {σ α β : Type} {t : Transcoder σ α β} {xs : List α}

/-- One call of `fill` feeds what it consumes. -/
theorem State.Filled.transcoder_eq {st st' : State σ β} (h : st.Filled t xs st')
    (hst : st.transcoder = t.consumed xs st.next) : st'.transcoder = t.consumed xs st'.next := by
  rw [Transducer.consumed, if_pos h.next_lt] at hst
  cases h with
  | @last zs x s r e hrest hzs hr he =>
    have hxs := List.take_append_drop st.next xs
    rw [hrest] at hxs
    rw [Transducer.consumed, if_neg (lt_irrefl _), Transducer.run, Transducer.runFrom_fst]
    conv_rhs => rw [← hxs]
    rw [Transducer.feed_append, ← hst, Transducer.feed_append, hzs, Transducer.feed_singleton, hr,
      he]
  | @more zs x ws s r hrest hws hzs hr hout =>
    have hlt := lt_length_of_drop_eq (drop_of_drop_eq hrest) hws
    have htake : xs.take (st.next + (zs.length + 1)) = xs.take st.next ++ (zs ++ [x]) := by
      rw [List.take_add, hrest]
      exact congrArg _ (List.take_left' (by simp))
    rw [Transducer.consumed, if_pos hlt, htake, Transducer.feed_append, ← hst,
      Transducer.feed_append, hzs, Transducer.feed_singleton, hr]

/-- **The transcoder of an iterator** before the end. -/
theorem Reached.transcoder_eq {v : TranscodeView α} {it : Iterator σ β}
    (h : Reached t ⟨xs, true⟩ v it) (hend : it.atEnd v = false) :
    it.state.transcoder = t.consumed xs it.state.next := by
  induction h with
  | begin =>
    rw [TranscodeView.begin, Iterator.make] at hend ⊢
    split_ifs at hend ⊢ with hxs
    · have hpos : 0 < xs.length := Nat.pos_of_ne_zero (Ne.symm hxs)
      obtain ⟨st', hfill, hfilled⟩ := State.filled_fill t (v := ⟨xs, true⟩)
        { next := 0, transcoder := t.init } hpos
      dsimp only
      rw [hfill]
      refine hfilled.transcoder_eq ?_
      rw [Transducer.consumed, if_pos hpos]
      rfl
    · exact absurd hend (by simp [Iterator.atEnd, not_not.mp hxs])
  | @incr v v' it it' hreached hend₀ hincr ih =>
    have hst := ih hend₀
    obtain ⟨pre, g, post, i, -, -, hshows⟩ := hreached.shows.resolve_right (by simp [hend₀])
    obtain ⟨st, hadvance, hincr⟩ := bind_eq_ok.mp hincr
    have hadvanced : st = { it.state with first := it.state.first + 1 } := by
      rw [State.advance] at hadvance
      split_ifs at hadvance
      exact (Except.ok.inj hadvance).symm
    split_ifs at hincr
    · obtain ⟨rfl, rfl⟩ := Prod.mk.inj (Except.ok.inj hincr)
      obtain rfl := hshows.base_eq
      have hlt : st.next < v.base.length := by
        -- otherwise the end is reached
        refine lt_of_le_of_ne (by rw [hadvanced]; exact hshows.shows.next_le) fun heq => ?_
        rw [Iterator.atEnd, State.fill_of_end t heq, State.fill_base] at hend
        exact of_decide_eq_false hend heq
      obtain ⟨st', hfill, hfilled⟩ := State.filled_fill t st hlt
      rw [hfill]
      exact hfilled.transcoder_eq (by rw [hadvanced]; exact hst)
    · obtain ⟨rfl, rfl⟩ := Prod.mk.inj (Except.ok.inj hincr)
      rw [hadvanced]
      exact hst

/-- The iterator after a number of increments, if that many units are yielded. -/
theorem nth_demand (hinit : (t.finish t.init).2 = []) {n : ℕ} (hn : n < (t.run xs).2.length) :
    ∃ v it, nth t ⟨xs, true⟩ n = .ok (v, it) ∧ Reached t ⟨xs, true⟩ v it ∧
      it.atEnd v = false ∧ it.deref = .ok (t.run xs).2[n] ∧
      it.state.next = t.demand t.init n xs := by
  have hxs : xs ≠ [] := by
    rintro rfl
    rw [Transducer.run, Transducer.runFrom_snd, Transducer.feed_nil, List.nil_append, hinit] at hn
    exact absurd hn (Nat.not_lt_zero n)
  obtain ⟨pre, g, post, i, hpulls, rfl, hi⟩ := Transducer.exists_pull hxs hn
  obtain ⟨v, it, hnth, hreached, hshows⟩ := nth_shows hpulls (.inl hi)
  refine ⟨v, it, hnth, hreached, hshows.atEnd, ?_, ?_⟩
  · have hout : (t.run xs).2 = (t.pulls t.init xs).flatMap Prod.snd :=
      (Transducer.flatMap_snd_pulls t.init hxs).symm
    have hget : (t.run xs).2[(pre.flatMap Prod.snd).length + i]? = some g.2[i] := by
      rw [hout, hpulls, List.flatMap_append, List.flatMap_cons,
        List.getElem?_append_right (Nat.le_add_right _ _), Nat.add_sub_cancel_left,
        List.getElem?_append_left hi, List.getElem?_eq_getElem hi]
    rw [hshows.deref hi, ← Option.some_inj.mp (hget.symm.trans (List.getElem?_eq_getElem hn))]
  · rw [hshows.shows.next_eq, Transducer.demand_of_pulls hpulls hi]
    rfl

end TranscodeView

open TranscodeView

/-- **A view of code units reads on demand.** For all character types, every underlying sequence of
units of such a type and each unit of the output, the iterator that shows the unit has read the
least number of units after which a transcoder has written it, or all of them if it is written by
the flush. Its transcoder is in the state that this leads to, and the flag of the view is the one of
that state. -/
theorem reads_on_demand (F T : CharType) (us : List F.Unit)
    (n : Fin ((transcoder F T).run us).2.length) :
    ∃ v it, nth (transcoder F T) ⟨us, true⟩ n = .ok (v, it) ∧
      it.deref = .ok ((transcoder F T).run us).2[n] ∧
      IsLeast {k | n < ((transcoder F T).feed (transcoder F T).init (us.take k)).2.length ∨
        k = us.length} it.state.next ∧
      it.state.transcoder = (transcoder F T).consumed us it.state.next ∧
      v.wellFormed = (transcoder F T).wellFormed it.state.transcoder := by
  have hinit := (converts_transcoder F T).settled (converts_transcoder F T).init.1
  obtain ⟨v, it, hnth, hreached, hend, hderef, hnext⟩ := nth_demand (by rw [hinit]) n.isLt
  refine ⟨v, it, hnth, hderef, ?_, hreached.transcoder_eq hend,
    (Sound.of_reached (fits_transcoder F T) hreached).flag_eq⟩
  rw [hnext]
  exact Transducer.isLeast_demand _ _ us

end Icubaby
