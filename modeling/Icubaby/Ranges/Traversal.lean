import Icubaby.Ranges.View

/-!
# Traversals of a view

A traversal from `begin` to `end` succeeds exactly when the transcoder is `Productive` on the
underlying sequence, that is, when the last unit or the flush after it writes something
(`faithful_iff_productive`); and then it yields what the transcoder writes when it is fed the
sequence and flushed. The flag of the view and the room that the buffer needs follow from an
invariant of the iterators reached (`Sound`), for transcoders whose flag is a latch and whose single
calls write little (`Fits`).
-/

namespace Icubaby

namespace TranscodeView

variable {σ α β : Type}

/-! ### Whole traversals -/

section Traversal

variable (t : Transcoder σ α β)

/-- A traversal of the view of `xs` never finds the buffer empty before the end, and it yields what
a fresh transcoder writes when it is fed `xs` and flushed. -/
structure Faithful (xs : List α) : Prop where
  /-- An iterator reached from `begin ()` that is not at the end can be dereferenced. -/
  nonempty {v it} : Reached t ⟨xs, true⟩ v it → it.atEnd v = false → it.state.empty = false
  /-- The units yielded from `begin ()` to the end are those that the transcoder writes. -/
  yields : ∃ fuel v, traverse t fuel (begin t ⟨xs, true⟩).1 (begin t ⟨xs, true⟩).2 =
    .ok ((t.run xs).2, v)

variable {t}

/-- One turn of the loop of a traversal. -/
theorem traverse_succ {v v' : TranscodeView α} {it it' : Iterator σ β} {u : β} (fuel : ℕ)
    (hend : it.atEnd v = false) (hderef : it.deref = .ok u)
    (hincr : it.incr t v = .ok (v', it')) :
    traverse t (fuel + 1) v it = (traverse t fuel v' it').map fun r => (u :: r.1, r.2) := by
  rw [traverse, if_neg (by simp [hend])]
  simp only [hderef, hincr, bind, Except.bind]
  cases traverse t fuel v' it' <;> rfl

theorem traverse_of_atEnd {v : TranscodeView α} {it : Iterator σ β} (fuel : ℕ)
    (hend : it.atEnd v = true) : traverse t fuel v it = .ok ([], v) := by
  cases fuel <;> rw [traverse, if_pos hend]

theorem Iterator.Valid.atEnd {v : TranscodeView α} {it : Iterator σ β} (h : it.Valid v.base) :
    it.atEnd v = false :=
  decide_eq_false h.current_lt.ne

/-- **A traversal of a productive rest** yields all that remains. -/
theorem traverse_of_productive {v : TranscodeView α} {it : Iterator σ β} (hv : it.Valid v.base)
    (hout : it.state.out.drop it.state.first ≠ []) (hprod : it.state.Productive t v.base) :
    ∃ v', traverse t (it.state.remaining t v.base).length v it =
      .ok (it.state.remaining t v.base, v') := by
  induction hrem : it.state.remaining t v.base generalizing v it with
  | nil => exact absurd (List.append_eq_nil_iff.mp hrem).1 hout
  | cons w rem ih =>
    obtain ⟨u, us, hwindow⟩ := List.exists_cons_of_ne_nil hout
    obtain ⟨hderef, v', it', hincr, hbase, hcase⟩ := Iterator.incr_spec (t := t) hv hwindow
    -- one unit is yielded, and it is the first of what remains
    rw [List.length_cons, traverse_succ _ hv.atEnd hderef hincr]
    rcases hcase with ⟨hend, hlast, -⟩ | ⟨hv', hcons, hiff⟩
    · obtain ⟨rfl, rfl⟩ := List.cons.inj (hrem.symm.trans hlast)
      exact ⟨v', by rw [traverse_of_atEnd _ hend]; rfl⟩
    · obtain ⟨rfl, rfl⟩ := List.cons.inj (hrem.symm.trans hcons)
      obtain ⟨hout', hprod'⟩ := hiff.mp hprod
      rw [← hbase] at hv' hprod'
      obtain ⟨v'', hrest⟩ := ih hv' hout' hprod' (by rw [hbase])
      exact ⟨v'', by rw [hrest]; rfl⟩

/-- Conversely, a traversal that succeeds is one of a productive rest. -/
theorem productive_of_traverse {v : TranscodeView α} {it : Iterator σ β}
    {r : List β × TranscodeView α} {fuel : ℕ} (hv : it.Valid v.base)
    (h : traverse t fuel v it = .ok r) :
    it.state.out.drop it.state.first ≠ [] ∧ it.state.Productive t v.base := by
  induction fuel generalizing v it r with
  | zero =>
    rw [traverse, if_neg (by simp [hv.atEnd])] at h
    cases h
  | succ fuel ih =>
    cases hwindow : it.state.out.drop it.state.first with
    | nil =>
      -- there is nothing to dereference
      have hempty : it.deref = .error .emptyBuffer := by
        have hle := List.drop_eq_nil_iff.mp hwindow
        rw [Iterator.deref, State.front]
        split_ifs with hne
        · rfl
        · rw [List.getElem?_eq_none hle]
      rw [traverse, if_neg (by simp [hv.atEnd]), hempty] at h
      cases h
    | cons u us =>
      refine ⟨by simp, ?_⟩
      obtain ⟨hderef, w, it', hincr, hbase, hcase⟩ := Iterator.incr_spec (t := t) hv hwindow
      rw [traverse_succ _ hv.atEnd hderef hincr] at h
      rcases hcase with ⟨-, -, hprod⟩ | ⟨hv', -, hiff⟩
      · exact hprod
      · cases hrest : traverse t fuel w it' with
        | error e =>
          rw [hrest] at h
          cases h
        | ok r =>
          rw [← hbase] at hv' hiff
          rw [← hbase]
          exact hiff.mpr (ih hv' hrest)

/-- `begin ()` of a sequence that is not empty has filled the buffer once. -/
theorem begin_spec {xs : List α} (hxs : xs ≠ []) :
    ∃ v it, begin t ⟨xs, true⟩ = (v, it) ∧ v.base = xs ∧ it.Valid xs ∧
      it.state.remaining t xs = (t.run xs).2 ∧
      (t.Productive t.init xs ↔
        it.state.out.drop it.state.first ≠ [] ∧ it.state.Productive t xs) := by
  have hpos : 0 < xs.length := List.length_pos_iff.mpr hxs
  obtain ⟨st', hfill, hfilled⟩ :=
    State.filled_fill t (v := ⟨xs, true⟩) ⟨0, [], t.init, 0, 0⟩ hpos
  obtain ⟨hvalid, hfirst, -⟩ := hfilled.valid
  have hbase := State.fill_base t ⟨xs, true⟩ ⟨0, [], t.init, 0, 0⟩
  refine ⟨_, ⟨0, st'⟩, ?_, hbase, ⟨hpos, hvalid⟩, ?_, ?_⟩
  · rw [begin, Iterator.make, if_pos hpos.ne]
    dsimp only
    rw [hfill]
  · rw [hfilled.remaining_eq, State.future, if_neg hpos.ne]
    rfl
  · rw [hfirst, List.drop_zero, ← hfilled.productive_iff, State.Productive, or_iff_right hpos.ne]
    rfl

/-- Every iterator reached in a productive traversal is at the end or can be dereferenced. -/
theorem Reached.ready {xs : List α} (hprod : t.Productive t.init xs) {v : TranscodeView α}
    {it : Iterator σ β} (h : Reached t ⟨xs, true⟩ v it) :
    v.base = xs ∧ (it.atEnd v = true ∨ it.Valid xs ∧
      it.state.out.drop it.state.first ≠ [] ∧ it.state.Productive t xs) := by
  induction h with
  | begin =>
    rcases eq_or_ne xs [] with rfl | hne
    · exact ⟨rfl, .inl rfl⟩
    · obtain ⟨v, it, hbegin, hbase, hvalid, -, hiff⟩ := begin_spec (t := t) hne
      rw [hbegin]
      exact ⟨hbase, .inr ⟨hvalid, hiff.mp hprod⟩⟩
  | @incr v v' it it' _ hend hincr ih =>
    obtain ⟨rfl, ih⟩ := ih
    rw [hend] at ih
    obtain ⟨hvalid, hout, hprod⟩ := ih.resolve_left Bool.false_ne_true
    obtain ⟨u, us, hwindow⟩ := List.exists_cons_of_ne_nil hout
    obtain ⟨-, w, jt, hincr', hbase, hcase⟩ := Iterator.incr_spec (t := t) hvalid hwindow
    obtain ⟨rfl, rfl⟩ := Prod.mk.inj (Except.ok.inj (hincr.symm.trans hincr'))
    refine ⟨hbase, hcase.imp And.left ?_⟩
    rintro ⟨hvalid', -, hiff⟩
    exact ⟨hvalid', hiff.mp hprod⟩

/-- **Traversals of the view**: they are faithful exactly when the input ends in something
written. -/
theorem faithful_iff_productive (hinit : (t.finish t.init).2 = []) (xs : List α) :
    Faithful t xs ↔ t.Productive t.init xs := by
  constructor
  · rintro ⟨-, fuel, v', hyields⟩
    rcases eq_or_ne xs [] with rfl | hne
    · intro ys x hys
      simp at hys
    · obtain ⟨v, it, hbegin, rfl, hvalid, -, hiff⟩ := begin_spec (t := t) hne
      rw [hbegin] at hyields
      exact hiff.mpr (productive_of_traverse hvalid hyields)
  · intro hprod
    refine ⟨fun {v it} hreached hend => ?_, ?_⟩
    · obtain ⟨-, hcase⟩ := hreached.ready hprod
      rw [hend] at hcase
      obtain ⟨hvalid, hout, -⟩ := hcase.resolve_left Bool.false_ne_true
      rw [State.empty, hvalid.valid.last_eq]
      refine decide_eq_false fun heq => hout ?_
      rw [heq, List.drop_length]
    · rcases eq_or_ne xs [] with rfl | hne
      · refine ⟨0, ⟨[], true⟩, ?_⟩
        rw [Transducer.run, Transducer.runFrom_snd, Transducer.feed_nil, List.nil_append, hinit]
        rfl
      · obtain ⟨v, it, hbegin, rfl, hvalid, hremaining, hiff⟩ := begin_spec (t := t) hne
        obtain ⟨hout, hprod'⟩ := hiff.mp hprod
        rw [hbegin, ← hremaining]
        exact ⟨_, traverse_of_productive hvalid hout hprod'⟩

end Traversal

/-! ### The flag of the view and the size of the buffer -/

/-- The flag of a transcoder is a latch: once cleared it stays cleared, and flushing twice is no
worse than flushing once. -/
structure Latches (t : Transcoder σ α β) : Prop where
  /-- The flush of a fresh transcoder does not clear the flag. -/
  finish_init : t.wellFormed (t.finish t.init).1 = true
  /-- A call does not set the flag. -/
  of_step {s x} : t.wellFormed (t.step s x).1 = true → t.wellFormed s = true
  /-- A flush does not set the flag. -/
  of_finish {s} : t.wellFormed (t.finish s).1 = true → t.wellFormed s = true
  /-- A second flush leaves the flag alone. -/
  finish_finish (s) : t.wellFormed (t.finish (t.finish s).1).1 = t.wellFormed (t.finish s).1

/-- A run does not set the flag. -/
theorem Latches.of_feed {t : Transcoder σ α β} (h : Latches t) {s s' : σ} {xs : List α}
    {out : List β} (hfeed : t.feed s xs = (s', out)) (hwf : t.wellFormed s' = true) :
    t.wellFormed s = true := by
  induction xs generalizing s out with
  | nil => exact (Prod.mk.inj hfeed).1 ▸ hwf
  | cons x xs ih =>
    rw [Transducer.feed_cons] at hfeed
    exact h.of_step (ih (Prod.ext (Prod.mk.inj hfeed).1 rfl))

/-- The views of the transcoder need a buffer of `m` units only, and their flag is its own. -/
structure Fits (t : Transcoder σ α β) (m : ℕ) : Prop extends Latches t where
  /-- A call and the flush after it write at most `m` units. -/
  length_step_le (s x) : (t.step s x).2.length + (t.finish (t.step s x).1).2.length ≤ m
  /-- A flush writes at most `m` units. -/
  length_finish_le (s) : (t.finish s).2.length ≤ m

/-- The invariant of the iterators of the view of `xs`: the flag of the view is that of the
transcoder and will be that of the whole run, and what `fill` has written fits the buffer. -/
structure Sound (t : Transcoder σ α β) (xs : List α) (m : ℕ) (v : TranscodeView α)
    (it : Iterator σ β) : Prop where
  base_eq : v.base = xs
  current_le : it.current ≤ it.state.next
  next_le : it.state.next ≤ xs.length
  length_out_le : it.state.out.length ≤ m
  flag_eq : v.wellFormed = t.wellFormed it.state.transcoder
  /-- While there is input, the rest of the run decides. -/
  pending : it.state.next < xs.length →
    t.wellFormed (t.runFrom it.state.transcoder (xs.drop it.state.next)).1 =
      t.wellFormed (t.run xs).1
  /-- After the last unit the flag is final, whatever is flushed. -/
  settled : it.state.next = xs.length →
    t.wellFormed it.state.transcoder = t.wellFormed (t.run xs).1 ∧
      t.wellFormed (t.finish it.state.transcoder).1 = t.wellFormed it.state.transcoder

namespace Sound

variable {t : Transcoder σ α β} {m : ℕ} {xs : List α}

/-- When the flag of the transcoder has not been set again, that of the view follows it. -/
private theorem and_flag_eq {v : TranscodeView α} {it : Iterator σ β} (hs : Sound t xs m v it)
    {s : σ} (hs' : t.wellFormed s = true → t.wellFormed it.state.transcoder = true) :
    (v.wellFormed && t.wellFormed s) = t.wellFormed s := by
  rw [hs.flag_eq]
  cases hwf : t.wellFormed s with
  | false => exact Bool.and_false _
  | true => rw [hs' hwf, Bool.and_true]

/-- **One call of `fill`** keeps the invariant. -/
theorem fill (h : Fits t m) {v : TranscodeView α} {it : Iterator σ β} (hs : Sound t xs m v it)
    {st : State σ β} (hnext : st.next = it.state.next)
    (htr : st.transcoder = it.state.transcoder) :
    Sound t xs m (st.fill t v).1 ⟨(st.fill t v).2.2, (st.fill t v).2.1⟩ := by
  obtain rfl := hs.base_eq
  have hwf := State.fill_wellFormed t v st
  rcases hs.next_le.eq_or_lt with hend | hlt
  · -- the transcoder has been flushed already, and is flushed again
    obtain ⟨hrun, hfinish⟩ := hs.settled hend
    rw [State.fill_of_end t (hnext.trans hend)] at hwf ⊢
    rw [htr] at hwf ⊢
    refine ⟨State.fill_base t v st, le_rfl, by rw [hnext]; exact hs.next_le,
      h.length_finish_le _, ?_, fun hlt => absurd hlt (by dsimp only; omega), fun _ => ⟨?_, ?_⟩⟩
    · rw [hwf]
      exact hs.and_flag_eq h.of_finish
    · exact hfinish.trans hrun
    · exact h.finish_finish _
  · rw [← hnext] at hlt
    obtain ⟨st', hfill, hfilled⟩ := State.filled_fill t st hlt
    obtain ⟨⟨hle, -⟩, -, hmono⟩ := hfilled.valid
    have hrun := hs.pending (hnext ▸ hlt)
    rw [hfill] at hwf ⊢
    rw [← hnext, ← htr] at hrun
    cases hfilled with
    | last hrest hzs hr he =>
      -- the input is used up
      subst hr he
      rw [hrest, Transducer.runFrom_fst, Transducer.feed_append, Transducer.feed_singleton,
        hzs] at hrun
      refine ⟨State.fill_base t v st, hmono, hle, ?_, ?_, fun hlt' => absurd hlt' (lt_irrefl _),
        fun _ => ⟨hrun, h.finish_finish _⟩⟩
      · rw [List.length_append]
        exact h.length_step_le _ _
      · rw [hwf]
        exact hs.and_flag_eq fun hwf' => htr ▸ h.of_feed hzs (h.of_step (h.of_finish hwf'))
    | more hrest hws hzs hr hout =>
      -- some input is left
      subst hr
      have hdrop := drop_of_drop_eq hrest
      rw [hrest, Transducer.runFrom_append, Transducer.feed_append, Transducer.feed_singleton,
        hzs] at hrun
      refine ⟨State.fill_base t v st, hmono, hle, ?_, ?_, fun _ => by rw [hdrop]; exact hrun,
        fun hend => absurd hend (lt_length_of_drop_eq hdrop hws).ne⟩
      · exact (Nat.le_add_right _ _).trans (h.length_step_le _ _)
      · rw [hwf]
        exact hs.and_flag_eq fun hwf' => htr ▸ h.of_feed hzs (h.of_step hwf')

/-- **One increment** keeps the invariant. -/
theorem incr (h : Fits t m) {v v' : TranscodeView α} {it it' : Iterator σ β}
    (hs : Sound t xs m v it) (hincr : it.incr t v = .ok (v', it')) : Sound t xs m v' it' := by
  obtain ⟨st, hadvance, hincr⟩ := bind_eq_ok.mp hincr
  have hst : st = { it.state with first := it.state.first + 1 } := by
    rw [State.advance] at hadvance
    split_ifs at hadvance
    exact (Except.ok.inj hadvance).symm
  split_ifs at hincr
  · -- the buffer is filled again
    obtain ⟨rfl, rfl⟩ := Prod.mk.inj (Except.ok.inj hincr)
    exact hs.fill h (by rw [hst]) (by rw [hst])
  · obtain ⟨rfl, rfl⟩ := Prod.mk.inj (Except.ok.inj hincr)
    rw [hst]
    exact ⟨hs.base_eq, hs.current_le, hs.next_le, hs.length_out_le, hs.flag_eq, hs.pending,
      hs.settled⟩

/-- The iterator that the constructor starts from. -/
theorem start (h : Fits t m) (xs : List α) :
    Sound t xs m ⟨xs, true⟩ ⟨0, ⟨0, [], t.init, 0, 0⟩⟩ := by
  have hinit := h.of_finish h.finish_init
  refine ⟨rfl, le_rfl, Nat.zero_le _, Nat.zero_le _, hinit.symm, fun _ => rfl, fun hnil => ?_⟩
  obtain rfl := List.length_eq_zero_iff.mp hnil.symm
  exact ⟨hinit.trans h.finish_init.symm, h.finish_init.trans hinit.symm⟩

/-- **Every iterator reached satisfies the invariant.** -/
theorem of_reached (h : Fits t m) {v : TranscodeView α} {it : Iterator σ β}
    (hreached : Reached t ⟨xs, true⟩ v it) : Sound t xs m v it := by
  induction hreached with
  | begin =>
    rw [begin, Iterator.make]
    split_ifs
    · exact (start h xs).fill h rfl rfl
    · exact start h xs
  | incr _ _ hincr ih => exact ih.incr h hincr

/-- At the end the flag of the view is that of the whole run. -/
theorem wellFormed_of_atEnd {v : TranscodeView α} {it : Iterator σ β} (hs : Sound t xs m v it)
    (hend : it.atEnd v = true) : v.wellFormed = t.wellFormed (t.run xs).1 := by
  have hcurrent : it.current = xs.length := by
    rw [← hs.base_eq]
    exact of_decide_eq_true hend
  -- the position of the transcoder is not behind that of the iterator
  have hnext := le_antisymm hs.next_le (hcurrent ▸ hs.current_le)
  exact hs.flag_eq.trans (hs.settled hnext).1

end Sound

/-- A traversal that succeeds ends at an iterator that it has reached. -/
theorem Reached.end_of_traverse {t : Transcoder σ α β} {v₀ v : TranscodeView α}
    {it : Iterator σ β} {r : List β × TranscodeView α} {fuel : ℕ} (h : Reached t v₀ v it)
    (htraverse : traverse t fuel v it = .ok r) :
    ∃ it', Reached t v₀ r.2 it' ∧ it'.atEnd r.2 = true := by
  induction fuel generalizing v it r with
  | zero =>
    rw [traverse] at htraverse
    split_ifs at htraverse with hend
    obtain rfl := Except.ok.inj htraverse
    exact ⟨it, h, hend⟩
  | succ fuel ih =>
    rw [traverse] at htraverse
    split_ifs at htraverse with hend
    · obtain rfl := Except.ok.inj htraverse
      exact ⟨it, h, hend⟩
    · obtain ⟨u, -, htraverse⟩ := bind_eq_ok.mp htraverse
      obtain ⟨p, hincr, htraverse⟩ := bind_eq_ok.mp htraverse
      obtain ⟨r', hrest, hr⟩ := bind_eq_ok.mp htraverse
      obtain rfl := Except.ok.inj hr
      exact ih (r := r') (h.incr (Bool.eq_false_iff.mpr hend) hincr) hrest

/-- **Views of a transcoder that fits.** If the input ends in something written, a traversal yields
what the transcoder writes and leaves the flag of the view as that of the transcoder; no call of
`fill` writes more than `m` units and no iterator before the end has an empty buffer. -/
theorem traverse_of_fits {t : Transcoder σ α β} {m : ℕ} (h : Fits t m)
    (hinit : (t.finish t.init).2 = []) {xs : List α} (hprod : t.Productive t.init xs) :
    (∃ fuel v, traverse t fuel (begin t ⟨xs, true⟩).1 (begin t ⟨xs, true⟩).2 =
        .ok ((t.run xs).2, v) ∧ v.wellFormed = t.wellFormed (t.run xs).1) ∧
      ∀ v it, Reached t ⟨xs, true⟩ v it →
        it.state.out.length ≤ m ∧ (it.atEnd v = false → it.state.empty = false) := by
  obtain ⟨hnonempty, fuel, v, hyields⟩ := (faithful_iff_productive hinit xs).mpr hprod
  refine ⟨⟨fuel, v, hyields, ?_⟩, fun v it hreached => ⟨?_, hnonempty hreached⟩⟩
  · obtain ⟨it, hreached, hend⟩ := Reached.begin.end_of_traverse hyields
    exact (Sound.of_reached h hreached).wellFormed_of_atEnd hend
  · exact (Sound.of_reached h hreached).length_out_le

end TranscodeView

end Icubaby
