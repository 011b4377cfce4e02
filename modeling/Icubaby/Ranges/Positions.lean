import Icubaby.Ranges.View

/-!
# The positions of iterators

Each call of `fill` makes one pull (`Transducer.pulls`): it consumes the units read for the pull
and its window is the output of the pull. An iterator therefore stands for a pull and an index into
its output (`Shows`), and incrementing it moves to the next index, the next pull or the end. So the
iterator obtained from `begin ()` by `n` increments (`nth`) is known from the pulls alone, and
conversely every iterator reached is of this kind.
-/

namespace Icubaby

namespace TranscodeView

variable {σ α β : Type}

/-- `base ()` -/
def Iterator.base (it : Iterator σ β) : ℕ := it.current

/-- `operator==`, for two iterators of one view. -/
def Iterator.equal (it it' : Iterator σ β) : Bool := it.current = it'.current

/-- The view and the iterator obtained from `begin ()` by `n` increments. -/
def nth (t : Transcoder σ α β) (v : TranscodeView α) :
    ℕ → Except Fault (TranscodeView α × Iterator σ β)
  | 0 => .ok (begin t v)
  | n + 1 => do
    let r ← nth t v n
    r.2.incr t r.1

section Pulls

variable (t : Transcoder σ α β) {xs : List α}

/-- The number of units read for some pulls. -/
def readBy (gs : List (List α × List β)) : ℕ := (gs.flatMap Prod.fst).length

/-- The number of units yielded by some pulls. -/
def yieldedBy (gs : List (List α × List β)) : ℕ := (gs.flatMap Prod.snd).length

@[simp] theorem readBy_append (gs gs' : List (List α × List β)) :
    readBy (gs ++ gs') = readBy gs + readBy gs' := by simp [readBy]

@[simp] theorem readBy_singleton (g : List α × List β) : readBy [g] = g.1.length := by
  simp [readBy]

@[simp] theorem yieldedBy_append (gs gs' : List (List α × List β)) :
    yieldedBy (gs ++ gs') = yieldedBy gs + yieldedBy gs' := by simp [yieldedBy]

@[simp] theorem yieldedBy_singleton (g : List α × List β) : yieldedBy [g] = g.2.length := by
  simp [yieldedBy]

/-- The state is at index `i` of the output of the pull `g`, after `n` units have been consumed for
earlier pulls; the pulls `post` are still to be made. -/
structure State.Shows (xs : List α) (n : ℕ) (g : List α × List β) (post : List (List α × List β))
    (i : ℕ) (st : State σ β) : Prop where
  read_ne_nil : g.1 ≠ []
  next_eq : st.next = n + g.1.length
  next_le : st.next ≤ xs.length
  out_eq : st.out = g.2
  first_eq : st.first = i
  last_eq : st.last = g.2.length
  pulls_eq : t.pulls st.transcoder (xs.drop st.next) = post
  /-- When the input is used up, the transcoder has been flushed. -/
  flushed : post = [] → ∃ s, st.transcoder = (t.finish s).1

/-- The iterator is at index `i` of the output of the pull `g`, which comes after the pulls `pre`
and before `post`. -/
structure Shows (xs : List α) (pre : List (List α × List β)) (g : List α × List β)
    (post : List (List α × List β)) (i : ℕ) (v : TranscodeView α) (it : Iterator σ β) : Prop where
  base_eq : v.base = xs
  current_eq : it.current = readBy pre
  shows : it.state.Shows t xs (readBy pre) g post i

variable {t}

/-- **One call of `fill`** makes the next pull. -/
theorem State.fill_shows {v : TranscodeView α} (st : State σ β) {g : List α × List β}
    {post : List (List α × List β)} (hlt : st.next < v.base.length)
    (hpulls : t.pulls st.transcoder (v.base.drop st.next) = g :: post) :
    ∃ st', (st.fill t v).2 = (st', st.next) ∧ st'.Shows t v.base st.next g post 0 := by
  obtain ⟨st', hfill, hfilled⟩ := State.filled_fill t (v := v) st hlt
  refine ⟨st', hfill, ?_⟩
  cases hfilled with
  | @last zs x s r e hrest hzs hr he =>
    have hlen := congrArg List.length hrest
    simp only [List.length_drop, List.length_append, List.length_singleton] at hlen
    rw [hrest, Transducer.pulls_append_cons hzs (by simp), hr] at hpulls
    obtain ⟨rfl, rfl⟩ := List.cons.inj hpulls
    have hwrote : t.wrote s x [] = r.2 ++ e.2 := by rw [Transducer.wrote, hr, he]
    refine ⟨by simp, ?_, le_rfl, hwrote.symm, rfl, by rw [hwrote], ?_, fun _ => ⟨r.1, by rw [he]⟩⟩
    · simp only [List.length_append, List.length_singleton]
      omega
    · rw [List.drop_length]
      rfl
  | @more zs x ws s r hrest hws hzs hr hout =>
    have hdrop := drop_of_drop_eq hrest
    rw [hrest, List.append_assoc, List.singleton_append,
      Transducer.pulls_append_cons hzs (fun _ => hr ▸ hout), hr] at hpulls
    obtain ⟨rfl, rfl⟩ := List.cons.inj hpulls
    have hwrote : t.wrote s x ws = r.2 := by
      obtain ⟨w, ws, rfl⟩ := List.exists_cons_of_ne_nil hws
      exact congrArg Prod.snd hr
    refine ⟨by simp, ?_, (lt_length_of_drop_eq hdrop hws).le, hwrote.symm, rfl, by rw [hwrote],
      by rw [hdrop], fun hnil => absurd (Transducer.pulls_eq_nil_iff.mp hnil) hws⟩
    simp

/-! ### One increment -/

namespace Shows

variable {pre post : List (List α × List β)} {g : List α × List β} {i : ℕ} {v : TranscodeView α}
  {it : Iterator σ β}

/-- The input is used up when no pull is left. -/
theorem next_eq_length_iff (h : Shows t xs pre g post i v it) :
    it.state.next = xs.length ↔ post = [] := by
  have hle := h.shows.next_le
  rw [← h.shows.pulls_eq, Transducer.pulls_eq_nil_iff, List.drop_eq_nil_iff]
  omega

theorem valid (h : Shows t xs pre g post i v it) : it.Valid v.base := by
  have hpos := List.length_pos_iff.mpr h.shows.read_ne_nil
  have hnext := h.shows.next_eq
  have hle := h.shows.next_le
  have hcurrent := h.current_eq
  rw [h.base_eq]
  exact ⟨by omega, hle, h.shows.last_eq.trans (congrArg List.length h.shows.out_eq.symm)⟩

/-- An iterator that is at an index is not at the end. -/
theorem atEnd (h : Shows t xs pre g post i v it) : it.atEnd v = false :=
  decide_eq_false h.valid.current_lt.ne

/-- What is left of the output of the pull. -/
theorem window (h : Shows t xs pre g post i v it) (hi : i < g.2.length) :
    it.state.out.drop it.state.first = g.2[i] :: g.2.drop (i + 1) := by
  rw [h.shows.out_eq, h.shows.first_eq]
  exact List.drop_eq_getElem_cons hi

/-- An index into the output can be dereferenced. -/
theorem deref (h : Shows t xs pre g post i v it) (hi : i < g.2.length) :
    it.deref = .ok g.2[i] := (Iterator.incr_eq (t := t) h.valid (h.window hi)).1

/-- An increment that does not run into the assertion starts from an index into the output. -/
theorem lt_of_incr (h : Shows t xs pre g post i v it) (hi : i < g.2.length ∨ i = 0)
    {r : TranscodeView α × Iterator σ β} (hincr : it.incr t v = .ok r) : i < g.2.length := by
  by_contra hge
  have hempty : it.state.empty = true := by
    rw [State.empty, h.shows.first_eq, h.shows.last_eq]
    exact decide_eq_true (by omega)
  have hfault : it.incr t v = .error .emptyBuffer := by
    rw [Iterator.incr, State.advance, hempty]
    rfl
  rw [hfault] at hincr
  cases hincr

/-- **Within a pull** an increment moves to the next index. -/
theorem incr (h : Shows t xs pre g post i v it) (hi : i + 1 < g.2.length) :
    ∃ it', it.incr t v = .ok (v, it') ∧ Shows t xs pre g post (i + 1) v it' := by
  obtain ⟨-, -, -, hkeep⟩ := Iterator.incr_eq (t := t) h.valid (h.window (by omega))
  have hne : g.2.drop (i + 1) ≠ [] := List.drop_eq_nil_iff.not.mpr (by omega)
  refine ⟨_, hkeep hne, h.base_eq, h.current_eq, ?_⟩
  obtain ⟨hread, hnext, hle, hout, hfirst, hlast, hpulls, hflushed⟩ := h.shows
  exact ⟨hread, hnext, hle, hout, congrArg (· + 1) hfirst, hlast, hpulls, hflushed⟩

/-- At the last index the buffer is filled again. -/
private theorem incr_refill (h : Shows t xs pre g post i v it) (hi : i + 1 = g.2.length) :
    let st : State σ β := { it.state with first := it.state.first + 1 }
    it.incr t v = .ok ((st.fill t v).1, ⟨(st.fill t v).2.2, (st.fill t v).2.1⟩) := by
  obtain ⟨-, -, hrefill, -⟩ := Iterator.incr_eq (t := t) h.valid (h.window (by omega))
  exact hrefill (List.drop_eq_nil_iff.mpr hi.ge)

/-- **After a pull** an increment makes the next one. -/
theorem incr_next {g' : List α × List β} (h : Shows t xs pre g (g' :: post) i v it)
    (hi : i + 1 = g.2.length) :
    ∃ v' it', it.incr t v = .ok (v', it') ∧ Shows t xs (pre ++ [g]) g' post 0 v' it' := by
  let st : State σ β := { it.state with first := it.state.first + 1 }
  have hread : readBy (pre ++ [g]) = st.next := by
    rw [readBy_append, readBy_singleton]
    exact h.shows.next_eq.symm
  have hlt : st.next < xs.length :=
    h.shows.next_le.lt_of_ne fun heq => List.cons_ne_nil _ _ (h.next_eq_length_iff.mp heq)
  have hpulls := h.shows.pulls_eq
  have hincr : it.incr t v = .ok ((st.fill t v).1, ⟨(st.fill t v).2.2, (st.fill t v).2.1⟩) :=
    h.incr_refill hi
  obtain rfl := h.base_eq
  obtain ⟨st', hfill, hst'⟩ := st.fill_shows hlt hpulls
  rw [hfill] at hincr
  refine ⟨_, _, hincr, State.fill_base t v st, hread.symm, ?_⟩
  rw [hread]
  exact hst'

/-- **After the last pull** an increment reaches the end, and flushes once more. -/
theorem incr_end (h : Shows t xs pre g [] i v it) (hi : i + 1 = g.2.length) :
    ∃ v' it' s, it.incr t v = .ok (v', it') ∧ v'.base = xs ∧ it'.current = xs.length ∧
      it'.state.out = (t.finish (t.finish s).1).2 := by
  let st : State σ β := { it.state with first := it.state.first + 1 }
  have hend : st.next = xs.length := h.next_eq_length_iff.mpr rfl
  obtain ⟨s, hs⟩ := h.shows.flushed rfl
  have hincr : it.incr t v = .ok ((st.fill t v).1, ⟨(st.fill t v).2.2, (st.fill t v).2.1⟩) :=
    h.incr_refill hi
  obtain rfl := h.base_eq
  rw [State.fill_of_end t hend] at hincr
  refine ⟨_, _, s, hincr, State.fill_base t v st, hend, ?_⟩
  rw [← hs]

end Shows

/-! ### The iterators of a view -/

/-- `begin ()` makes the first pull. -/
theorem shows_begin {g : List α × List β} {post : List (List α × List β)}
    (hxs : t.pulls t.init xs = g :: post) :
    Shows t xs [] g post 0 (begin t ⟨xs, true⟩).1 (begin t ⟨xs, true⟩).2 := by
  let st : State σ β := { next := 0, transcoder := t.init }
  have hlt : st.next < xs.length := by
    refine List.length_pos_iff.mpr fun hnil => ?_
    rw [Transducer.pulls_eq_nil_iff.mpr hnil] at hxs
    cases hxs
  obtain ⟨st', hfill, hst'⟩ := st.fill_shows (t := t) (v := ⟨xs, true⟩) hlt hxs
  have hbegin : begin t ⟨xs, true⟩ = ((st.fill t ⟨xs, true⟩).1, ⟨0, st'⟩) := by
    rw [begin, Iterator.make, if_pos hlt.ne]
    exact congrArg (fun r => ((st.fill t ⟨xs, true⟩).1, (⟨r.2, r.1⟩ : Iterator σ β))) hfill
  rw [hbegin]
  exact ⟨State.fill_base t _ st, rfl, hst'⟩

theorem nth_succ {v₀ v v' : TranscodeView α} {it it' : Iterator σ β} {n : ℕ}
    (hn : nth t v₀ n = .ok (v, it)) (hincr : it.incr t v = .ok (v', it')) :
    nth t v₀ (n + 1) = .ok (v', it') := by
  rw [nth, hn]
  exact hincr

/-- From the first unit of a pull increments lead to the others. -/
private theorem nth_shows_within {v₀ v : TranscodeView α} {it : Iterator σ β}
    {pre post : List (List α × List β)} {g : List α × List β} {n : ℕ}
    (hn : nth t v₀ n = .ok (v, it)) (hreached : Reached t v₀ v it)
    (hshows : Shows t xs pre g post 0 v it) {i : ℕ} (hi : i < g.2.length ∨ i = 0) :
    ∃ it', nth t v₀ (n + i) = .ok (v, it') ∧ Reached t v₀ v it' ∧
      Shows t xs pre g post i v it' := by
  induction i with
  | zero => exact ⟨it, hn, hreached, hshows⟩
  | succ i ih =>
    have hlt : i + 1 < g.2.length := hi.resolve_right (Nat.succ_ne_zero i)
    obtain ⟨it', hn', hreached', hshows'⟩ := ih (.inl (by omega))
    obtain ⟨it'', hincr, hshows''⟩ := hshows'.incr hlt
    exact ⟨it'', nth_succ hn' hincr, hreached'.incr hshows'.atEnd hincr, hshows''⟩

/-- **The iterator after a number of increments**: index `i` of the pull `g` is reached once the
earlier pulls have been yielded and `i` units of this one. -/
theorem nth_shows {pre post : List (List α × List β)} {g : List α × List β}
    (hxs : t.pulls t.init xs = pre ++ g :: post) {i : ℕ} (hi : i < g.2.length ∨ i = 0) :
    ∃ v it, nth t ⟨xs, true⟩ (yieldedBy pre + i) = .ok (v, it) ∧
      Reached t ⟨xs, true⟩ v it ∧ Shows t xs pre g post i v it := by
  induction pre using List.reverseRecOn generalizing g post i with
  | nil => exact ⟨_, nth_shows_within rfl .begin (shows_begin hxs) hi⟩
  | append_singleton pre g₀ ih =>
    -- the last unit of the pull before is reached first
    have hyields : g₀.2 ≠ [] := Transducer.snd_ne_nil_of_pulls_eq hxs (by simp)
    have hpos := List.length_pos_iff.mpr hyields
    rw [List.append_assoc, List.singleton_append] at hxs
    obtain ⟨v, it, hn, hreached, hshows⟩ := ih hxs (i := g₀.2.length - 1) (.inl (by omega))
    obtain ⟨v', it', hincr, hshows'⟩ := hshows.incr_next (by omega)
    have hyielded : yieldedBy (pre ++ [g₀]) = yieldedBy pre + (g₀.2.length - 1) + 1 := by
      rw [yieldedBy_append, yieldedBy_singleton]
      omega
    rw [hyielded]
    exact ⟨v', nth_shows_within (nth_succ hn hincr) (hreached.incr hshows.atEnd hincr) hshows' hi⟩

/-- **The end** is reached when everything has been yielded. -/
theorem nth_end {gs : List (List α × List β)} (hxs : t.pulls t.init xs = gs)
    (hgs : ∀ g ∈ gs, g.2 ≠ []) :
    ∃ v it, nth t ⟨xs, true⟩ (yieldedBy gs) = .ok (v, it) ∧ v.base = xs ∧
      it.current = xs.length := by
  rcases List.eq_nil_or_concat' gs with rfl | ⟨pre, g, rfl⟩
  · obtain rfl := Transducer.pulls_eq_nil_iff.mp hxs
    exact ⟨_, _, rfl, rfl, rfl⟩
  · have hpos := List.length_pos_iff.mpr (hgs g (by simp))
    obtain ⟨v, it, hn, -, hshows⟩ := nth_shows hxs (i := g.2.length - 1) (.inl (by omega))
    obtain ⟨v', it', s, hincr, hbase, hcurrent, -⟩ := hshows.incr_end (by omega)
    have hyielded : yieldedBy (pre ++ [g]) = yieldedBy pre + (g.2.length - 1) + 1 := by
      rw [yieldedBy_append, yieldedBy_singleton]
      omega
    rw [hyielded]
    exact ⟨v', it', nth_succ hn hincr, hbase, hcurrent⟩

/-- **Every iterator reached** before the end stands for a pull and an index; at the end its buffer
holds what flushing a second time has written. -/
theorem Reached.shows {v : TranscodeView α} {it : Iterator σ β}
    (h : Reached t ⟨xs, true⟩ v it) :
    (∃ pre g post i, t.pulls t.init xs = pre ++ g :: post ∧ (i < g.2.length ∨ i = 0) ∧
        Shows t xs pre g post i v it) ∨
      it.atEnd v = true ∧
        (it.state.out = [] ∨ ∃ s, it.state.out = (t.finish (t.finish s).1).2) := by
  induction h with
  | begin =>
    cases hxs : t.pulls t.init xs with
    | nil =>
      obtain rfl := Transducer.pulls_eq_nil_iff.mp hxs
      exact .inr ⟨rfl, .inl rfl⟩
    | cons g post => exact .inl ⟨[], g, post, 0, rfl, .inr rfl, shows_begin hxs⟩
  | @incr v v' it it' _ hend hincr ih =>
    obtain ⟨pre, g, post, i, hxs, hi, hshows⟩ := ih.resolve_right (by simp [hend])
    have hlt : i < g.2.length := hshows.lt_of_incr hi hincr
    rcases Nat.lt_or_ge (i + 1) g.2.length with hnext | hnext
    · obtain ⟨it'', hincr', hshows'⟩ := hshows.incr hnext
      obtain ⟨rfl, rfl⟩ := Prod.mk.inj (Except.ok.inj (hincr.symm.trans hincr'))
      exact .inl ⟨pre, g, post, i + 1, hxs, .inl hnext, hshows'⟩
    · cases post with
      | cons g' post =>
        obtain ⟨w, it'', hincr', hshows'⟩ := hshows.incr_next (by omega)
        obtain ⟨rfl, rfl⟩ := Prod.mk.inj (Except.ok.inj (hincr.symm.trans hincr'))
        exact .inl ⟨pre ++ [g], g', post, 0, by simp [hxs], .inr rfl, hshows'⟩
      | nil =>
        obtain ⟨w, it'', s, hincr', hbase, hcurrent, hout⟩ := hshows.incr_end (by omega)
        obtain ⟨rfl, rfl⟩ := Prod.mk.inj (Except.ok.inj (hincr.symm.trans hincr'))
        refine .inr ⟨?_, .inr ⟨s, hout⟩⟩
        rw [Iterator.atEnd, hbase, hcurrent]
        exact decide_eq_true rfl

end Pulls

end TranscodeView

end Icubaby
