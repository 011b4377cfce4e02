import Icubaby.Ranges.Demand

/-!
# Several iterators of one view

All iterators of a view share its flag, which the class keeps in a mutable member: every call of
`fill` may clear it, through whatever iterator it is made. A `Session` is a view with any number of
iterators, which are obtained from `begin ()`, copied, incremented and destroyed in any order.

`Places` says what a session is for: each iterator is at a place of the output, and one place is the
furthest that has been reached. `session_run` says that sessions of views of code units and places
correspond. So the iterators are independent of each other, as iterators of a forward range have to
be, and the flag of the view tells about the input consumed for the furthest place, whichever
iterator was there.
-/

namespace Icubaby

open TranscodeView

namespace TranscodeView

variable {σ α β : Type}

/-! ### Places of the output -/

section Place

variable {t : Transcoder σ α β} {xs : List α}

/-- The number of units that the view of `xs` yields. -/
def total (t : Transcoder σ α β) (xs : List α) : ℕ := (t.run xs).2.length

/-- The iterator at a place of the output: the one obtained from `begin ()` by so many
increments. -/
def iterAt (t : Transcoder σ α β) (xs : List α) (n : ℕ) : Iterator σ β :=
  match nth t ⟨xs, true⟩ n with
  | .ok r => r.2
  | .error _ => ⟨0, { next := 0, transcoder := t.init }⟩

/-- The flag of the view once the place has been reached. -/
def flagAt (t : Transcoder σ α β) (xs : List α) (n : ℕ) : Bool :=
  match nth t ⟨xs, true⟩ n with
  | .ok r => r.1.wellFormed
  | .error _ => false

/-- What an iterator that increments have led to has before it. -/
structure AtPlace (t : Transcoder σ α β) (xs : List α) (n : ℕ) (it : Iterator σ β) : Prop where
  valid : it.Valid xs
  window_ne_nil : it.state.out.drop it.state.first ≠ []
  productive : it.state.Productive t xs
  remaining_eq : it.state.remaining t xs = (t.run xs).2.drop n

/-- **Every place of the output is reached.** -/
theorem exists_nth (hinit : (t.finish t.init).2 = []) (hprod : t.Productive t.init xs) {n : ℕ}
    (hn : n ≤ total t xs) :
    ∃ v it, nth t ⟨xs, true⟩ n = .ok (v, it) ∧ Reached t ⟨xs, true⟩ v it ∧ v.base = xs ∧
      (n = total t xs ∧ it.current = xs.length ∨ n < total t xs ∧ AtPlace t xs n it) := by
  induction n with
  | zero =>
    rcases eq_or_ne xs [] with rfl | hne
    · refine ⟨_, _, rfl, .begin, rfl, .inl ⟨?_, rfl⟩⟩
      rw [total, Transducer.run, Transducer.runFrom_snd, Transducer.feed_nil, List.nil_append,
        hinit]
      rfl
    · obtain ⟨v, it, hbegin, hbase, hvalid, hrem, hiff⟩ := begin_spec (t := t) hne
      obtain ⟨hwindow, hprod'⟩ := hiff.mp hprod
      have hreached : Reached t ⟨xs, true⟩ v it := by
        have hfirst : Reached t ⟨xs, true⟩ _ _ := .begin
        rwa [hbegin] at hfirst
      refine ⟨v, it, congrArg _ hbegin, hreached, hbase,
        .inr ⟨?_, hvalid, hwindow, hprod', hrem⟩⟩
      rw [total, ← hrem, List.length_pos_iff, State.remaining]
      exact List.append_ne_nil_of_left_ne_nil hwindow _
  | succ n ih =>
    obtain ⟨v, it, hnth, hreached, rfl, hcase⟩ := ih (Nat.le_of_succ_le hn)
    obtain ⟨-, hat⟩ := hcase.resolve_left fun h => by omega
    obtain ⟨u, us, hwindow⟩ := List.exists_cons_of_ne_nil hat.window_ne_nil
    obtain ⟨-, v', it', hincr, hbase, hnext⟩ := Iterator.incr_spec (t := t) hat.valid hwindow
    have hlt : n < (t.run v.base).2.length := hn
    have hrem := hat.remaining_eq
    rw [List.drop_eq_getElem_cons hlt] at hrem
    refine ⟨v', it', nth_succ hnth hincr, hreached.incr hat.valid.atEnd hincr, hbase, ?_⟩
    rcases hnext with ⟨hend, hlast, -⟩ | ⟨hvalid, hcons, hiff⟩
    · -- the last unit has been yielded
      obtain ⟨-, hnil⟩ := List.cons.inj (hrem.symm.trans hlast)
      have hge := List.drop_eq_nil_iff.mp hnil
      refine .inl ⟨le_antisymm hn hge, ?_⟩
      rw [Iterator.atEnd, hbase] at hend
      exact of_decide_eq_true hend
    · obtain ⟨-, htail⟩ := List.cons.inj (hrem.symm.trans hcons)
      obtain ⟨hwindow', hprod'⟩ := hiff.mp hat.productive
      refine .inr ⟨?_, hvalid, hwindow', hprod', htail.symm⟩
      by_contra hge
      have hnil : (t.run v.base).2.drop (n + 1) = [] := List.drop_eq_nil_of_le (not_lt.mp hge)
      rw [hnil, State.remaining] at htail
      exact hwindow' (List.append_eq_nil_iff.mp htail.symm).1

theorem nth_eq (hinit : (t.finish t.init).2 = []) (hprod : t.Productive t.init xs) {n : ℕ}
    (hn : n ≤ total t xs) : nth t ⟨xs, true⟩ n = .ok (⟨xs, flagAt t xs n⟩, iterAt t xs n) := by
  obtain ⟨⟨base, flag⟩, it, hnth, -, rfl, -⟩ := exists_nth hinit hprod hn
  rw [flagAt, iterAt, hnth]

/-- **What the iterator at a place shows.** -/
theorem iterAt_spec (hinit : (t.finish t.init).2 = []) (hprod : t.Productive t.init xs) {n : ℕ}
    (hn : n ≤ total t xs) (flag : Bool) :
    (iterAt t xs n).atEnd ⟨xs, flag⟩ = decide (n = total t xs) ∧
      ∀ h : n < (t.run xs).2.length, (iterAt t xs n).deref = .ok (t.run xs).2[n] := by
  obtain ⟨v, it, hnth, -, rfl, hcase⟩ := exists_nth hinit hprod hn
  have hit : iterAt t v.base n = it := by rw [iterAt, hnth]
  rw [hit]
  rcases hcase with ⟨hend, hcurrent⟩ | ⟨hlt, hat⟩
  · refine ⟨?_, fun h => absurd hend h.ne⟩
    rw [Iterator.atEnd, hcurrent, decide_eq_true rfl, decide_eq_true hend]
  · obtain ⟨u, us, hwindow⟩ := List.exists_cons_of_ne_nil hat.window_ne_nil
    refine ⟨?_, fun h => ?_⟩
    · rw [decide_eq_false hlt.ne]
      exact decide_eq_false hat.valid.current_lt.ne
    · have hrem := hat.remaining_eq
      rw [State.remaining, hwindow, List.drop_eq_getElem_cons h] at hrem
      rw [(Iterator.incr_eq (t := t) hat.valid hwindow).1, (List.cons.inj hrem).1]

/-! ### The flag -/

/-- The flag of the view makes no difference to what `fill` does, and is lowered by it. -/
theorem State.fill_flag (st : State σ β) (b : Bool) :
    st.fill t ⟨xs, b⟩ =
      (⟨xs, b && (st.fill t ⟨xs, true⟩).1.wellFormed⟩, (st.fill t ⟨xs, true⟩).2) := by
  have hview : (st.fill t ⟨xs, b⟩).1 =
      ⟨xs, b && (st.fill t ⟨xs, true⟩).1.wellFormed⟩ := by
    have hbase := State.fill_base t ⟨xs, b⟩ st
    have hflag := State.fill_wellFormed t ⟨xs, b⟩ st
    rw [State.fill_wellFormed t ⟨xs, true⟩ st, Bool.true_and]
    exact congrArg₂ TranscodeView.mk hbase hflag
  exact Prod.ext hview rfl

theorem Iterator.incr_flag (it : Iterator σ β) (b : Bool) :
    it.incr t ⟨xs, b⟩ =
      (it.incr t ⟨xs, true⟩).map fun r => (⟨xs, b && r.1.wellFormed⟩, r.2) := by
  rw [Iterator.incr, Iterator.incr]
  cases it.state.advance with
  | error e => rfl
  | ok st =>
    simp only [bind, Except.bind]
    split_ifs
    · rw [State.fill_flag st b]
      rfl
    · simp only [pure, Except.pure, Except.map, Bool.and_true]

theorem begin_flag (b : Bool) :
    begin t ⟨xs, b⟩ =
      (⟨xs, b && (begin t ⟨xs, true⟩).1.wellFormed⟩, (begin t ⟨xs, true⟩).2) := by
  rw [begin, Iterator.make, begin, Iterator.make]
  dsimp only
  split_ifs
  · rw [State.fill_flag _ b]
  · rw [Bool.and_true]

/-- **One increment** from a place to the next, in a view whose flag is `b`. -/
theorem incr_iterAt (hinit : (t.finish t.init).2 = []) (hprod : t.Productive t.init xs) {n : ℕ}
    (hn : n < total t xs) :
    ∃ c, flagAt t xs (n + 1) = (flagAt t xs n && c) ∧
      ∀ b, (iterAt t xs n).incr t ⟨xs, b⟩ = .ok (⟨xs, b && c⟩, iterAt t xs (n + 1)) := by
  have hnext := nth_eq hinit hprod (Nat.succ_le_of_lt hn)
  rw [nth, nth_eq hinit hprod hn.le] at hnext
  change (iterAt t xs n).incr t ⟨xs, flagAt t xs n⟩ = _ at hnext
  rw [Iterator.incr_flag] at hnext
  cases hincr : (iterAt t xs n).incr t ⟨xs, true⟩ with
  | error e =>
    rw [hincr] at hnext
    cases hnext
  | ok r =>
    rw [hincr] at hnext
    obtain ⟨hview, hit⟩ := Prod.mk.inj (Except.ok.inj hnext)
    refine ⟨r.1.wellFormed, (TranscodeView.mk.inj hview).2.symm, fun b => ?_⟩
    rw [Iterator.incr_flag, hincr, ← hit]
    rfl

/-- The flag is lowered on the way, and never raised. -/
theorem flagAt_of_le (hinit : (t.finish t.init).2 = []) (hprod : t.Productive t.init xs) {m n : ℕ}
    (hmn : m ≤ n) (hn : n ≤ total t xs) (hflag : flagAt t xs n = true) : flagAt t xs m = true := by
  induction n, hmn using Nat.le_induction with
  | base => exact hflag
  | succ n hmn ih =>
    obtain ⟨c, hc, -⟩ := incr_iterAt hinit hprod (Nat.lt_of_succ_le hn)
    rw [hc, Bool.and_eq_true] at hflag
    exact ih (Nat.le_of_succ_le hn) hflag.1

/-- **The flag at a place** tells about the input that the units before it and the one there need,
and at the end about all of the input. -/
theorem flagAt_eq {m : ℕ} (h : Fits t m) (hinit : (t.finish t.init).2 = [])
    (hprod : t.Productive t.init xs) {n : ℕ} (hn : n ≤ total t xs) :
    flagAt t xs n = t.wellFormed (t.consumed xs (t.demand t.init n xs)) := by
  obtain ⟨v, it, hnth, hreached, hbase, hcase⟩ := exists_nth hinit hprod hn
  have hflag : flagAt t xs n = v.wellFormed := by rw [flagAt, hnth]
  have hsound := Sound.of_reached h hreached
  rw [hflag]
  rcases hcase with ⟨rfl, hcurrent⟩ | ⟨hlt, hat⟩
  · have hend : it.atEnd v = true := decide_eq_true (hcurrent.trans (congrArg _ hbase.symm))
    have hle : (t.feed t.init xs).2.length ≤ total t xs := by
      rw [total, Transducer.run, Transducer.runFrom_snd, List.length_append]
      exact Nat.le_add_right _ _
    rw [hsound.wellFormed_of_atEnd hend, Transducer.demand_of_length_le hle, Transducer.consumed,
      if_neg (lt_irrefl _)]
  · obtain ⟨v', it', hnth', -, hend, -, hnext⟩ := nth_demand hinit hlt
    obtain ⟨rfl, rfl⟩ := Prod.mk.inj (Except.ok.inj (hnth.symm.trans hnth'))
    rw [hsound.flag_eq, hreached.transcoder_eq hend, hnext]

end Place

/-! ### Sessions -/

/-- A view and the iterators of it that are alive. -/
structure Session (σ α β : Type) where
  view : TranscodeView α
  iters : List (Iterator σ β)

/-- What can be done with the iterators of a view. -/
inductive Operation
  /-- `begin ()` -/
  | begin
  /-- Copying an iterator. -/
  | copy (i : ℕ)
  /-- `operator++`, which is not defined at the end. -/
  | incr (i : ℕ)
  /-- The end of the lifetime of an iterator. -/
  | destroy (i : ℕ)

/-- One operation, with `none` for one that is not defined. -/
def Session.apply (t : Transcoder σ α β) (s : Session σ α β) : Operation → Option (Session σ α β)
  | .begin =>
    let r := TranscodeView.begin t s.view
    some ⟨r.1, s.iters ++ [r.2]⟩
  | .copy i =>
    match s.iters[i]? with
    | some it => some ⟨s.view, s.iters ++ [it]⟩
    | none => none
  | .incr i =>
    match s.iters[i]? with
    | some it =>
      if it.atEnd s.view then none
      else
        match it.incr t s.view with
        | .ok r => some ⟨r.1, s.iters.set i r.2⟩
        | .error _ => none
    | none => none
  | .destroy i => if i < s.iters.length then some ⟨s.view, s.iters.eraseIdx i⟩ else none

/-- The places of the iterators in an output of `N` units, and the furthest place that any iterator
has reached so far. -/
structure Places (N : ℕ) where
  live : List ℕ := []
  reached : Option ℕ := none
  le_reached : ∀ n ∈ live, ∃ m ∈ reached, n ≤ m := by simp
  reached_le : ∀ m ∈ reached, m ≤ N := by simp

namespace Places

variable {N : ℕ}

theorem le_max_reached (p : Places N) {k n : ℕ} (hn : n ∈ p.live) :
    ∃ m ∈ some (max k (p.reached.getD 0)), n ≤ m := by
  obtain ⟨m, hm, hle⟩ := p.le_reached n hn
  rw [Option.mem_def] at hm
  exact ⟨_, rfl, by rw [hm]; exact hle.trans (le_max_right _ _)⟩

theorem max_reached_le (p : Places N) {k : ℕ} (hk : k ≤ N) :
    max k (p.reached.getD 0) ≤ N := by
  refine max_le hk ?_
  cases hr : p.reached with
  | none => exact Nat.zero_le N
  | some m => exact p.reached_le m hr

/-- One operation. -/
def apply (p : Places N) : Operation → Option (Places N)
  | .begin => some {
      live := p.live ++ [0]
      reached := some (max 0 (p.reached.getD 0))
      le_reached := by
        intro n hn
        rcases List.mem_append.mp hn with hn | hn
        · exact p.le_max_reached hn
        · rw [List.mem_singleton.mp hn]
          exact ⟨_, rfl, Nat.zero_le _⟩
      reached_le := by
        rintro m ⟨⟩
        exact p.max_reached_le (Nat.zero_le N) }
  | .copy i =>
    if hi : i < p.live.length then some { p with
      live := p.live ++ [p.live[i]]
      le_reached := by
        intro n hn
        rcases List.mem_append.mp hn with hn | hn
        · exact p.le_reached n hn
        · rw [List.mem_singleton.mp hn]
          exact p.le_reached _ (List.getElem_mem hi) }
    else none
  | .incr i =>
    if hi : i < p.live.length then
      if hN : p.live[i] < N then some {
        live := p.live.set i (p.live[i] + 1)
        reached := some (max (p.live[i] + 1) (p.reached.getD 0))
        le_reached := by
          intro n hn
          rcases List.mem_or_eq_of_mem_set hn with hn | rfl
          · exact p.le_max_reached hn
          · exact ⟨_, rfl, le_max_left _ _⟩
        reached_le := by
          rintro m ⟨⟩
          exact p.max_reached_le hN }
      else none
    else none
  | .destroy i =>
    if i < p.live.length then some { p with
      live := p.live.eraseIdx i
      le_reached := fun n hn => p.le_reached n (List.mem_of_mem_eraseIdx hn) }
    else none

/-- The session that the places stand for. -/
def session (t : Transcoder σ α β) (xs : List α) (p : Places N) : Session σ α β where
  view := ⟨xs, match p.reached with | none => true | some m => flagAt t xs m⟩
  iters := p.live.map (iterAt t xs)

theorem getElem?_session (t : Transcoder σ α β) (xs : List α) (p : Places N) (i : ℕ) :
    (p.session t xs).iters[i]? = (p.live[i]?).map (iterAt t xs) := List.getElem?_map

/-- The furthest place that was ever reached decides, so a place before it changes nothing. -/
private theorem flag_max {t : Transcoder σ α β} {xs : List α} (hinit : (t.finish t.init).2 = [])
    (hprod : t.Productive t.init xs) (p : Places (total t xs)) {k : ℕ} {c : Bool}
    (hc : flagAt t xs k = true → c = true)
    (hreached : ∀ m ∈ p.reached, k ≤ m ∨ flagAt t xs k = (flagAt t xs m && c) ∧ m ≤ k)
    (hfresh : p.reached = none → flagAt t xs k = c) :
    ((p.session t xs).view.wellFormed && c) =
      flagAt t xs (max k (p.reached.getD 0)) := by
  rw [session]
  cases hr : p.reached with
  | none =>
    rw [Option.getD_none, Nat.max_zero, hfresh hr]
    exact Bool.true_and c
  | some m =>
    rw [Option.getD_some]
    dsimp only
    rcases hreached m hr with hkm | ⟨hflag, hmk⟩
    · rw [max_eq_right hkm]
      cases hm : flagAt t xs m with
      | false => rfl
      | true =>
        have hm' := p.reached_le m hr
        rw [hc (flagAt_of_le hinit hprod hkm hm' hm)]
        rfl
    · rw [max_eq_left hmk, hflag]

/-- **One operation** does to a session what it does to the places. -/
theorem apply_session {t : Transcoder σ α β} {xs : List α} (hinit : (t.finish t.init).2 = [])
    (hprod : t.Productive t.init xs) (p : Places (total t xs)) (op : Operation) :
    (p.session t xs).apply t op = (p.apply op).map (session t xs) := by
  cases op with
  | begin =>
    have hbegin := nth_eq hinit hprod (Nat.zero_le _)
    rw [nth, Except.ok.injEq] at hbegin
    have hflag := p.flag_max hinit hprod (fun h => h) (fun m _ => .inl m.zero_le) fun _ => rfl
    have hview := @begin_flag _ _ _ t xs (p.session t xs).view.wellFormed
    rw [hbegin] at hview
    change some _ = some _
    rw [show (p.session t xs).view = ⟨xs, (p.session t xs).view.wellFormed⟩ from rfl, hview]
    dsimp only
    rw [hflag]
    simp only [session, List.map_append, List.map_singleton]
  | copy i =>
    rw [Session.apply, Places.apply, getElem?_session]
    split_ifs with hi
    · rw [List.getElem?_eq_getElem hi]
      simp only [session, List.map_append, List.map_singleton, Option.map_some]
    · rw [List.getElem?_eq_none (not_lt.mp hi)]
      rfl
  | incr i =>
    rw [Session.apply, Places.apply, getElem?_session]
    by_cases hi : i < p.live.length
    · obtain ⟨m, hm, hle⟩ := p.le_reached _ (List.getElem_mem hi)
      have hmN := p.reached_le m hm
      rw [Option.mem_def] at hm
      have hend := (iterAt_spec hinit hprod (hle.trans hmN) (p.session t xs).view.wellFormed).1
      rw [dif_pos hi, List.getElem?_eq_getElem hi, Option.map_some]
      dsimp only
      rw [show (p.session t xs).view = ⟨xs, (p.session t xs).view.wellFormed⟩ from rfl, hend]
      rcases (hle.trans hmN).eq_or_lt with heq | hlt
      · rw [if_pos (decide_eq_true heq), dif_neg heq.not_lt]
        rfl
      · obtain ⟨c, hc, hincr⟩ := incr_iterAt hinit hprod hlt
        have hflag := p.flag_max hinit hprod (k := p.live[i] + 1) (c := c)
          (fun h => by rw [hc, Bool.and_eq_true] at h; exact h.2)
          (fun m' hm' => by
            rw [Option.mem_def, hm, Option.some.injEq] at hm'
            subst hm'
            rcases hle.eq_or_lt with heq | hlt'
            · exact .inr ⟨by rw [hc, heq], heq ▸ Nat.le_succ _⟩
            · exact .inl hlt')
          (fun hnone => absurd (hnone.symm.trans hm) (by simp))
        rw [if_neg (by simp [hlt.ne]), dif_pos hlt, hincr]
        simp only [session, Option.map_some, List.map_set] at hflag ⊢
        rw [hflag]
    · rw [dif_neg hi, List.getElem?_eq_none (not_lt.mp hi)]
      rfl
  | destroy i =>
    rw [Session.apply, Places.apply]
    have hlen : (p.session t xs).iters.length = p.live.length := List.length_map _
    rw [hlen]
    split_ifs
    · simp [session, List.eraseIdx_map]
    · rfl

/-- **A run** does to a session what it does to the places. -/
theorem foldlM_session {t : Transcoder σ α β} {xs : List α} (hinit : (t.finish t.init).2 = [])
    (hprod : t.Productive t.init xs) (p : Places (total t xs)) (ops : List Operation) :
    ops.foldlM (Session.apply t) (p.session t xs) =
      (ops.foldlM apply p).map (session t xs) := by
  induction ops generalizing p with
  | nil => rfl
  | cons op ops ih =>
    rw [List.foldlM_cons, List.foldlM_cons, p.apply_session hinit hprod op]
    cases p.apply op with
    | none => rfl
    | some p' => exact ih p'

end Places

/-- The iterators of a session are at the places, and its flag tells about the input that was needed
to reach the furthest one. -/
structure Session.IsAt (t : Transcoder σ α β) (xs : List α) (p : Places (total t xs))
    (s : Session σ α β) : Prop where
  base_eq : s.view.base = xs
  iters : List.Forall₂ (fun n it => it.atEnd s.view = decide (n = total t xs) ∧
    ∀ h : n < (t.run xs).2.length, it.deref = .ok (t.run xs).2[n]) p.live s.iters
  /-- Before the first call of `begin ()` the flag is set. -/
  flag_eq : s.view.wellFormed =
    match p.reached with
    | none => true
    | some m => t.wellFormed (t.consumed xs (t.demand t.init m xs))

theorem Places.isAt_session {t : Transcoder σ α β} {xs : List α} {m : ℕ} (h : Fits t m)
    (hinit : (t.finish t.init).2 = []) (hprod : t.Productive t.init xs)
    (p : Places (total t xs)) : Session.IsAt t xs p (p.session t xs) where
  base_eq := rfl
  iters := by
    rw [session, List.forall₂_map_right_iff, List.forall₂_same]
    intro n hn
    obtain ⟨k, hk, hle⟩ := p.le_reached n hn
    exact iterAt_spec hinit hprod (hle.trans (p.reached_le k hk)) _
  flag_eq := by
    rw [session]
    cases hr : p.reached with
    | none => rfl
    | some k => exact flagAt_eq h hinit hprod (p.reached_le k hr)

end TranscodeView

open TranscodeView

/-- **Iterators of one view of code units are independent.** For all character types, every
underlying sequence of units of such a type and every sequence of operations, the operations are
defined on the view if and only if they are on the places of the output. Afterwards every iterator
shows the unit at its place, or the end, and the flag of the view is that of a transcoder that has
read what the furthest place needs. -/
theorem session_run (F T : CharType) (us : List F.Unit) (ops : List Operation) :
    Option.Rel (Session.IsAt (transcoder F T) us) (ops.foldlM Places.apply {})
      (ops.foldlM (Session.apply (transcoder F T)) ⟨⟨us, true⟩, []⟩) := by
  have hinit : ((transcoder F T).finish (transcoder F T).init).2 = [] := by
    rw [(converts_transcoder F T).settled (converts_transcoder F T).init.1]
  have hprod := productive_transcoder F T (transcoder F T).init us
  have hrun := Places.foldlM_session hinit hprod {} ops
  change ops.foldlM (Session.apply (transcoder F T)) ⟨⟨us, true⟩, []⟩ = _ at hrun
  rw [hrun]
  cases ops.foldlM Places.apply ({} : Places (total (transcoder F T) us)) with
  | none => exact .none
  | some p => exact .some (p.isAt_session (fits_transcoder F T) hinit hprod)

end Icubaby
