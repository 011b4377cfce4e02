import Icubaby.Transcoder.Basic

/-!
# The range adaptor

`transcode_view` pulls code units out of a transcoder. Its iterator keeps a position `current` for
comparisons and a `State` with the position up to which input has been consumed, the transcoder,
and the units written by the last call of `fill`, which `first` and `last` delimit. Dereferencing
and incrementing a state whose units are used up is an error that the source asserts against.

The view is generic in the transcoder. `State.Filled` says all that one call of `fill` can do, and
`Iterator.incr_spec` what one increment does to the units that remain to be yielded.
-/

namespace Icubaby

variable {σ α β : Type}

/-- The members of `transcode_view`. -/
structure TranscodeView (α : Type) where
  /-- The underlying sequence from which input is drawn. -/
  base : List α
  /-- True if the input consumed is well formed. -/
  wellFormed : Bool := true

namespace TranscodeView

/-- What goes wrong in a traversal. -/
inductive Fault
  /-- `front` or `advance` was called on an empty buffer. -/
  | emptyBuffer
  /-- The number of increments allowed has been used up. -/
  | outOfFuel
  deriving DecidableEq, Repr

/-- The members of `transcode_view::iterator::state`. -/
structure State (σ β : Type) where
  /-- The position of the next input code unit to be consumed. -/
  next : ℕ
  /-- What the last call of `fill` has written into the array. -/
  out : List β := []
  /-- The transcoder. -/
  transcoder : σ
  /-- The index of the start of the valid range of code units. -/
  first : ℕ := 0
  /-- The index one beyond the end of the valid range of code units. -/
  last : ℕ := 0

namespace State

/-- `empty ()` -/
def empty (st : State σ β) : Bool := st.first = st.last

/-- `front ()` -/
def front (st : State σ β) : Except Fault β :=
  if st.empty then .error .emptyBuffer
  else
    match st.out[st.first]? with
    | some u => .ok u
    | none => .error .emptyBuffer

/-- `advance ()` -/
def advance (st : State σ β) : Except Fault (State σ β) :=
  if st.empty then .error .emptyBuffer else .ok { st with first := st.first + 1 }

/-- The loop of `fill`: consumes input until something has been written or the input is used up.
Returns the transcoder, what has been written and the number of units consumed. -/
def fillLoop (t : Transcoder σ α β) (s : σ) : List α → σ × List β × ℕ
  | [] => (s, [], 0)
  | x :: xs =>
    let r := t.step s x
    if r.2 = [] then
      let r' := fillLoop t r.1 xs
      (r'.1, r'.2.1, r'.2.2 + 1)
    else (r.1, r.2, 1)

/-- `fill`, with the view whose flag it may clear. The last component is the position returned. -/
def fill (t : Transcoder σ α β) (v : TranscodeView α) (st : State σ β) :
    TranscodeView α × State σ β × ℕ :=
  let result := st.next
  let r := fillLoop t st.transcoder (v.base.drop st.next)
  let next := st.next + r.2.2
  let r' :=
    if next = v.base.length then
      -- the entire input has been consumed: tell the transcoder and get any final output
      let e := t.finish r.1
      (e.1, r.2.1 ++ e.2)
    else (r.1, r.2.1)
  let v := if t.wellFormed r'.1 then v else { v with wellFormed := false }
  (v, ⟨next, r'.2, r'.1, 0, r'.2.length⟩, result)

end State

/-- The members of `transcode_view::iterator`, apart from the pointer to its view. -/
structure Iterator (σ β : Type) where
  /-- The position that comparisons look at. -/
  current : ℕ
  /-- The state. -/
  state : State σ β

namespace Iterator

/-- The constructor. -/
def make (t : Transcoder σ α β) (v : TranscodeView α) (current : ℕ) :
    TranscodeView α × Iterator σ β :=
  let st : State σ β := { next := current, transcoder := t.init }
  if current ≠ v.base.length then
    let r := st.fill t v
    (r.1, ⟨r.2.2, r.2.1⟩)
  else (v, ⟨current, st⟩)

/-- `operator*` -/
def deref (it : Iterator σ β) : Except Fault β := it.state.front

/-- `operator++` -/
def incr (t : Transcoder σ α β) (v : TranscodeView α) (it : Iterator σ β) :
    Except Fault (TranscodeView α × Iterator σ β) := do
  let st ← it.state.advance
  if st.empty then
    let r := st.fill t v
    return (r.1, ⟨r.2.2, r.2.1⟩)
  else return (v, { it with state := st })

/-- Comparison with the end of the view: only the positions are compared. -/
def atEnd (v : TranscodeView α) (it : Iterator σ β) : Bool := it.current = v.base.length

end Iterator

/-- `begin ()` -/
def begin (t : Transcoder σ α β) (v : TranscodeView α) : TranscodeView α × Iterator σ β :=
  Iterator.make t v 0

/-- The loop `for (; it != end; ++it)` over the units `*it`, for at most `fuel` increments. -/
def traverse (t : Transcoder σ α β) :
    ℕ → TranscodeView α → Iterator σ β → Except Fault (List β × TranscodeView α)
  | 0, v, it => if it.atEnd v then .ok ([], v) else .error .outOfFuel
  | fuel + 1, v, it =>
    if it.atEnd v then .ok ([], v)
    else do
      let u ← it.deref
      let r ← it.incr t v
      let r' ← traverse t fuel r.1 r.2
      return (u :: r'.1, r'.2)

/-- The iterators reached from `begin ()` by increments, none of them of an iterator at the end. -/
inductive Reached (t : Transcoder σ α β) (v : TranscodeView α) :
    TranscodeView α → Iterator σ β → Prop
  | begin : Reached t v (begin t v).1 (begin t v).2
  | incr {v' v'' it it'} : Reached t v v' it → it.atEnd v' = false →
    it.incr t v' = .ok (v'', it') → Reached t v v'' it'

/-- A computation that succeeds does so step by step. -/
theorem bind_eq_ok {ε γ δ : Type} {x : Except ε γ} {f : γ → Except ε δ} {d : δ} :
    x >>= f = .ok d ↔ ∃ c, x = .ok c ∧ f c = .ok d := by
  cases x with
  | error e => simp [bind, Except.bind]
  | ok c => simp [bind, Except.bind]

/-! ### One call of `fill` -/

section Fill

variable (t : Transcoder σ α β)

/-- The loop consumes units that write nothing and then one more, which may write nothing only if
it is the last. -/
theorem State.fillLoop_spec (s : σ) {xs : List α} (hxs : xs ≠ []) :
    ∃ zs x ws s', xs = (zs ++ [x]) ++ ws ∧ t.feed s zs = (s', []) ∧
      fillLoop t s xs = ((t.step s' x).1, (t.step s' x).2, zs.length + 1) ∧
      ((t.step s' x).2 = [] → ws = []) := by
  induction xs generalizing s with
  | nil => exact absurd rfl hxs
  | cons x xs ih =>
    rw [fillLoop]
    by_cases hout : (t.step s x).2 = []
    · rw [if_pos hout]
      rcases eq_or_ne xs [] with rfl | hne
      · exact ⟨[], x, [], s, rfl, rfl, by simp [fillLoop, hout], fun _ => rfl⟩
      · obtain ⟨zs, y, ws, s', rfl, hzs, hloop, hlast⟩ := ih (t.step s x).1 hne
        refine ⟨x :: zs, y, ws, s', rfl, ?_, by rw [hloop]; rfl, hlast⟩
        rw [Transducer.feed_cons, hout, hzs, List.nil_append]
    · rw [if_neg hout]
      exact ⟨[], x, xs, s, rfl, rfl, rfl, fun h => absurd h hout⟩

/-- What a call of `fill` with input left makes of a state. It consumes units `zs` that write
nothing and then one more unit. -/
inductive State.Filled (xs : List α) (st : State σ β) : State σ β → Prop
  /-- The input is used up and the transcoder is flushed. -/
  | last {zs x s r e} : xs.drop st.next = zs ++ [x] → t.feed st.transcoder zs = (s, []) →
    t.step s x = r → t.finish r.1 = e →
    Filled xs st ⟨xs.length, r.2 ++ e.2, e.1, 0, (r.2 ++ e.2).length⟩
  /-- Something is written before the input is used up. -/
  | more {zs x ws s r} : xs.drop st.next = (zs ++ [x]) ++ ws → ws ≠ [] →
    t.feed st.transcoder zs = (s, []) → t.step s x = r → r.2 ≠ [] →
    Filled xs st ⟨st.next + (zs.length + 1), r.2, r.1, 0, r.2.length⟩

/-- What is left when a unit and the ones before it have been consumed. -/
theorem drop_of_drop_eq {xs zs ws : List α} {x : α} {n : ℕ}
    (h : xs.drop n = (zs ++ [x]) ++ ws) : xs.drop (n + (zs.length + 1)) = ws := by
  rw [← List.drop_drop, h]
  exact List.drop_left' (by simp)

theorem lt_length_of_drop_eq {xs ws : List α} {n : ℕ} (h : xs.drop n = ws)
    (hws : ws ≠ []) : n < xs.length := by
  by_contra hge
  exact hws (by rw [← h, List.drop_eq_nil_of_le (not_lt.mp hge)])

/-- **One call of `fill`** with input left. -/
theorem State.filled_fill {v : TranscodeView α} (st : State σ β) (hlt : st.next < v.base.length) :
    ∃ st', (st.fill t v).2 = (st', st.next) ∧ st.Filled t v.base st' := by
  have hne : v.base.drop st.next ≠ [] := by
    rw [Ne, List.drop_eq_nil_iff]
    omega
  obtain ⟨zs, x, ws, s, hrest, hzs, hloop, hlast⟩ := fillLoop_spec t st.transcoder hne
  refine ⟨_, rfl, ?_⟩
  simp only [hloop]
  -- the loop stops at the end of the input or because something has been written
  have hdrop := drop_of_drop_eq hrest
  rcases eq_or_ne ws [] with rfl | hws
  · have hend : st.next + (zs.length + 1) = v.base.length := by
      have hlen := congrArg List.length hrest
      simp only [List.length_drop, List.length_append, List.length_cons, List.length_nil] at hlen
      omega
    rw [if_pos hend, hend]
    exact .last (hrest.trans (List.append_nil _)) hzs rfl rfl
  · rw [if_neg (lt_length_of_drop_eq hdrop hws).ne]
    exact .more hrest hws hzs rfl fun h => hws (hlast h)

/-- When the input is used up, `fill` flushes once more. -/
theorem State.fill_of_end {v : TranscodeView α} {st : State σ β}
    (hend : st.next = v.base.length) :
    (st.fill t v).2 = (⟨st.next, (t.finish st.transcoder).2, (t.finish st.transcoder).1, 0,
      (t.finish st.transcoder).2.length⟩, st.next) := by
  rw [fill, hend, List.drop_length]
  simp [fillLoop]

theorem State.fill_base (v : TranscodeView α) (st : State σ β) :
    (st.fill t v).1.base = v.base := by
  rw [fill]
  dsimp only
  split_ifs <;> rfl

/-- `fill` clears the flag of the view when that of the transcoder is cleared. -/
theorem State.fill_wellFormed (v : TranscodeView α) (st : State σ β) :
    (st.fill t v).1.wellFormed =
      (v.wellFormed && t.wellFormed (st.fill t v).2.1.transcoder) := by
  rw [fill]
  dsimp only
  split_ifs with hend hwf hwf <;> simp [hwf]

/-- The window of valid code units covers the end of what the last call of `fill` has written. -/
structure State.Valid (xs : List α) (st : State σ β) : Prop where
  next_le : st.next ≤ xs.length
  last_eq : st.last = st.out.length

/-- What is written for the input that has not been consumed. -/
def State.future (xs : List α) (st : State σ β) : List β :=
  if st.next = xs.length then [] else (t.runFrom st.transcoder (xs.drop st.next)).2

/-- What is to be yielded: the units in the window and what is written in the future. -/
def State.remaining (xs : List α) (st : State σ β) : List β :=
  st.out.drop st.first ++ st.future t xs

/-- The input that has not been consumed ends with something written, if there is any. -/
def State.Productive (xs : List α) (st : State σ β) : Prop :=
  st.next = xs.length ∨ t.Productive st.transcoder (xs.drop st.next)

namespace State.Filled

variable {t} {xs : List α} {st st' : State σ β}

theorem next_lt (h : st.Filled t xs st') : st.next < xs.length := by
  cases h with
  | last hrest _ _ _ => exact lt_length_of_drop_eq hrest (by simp)
  | more hrest _ _ _ _ => exact lt_length_of_drop_eq hrest (by simp)

/-- The window is all that has been written. -/
theorem valid (h : st.Filled t xs st') : st'.Valid xs ∧ st'.first = 0 ∧ st.next ≤ st'.next := by
  have hlt := h.next_lt
  cases h with
  | last _ _ _ _ => exact ⟨⟨le_rfl, rfl⟩, rfl, hlt.le⟩
  | more hrest hws _ _ _ =>
    have hle := lt_length_of_drop_eq (drop_of_drop_eq hrest) hws
    exact ⟨⟨hle.le, rfl⟩, rfl, Nat.le_add_right _ _⟩

/-- A part of the future is moved into the window. -/
theorem remaining_eq (h : st.Filled t xs st') : st'.remaining t xs = st.future t xs := by
  rw [future, if_neg h.next_lt.ne, remaining, future]
  cases h with
  | last hrest hzs hr he =>
    rw [if_pos rfl, List.drop_zero, List.append_nil, hrest, Transducer.runFrom_snd,
      Transducer.feed_append, hzs, Transducer.feed_singleton, hr, he]
    rfl
  | more hrest hws hzs hr _ =>
    have hdrop := drop_of_drop_eq hrest
    rw [if_neg (lt_length_of_drop_eq hdrop hws).ne, List.drop_zero, hdrop, hrest,
      Transducer.runFrom_append, Transducer.feed_append, hzs, Transducer.feed_singleton, hr]
    rfl

/-- The window is not empty, unless the input is used up and does not end with something
written. -/
theorem productive_iff (h : st.Filled t xs st') :
    st.Productive t xs ↔ st'.out ≠ [] ∧ st'.Productive t xs := by
  rw [State.Productive, or_iff_right h.next_lt.ne, State.Productive]
  cases h with
  | last hrest hzs hr he =>
    rw [and_iff_left (.inl rfl), hrest, Transducer.productive_concat_iff, hzs, hr, he,
      ← not_and_or, ← List.append_eq_nil_iff]
  | more hrest hws hzs hr hout =>
    have hdrop := drop_of_drop_eq hrest
    rw [or_iff_right (lt_length_of_drop_eq hdrop hws).ne, hdrop, hrest,
      Transducer.productive_append_iff _ hws, Transducer.feed_append, hzs,
      Transducer.feed_singleton, hr, and_iff_right hout]

end State.Filled

end Fill

/-! ### One increment -/

namespace Iterator

variable (t : Transcoder σ α β)

/-- An iterator that is not at the end and has been filled. -/
structure Valid (xs : List α) (it : Iterator σ β) : Prop where
  current_lt : it.current < xs.length
  valid : it.state.Valid xs

variable {t}

/-- What `operator*` and `operator++` do when there is something in the window. -/
theorem incr_eq {v : TranscodeView α} {it : Iterator σ β} (hv : it.Valid v.base) {u : β}
    {us : List β} (hout : it.state.out.drop it.state.first = u :: us) :
    let st : State σ β := { it.state with first := it.state.first + 1 }
    it.deref = .ok u ∧ st.out.drop st.first = us ∧
      (us = [] → it.incr t v = .ok ((st.fill t v).1, ⟨(st.fill t v).2.2, (st.fill t v).2.1⟩)) ∧
      (us ≠ [] → it.incr t v = .ok (v, ⟨it.current, st⟩)) := by
  intro st
  have hfirst : it.state.first < it.state.out.length := by
    by_contra hge
    rw [List.drop_eq_nil_iff.mpr (not_lt.mp hge)] at hout
    cases hout
  obtain ⟨hu, hus⟩ := List.cons.inj ((List.drop_eq_getElem_cons hfirst).symm.trans hout)
  have hnonempty : it.state.empty = false := by
    rw [State.empty, hv.valid.last_eq]
    exact decide_eq_false hfirst.ne
  -- the two asserts hold
  have hadvance : it.state.advance = .ok st := by
    rw [State.advance, hnonempty]
    rfl
  have hempty : st.empty = true ↔ us = [] := by
    have hlast : st.last = it.state.out.length := hv.valid.last_eq
    rw [← hus, List.drop_eq_nil_iff, State.empty, decide_eq_true_iff, hlast]
    exact ⟨fun h => h.ge, fun h => le_antisymm hfirst h⟩
  refine ⟨?_, hus, fun hnil => ?_, fun hne => ?_⟩
  · rw [deref, State.front, hnonempty]
    simp [List.getElem?_eq_getElem hfirst, hu]
  · have hst := hempty.mpr hnil
    simp only [incr, hadvance, bind, Except.bind, hst, if_true]
    rfl
  · have hst : ¬ st.empty = true := fun h => hne (hempty.mp h)
    simp only [incr, hadvance, bind, Except.bind, hst]
    rfl

/-- **One increment** of an iterator with something in the window. Either it ends the traversal,
or the iterator stays valid; in both cases one unit fewer is to be yielded. -/
theorem incr_spec {v : TranscodeView α} {it : Iterator σ β} (hv : it.Valid v.base) {u : β}
    {us : List β} (hout : it.state.out.drop it.state.first = u :: us) :
    it.deref = .ok u ∧ ∃ v' it', it.incr t v = .ok (v', it') ∧ v'.base = v.base ∧
      ((it'.atEnd v' = true ∧ it.state.remaining t v.base = [u] ∧
          it.state.Productive t v.base) ∨
        (it'.Valid v.base ∧
          it.state.remaining t v.base = u :: it'.state.remaining t v.base ∧
          (it.state.Productive t v.base ↔
            it'.state.out.drop it'.state.first ≠ [] ∧ it'.state.Productive t v.base))) := by
  obtain ⟨hderef, hdrop, hrefill, hkeep⟩ := incr_eq (t := t) hv hout
  refine ⟨hderef, ?_⟩
  rcases eq_or_ne us [] with rfl | hne
  · -- the window is used up: the buffer is filled again
    refine ⟨_, _, hrefill rfl, State.fill_base t v _, ?_⟩
    rcases hv.valid.next_le.eq_or_lt with hend | hlt
    · refine .inl ⟨decide_eq_true (by rw [State.fill_base]; exact hend), ?_, .inl hend⟩
      rw [State.remaining, hout, State.future, if_pos hend]
      rfl
    · obtain ⟨st', hfill, hfilled⟩ :=
        State.filled_fill t (v := v) { it.state with first := it.state.first + 1 } hlt
      obtain ⟨hvalid, hfirst, -⟩ := hfilled.valid
      refine .inr ?_
      rw [hfill]
      refine ⟨⟨hlt, hvalid⟩, ?_, ?_⟩
      · rw [hfilled.remaining_eq, State.remaining, hout]
        rfl
      · dsimp only
        rw [hfirst, List.drop_zero]
        exact hfilled.productive_iff
  · have hvalid := hv.valid
    refine ⟨_, _, hkeep hne, rfl, .inr ⟨⟨hv.current_lt, hvalid.next_le, hvalid.last_eq⟩, ?_, ?_⟩⟩
    · rw [State.remaining, hout, State.remaining, hdrop]
      rfl
    · dsimp only at hdrop ⊢
      rw [hdrop, and_iff_right hne]
      rfl

end Iterator

end TranscodeView

end Icubaby
