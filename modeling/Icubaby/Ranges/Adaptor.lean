import Icubaby.ForMathlib.Checked
import Icubaby.ForMathlib.CursorRange
import Icubaby.Ranges.Traversal

/-!
# The range adaptor over any range

`transcode_view` is a template over its base view. Here the base view is any `CursorRange`, so that
one view can be the base of another: the iterator keeps cursors of the base where the view of a list
keeps positions, and the loop of `fill` dereferences and increments them. The flag of a view is
part of the world that its iterators share.

The array that `fill` writes into has `room` for a number of units, and writing more is a fault. A
view can be read to its end exactly when each call of `fill` writes something and no more than
that: `Fillable` says so of the transcoder and of what the base delivers, `delivers` that it is
enough and `exists_delivers_base` that it is needed.

The loop of `fill` ends with the base range. Its number of turns is bounded by `fuel`, and any bound
will do that is at least the length of what the base range delivers.
-/

namespace Icubaby

open CheckedTransducer (require require_eq_ok)

/-- What goes wrong when ranges are read. -/
inductive RangeFault
  /-- A list was read at its end. -/
  | pastEnd
  /-- `front` or `advance` was called on an empty buffer. -/
  | emptyBuffer
  /-- "out_ buffer overflow!" -/
  | overflow
  /-- The number of turns allowed for a loop has been used up. -/
  | outOfFuel
  deriving DecidableEq, Repr

namespace Adaptor

variable {ω γ σ α β : Type}

/-- The members of `transcode_view::iterator::state`. -/
structure State (γ σ β : Type) where
  /-- A cursor at the next input code unit to be consumed. -/
  next : γ
  /-- What the last call of `fill` has written into the array. -/
  out : List β := []
  /-- The transcoder. -/
  transcoder : σ
  /-- The index of the start of the valid range of code units. -/
  first : ℕ := 0
  /-- The index one beyond the end of the valid range of code units. -/
  last : ℕ := 0

namespace State

/-- `empty ()` -/
def empty (st : State γ σ β) : Bool := st.first = st.last

/-- `front ()` -/
def front (st : State γ σ β) : Except RangeFault β :=
  if st.empty then .error .emptyBuffer
  else
    match st.out[st.first]? with
    | some u => .ok u
    | none => .error .emptyBuffer

/-- `advance ()` -/
def advance (st : State γ σ β) : Except RangeFault (State γ σ β) :=
  if st.empty then .error .emptyBuffer else .ok { st with first := st.first + 1 }

/-- The loop of `fill`: consumes input until something has been written or the input is used up.
Returns the world, the transcoder, what has been written and the cursor. Each call of the transcoder
is followed by the assertion that the array is large enough. -/
def fillLoop (t : Transcoder σ α β) (room : ℕ) (R : CursorRange ω γ RangeFault α) :
    ℕ → ω → σ → γ → Except RangeFault (ω × σ × List β × γ)
  | 0, w, s, next => if R.atEnd next then .ok (w, s, [], next) else .error .outOfFuel
  | fuel + 1, w, s, next =>
    if R.atEnd next then .ok (w, s, [], next)
    else do
      let x ← R.deref next
      let r := t.step s x
      require (r.2.length ≤ room) .overflow
      let p ← R.incr w next
      if r.2 = [] then fillLoop t room R fuel p.1 r.1 p.2 else return (p.1, r.1, r.2, p.2)

/-- `fill`, with the world and the flag of the view that it may clear. The last component is the
cursor returned. -/
def fill (t : Transcoder σ α β) (room fuel : ℕ) (R : CursorRange ω γ RangeFault α) (w : ω × Bool)
    (st : State γ σ β) : Except RangeFault ((ω × Bool) × State γ σ β × γ) := do
  let result := st.next
  let r ← fillLoop t room R fuel w.1 st.transcoder st.next
  let next := r.2.2.2
  let r' :=
    if R.atEnd next then
      -- the entire input has been consumed: tell the transcoder and get any final output
      let e := t.finish r.2.1
      (e.1, r.2.2.1 ++ e.2)
    else (r.2.1, r.2.2.1)
  require (r'.2.length ≤ room) .overflow
  let wellFormed := if t.wellFormed r'.1 then w.2 else false
  return ((r.1, wellFormed), ⟨next, r'.2, r'.1, 0, r'.2.length⟩, result)

end State

/-- The members of `transcode_view::iterator`, apart from the pointer to its view. -/
structure Iterator (γ σ β : Type) where
  /-- The cursor that comparisons look at. -/
  current : γ
  /-- The state. -/
  state : State γ σ β

namespace Iterator

/-- The constructor. -/
def make (t : Transcoder σ α β) (room fuel : ℕ) (R : CursorRange ω γ RangeFault α) (w : ω × Bool)
    (current : γ) : Except RangeFault ((ω × Bool) × Iterator γ σ β) :=
  let st : State γ σ β := { next := current, transcoder := t.init }
  if R.atEnd current then .ok (w, ⟨current, st⟩)
  else do
    let r ← st.fill t room fuel R w
    return (r.1, ⟨r.2.2, r.2.1⟩)

/-- `operator++` -/
def incr (t : Transcoder σ α β) (room fuel : ℕ) (R : CursorRange ω γ RangeFault α) (w : ω × Bool)
    (it : Iterator γ σ β) : Except RangeFault ((ω × Bool) × Iterator γ σ β) := do
  let st ← it.state.advance
  if st.empty then
    let r ← st.fill t room fuel R w
    return (r.1, ⟨r.2.2, r.2.1⟩)
  else return (w, { it with state := st })

end Iterator

end Adaptor

open Adaptor

/-- `transcode_view` over the base view `R`, with an array of `room` units. Comparison with the end
looks at the cursor of the base only; the end of a base that is a view itself is made without
filling its buffer. -/
def adaptor {ω γ σ α β : Type} (t : Transcoder σ α β) (room fuel : ℕ)
    (R : CursorRange ω γ RangeFault α) :
    CursorRange (ω × Bool) (Iterator γ σ β) RangeFault β where
  begin w := do
    let r ← R.begin w.1
    Iterator.make t room fuel R (r.1, w.2) r.2
  atEnd it := R.atEnd it.current
  deref it := it.state.front
  incr := Iterator.incr t room fuel R

namespace Adaptor

variable {ω γ σ α β : Type} {t : Transcoder σ α β} {room : ℕ} {R : CursorRange ω γ RangeFault α}
  {w w' : ω}

/-! ### One call of `fill` -/

/-- **The loop of `fill`** over a base that yields units which write nothing and one more, which
may write nothing only if it is the last. -/
theorem fillLoop_of_yields {c : γ} {zs ws : List α} {x : α} {s s' : σ}
    (hR : R.Yields w c (zs ++ x :: ws) w') {fuel : ℕ} (hfuel : (zs ++ x :: ws).length ≤ fuel)
    (hzs : t.feed s zs = (s', [])) (hx : ws ≠ [] → (t.step s' x).2 ≠ [])
    (hroom : (t.step s' x).2.length ≤ room) :
    ∃ w₁ c', State.fillLoop t room R fuel w s c = .ok (w₁, (t.step s' x).1, (t.step s' x).2, c') ∧
      R.Yields w₁ c' ws w' := by
  induction zs generalizing w c s fuel with
  | nil =>
    obtain rfl := (Prod.mk.inj hzs).1
    cases hR with
    | @item _ w₁ _ _ c' _ _ hend hderef hincr hrest =>
      obtain ⟨fuel, rfl⟩ : ∃ n, fuel = n + 1 := ⟨fuel - 1, by simp at hfuel; omega⟩
      refine ⟨w₁, c', ?_, hrest⟩
      rw [State.fillLoop, if_neg (by simp [hend]), hderef, hincr]
      simp only [bind, Except.bind, require, hroom, if_true]
      split_ifs with hout
      · -- nothing has been written, so this was the last unit
        obtain rfl : ws = [] := by
          by_contra hws
          exact hx hws hout
        have hend' : R.atEnd c' = true := hrest.atEnd
        cases fuel <;> rw [State.fillLoop, if_pos hend', hout]
      · rfl
  | cons z zs ih =>
    rw [Transducer.feed_cons] at hzs
    obtain ⟨hstate, hout⟩ := Prod.mk.inj hzs
    obtain ⟨hz, hout⟩ := List.append_eq_nil_iff.mp hout
    cases hR with
    | @item _ w₁ _ _ c' _ _ hend hderef hincr hrest =>
      obtain ⟨fuel, rfl⟩ : ∃ n, fuel = n + 1 := ⟨fuel - 1, by simp at hfuel; omega⟩
      obtain ⟨w₂, c'', hloop, hyields⟩ :=
        ih hrest (Nat.le_of_succ_le_succ hfuel) (Prod.ext hstate hout)
      refine ⟨w₂, c'', ?_, hyields⟩
      rw [State.fillLoop, if_neg (by simp [hend]), hderef, hincr]
      simp only [bind, Except.bind, require, hz, List.length_nil, Nat.zero_le, if_true]
      exact hloop

/-- The flag is a latch in the states that satisfy the invariant `I`: once cleared it stays cleared,
and flushing twice is no worse than flushing once. -/
structure LatchesOn (t : Transcoder σ α β) (I : σ → Prop) : Prop where
  init : I t.init
  step {s} (x) : I s → I (t.step s x).1
  finish {s} : I s → I (t.finish s).1
  /-- The flush of a fresh transcoder does not clear the flag. -/
  finish_init : t.wellFormed (t.finish t.init).1 = true
  /-- A call does not set the flag. -/
  of_step {s x} : I s → t.wellFormed (t.step s x).1 = true → t.wellFormed s = true
  /-- A flush does not set the flag. -/
  of_finish {s} : I s → t.wellFormed (t.finish s).1 = true → t.wellFormed s = true
  /-- A second flush leaves the flag alone. -/
  finish_finish {s} : I s → t.wellFormed (t.finish (t.finish s).1).1 = t.wellFormed (t.finish s).1

namespace LatchesOn

variable {I : σ → Prop}

theorem of_latches (h : TranscodeView.Latches t) : LatchesOn t fun _ => True where
  init := trivial
  step _ _ := trivial
  finish _ := trivial
  finish_init := h.finish_init
  of_step _ := h.of_step
  of_finish _ := h.of_finish
  finish_finish {s} _ := h.finish_finish s

/-- A run keeps the invariant and does not set the flag. -/
theorem feed (h : LatchesOn t I) {s : σ} (hs : I s) (xs : List α) :
    I (t.feed s xs).1 ∧ (t.wellFormed (t.feed s xs).1 = true → t.wellFormed s = true) := by
  induction xs generalizing s with
  | nil => exact ⟨hs, fun hwf => hwf⟩
  | cons x xs ih =>
    obtain ⟨hI, hwf⟩ := ih (h.step x hs)
    exact ⟨hI, fun hwf' => h.of_step hs (hwf hwf')⟩

end LatchesOn

/-- What a view needs of a transcoder, apart from room for what is written while there is input: its
flag is a latch, and a flush writes nothing at the start and not too much after another one. -/
structure Serves (t : Transcoder σ α β) (room : ℕ) (I : σ → Prop) : Prop extends LatchesOn t I where
  /-- The flush of a fresh transcoder writes nothing. -/
  finish_init_snd : (t.finish t.init).2 = []
  /-- There is room for what a second flush writes. -/
  length_finish_finish_le {s} : I s → (t.finish (t.finish s).1).2.length ≤ room

theorem Serves.of_fits {m : ℕ} (h : TranscodeView.Fits t m) (hinit : (t.finish t.init).2 = []) :
    Serves t m fun _ => True where
  toLatchesOn := .of_latches h.toLatches
  finish_init_snd := hinit
  length_finish_finish_le _ := h.length_finish_le _

/-- Every pull writes something, and no more than there is room for. -/
def Fillable (t : Transcoder σ α β) (room : ℕ) (s : σ) (xs : List α) : Prop :=
  ∀ g ∈ t.pulls s xs, g.2 ≠ [] ∧ g.2.length ≤ room

theorem fillable_iff {s : σ} {xs : List α} : Fillable t room s xs ↔
    t.Productive s xs ∧ ∀ g ∈ t.pulls s xs, g.2.length ≤ room := by
  rw [Transducer.productive_iff]
  exact ⟨fun h => ⟨fun g hg => (h g hg).1, fun g hg => (h g hg).2⟩,
    fun h g hg => ⟨h.1 g hg, h.2 g hg⟩⟩

/-- There is room for each pull if there is room for any call and the flush after it. -/
theorem fillable_of_fits {m : ℕ} (h : TranscodeView.Fits t m) {s : σ} {xs : List α}
    (hprod : t.Productive s xs) : Fillable t m s xs := by
  refine fillable_iff.mpr ⟨hprod, ?_⟩
  rw [Transducer.forall_mem_pulls_iff_of_nil (P := fun us => us.length ≤ m) (Nat.zero_le m)]
  rintro ys x zs -
  have hstep := h.length_step_le (t.feed s ys).1 x
  cases zs with
  | nil => exact List.length_append.trans_le hstep
  | cons z zs => exact (Nat.le_add_right _ _).trans hstep

/-- The flag in the end, when `xs` is still to be consumed. -/
def finalFlag (t : Transcoder σ α β) (s : σ) (xs : List α) : Bool :=
  if xs.isEmpty then t.wellFormed s else t.wellFormed (t.runFrom s xs).1

/-- The flag is a latch, so the final one is not better than the present one. -/
theorem and_finalFlag {I : σ → Prop} (h : LatchesOn t I) {s : σ} (hs : I s) (xs : List α) :
    (t.wellFormed s && finalFlag t s xs) = finalFlag t s xs := by
  cases hflag : finalFlag t s xs with
  | false => exact Bool.and_false _
  | true =>
    rw [Bool.and_true]
    rw [finalFlag] at hflag
    split_ifs at hflag
    · exact hflag
    · obtain ⟨hI, hwf⟩ := h.feed hs xs
      exact hwf (h.of_finish hI hflag)

/-- What a call of `fill` leaves behind: the pull `g` in the buffer, and the rest of the base to be
consumed by later pulls. -/
structure Filled (t : Transcoder σ α β) (I : σ → Prop) (R : CursorRange ω γ RangeFault α)
    (g : List α × List β) (post : List (List α × List β)) (flag : Bool) (fuel : ℕ) (w w' : ω)
    (st : State γ σ β) : Prop where
  invariant : I st.transcoder
  out_eq : st.out = g.2
  first_eq : st.first = 0
  last_eq : st.last = g.2.length
  /-- The cursor yields what is left. -/
  yields : ∃ ws, R.Yields w st.next ws w' ∧ ws.length ≤ fuel ∧ t.pulls st.transcoder ws = post ∧
    finalFlag t st.transcoder ws = flag ∧
    (ws = [] → ∃ s, I s ∧ st.transcoder = (t.finish s).1)

/-- **One call of `fill`** makes one pull. -/
theorem State.fill_pull {I : σ → Prop} (h : LatchesOn t I) {st : State γ σ β}
    (hst : I st.transcoder) {xs : List α} {g : List α × List β}
    {post : List (List α × List β)} (hR : R.Yields w st.next xs w') {fuel : ℕ}
    (hfuel : xs.length ≤ fuel) (hpulls : t.pulls st.transcoder xs = g :: post)
    (hroom : g.2.length ≤ room) (b : Bool) :
    ∃ w₁ st', st.fill t room fuel R (w, b) =
        .ok ((w₁, b && t.wellFormed st'.transcoder), st', st.next) ∧
      Filled t I R g post (finalFlag t st.transcoder xs) fuel w₁ w' st' := by
  have hne : xs ≠ [] := fun hnil => by
    rw [Transducer.pulls_eq_nil_iff.mpr hnil] at hpulls
    cases hpulls
  have hflag : finalFlag t st.transcoder xs = t.wellFormed (t.runFrom st.transcoder xs).1 :=
    if_neg (by simpa using hne)
  obtain ⟨zs, x, ws, s', rfl, hzs, hx⟩ := t.exists_first_pull st.transcoder hne
  rw [Transducer.pulls_append_cons hzs hx] at hpulls
  obtain ⟨rfl, rfl⟩ := List.cons.inj hpulls
  have hstep : (t.step s' x).2.length ≤ room := by
    refine le_trans ?_ hroom
    cases ws with
    | nil => exact List.length_append ▸ Nat.le_add_right _ _
    | cons y ys => exact le_rfl
  obtain ⟨w₁, c', hloop, hyields⟩ := fillLoop_of_yields hR hfuel hzs hx hstep
  have hs' : I (t.step s' x).1 := by
    have hI := (h.feed hst zs).1
    rw [hzs] at hI
    exact h.step x hI
  have hlen : ws.length ≤ fuel := by
    simp only [List.length_append, List.length_cons] at hfuel
    omega
  have hsplit : zs ++ x :: ws = (zs ++ [x]) ++ ws := by simp
  rw [hsplit, Transducer.runFrom_append, Transducer.feed_append, Transducer.feed_singleton,
    hzs] at hflag
  rw [hsplit, hflag]
  have hflagEq : ∀ p : Bool, (if p = true then b else false) = (b && p) := by
    intro p
    cases p <;> simp
  cases ws with
  | nil =>
    -- the input is used up, and the transcoder is flushed
    have hend : R.atEnd c' = true := hyields.atEnd
    refine ⟨w₁, ⟨c', t.wrote s' x [], (t.finish (t.step s' x).1).1, 0, _⟩, ?_, h.finish hs', rfl,
      rfl, rfl, [], hyields, hlen, rfl, ?_, fun _ => ⟨_, hs', rfl⟩⟩
    · rw [State.fill, hloop]
      have hwrote : ((t.step s' x).2 ++ (t.finish (t.step s' x).1).2).length ≤ room := hroom
      simp only [bind, Except.bind, require, hend, hwrote, if_true, hflagEq]
      rfl
    · rfl
  | cons y ys =>
    have hend : R.atEnd c' = false := hyields.atEnd
    refine ⟨w₁, ⟨c', t.wrote s' x (y :: ys), (t.step s' x).1, 0, _⟩, ?_, hs', rfl, rfl, rfl,
      y :: ys, hyields, hlen, rfl, rfl, fun hnil => absurd hnil (by simp)⟩
    rw [State.fill, hloop]
    simp only [bind, Except.bind, require, hend, hstep, Bool.false_eq_true, if_false, if_true,
      hflagEq]
    rfl

/-! ### Reading from an iterator -/

/-- Reading the window of an iterator, if what follows the next call of `fill` is known. -/
theorem yields_window {fuel : ℕ} {c : γ} (hend : R.atEnd c = false) {v v' v'' : ω × Bool}
    {st st' : State γ σ β} {us vs : List β} (hus : us ≠ []) (hout : st.out.drop st.first = us)
    (hlast : st.last = st.out.length) (hfill : st.fill t room fuel R v = .ok (v', st', st.next))
    (hrest : (adaptor t room fuel R).Yields v' ⟨st.next, st'⟩ vs v'') :
    (adaptor t room fuel R).Yields v ⟨c, st⟩ (us ++ vs) v'' := by
  induction us generalizing st with
  | nil => exact absurd rfl hus
  | cons u us ih =>
    have hfirst : st.first < st.out.length := by
      by_contra hge
      rw [List.drop_eq_nil_iff.mpr (not_lt.mp hge)] at hout
      cases hout
    obtain ⟨hu, hdrop⟩ := List.cons.inj ((List.drop_eq_getElem_cons hfirst).symm.trans hout)
    have hnonempty : st.empty = false := by
      rw [State.empty, hlast]
      exact decide_eq_false hfirst.ne
    -- neither assertion fails
    have hfront : st.front = .ok u := by
      rw [State.front, hnonempty]
      simp [List.getElem?_eq_getElem hfirst, hu]
    have hadvance : st.advance = .ok { st with first := st.first + 1 } := by
      rw [State.advance, hnonempty]
      rfl
    rcases eq_or_ne us [] with rfl | hne
    · -- the window is used up: the buffer is filled again
      have hempty : ({ st with first := st.first + 1 } : State γ σ β).empty = true := by
        have hge := List.drop_eq_nil_iff.mp hdrop
        exact decide_eq_true (by dsimp only; omega)
      refine .item hend hfront ?_ hrest
      have hfill' : ({ st with first := st.first + 1 } : State γ σ β).fill t room fuel R v =
          .ok (v', st', st.next) := hfill
      simp only [adaptor, Iterator.incr, hadvance, bind, Except.bind, hempty, hfill', if_true]
      rfl
    · have hempty : ({ st with first := st.first + 1 } : State γ σ β).empty = false := by
        refine decide_eq_false fun heq => hne ?_
        rw [← hdrop, List.drop_eq_nil_iff]
        exact (hlast.symm.trans heq.symm).le
      have hnext := @ih { st with first := st.first + 1 } hne hdrop hlast hfill hrest
      refine .item hend hfront ?_ hnext
      simp only [adaptor, Iterator.incr, hadvance, bind, Except.bind, hempty]
      rfl

/-- **Reading after a call of `fill`**: everything that later pulls write is seen, and the flag of
the view ends as that of the transcoder. -/
theorem yields_fill {I : σ → Prop} (h : Serves t room I) {fuel : ℕ} {st : State γ σ β}
    (hst : I st.transcoder) {xs : List α} (hR : R.Yields w st.next xs w')
    (hfuel : xs.length ≤ fuel) (hfillable : Fillable t room st.transcoder xs)
    (hflushed : xs = [] → ∃ s, I s ∧ st.transcoder = (t.finish s).1) (b : Bool) :
    ∃ v st', st.fill t room fuel R (w, b) = .ok (v, st', st.next) ∧
      (adaptor t room fuel R).Yields v ⟨st.next, st'⟩ ((t.pulls st.transcoder xs).flatMap Prod.snd)
        (w', b && finalFlag t st.transcoder xs) := by
  induction hgs : t.pulls st.transcoder xs generalizing w st xs b with
  | nil =>
    -- the base is at its end, and so is the iterator; the transcoder is flushed once more
    obtain rfl := Transducer.pulls_eq_nil_iff.mp hgs
    obtain ⟨s, hs, hfinish⟩ := hflushed rfl
    cases hR with
    | done hend =>
      refine ⟨(w', b && t.wellFormed st.transcoder), ⟨st.next, (t.finish st.transcoder).2,
        (t.finish st.transcoder).1, 0, (t.finish st.transcoder).2.length⟩, ?_, .done hend⟩
      have hloop : State.fillLoop t room R fuel w' st.transcoder st.next =
          .ok (w', st.transcoder, [], st.next) := by
        cases fuel <;> rw [State.fillLoop, if_pos hend]
      have hroom : (t.finish st.transcoder).2.length ≤ room := by
        rw [hfinish]
        exact h.length_finish_finish_le hs
      have hwf : t.wellFormed (t.finish st.transcoder).1 = t.wellFormed st.transcoder := by
        rw [hfinish, h.finish_finish hs]
      rw [State.fill, hloop]
      simp only [bind, Except.bind, require, hend, if_true, List.nil_append, hroom, hwf]
      cases t.wellFormed st.transcoder <;> simp <;> rfl
  | cons g post ih =>
    obtain ⟨hne, hroom⟩ := hfillable g (by rw [hgs]; exact List.mem_cons_self)
    obtain ⟨w₁, st', hfill, hI, hout, hfirst, hlast, ws, hyields, hlen, hpost, hflag, hdone⟩ :=
      st.fill_pull h.toLatchesOn hst hR hfuel hgs hroom b
    have hend : R.atEnd st.next = false := by
      rw [hR.atEnd, List.isEmpty_eq_false_iff]
      rintro rfl
      cases hgs
    have hrest' : Fillable t room st'.transcoder ws := by
      intro g' hg'
      rw [hpost] at hg'
      exact hfillable g' (by rw [hgs]; exact List.mem_cons_of_mem _ hg')
    obtain ⟨v, st'', hfill', hrest⟩ := ih hI hyields hlen hrest' hdone
      (b && t.wellFormed st'.transcoder) hpost
    refine ⟨_, st', hfill, ?_⟩
    rw [List.flatMap_cons]
    refine yields_window hend hne (by rw [hout, hfirst, List.drop_zero]) (by rw [hlast, hout])
      hfill' ?_
    rwa [Bool.and_assoc, and_finalFlag h.toLatchesOn hI, hflag] at hrest

/-- **The adaptor transcodes whatever the base delivers**, if each call of `fill` writes something
that there is room for: the view delivers what a fresh transcoder writes for it with the flush, its
flag is that of the transcoder, and the base has been read to its end. -/
theorem delivers {I : σ → Prop} (h : Serves t room I) {xs : List α} (hR : R.Delivers w xs w')
    (hfillable : Fillable t room t.init xs) {fuel : ℕ} (hfuel : xs.length ≤ fuel) (b : Bool) :
    (adaptor t room fuel R).Delivers (w, b) (t.run xs).2
      (w', b && t.wellFormed (t.run xs).1) := by
  obtain ⟨w₁, c, hbegin, hyields⟩ := hR
  have hmake : (adaptor t room fuel R).begin (w, b) = Iterator.make t room fuel R (w₁, b) c := by
    simp only [adaptor, hbegin, bind, Except.bind]
  rcases eq_or_ne xs [] with rfl | hne
  · -- an empty base is not read at all
    have hout : (t.run []).2 = [] := h.finish_init_snd
    have hwf : t.wellFormed (t.run []).1 = true := h.finish_init
    cases hyields with
    | done hend =>
      refine ⟨_, _, hmake.trans (if_pos hend), ?_⟩
      rw [hout, hwf, Bool.and_true]
      exact .done hend
  · have hend : R.atEnd c = false := by rwa [hyields.atEnd, List.isEmpty_eq_false_iff]
    have hinit : I (⟨c, [], t.init, 0, 0⟩ : State γ σ β).transcoder := h.init
    obtain ⟨v, st', hfill, hrest⟩ := yields_fill h hinit hyields hfuel hfillable
      (fun hnil => absurd hnil hne) b
    have hflag : finalFlag t t.init xs = t.wellFormed (t.run xs).1 := if_neg (by simpa using hne)
    rw [Transducer.flatMap_snd_pulls _ hne, hflag] at hrest
    refine ⟨v, ⟨c, st'⟩, ?_, hrest⟩
    rw [hmake, Iterator.make, if_neg (by simp [hend]), hfill]
    rfl

/-! ### What a view that can be read to its end says about its base -/

/-- The loop of `fill` has consumed units that write nothing and one more, unless the base is at
its end. -/
theorem exists_of_fillLoop {fuel : ℕ} {w₁ : ω} {c c' : γ} {s s' : σ} {out : List β} {ws : List α}
    (hloop : State.fillLoop t room R fuel w s c = .ok (w₁, s', out, c'))
    (hyields : R.Yields w₁ c' ws w') :
    R.atEnd c = true ∧ c' = c ∧ R.Yields w c ws w' ∧ s' = s ∧ out = [] ∨
      ∃ zs x s₁, R.Yields w c (zs ++ x :: ws) w' ∧ t.feed s zs = (s₁, []) ∧
        t.step s₁ x = (s', out) := by
  induction fuel generalizing w s c with
  | zero =>
    rw [State.fillLoop] at hloop
    split_ifs at hloop with hend
    cases hloop
    exact .inl ⟨hend, rfl, hyields, rfl, rfl⟩
  | succ fuel ih =>
    rw [State.fillLoop] at hloop
    split_ifs at hloop with hend
    · cases hloop
      exact .inl ⟨hend, rfl, hyields, rfl, rfl⟩
    · rw [Bool.not_eq_true] at hend
      obtain ⟨x, hderef, hloop⟩ := TranscodeView.bind_eq_ok.mp hloop
      obtain ⟨-, -, hloop⟩ := TranscodeView.bind_eq_ok.mp hloop
      obtain ⟨p, hincr, hloop⟩ := TranscodeView.bind_eq_ok.mp hloop
      split_ifs at hloop with hout
      · refine .inr ?_
        rcases ih hloop with ⟨-, rfl, hrest, rfl, rfl⟩ | ⟨zs, y, s₁, hrest, hzs, hy⟩
        · exact ⟨[], x, s, .item hend hderef hincr hrest, rfl, Prod.ext rfl hout⟩
        · refine ⟨x :: zs, y, s₁, .item hend hderef hincr hrest, ?_, hy⟩
          rw [Transducer.feed_cons, hzs, hout, List.nil_append]
      · cases hloop
        exact .inr ⟨[], x, s, .item hend hderef hincr hyields, rfl, rfl⟩

/-- An iterator whose cursor is at the end has nothing left to consume. -/
def Iterator.Settled (R : CursorRange ω γ RangeFault α) (it : Iterator γ σ β) : Prop :=
  R.atEnd it.current = true → R.atEnd it.state.next = true

/-- What is known about the base of an iterator that can be read to its end. -/
def Iterator.Readable (t : Transcoder σ α β) (room : ℕ) (R : CursorRange ω γ RangeFault α)
    (w w' : ω) (it : Iterator γ σ β) : Prop :=
  ∃ xs, R.Yields w it.state.next xs w' ∧ (R.atEnd it.current = false →
    it.state.out.drop it.state.first ≠ [] ∧ Fillable t room it.state.transcoder xs)

/-- **One call of `fill`**, seen from what comes after it. -/
theorem readable_of_fill {fuel : ℕ} {b : Bool} {v : ω × Bool} {st st' : State γ σ β} {c : γ}
    (hfill : st.fill t room fuel R (w, b) = .ok (v, st', c)) :
    c = st.next ∧ (⟨c, st'⟩ : Iterator γ σ β).Settled R ∧
      ∀ w', (⟨c, st'⟩ : Iterator γ σ β).Readable t room R v.1 w' →
        ∃ xs, R.Yields w st.next xs w' ∧ Fillable t room st.transcoder xs := by
  obtain ⟨⟨w₁, s', out, c'⟩, hloop, hfill⟩ := TranscodeView.bind_eq_ok.mp hfill
  obtain ⟨_, hrequire, hfill⟩ := TranscodeView.bind_eq_ok.mp hfill
  have hroom := require_eq_ok.mp hrequire
  obtain ⟨rfl, hst⟩ := Prod.mk.inj (Except.ok.inj hfill)
  obtain ⟨rfl, rfl⟩ := Prod.mk.inj hst
  refine ⟨rfl, fun hend => ?_, ?_⟩
  · -- the loop does not move a cursor that is at the end
    have hstop : State.fillLoop t room R fuel w st.transcoder st.next =
        .ok (w, st.transcoder, [], st.next) := by
      cases fuel <;> rw [State.fillLoop, if_pos hend]
    rw [hloop] at hstop
    cases hstop
    exact hend
  · rintro w' ⟨ws, hyields, hwindow⟩
    rcases exists_of_fillLoop hloop hyields with ⟨hend, rfl, hrest, -, -⟩ |
      ⟨zs, x, s₁, hrest, hzs, hx⟩
    · obtain rfl : ws = [] := by
        have hempty := hrest.atEnd
        rw [hend] at hempty
        exact List.isEmpty_iff.mp hempty.symm
      exact ⟨[], hrest, fun g hg => absurd hg List.not_mem_nil⟩
    · refine ⟨_, hrest, ?_⟩
      have hnext : R.atEnd st.next = false := by rw [hrest.atEnd]; simp
      obtain ⟨hne, hrestFillable⟩ := hwindow hnext
      cases ws with
      | nil =>
        -- the window holds what the last unit and the flush have written
        have hend : R.atEnd c' = true := hyields.atEnd
        rw [if_pos hend] at hroom
        simp only [hend, if_true, List.drop_zero] at hne
        intro g hg
        rw [Transducer.pulls_append_cons hzs (fun hnil => absurd rfl hnil)] at hg
        obtain rfl := List.mem_singleton.mp hg
        rw [Transducer.wrote, hx]
        exact ⟨hne, hroom⟩
      | cons y ys =>
        have hend : R.atEnd c' = false := hyields.atEnd
        rw [if_neg (by simp [hend])] at hroom
        simp only [hend, Bool.false_eq_true, if_false, List.drop_zero] at hne hrestFillable
        intro g hg
        rw [Transducer.pulls_append_cons hzs (fun _ => by rw [hx]; exact hne), hx] at hg
        rcases List.mem_cons.mp hg with rfl | hg
        · rw [Transducer.wrote, hx]
          exact ⟨hne, hroom⟩
        · exact hrestFillable g hg

/-- **Every iterator that can be read to its end** is readable. -/
theorem readable_of_yields {fuel : ℕ} {v v' : ω × Bool} {it : Iterator γ σ β} {us : List β}
    (h : (adaptor t room fuel R).Yields v it us v') (hit : it.Settled R) :
    it.Readable t room R v.1 v'.1 := by
  induction h with
  | done hend =>
    exact ⟨[], .done (hit hend), fun hend' => absurd (hend.symm.trans hend') (by simp)⟩
  | @item v v₁ v' it it' u us hend hderef hincr _ ih =>
    have hwindow : it.state.out.drop it.state.first ≠ [] := by
      intro hnil
      have hle := List.drop_eq_nil_iff.mp hnil
      simp only [adaptor, State.front, List.getElem?_eq_none hle, ite_self] at hderef
      cases hderef
    simp only [adaptor, Iterator.incr] at hincr
    cases hadvance : it.state.advance with
    | error e => simp [hadvance, bind, Except.bind] at hincr
    | ok st =>
      have hst : st = { it.state with first := it.state.first + 1 } := by
        rw [State.advance] at hadvance
        split_ifs at hadvance
        exact (Except.ok.inj hadvance).symm
      simp only [hadvance, bind, Except.bind] at hincr
      split_ifs at hincr with hempty
      · cases hfill : st.fill t room fuel R v with
        | error e => simp [hfill] at hincr
        | ok r =>
          obtain ⟨v₂, st', c⟩ := r
          rw [hfill] at hincr
          cases hincr
          obtain ⟨rfl, hsettled, hback⟩ := readable_of_fill hfill
          obtain ⟨xs, hyields, hfillable⟩ := hback _ (ih hsettled)
          rw [hst] at hyields hfillable
          exact ⟨xs, hyields, fun _ => ⟨hwindow, hfillable⟩⟩
      · cases hincr
        obtain ⟨xs, hyields, hrest⟩ := ih fun hend' => absurd (hend.symm.trans hend') (by simp)
        rw [hst] at hyields hrest
        exact ⟨xs, hyields, fun hend' => ⟨hwindow, (hrest hend').2⟩⟩

/-- **The base of a view that can be read to its end** can be read to its end too, and each call of
`fill` has written something, for which there was room. -/
theorem exists_delivers_base {fuel : ℕ} {b : Bool} {v : ω × Bool} {us : List β}
    (h : (adaptor t room fuel R).Delivers (w, b) us v) :
    ∃ xs, R.Delivers w xs v.1 ∧ Fillable t room t.init xs := by
  obtain ⟨v₁, it, hbegin, hyields⟩ := h
  simp only [adaptor] at hbegin
  cases hbase : R.begin w with
  | error e => simp [hbase, bind, Except.bind] at hbegin
  | ok r =>
    obtain ⟨w₁, c⟩ := r
    simp only [hbase, bind, Except.bind, Iterator.make] at hbegin
    split_ifs at hbegin with hend
    · -- an empty base
      cases hbegin
      obtain ⟨xs, hxs, -⟩ := readable_of_yields hyields fun _ => hend
      have hempty := hxs.atEnd
      rw [hend] at hempty
      obtain rfl := List.isEmpty_iff.mp hempty.symm
      exact ⟨[], ⟨_, _, hbase, hxs⟩, fun g hg => absurd hg List.not_mem_nil⟩
    · cases hfill : (⟨c, [], t.init, 0, 0⟩ : State γ σ β).fill t room fuel R (w₁, b) with
      | error e => simp [hfill] at hbegin
      | ok r =>
        obtain ⟨v₂, st', c'⟩ := r
        rw [hfill] at hbegin
        cases hbegin
        obtain ⟨rfl, hsettled, hback⟩ := readable_of_fill hfill
        obtain ⟨xs, hxs, hfillable⟩ := hback _ (readable_of_yields hyields hsettled)
        exact ⟨xs, ⟨_, _, hbase, hxs⟩, hfillable⟩

/-! ### The view of a list -/

section List

variable {xs : List α}

/-- The state of a view of a list, whose cursors are positions. -/
def State.ofList (st : TranscodeView.State σ β) : State ℕ σ β :=
  ⟨st.next, st.out, st.transcoder, st.first, st.last⟩

/-- The iterator of a view of a list. -/
def Iterator.ofList (it : TranscodeView.Iterator σ β) : Iterator ℕ σ β :=
  ⟨it.current, .ofList it.state⟩

/-- The faults of a view of a list. -/
def faultOfList : TranscodeView.Fault → RangeFault
  | .emptyBuffer => .emptyBuffer
  | .outOfFuel => .outOfFuel

theorem fillLoop_ofList {fuel n : ℕ} (s : σ) (hn : n ≤ xs.length) (hfuel : xs.length ≤ n + fuel)
    (hroom : (TranscodeView.State.fillLoop t s (xs.drop n)).2.1.length ≤ room) :
    State.fillLoop t room (CursorRange.ofList .pastEnd xs) fuel () s n =
      let r := TranscodeView.State.fillLoop t s (xs.drop n)
      .ok ((), r.1, r.2.1, n + r.2.2) := by
  induction fuel generalizing n s with
  | zero =>
    have hend : n = xs.length := by omega
    rw [hend, List.drop_length, State.fillLoop, if_pos (by simp)]
    rfl
  | succ fuel ih =>
    rcases hn.eq_or_lt with rfl | hlt
    · rw [List.drop_length, State.fillLoop, if_pos (by simp)]
      rfl
    · rw [List.drop_eq_getElem_cons hlt, TranscodeView.State.fillLoop] at hroom
      rw [List.drop_eq_getElem_cons hlt, State.fillLoop, if_neg (by simp [hlt.ne]),
        CursorRange.deref_ofList hlt, CursorRange.incr_ofList hlt,
        TranscodeView.State.fillLoop]
      by_cases hout : (t.step s xs[n]).2 = []
      · rw [if_pos hout] at hroom
        have hrest := ih (t.step s xs[n]).1 (Nat.succ_le_of_lt hlt) (by omega) hroom
        simp only [bind, Except.bind, require, hout, List.length_nil, Nat.zero_le, if_true, hrest]
        simp [Nat.add_assoc, Nat.add_comm 1]
      · rw [if_neg hout] at hroom
        simp only [bind, Except.bind, require, hout, hroom, if_true, if_false]
        rfl

/-- **One call of `fill`** of a view of a list, if the array is large enough. -/
theorem fill_ofList {fuel : ℕ} (v : TranscodeView α) (st : TranscodeView.State σ β)
    (hnext : st.next ≤ v.base.length) (hfuel : v.base.length ≤ fuel)
    (hroom : (st.fill t v).2.1.out.length ≤ room) :
    (State.ofList st).fill t room fuel (CursorRange.ofList .pastEnd v.base) ((), v.wellFormed) =
      .ok (((), (st.fill t v).1.wellFormed), .ofList (st.fill t v).2.1, (st.fill t v).2.2) := by
  simp only [TranscodeView.State.fill] at hroom
  have hloopRoom : (TranscodeView.State.fillLoop t st.transcoder
      (v.base.drop st.next)).2.1.length ≤ room := by
    refine le_trans ?_ hroom
    split_ifs
    · exact List.length_append ▸ Nat.le_add_right _ _
    · exact le_rfl
  have hloop : State.fillLoop t room (CursorRange.ofList .pastEnd v.base) fuel () st.transcoder
      st.next = _ := fillLoop_ofList st.transcoder hnext (by omega) hloopRoom
  dsimp only at hloop
  simp only [State.fill, State.ofList, hloop, bind, Except.bind, TranscodeView.State.fill,
    CursorRange.atEnd_ofList, decide_eq_true_eq, require, hroom, if_true]
  split_ifs <;> rfl

theorem next_fill_le {v : TranscodeView α} {st : TranscodeView.State σ β}
    (hnext : st.next ≤ v.base.length) : (st.fill t v).2.1.next ≤ v.base.length := by
  rcases hnext.eq_or_lt with hend | hlt
  · rw [TranscodeView.State.fill_of_end t hend]
    exact hnext
  · obtain ⟨st', hfill, hfilled⟩ := TranscodeView.State.filled_fill t st hlt
    rw [hfill]
    exact hfilled.valid.1.next_le

theorem next_incr_le {v v' : TranscodeView α} {it it' : TranscodeView.Iterator σ β}
    (hnext : it.state.next ≤ v.base.length) (hincr : it.incr t v = .ok (v', it')) :
    v'.base = v.base ∧ it'.state.next ≤ v'.base.length := by
  obtain ⟨st, hadvance, hincr⟩ := TranscodeView.bind_eq_ok.mp hincr
  have hst : st.next ≤ v.base.length := by
    rw [TranscodeView.State.advance] at hadvance
    split_ifs at hadvance
    rwa [← Except.ok.inj hadvance]
  split_ifs at hincr
  · cases hincr
    have hbase := TranscodeView.State.fill_base t v st
    exact ⟨hbase, hbase.symm ▸ next_fill_le hst⟩
  · cases hincr
    exact ⟨rfl, hst⟩

/-- **One increment** of an iterator of a view of a list. -/
theorem incr_ofList {N : ℕ} {v : TranscodeView α} {it : TranscodeView.Iterator σ β}
    (hnext : it.state.next ≤ v.base.length) (hN : v.base.length ≤ N)
    (hroom : ∀ r, it.incr t v = .ok r → r.2.state.out.length ≤ room) :
    (Iterator.ofList it).incr t room N (CursorRange.ofList .pastEnd v.base) ((), v.wellFormed) =
      ((it.incr t v).mapError faultOfList).map fun r => (((), r.1.wellFormed), .ofList r.2) := by
  have hadvance : (Iterator.ofList it).state.advance =
      (it.state.advance.mapError faultOfList).map State.ofList := by
    have hempty : (Iterator.ofList it).state.empty = it.state.empty := rfl
    rw [State.advance, TranscodeView.State.advance, hempty]
    cases it.state.empty <;> rfl
  rw [TranscodeView.Iterator.incr] at hroom
  rw [Iterator.incr, hadvance, TranscodeView.Iterator.incr]
  cases hst : it.state.advance with
  | error e => rfl
  | ok st =>
    have hnext' : st.next = it.state.next := by
      rw [TranscodeView.State.advance] at hst
      split_ifs at hst
      rw [← Except.ok.inj hst]
    have hempty : (State.ofList st).empty = st.empty := rfl
    rw [hst] at hroom
    simp only [Except.mapError, Except.map, bind, Except.bind, hempty]
    split_ifs with hfill
    · have hfits : (st.fill t v).2.1.out.length ≤ room := hroom _ (if_pos hfill)
      rw [fill_ofList v st (hnext' ▸ hnext) hN hfits]
      rfl
    · rfl

/-- **The view of a list is an instance**: reading it is the traversal of the model in which
cursors are positions and the array has room for everything, faults included, if nothing written
needs more room than there is. -/
theorem collect_ofList {N : ℕ} (fuel : ℕ) {v₀ v : TranscodeView α}
    {it : TranscodeView.Iterator σ β}
    (hfits : ∀ v it, TranscodeView.Reached t v₀ v it → it.state.out.length ≤ room)
    (hreached : TranscodeView.Reached t v₀ v it) (hnext : it.state.next ≤ v.base.length)
    (hN : v.base.length ≤ N) :
    (adaptor t room N (CursorRange.ofList .pastEnd v.base)).collect .outOfFuel fuel
        ((), v.wellFormed) (.ofList it) =
      ((TranscodeView.traverse t fuel v it).mapError faultOfList).map fun r =>
        (r.1, ((), r.2.wellFormed)) := by
  have hatEnd : (adaptor t room N (CursorRange.ofList .pastEnd v.base)).atEnd (.ofList it) =
      it.atEnd v := rfl
  induction fuel generalizing v it with
  | zero =>
    rw [CursorRange.collect, hatEnd, TranscodeView.traverse]
    split_ifs <;> rfl
  | succ fuel ih =>
    rw [CursorRange.collect, hatEnd, TranscodeView.traverse]
    split_ifs with hend
    · rfl
    · rw [Bool.not_eq_true] at hend
      have hderef : (adaptor t room N (CursorRange.ofList .pastEnd v.base)).deref (.ofList it) =
          it.deref.mapError faultOfList := by
        have hempty : (Iterator.ofList it).state.empty = it.state.empty := rfl
        have hout : (Iterator.ofList it).state.out[(Iterator.ofList it).state.first]? =
            it.state.out[it.state.first]? := rfl
        simp only [adaptor, State.front, hempty, hout, TranscodeView.Iterator.deref,
          TranscodeView.State.front]
        cases it.state.empty <;> cases it.state.out[it.state.first]? <;> rfl
      have hincr : (adaptor t room N (CursorRange.ofList .pastEnd v.base)).incr ((), v.wellFormed)
          (.ofList it) = _ :=
        incr_ofList hnext hN fun r hr => hfits _ _ (hreached.incr hend hr)
      rw [hderef, hincr]
      cases hu : it.deref with
      | error e => rfl
      | ok u =>
        cases hnext' : it.incr t v with
        | error e => rfl
        | ok r =>
          obtain ⟨hbase, hle⟩ := next_incr_le hnext hnext'
          have hrest := @ih r.1 r.2 (hreached.incr hend hnext') hle (hbase ▸ hN) rfl
          rw [hbase] at hrest
          simp only [Except.mapError, Except.map, bind, Except.bind, hrest]
          cases TranscodeView.traverse t fuel r.1 r.2 <;> rfl

/-- The two models agree on whole traversals. -/
theorem collectAll_ofList {N fuel : ℕ} {v : TranscodeView α}
    (hfits : ∀ v' it, TranscodeView.Reached t v v' it → it.state.out.length ≤ room)
    (hN : v.base.length ≤ N) :
    (adaptor t room N (CursorRange.ofList .pastEnd v.base)).collectAll .outOfFuel fuel
        ((), v.wellFormed) =
      ((TranscodeView.traverse t fuel (TranscodeView.begin t v).1
        (TranscodeView.begin t v).2).mapError faultOfList).map fun r =>
          (r.1, ((), r.2.wellFormed)) := by
  have hroom := hfits _ _ .begin
  have hbase : (TranscodeView.begin t v).1.base = v.base := by
    rw [TranscodeView.begin, TranscodeView.Iterator.make]
    split_ifs
    · exact TranscodeView.State.fill_base t v _
    · rfl
  have hnext : (TranscodeView.begin t v).2.state.next ≤ v.base.length := by
    rw [TranscodeView.begin, TranscodeView.Iterator.make]
    split_ifs
    · exact next_fill_le (Nat.zero_le _)
    · exact Nat.zero_le _
  have hbegin : (adaptor t room N (CursorRange.ofList .pastEnd v.base)).begin ((), v.wellFormed) =
      .ok (((), (TranscodeView.begin t v).1.wellFormed), .ofList (TranscodeView.begin t v).2) := by
    rw [TranscodeView.begin, TranscodeView.Iterator.make] at hroom ⊢
    change Iterator.make t room N _ _ 0 = _
    rw [Iterator.make, CursorRange.atEnd_ofList]
    by_cases hend : 0 = v.base.length
    · rw [if_pos (decide_eq_true hend), if_neg (not_not.mpr hend)]
      rfl
    · rw [if_pos hend] at hroom
      have hfill := fill_ofList (t := t) v ⟨0, [], t.init, 0, 0⟩ (Nat.zero_le _) hN hroom
      rw [if_neg (by simp [hend]), if_pos hend]
      change ((State.ofList (⟨0, [], t.init, 0, 0⟩ : TranscodeView.State σ β)).fill t room N
        (CursorRange.ofList .pastEnd v.base) ((), v.wellFormed) >>= _) = _
      rw [hfill]
      rfl
  have hcollect := collect_ofList fuel hfits .begin (hbase ▸ hnext) (hbase ▸ hN)
  rw [hbase] at hcollect
  rw [CursorRange.collectAll, hbegin]
  exact hcollect

end List

end Adaptor

end Icubaby
