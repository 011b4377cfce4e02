import Mathlib.Data.List.Basic

/-!
# Ranges that are read through cursors

A `CursorRange` is a range as a program sees it: a cursor is obtained from `begin`, compared with
the end, dereferenced and incremented. Obtaining and moving a cursor may change a *world* that all
cursors share, and every operation but the comparison may fail.

`CursorRange.Yields` is the total contract of a cursor: the loop that reads until the end meets no
failure, sees the symbols given and leaves the world given behind. `CursorRange.collect` is that
loop, with a bound on the number of its turns, and the two agree (`Yields.collect`,
`yields_of_collect`).
-/

/-- A range that is read through cursors of type `γ`, which share a world of type `ω`. -/
structure CursorRange (ω γ ε α : Type) where
  /-- A cursor at the first symbol. -/
  begin : ω → Except ε (ω × γ)
  /-- Comparison with the end of the range. -/
  atEnd : γ → Bool
  /-- The symbol that a cursor is at. -/
  deref : γ → Except ε α
  /-- The cursor at the next symbol. -/
  incr : ω → γ → Except ε (ω × γ)

namespace CursorRange

variable {ω γ ε α : Type} (R : CursorRange ω γ ε α)

/-- Reading from the cursor `c` to the end sees `xs`, and changes the world from `w` to `w'`. -/
inductive Yields : ω → γ → List α → ω → Prop
  | done {w c} : R.atEnd c = true → Yields w c [] w
  | item {w w' w'' c c' x xs} : R.atEnd c = false → R.deref c = .ok x →
    R.incr w c = .ok (w', c') → Yields w' c' xs w'' → Yields w c (x :: xs) w''

/-- Reading the whole range sees `xs`, and changes the world from `w` to `w'`. -/
def Delivers (w : ω) (xs : List α) (w' : ω) : Prop :=
  ∃ w₁ c, R.begin w = .ok (w₁, c) ∧ R.Yields w₁ c xs w'

/-- The loop that reads from a cursor to the end, for at most `fuel` symbols; after that it fails
with `stuck`. -/
def collect (stuck : ε) : ℕ → ω → γ → Except ε (List α × ω)
  | 0, w, c => if R.atEnd c then .ok ([], w) else .error stuck
  | fuel + 1, w, c =>
    if R.atEnd c then .ok ([], w)
    else do
      let x ← R.deref c
      let r ← R.incr w c
      let r' ← collect stuck fuel r.1 r.2
      return (x :: r'.1, r'.2)

/-- The loop over the whole range. -/
def collectAll (stuck : ε) (fuel : ℕ) (w : ω) : Except ε (List α × ω) := do
  let r ← R.begin w
  R.collect stuck fuel r.1 r.2

variable {R} {stuck : ε} {w w' : ω} {c : γ} {xs : List α}

/-- A cursor is at the end when there is nothing to see. -/
theorem Yields.atEnd (h : R.Yields w c xs w') : R.atEnd c = xs.isEmpty := by
  cases h with
  | done hend => exact hend
  | item hend _ _ _ => exact hend

/-- A cursor yields one list only. -/
theorem Yields.unique (h : R.Yields w c xs w') {ys : List α} {v : ω} (h' : R.Yields w c ys v) :
    xs = ys ∧ w' = v := by
  induction h generalizing ys v with
  | done hend =>
    cases h' with
    | done _ => exact ⟨rfl, rfl⟩
    | item hend' _ _ _ => simp [hend] at hend'
  | item hend hderef hincr _ ih =>
    cases h' with
    | done hend' => simp [hend] at hend'
    | item _ hderef' hincr' hrest =>
      obtain rfl := Except.ok.inj (hderef.symm.trans hderef')
      obtain ⟨rfl, rfl⟩ := Prod.mk.inj (Except.ok.inj (hincr.symm.trans hincr'))
      obtain ⟨rfl, rfl⟩ := ih hrest
      exact ⟨rfl, rfl⟩

/-- A range delivers one list only. -/
theorem Delivers.unique (h : R.Delivers w xs w') {ys : List α} {v : ω} (h' : R.Delivers w ys v) :
    xs = ys ∧ w' = v := by
  obtain ⟨w₁, c, hbegin, hyields⟩ := h
  obtain ⟨w₂, c', hbegin', hyields'⟩ := h'
  obtain ⟨rfl, rfl⟩ := Prod.mk.inj (Except.ok.inj (hbegin.symm.trans hbegin'))
  exact hyields.unique hyields'

/-- **The loop reads what the cursor yields**, with a turn for each symbol. -/
theorem Yields.collect (h : R.Yields w c xs w') {fuel : ℕ} (hfuel : xs.length ≤ fuel) :
    R.collect stuck fuel w c = .ok (xs, w') := by
  induction h generalizing fuel with
  | done hend => cases fuel <;> rw [CursorRange.collect, if_pos hend]
  | @item w w₁ w' c c' x xs hend hderef hincr _ ih =>
    obtain ⟨fuel, rfl⟩ : ∃ n, fuel = n + 1 := ⟨fuel - 1, by
      rw [List.length_cons] at hfuel
      omega⟩
    have hrest := ih (Nat.le_of_succ_le_succ hfuel)
    rw [CursorRange.collect, if_neg (by simp [hend]), hderef, hincr]
    simp only [bind, Except.bind, hrest]
    rfl

/-- Conversely, a loop that comes to the end has read what the cursor yields. -/
theorem yields_of_collect {fuel : ℕ} (h : R.collect stuck fuel w c = .ok (xs, w')) :
    R.Yields w c xs w' := by
  induction fuel generalizing w c xs w' with
  | zero =>
    rw [CursorRange.collect] at h
    split_ifs at h with hend
    obtain ⟨rfl, rfl⟩ := Prod.mk.inj (Except.ok.inj h)
    exact .done hend
  | succ fuel ih =>
    rw [CursorRange.collect] at h
    split_ifs at h with hend
    · obtain ⟨rfl, rfl⟩ := Prod.mk.inj (Except.ok.inj h)
      exact .done hend
    · -- none of the three parts of a turn has failed
      cases hderef : R.deref c with
      | error e => simp [hderef, bind, Except.bind] at h
      | ok x =>
        cases hincr : R.incr w c with
        | error e => simp [hderef, hincr, bind, Except.bind] at h
        | ok r =>
          cases hrest : R.collect stuck fuel r.1 r.2 with
          | error e => simp [hderef, hincr, hrest, bind, Except.bind] at h
          | ok r' =>
            simp only [hderef, hincr, hrest, bind, Except.bind] at h
            obtain ⟨rfl, rfl⟩ := Prod.mk.inj (Except.ok.inj h)
            exact .item (Bool.eq_false_iff.mpr hend) hderef hincr (ih hrest)

/-- What a whole range delivers is read by the loop over it. -/
theorem Delivers.collectAll (h : R.Delivers w xs w') {fuel : ℕ} (hfuel : xs.length ≤ fuel) :
    R.collectAll stuck fuel w = .ok (xs, w') := by
  obtain ⟨w₁, c, hbegin, hyields⟩ := h
  rw [CursorRange.collectAll, hbegin]
  exact hyields.collect hfuel

/-- Conversely, a loop over the whole range that comes to the end has read what it delivers. -/
theorem delivers_of_collectAll {fuel : ℕ} (h : R.collectAll stuck fuel w = .ok (xs, w')) :
    R.Delivers w xs w' := by
  rw [CursorRange.collectAll] at h
  cases hbegin : R.begin w with
  | error e => simp [hbegin, bind, Except.bind] at h
  | ok r =>
    rw [hbegin] at h
    exact ⟨r.1, r.2, hbegin, yields_of_collect h⟩

/-! ### Lists -/

/-- A list as a range: a cursor is an index. Reading at the end, or moving on from it, fails. -/
def ofList (pastEnd : ε) (xs : List α) : CursorRange Unit ℕ ε α where
  begin w := .ok (w, 0)
  atEnd n := n = xs.length
  deref n :=
    match xs[n]? with
    | some x => .ok x
    | none => .error pastEnd
  incr w n := if n < xs.length then .ok (w, n + 1) else .error pastEnd

section OfList

variable {pastEnd : ε} {n : ℕ}

@[simp] theorem atEnd_ofList : (ofList pastEnd xs).atEnd n = decide (n = xs.length) := rfl

theorem deref_ofList (hn : n < xs.length) : (ofList pastEnd xs).deref n = .ok xs[n] := by
  simp only [ofList, List.getElem?_eq_getElem hn]

theorem incr_ofList (hn : n < xs.length) : (ofList pastEnd xs).incr () n = .ok ((), n + 1) :=
  if_pos hn

end OfList

/-- From an index on, a list yields what it holds there. -/
theorem yields_ofList (pastEnd : ε) (xs : List α) {n : ℕ} (hn : n ≤ xs.length) :
    (ofList pastEnd xs).Yields () n (xs.drop n) () := by
  induction hk : xs.length - n generalizing n with
  | zero =>
    have hend : n = xs.length := by omega
    rw [hend, List.drop_length]
    exact .done (decide_eq_true rfl)
  | succ k ih =>
    have hlt : n < xs.length := by omega
    rw [List.drop_eq_getElem_cons hlt]
    exact .item (decide_eq_false (Nat.ne_of_lt hlt)) (deref_ofList hlt) (incr_ofList hlt)
      (ih hlt (by omega))

/-- A list delivers itself. -/
theorem delivers_ofList (pastEnd : ε) (xs : List α) : (ofList pastEnd xs).Delivers () xs () :=
  ⟨(), 0, rfl, yields_ofList pastEnd xs (Nat.zero_le _)⟩

end CursorRange
