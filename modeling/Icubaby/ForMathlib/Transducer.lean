import Mathlib.Data.List.Basic

/-!
# Transducers with block output and an end-of-input flush

A `Transducer σ α β` reads its input one symbol at a time, writes a *block* of output for each
symbol (possibly none) and is told once that the input has ended, when it may flush what it still
holds back. The type `σ` of states is arbitrary, so the machines need not be finite.

`Transducer.feed` is the run without the flush and `Transducer.runFrom` the run with it. The
cascade `T.comp T'` feeds every block of `T` to `T'` and flushes both.

`Transducer.Reads` lifts a condition on single steps to whole inputs. It says that a machine
computes a function on strings *online*: a state stands for the part of the input that is read but
not yet accounted for in the output. `Transducer.pulls` is what a consumer sees that asks for output
when it needs some, and `Transducer.Productive` says that the input ends in something written, so
that no such request is left unanswered. The `assembler` reads words of a fixed length back as the
symbols they stand for.
-/

/-- A transducer: a start state, a step that writes a block, and a flush. -/
structure Transducer (σ α β : Type*) where
  /-- The start state. -/
  init : σ
  /-- Reads one symbol and writes a block. -/
  step : σ → α → σ × List β
  /-- Told that the input has ended, writes a last block. -/
  finish : σ → σ × List β

namespace Transducer

variable {σ τ α β γ δ ρ : Type*}

/-! ### Runs -/

section Runs

variable (T : Transducer σ α β)

/-- Feeds the symbols of a list in order; the blocks written are concatenated. -/
def feed (s : σ) : List α → σ × List β
  | [] => (s, [])
  | x :: xs =>
    let r := T.step s x
    let r' := feed r.1 xs
    (r'.1, r.2 ++ r'.2)

/-- Feeds a list from the state `s` and flushes. -/
def runFrom (s : σ) (xs : List α) : σ × List β :=
  let r := T.feed s xs
  let e := T.finish r.1
  (e.1, r.2 ++ e.2)

/-- Feeds a list to a fresh machine and flushes. -/
def run (xs : List α) : σ × List β := T.runFrom T.init xs

@[simp] theorem feed_nil (s : σ) : T.feed s [] = (s, []) := rfl

theorem feed_cons (s : σ) (x : α) (xs : List α) :
    T.feed s (x :: xs) =
      ((T.feed (T.step s x).1 xs).1, (T.step s x).2 ++ (T.feed (T.step s x).1 xs).2) := rfl

@[simp] theorem feed_singleton (s : σ) (x : α) : T.feed s [x] = T.step s x := by
  simp [feed_cons]

theorem feed_append (s : σ) (xs ys : List α) :
    T.feed s (xs ++ ys) =
      ((T.feed (T.feed s xs).1 ys).1, (T.feed s xs).2 ++ (T.feed (T.feed s xs).1 ys).2) := by
  induction xs generalizing s with
  | nil => simp
  | cons x xs ih => simp [feed_cons, ih]

theorem runFrom_fst (s : σ) (xs : List α) :
    (T.runFrom s xs).1 = (T.finish (T.feed s xs).1).1 := rfl

theorem runFrom_snd (s : σ) (xs : List α) :
    (T.runFrom s xs).2 = (T.feed s xs).2 ++ (T.finish (T.feed s xs).1).2 := rfl

theorem runFrom_append (s : σ) (xs ys : List α) :
    T.runFrom s (xs ++ ys) =
      ((T.runFrom (T.feed s xs).1 ys).1,
        (T.feed s xs).2 ++ (T.runFrom (T.feed s xs).1 ys).2) := by
  simp [runFrom, feed_append]

/-- The last symbol of the input, or the flush after it, writes something. -/
def Productive (s : σ) (xs : List α) : Prop :=
  ∀ ys x, xs = ys ++ [x] →
    (T.step (T.feed s ys).1 x).2 ≠ [] ∨ (T.finish (T.feed s xs).1).2 ≠ []

theorem productive_concat_iff {s : σ} {xs : List α} {x : α} :
    T.Productive s (xs ++ [x]) ↔
      (T.step (T.feed s xs).1 x).2 ≠ [] ∨ (T.finish (T.step (T.feed s xs).1 x).1).2 ≠ [] := by
  have hfeed : (T.feed s (xs ++ [x])).1 = (T.step (T.feed s xs).1 x).1 := by
    rw [feed_append, feed_singleton]
  constructor
  · intro h
    simpa only [hfeed] using h xs x rfl
  · intro h ys y hys
    obtain ⟨rfl, rfl⟩ := List.append_singleton_inj.mp hys
    simpa only [hfeed] using h

/-- What comes before a non-empty rest does not matter. -/
theorem productive_append_iff {s : σ} {xs ys : List α} (hys : ys ≠ []) :
    T.Productive s (xs ++ ys) ↔ T.Productive (T.feed s xs).1 ys := by
  obtain ⟨zs, z, rfl⟩ : ∃ zs z, ys = zs ++ [z] :=
    ⟨_, _, (List.dropLast_append_getLast hys).symm⟩
  rw [← List.append_assoc, productive_concat_iff, productive_concat_iff, feed_append]

end Runs

/-! ### Calls in any order -/

/-- What a transducer can be asked for: to read a symbol, or to flush. -/
inductive Call (α : Type*) where
  | step (x : α)
  | finish

/-- The machine whose symbols are calls: it reads and flushes in any order. -/
def interactive (T : Transducer σ α β) : Transducer σ (Call α) β where
  init := T.init
  step s
    | .step x => T.step s x
    | .finish => T.finish s
  finish := T.finish

/-- **Invariant rule**: what no call destroys holds whatever has been called. -/
theorem interactive_induction {T : Transducer σ α β} {I : σ → Prop}
    (step : ∀ s x, I s → I (T.step s x).1) (finish : ∀ s, I s → I (T.finish s).1) {s : σ}
    (hs : I s) (calls : List (Call α)) : I (T.interactive.feed s calls).1 := by
  induction calls generalizing s with
  | nil => exact hs
  | cons c calls ih =>
    rw [feed_cons]
    cases c with
    | step x => exact ih (step s x hs)
    | finish => exact ih (finish s hs)

/-! ### Output on demand -/

section Pulls

variable (T : Transducer σ α β)

/-- What is written for the symbol `x` when `xs` is still to be read: the last symbol is followed
by the flush. -/
def wrote (s : σ) (x : α) : List α → List β
  | [] => (T.step s x).2 ++ (T.finish (T.step s x).1).2
  | _ :: _ => (T.step s x).2

/-- Puts a symbol before those that have been read for the first pull. -/
def consFirst (x : α) : List (List α × List β) → List (List α × List β)
  | [] => []
  | g :: gs => (x :: g.1, g.2) :: gs

/-- What a consumer sees that asks for output when it needs some: each pull reads symbols until
something has been written or the input is used up. The pulls are listed with the symbols read. -/
def pulls (s : σ) : List α → List (List α × List β)
  | [] => []
  | x :: xs =>
    if xs ≠ [] ∧ (T.step s x).2 = [] then consFirst x (pulls (T.step s x).1 xs)
    else ([x], T.wrote s x xs) :: pulls (T.step s x).1 xs

variable {T}

theorem wrote_eq (s : σ) (x : α) (xs : List α) :
    T.wrote s x xs =
      (T.step s x).2 ++ if xs.isEmpty then (T.finish (T.step s x).1).2 else [] := by
  cases xs with
  | nil => rfl
  | cons y ys => exact (List.append_nil _).symm

/-- **The first pull** reads symbols that write nothing and then one more. -/
theorem pulls_append_cons {s s' : σ} {zs ws : List α} {x : α} (hzs : T.feed s zs = (s', []))
    (hx : ws ≠ [] → (T.step s' x).2 ≠ []) :
    T.pulls s (zs ++ x :: ws) = (zs ++ [x], T.wrote s' x ws) :: T.pulls (T.step s' x).1 ws := by
  induction zs generalizing s with
  | nil =>
    obtain rfl := (Prod.mk.inj hzs).1
    exact if_neg (not_and.mpr hx)
  | cons z zs ih =>
    rw [feed_cons] at hzs
    obtain ⟨hstate, hout⟩ := Prod.mk.inj hzs
    obtain ⟨hz, hout⟩ := List.append_eq_nil_iff.mp hout
    rw [List.cons_append, pulls, if_pos ⟨by simp, hz⟩, ih (Prod.ext hstate hout)]
    rfl

/-- Every input that is not empty has a first pull. -/
theorem exists_first_pull (s : σ) {xs : List α} (hxs : xs ≠ []) :
    ∃ zs x ws s', xs = zs ++ x :: ws ∧ T.feed s zs = (s', []) ∧
      (ws ≠ [] → (T.step s' x).2 ≠ []) := by
  induction xs generalizing s with
  | nil => exact absurd rfl hxs
  | cons x xs ih =>
    by_cases hx : xs ≠ [] ∧ (T.step s x).2 = []
    · obtain ⟨zs, y, ws, s', rfl, hzs, hy⟩ := ih (T.step s x).1 hx.1
      refine ⟨x :: zs, y, ws, s', rfl, ?_, hy⟩
      rw [feed_cons, hzs, hx.2, List.append_nil]
    · exact ⟨[], x, xs, s, rfl, rfl, not_and.mp hx⟩

theorem pulls_eq_nil_iff {s : σ} {xs : List α} : T.pulls s xs = [] ↔ xs = [] := by
  constructor
  · intro h
    by_contra hxs
    obtain ⟨zs, x, ws, s', rfl, hzs, hx⟩ := T.exists_first_pull s hxs
    rw [pulls_append_cons hzs hx] at h
    cases h
  · rintro rfl
    rfl

/-- **Induction along the pulls.** -/
theorem pulls_induction {P : σ → List α → Prop} (nil : ∀ s, P s [])
    (pull : ∀ s s' zs x ws, T.feed s zs = (s', []) → (ws ≠ [] → (T.step s' x).2 ≠ []) →
      P (T.step s' x).1 ws → P s (zs ++ x :: ws)) (s : σ) (xs : List α) : P s xs := by
  induction hn : xs.length using Nat.strongRecOn generalizing s xs with
  | ind n ih =>
    rcases eq_or_ne xs [] with rfl | hne
    · exact nil s
    · obtain ⟨zs, x, ws, s', rfl, hzs, hx⟩ := T.exists_first_pull s hne
      refine pull s s' zs x ws hzs hx (ih ws.length ?_ _ ws rfl)
      rw [← hn, List.length_append, List.length_cons]
      omega

/-- The pulls read the input. -/
theorem flatMap_fst_pulls (s : σ) (xs : List α) : (T.pulls s xs).flatMap Prod.fst = xs := by
  induction s, xs using pulls_induction (T := T) with
  | nil s => rfl
  | pull s s' zs x ws hzs hx ih =>
    rw [pulls_append_cons hzs hx, List.flatMap_cons, ih, List.append_assoc]
    rfl

/-- A pull reads at least one symbol. -/
theorem fst_ne_nil_of_mem_pulls {s : σ} {xs : List α} {g : List α × List β}
    (hg : g ∈ T.pulls s xs) : g.1 ≠ [] := by
  induction s, xs using pulls_induction (T := T) with
  | nil s => cases hg
  | pull s s' zs x ws hzs hx ih =>
    rw [pulls_append_cons hzs hx] at hg
    rcases List.mem_cons.mp hg with rfl | hg
    · simp
    · exact ih hg

/-- The pulls yield what is written, the flush included. -/
theorem flatMap_snd_pulls (s : σ) {xs : List α} (hxs : xs ≠ []) :
    (T.pulls s xs).flatMap Prod.snd = (T.runFrom s xs).2 := by
  induction s, xs using pulls_induction (T := T) with
  | nil s => exact absurd rfl hxs
  | pull s s' zs x ws hzs hx ih =>
    have hstep : (T.feed s (zs ++ [x])) = T.step s' x := by
      rw [feed_append, hzs, feed_singleton, List.nil_append]
    have hsplit : zs ++ x :: ws = (zs ++ [x]) ++ ws := by simp
    rw [pulls_append_cons hzs hx, List.flatMap_cons, hsplit, runFrom_append, hstep]
    cases ws with
    | nil => exact List.append_nil _
    | cons w ws =>
      rw [ih (by simp)]
      rfl

/-- Only the last pull can be left without output. -/
theorem snd_ne_nil_of_pulls_eq {s : σ} {xs : List α} {pre post : List (List α × List β)}
    {g g' : List α × List β} (h : T.pulls s xs = pre ++ g :: post) (hg' : g' ∈ pre) :
    g'.2 ≠ [] := by
  induction s, xs using pulls_induction (T := T) generalizing pre with
  | nil s => simp [pulls] at h
  | pull s s' zs x ws hzs hx ih =>
    rw [pulls_append_cons hzs hx] at h
    cases pre with
    | nil => cases hg'
    | cons g₀ pre =>
      obtain ⟨rfl, hrest⟩ := List.cons.inj h
      rcases List.mem_cons.mp hg' with rfl | hg'
      · cases ws with
        | nil => simp [pulls] at hrest
        | cons w ws => exact hx (by simp)
      · exact ih hrest hg'

/-- **What all pulls satisfy**: it is enough to look at the symbols that a pull can end with. -/
theorem forall_mem_pulls_iff {s : σ} {xs : List α} {P : List β → Prop} :
    (∀ g ∈ T.pulls s xs, P g.2) ↔ ∀ ys x zs, xs = ys ++ x :: zs →
      (zs ≠ [] → (T.step (T.feed s ys).1 x).2 ≠ []) → P (T.wrote (T.feed s ys).1 x zs) := by
  induction xs generalizing s with
  | nil => simp [pulls]
  | cons x xs ih =>
    rw [pulls]
    split_ifs with hx
    · -- no pull ends here
      have hconsFirst : ∀ gs : List (List α × List β),
          (∀ g ∈ consFirst x gs, P g.2) ↔ ∀ g ∈ gs, P g.2 := by
        rintro (_ | ⟨g, gs⟩) <;> simp [consFirst]
      rw [hconsFirst, ih]
      constructor
      · rintro h (_ | ⟨y, ys⟩) z zs heq hz
        · obtain ⟨rfl, rfl⟩ := List.cons.inj heq
          exact absurd hx.2 (hz hx.1)
        · obtain ⟨rfl, rfl⟩ := List.cons.inj heq
          exact h ys z zs rfl hz
      · rintro h ys z zs rfl hz
        exact h (x :: ys) z zs rfl hz
    · rw [List.forall_mem_cons, ih]
      constructor
      · rintro ⟨hfirst, hrest⟩ (_ | ⟨y, ys⟩) z zs heq hz
        · obtain ⟨rfl, rfl⟩ := List.cons.inj heq
          exact hfirst
        · obtain ⟨rfl, rfl⟩ := List.cons.inj heq
          exact hrest ys z zs rfl hz
      · intro h
        refine ⟨h [] x xs rfl (not_and.mp hx), ?_⟩
        rintro ys z zs rfl hz
        exact h (x :: ys) z zs rfl hz

/-- For what holds of no output, all symbols can be looked at. -/
theorem forall_mem_pulls_iff_of_nil {s : σ} {xs : List α} {P : List β → Prop} (hP : P []) :
    (∀ g ∈ T.pulls s xs, P g.2) ↔
      ∀ ys x zs, xs = ys ++ x :: zs → P (T.wrote (T.feed s ys).1 x zs) := by
  rw [forall_mem_pulls_iff]
  refine forall_congr' fun ys => forall_congr' fun x => forall_congr' fun zs =>
    imp_congr_right fun _ => ⟨fun h => ?_, fun h _ => h⟩
  by_cases hx : zs ≠ [] → (T.step (T.feed s ys).1 x).2 ≠ []
  · exact h hx
  · obtain ⟨hzs, hstep⟩ := Classical.not_imp.mp hx
    rwa [wrote_eq, not_not.mp hstep, List.isEmpty_eq_false_iff.mpr hzs]

/-- Every pull of an input that ends in something written has output. -/
theorem Productive.snd_ne_nil {s : σ} {xs : List α} (h : T.Productive s xs) :
    ∀ g ∈ T.pulls s xs, g.2 ≠ [] := by
  rw [forall_mem_pulls_iff (P := fun us => us ≠ [])]
  rintro ys x (_ | ⟨z, zs⟩) rfl hx
  · rw [productive_concat_iff] at h
    rwa [wrote, ne_eq, List.append_eq_nil_iff, not_and_or]
  · exact hx (by simp)

/-- The input ends in something written exactly when every pull has output. -/
theorem productive_iff {s : σ} {xs : List α} :
    T.Productive s xs ↔ ∀ g ∈ T.pulls s xs, g.2 ≠ [] := by
  refine ⟨Productive.snd_ne_nil, fun h => ?_⟩
  rw [forall_mem_pulls_iff (P := fun us => us ≠ [])] at h
  rintro ys x rfl
  have hlast := h ys x [] rfl (fun hnil => absurd rfl hnil)
  rw [wrote, ne_eq, List.append_eq_nil_iff, not_and_or] at hlast
  rwa [feed_append, feed_singleton]

/-- **Simulation**: a machine that writes the images of what another one writes has the images of
its pulls. -/
theorem pulls_of_simulates {T' : Transducer τ α γ} {R : σ → τ → Prop} {emit : List γ → List β}
    (hemit : ∀ us, emit us = [] ↔ us = [])
    (hstep : ∀ {s s'} x, R s s' → R (T.step s x).1 (T'.step s' x).1 ∧
      ∀ xs, T.wrote s x xs = emit (T'.wrote s' x xs))
    {s : σ} {s' : τ} (hs : R s s') (xs : List α) :
    T.pulls s xs = (T'.pulls s' xs).map (Prod.map id emit) := by
  induction xs generalizing s s' with
  | nil => rfl
  | cons x xs ih =>
    obtain ⟨hR, hwrote⟩ := hstep x hs
    have hsilent : (T.step s x).2 = [] ↔ (T'.step s' x).2 = [] := by
      rw [← hemit]
      exact Eq.congr_left (hwrote (x :: xs))
    rw [pulls, pulls, ih hR]
    simp only [hsilent]
    split_ifs with hx
    · cases T'.pulls (T'.step s' x).1 xs <;> rfl
    · rw [hwrote]
      rfl

end Pulls

/-! ### The cascade -/

section Comp

variable (T : Transducer σ α β) (T' : Transducer τ β γ)

/-- The cascade: every block that `T` writes is fed to `T'`, and the flush of `T` is fed to `T'`
before `T'` is flushed itself. -/
def comp : Transducer (σ × τ) α γ where
  init := (T.init, T'.init)
  step s x :=
    let r := T.step s.1 x
    let r' := T'.feed s.2 r.2
    ((r.1, r'.1), r'.2)
  finish s :=
    let r := T.finish s.1
    let r' := T'.runFrom s.2 r.2
    ((r.1, r'.1), r'.2)

theorem feed_comp (s : σ × τ) (xs : List α) :
    (T.comp T').feed s xs =
      (((T.feed s.1 xs).1, (T'.feed s.2 (T.feed s.1 xs).2).1),
        (T'.feed s.2 (T.feed s.1 xs).2).2) := by
  induction xs generalizing s with
  | nil => rfl
  | cons x xs ih =>
    have hstep : (T.comp T').step s x =
        (((T.step s.1 x).1, (T'.feed s.2 (T.step s.1 x).2).1),
          (T'.feed s.2 (T.step s.1 x).2).2) := rfl
    rw [feed_cons, hstep, ih, feed_cons, feed_append]

/-- **The cascade computes the composite** of the two runs. -/
theorem runFrom_comp (s : σ × τ) (xs : List α) :
    (T.comp T').runFrom s xs =
      (((T.runFrom s.1 xs).1, (T'.runFrom s.2 (T.runFrom s.1 xs).2).1),
        (T'.runFrom s.2 (T.runFrom s.1 xs).2).2) := by
  have hfinish : ∀ p : σ × τ, (T.comp T').finish p =
      (((T.finish p.1).1, (T'.runFrom p.2 (T.finish p.1).2).1),
        (T'.runFrom p.2 (T.finish p.1).2).2) := fun p => rfl
  simp only [runFrom, feed_comp, hfinish, feed_append, List.append_assoc]

/-- The first machine of a cascade does not depend on the second. -/
theorem fst_feed_interactive_comp (s : σ × τ) (calls : List (Call α)) :
    ((T.comp T').interactive.feed s calls).1.1 = (T.interactive.feed s.1 calls).1 := by
  induction calls generalizing s with
  | nil => rfl
  | cons c calls ih =>
    rw [feed_cons, feed_cons]
    cases c with
    | step x => exact ih _
    | finish => exact ih _

end Comp

/-! ### Online computation of a reading -/

/-- The transducer `T` computes the function `read` online. The relation `R` says which string,
read but not accounted for yet, a state stands for; `emit` is what is written for a piece of the
reading, and `sound` observes that all pieces so far are `ok`. -/
structure Reads (T : Transducer σ α β) (read : List α → List ρ) (emit : ρ → β) (ok : ρ → Bool)
    (sound : σ → Bool) (R : σ → List α → Prop) : Prop where
  /-- A step writes the pieces that it settles, and the reading of what follows is that of the
  string the new state stands for. -/
  step {s p} (x) : R s p → ∃ q pieces, R (T.step s x).1 q ∧
    (T.step s x).2 = pieces.map emit ∧ sound (T.step s x).1 = (sound s && pieces.all ok) ∧
    ∀ xs, read (p ++ x :: xs) = pieces ++ read (q ++ xs)
  /-- The flush writes the reading of what is left. -/
  flush {s p} : R s p → (T.finish s).2 = (read p).map emit ∧
    sound (T.finish s).1 = (sound s && (read p).all ok)

namespace Reads

variable {T : Transducer σ α β} {read : List α → List ρ} {emit : ρ → β} {ok : ρ → Bool}
  {sound : σ → Bool} {R : σ → List α → Prop}

/-- **Run rule without the flush.** -/
theorem feed (h : T.Reads read emit ok sound R) {s : σ} {p : List α} (hs : R s p)
    (xs : List α) : ∃ q pieces, R (T.feed s xs).1 q ∧ (T.feed s xs).2 = pieces.map emit ∧
      sound (T.feed s xs).1 = (sound s && pieces.all ok) ∧
      ∀ ys, read (p ++ (xs ++ ys)) = pieces ++ read (q ++ ys) := by
  induction xs generalizing s p with
  | nil => exact ⟨p, [], hs, rfl, by simp, fun ys => rfl⟩
  | cons x xs ih =>
    obtain ⟨q, pieces, hq, hout, hsound, hread⟩ := h.step x hs
    obtain ⟨q', pieces', hq', hout', hsound', hread'⟩ := ih hq
    rw [feed_cons]
    refine ⟨q', pieces ++ pieces', hq', by simp [hout, hout'], ?_, fun ys => ?_⟩
    · rw [hsound', hsound, List.all_append, Bool.and_assoc]
    · rw [List.cons_append, hread, hread', List.append_assoc]

/-- **Run rule**: with the flush the whole reading is written. -/
theorem runFrom (h : T.Reads read emit ok sound R) {s : σ} {p : List α} (hs : R s p)
    (xs : List α) : (T.runFrom s xs).2 = (read (p ++ xs)).map emit ∧
      sound (T.runFrom s xs).1 = (sound s && (read (p ++ xs)).all ok) := by
  obtain ⟨q, pieces, hq, hout, hsound, hread⟩ := h.feed hs xs
  obtain ⟨hout', hsound'⟩ := h.flush hq
  have hwhole : read (p ++ xs) = pieces ++ read q := by simpa using hread []
  rw [runFrom_snd, runFrom_fst, hout, hout', hsound', hsound, hwhole]
  exact ⟨by rw [List.map_append], by rw [List.all_append, Bool.and_assoc]⟩

end Reads

/-! ### Words of fixed length -/

section Assembler

variable (n : ℕ) (join : List α → δ)

/-- The machine that gathers `n` symbols at a time and writes what they are joined to. A state is
the list of the symbols gathered; the flush writes nothing. -/
def assembler : Transducer (List α) α δ where
  init := []
  step held x :=
    if held.length + 1 = n then ([], [join (held ++ [x])]) else (held ++ [x], [])
  finish held := (held, [])

variable {n join}

theorem assembler_step_of_eq {held : List α} (x : α) (h : held.length + 1 = n) :
    (assembler n join).step held x = ([], [join (held ++ [x])]) := if_pos h

theorem assembler_step_of_ne {held : List α} (x : α) (h : held.length + 1 ≠ n) :
    (assembler n join).step held x = (held ++ [x], []) := if_neg h

/-- A symbol completes a word, or it is kept. -/
theorem assembler_step_cases (held : List α) (x : α) :
    held.length + 1 = n ∧ (assembler n join).step held x = ([], [join (held ++ [x])]) ∨
      held.length + 1 ≠ n ∧ (assembler n join).step held x = (held ++ [x], []) := by
  by_cases h : held.length + 1 = n
  · exact .inl ⟨h, assembler_step_of_eq x h⟩
  · exact .inr ⟨h, assembler_step_of_ne x h⟩

/-- The symbols that complete a word make it be written. -/
theorem feed_assembler_of_length {held xs : List α} (hne : xs ≠ [])
    (h : held.length + xs.length = n) :
    (assembler n join).feed held xs = ([], [join (held ++ xs)]) := by
  induction xs generalizing held with
  | nil => exact absurd rfl hne
  | cons x xs ih =>
    cases xs with
    | nil => rw [feed_singleton, assembler_step_of_eq x (by simpa using h)]
    | cons y xs =>
      have hlen : (held ++ [x]).length + (y :: xs).length = n := by
        simp only [List.length_append, List.length_cons, List.length_nil] at h ⊢
        omega
      rw [feed_cons, assembler_step_of_ne x (by simp only [List.length_cons] at h; omega),
        ih (by simp) hlen]
      simp

/-- **Assembling inverts serialising** in words of length `n`. -/
theorem feed_assembler_flatMap {word : δ → List α} (hn : n ≠ 0)
    (hlen : ∀ d, (word d).length = n) (hjoin : ∀ d, join (word d) = d) (ds : List δ) :
    (assembler n join).feed [] (ds.flatMap word) = ([], ds) := by
  induction ds with
  | nil => rfl
  | cons d ds ih =>
    have hne : word d ≠ [] := by
      rw [← List.length_pos_iff, hlen]
      omega
    rw [List.flatMap_cons, feed_append,
      feed_assembler_of_length hne (by simpa using hlen d), List.nil_append, ih, hjoin]
    rfl

/-- **Conservation**: the symbols gathered and read are the words completed, one after the other,
and the symbols gathered in the end. -/
theorem exists_feed_assembler (held xs : List α) :
    ∃ words : List (List α), held ++ xs = words.flatten ++ ((assembler n join).feed held xs).1 ∧
      (∀ w ∈ words, w.length = n) ∧ ((assembler n join).feed held xs).2 = words.map join := by
  induction xs generalizing held with
  | nil => exact ⟨[], by simp⟩
  | cons x xs ih =>
    rw [feed_cons]
    rcases assembler_step_cases held x with ⟨hlen, hstep⟩ | ⟨-, hstep⟩
    · obtain ⟨words, hxs, hwords, hout⟩ := ih []
      rw [hstep, hout]
      refine ⟨(held ++ [x]) :: words, ?_, ?_, rfl⟩
      · rw [List.flatten_cons, List.append_assoc, ← hxs]
        simp
      · rw [List.forall_mem_cons]
        exact ⟨by simpa using hlen, hwords⟩
    · obtain ⟨words, hxs, hwords, hout⟩ := ih (held ++ [x])
      rw [hstep, hout]
      exact ⟨words, by rw [← hxs]; simp, hwords, rfl⟩

/-- The symbols gathered are the remainder of the input. -/
theorem length_feed_assembler {held : List α} (h : held.length < n) (xs : List α) :
    ((assembler n join).feed held xs).1.length = (held.length + xs.length) % n := by
  induction xs generalizing held with
  | nil => exact (Nat.mod_eq_of_lt h).symm
  | cons x xs ih =>
    have hcons : held.length + (x :: xs).length = held.length + 1 + xs.length := by
      rw [List.length_cons, Nat.add_comm xs.length, Nat.add_assoc]
    rw [feed_cons, hcons]
    by_cases hx : held.length + 1 = n
    · have h0 : ([] : List α).length < n := Nat.lt_of_le_of_lt (Nat.zero_le _) h
      rw [assembler_step_of_eq x hx, ih h0, List.length_nil, Nat.zero_add, hx,
        Nat.add_mod_left]
    · have h1 : (held ++ [x]).length < n := by
        rw [List.length_append, List.length_singleton]
        omega
      rw [assembler_step_of_ne x hx, ih h1, List.length_append, List.length_singleton]

end Assembler

end Transducer
