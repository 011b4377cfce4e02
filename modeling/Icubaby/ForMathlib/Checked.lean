import Icubaby.ForMathlib.Transducer

/-!
# Transducers with assertions

The steps of a `CheckedTransducer` can fail: it is a `Transducer` with the assertions that its code
makes. `Checks I C T` says that `C` does what `T` does in the states of an invariant `I`, so that
no assertion fails there. It lifts to runs (`Checks.feed`), to calls in any order
(`Checks.interactive`) and to cascades through a buffer of fixed size (`Checks.comp`).
-/

/-- A transducer whose steps can fail. -/
structure CheckedTransducer (ε σ α β : Type*) where
  init : σ
  step : σ → α → Except ε (σ × List β)
  finish : σ → Except ε (σ × List β)

namespace CheckedTransducer

universe u

variable {ε α : Type*} {σ τ β γ : Type u}

/-- An assertion. -/
def require (p : Prop) [Decidable p] (e : ε) : Except ε PUnit := if p then .ok ⟨⟩ else .error e

theorem require_bind {p : Prop} [Decidable p] (hp : p) (e : ε) (f : PUnit → Except ε γ) :
    (require p e >>= f) = f ⟨⟩ := by
  rw [require, if_pos hp]
  rfl

theorem require_eq_ok {p : Prop} [Decidable p] {e : ε} {u : PUnit} :
    require p e = .ok u ↔ p := by
  rw [require]
  split_ifs with hp <;> simp [hp]

section Runs

variable (C : CheckedTransducer ε σ α β)

/-- Feeds the symbols of a list in order, unless a step fails. -/
def feed (s : σ) : List α → Except ε (σ × List β)
  | [] => .ok (s, [])
  | x :: xs => do
    let r ← C.step s x
    let r' ← feed r.1 xs
    return (r'.1, r.2 ++ r'.2)

/-- The machine whose symbols are calls. -/
def interactive : CheckedTransducer ε σ (Transducer.Call α) β where
  init := C.init
  step s
    | .step x => C.step s x
    | .finish => C.finish s
  finish := C.finish

/-- The cascade through a buffer with room for a number of symbols, which is asserted. -/
def comp (C' : CheckedTransducer ε τ β γ) (room : ℕ) (e : ε) :
    CheckedTransducer ε (σ × τ) α γ where
  init := (C.init, C'.init)
  step s x := do
    let r ← C.step s.1 x
    require (r.2.length ≤ room) e
    let r' ← C'.feed s.2 r.2
    return ((r.1, r'.1), r'.2)
  finish s := do
    let r ← C.finish s.1
    require (r.2.length ≤ room) e
    let r' ← C'.feed s.2 r.2
    let r'' ← C'.finish r'.1
    return ((r.1, r''.1), r'.2 ++ r''.2)

/-- A transducer without assertions. -/
def ofTransducer (T : Transducer σ α β) : CheckedTransducer ε σ α β where
  init := T.init
  step s x := .ok (T.step s x)
  finish s := .ok (T.finish s)

end Runs

/-- **The assertions of `C` hold in the states of `I`**, where it does what `T` does, and no call
leaves these states. -/
structure Checks (I : σ → Prop) (C : CheckedTransducer ε σ α β) (T : Transducer σ α β) :
    Prop where
  init : C.init = T.init ∧ I T.init
  step {s : σ} : I s → ∀ x, C.step s x = .ok (T.step s x) ∧ I (T.step s x).1
  finish {s : σ} : I s → C.finish s = .ok (T.finish s) ∧ I (T.finish s).1

theorem checks_ofTransducer (T : Transducer σ α β) :
    Checks (fun _ => True) (ofTransducer T : CheckedTransducer ε σ α β) T where
  init := ⟨rfl, trivial⟩
  step _ _ := ⟨rfl, trivial⟩
  finish _ := ⟨rfl, trivial⟩

namespace Checks

variable {I : σ → Prop} {J : τ → Prop} {C : CheckedTransducer ε σ α β} {T : Transducer σ α β}
  {C' : CheckedTransducer ε τ β γ} {T' : Transducer τ β γ}

/-- **Run rule**: no assertion fails in a run. -/
theorem feed (h : Checks I C T) {s : σ} (hs : I s) (xs : List α) :
    C.feed s xs = .ok (T.feed s xs) ∧ I (T.feed s xs).1 := by
  induction xs generalizing s with
  | nil => exact ⟨rfl, hs⟩
  | cons x xs ih =>
    obtain ⟨hstep, hnext⟩ := h.step hs x
    obtain ⟨hfeed, hend⟩ := ih hnext
    refine ⟨?_, hend⟩
    rw [CheckedTransducer.feed, hstep]
    change (C.feed _ xs >>= _) = _
    rw [hfeed]
    rfl

/-- The rule for calls in any order. -/
theorem interactive (h : Checks I C T) : Checks I C.interactive T.interactive where
  init := h.init
  step hs c := by
    cases c with
    | step x => exact h.step hs x
    | finish => exact h.finish hs
  finish := h.finish

/-- **Composition rule**: the buffer between the two machines has to have enough room. -/
theorem comp (h : Checks I C T) (h' : Checks J C' T') {room : ℕ} (e : ε)
    (hstep : ∀ s, I s → ∀ x, (T.step s x).2.length ≤ room)
    (hfinish : ∀ s, I s → (T.finish s).2.length ≤ room) :
    Checks (fun s => I s.1 ∧ J s.2) (C.comp C' room e) (T.comp T') where
  init := ⟨Prod.ext h.init.1 h'.init.1, h.init.2, h'.init.2⟩
  step := by
    rintro s ⟨hs, hs'⟩ x
    obtain ⟨hok, hnext⟩ := h.step hs x
    obtain ⟨hok', hnext'⟩ := h'.feed hs' (T.step s.1 x).2
    refine ⟨?_, hnext, hnext'⟩
    change (C.step s.1 x >>= _) = _
    rw [hok]
    change (require _ e >>= _) = _
    rw [require_bind (hstep s.1 hs x)]
    change (C'.feed s.2 _ >>= _) = _
    rw [hok']
    rfl
  finish := by
    rintro s ⟨hs, hs'⟩
    obtain ⟨hok, hnext⟩ := h.finish hs
    obtain ⟨hok', hnext'⟩ := h'.feed hs' (T.finish s.1).2
    obtain ⟨hok'', hend⟩ := h'.finish hnext'
    refine ⟨?_, hnext, hend⟩
    change (C.finish s.1 >>= _) = _
    rw [hok]
    change (require _ e >>= _) = _
    rw [require_bind (hfinish s.1 hs)]
    change (C'.feed s.2 _ >>= _) = _
    rw [hok']
    change (C'.finish _ >>= _) = _
    rw [hok'']
    rfl

end Checks

end CheckedTransducer
