import Icubaby.ForMathlib.Transducer

/-!
# Segments of a sequence of calls

A sequence of calls of a transducer consists of *segments*, lists of symbols each of which is ended
by a flush, and of the symbols after the last flush (`Call.segments`). Between two flushes the
machine is fed, and a segment with its flush is a run (`feed_interactive_segment`), so a property of
runs from the states in between gives one of all sequences of calls, by `Call.segments_induction`.

A machine that holds symbols back and never flushes them can stand in front of another one and pass
the flushes on. `Transducer.relay` turns its calls into those of the machine behind it.
-/

namespace Transducer

variable {σ α β : Type*}

namespace Call

/-- The segments that a flush ends, and the symbols after the last flush. -/
def segments : List (Call α) → List (List α) × List α
  | [] => ([], [])
  | step x :: calls =>
    match segments calls with
    | ([], last) => ([], x :: last)
    | (xs :: segs, last) => ((x :: xs) :: segs, last)
  | finish :: calls => ([] :: (segments calls).1, (segments calls).2)

@[simp] theorem segments_map_step (xs : List α) : segments (xs.map step) = ([], xs) := by
  induction xs with
  | nil => rfl
  | cons x xs ih => rw [List.map_cons, segments, ih]

@[simp] theorem segments_append_finish (xs : List α) (calls : List (Call α)) :
    segments (xs.map step ++ finish :: calls) =
      (xs :: (segments calls).1, (segments calls).2) := by
  induction xs with
  | nil => rfl
  | cons x xs ih => rw [List.map_cons, List.cons_append, segments, ih]

/-- A sequence of calls has no flush, or a first one. -/
theorem exists_first_finish (calls : List (Call α)) :
    (∃ xs : List α, calls = xs.map step) ∨
      ∃ (xs : List α) (rest : List (Call α)), calls = xs.map step ++ finish :: rest := by
  induction calls with
  | nil => exact .inl ⟨[], rfl⟩
  | cons c calls ih =>
    cases c with
    | finish => exact .inr ⟨[], calls, rfl⟩
    | step x =>
      rcases ih with ⟨xs, rfl⟩ | ⟨xs, rest, rfl⟩
      · exact .inl ⟨x :: xs, rfl⟩
      · exact .inr ⟨x :: xs, rest, rfl⟩

/-- **Induction along the segments.** -/
theorem segments_induction {P : List (Call α) → Prop} (last : ∀ xs : List α, P (xs.map step))
    (segment : ∀ (xs : List α) rest, P rest → P (xs.map step ++ finish :: rest))
    (calls : List (Call α)) :
    P calls := by
  induction hn : calls.length using Nat.strongRecOn generalizing calls with
  | ind n ih =>
    rcases exists_first_finish calls with ⟨xs, rfl⟩ | ⟨xs, rest, rfl⟩
    · exact last xs
    · refine segment xs rest (ih rest.length ?_ rest rfl)
      rw [← hn, List.length_append, List.length_cons]
      omega

end Call

variable (T : Transducer σ α β)

/-- Calls that do not flush feed the machine. -/
theorem feed_interactive_map_step (s : σ) (xs : List α) :
    T.interactive.feed s (xs.map .step) = T.feed s xs := by
  induction xs generalizing s with
  | nil => rfl
  | cons x xs ih =>
    rw [List.map_cons, feed_cons, ih]
    rfl

/-- **A segment and its flush are a run.** -/
theorem feed_interactive_segment (s : σ) (xs : List α) (rest : List (Call α)) :
    T.interactive.feed s (xs.map .step ++ .finish :: rest) =
      ((T.interactive.feed (T.runFrom s xs).1 rest).1,
        (T.runFrom s xs).2 ++ (T.interactive.feed (T.runFrom s xs).1 rest).2) := by
  have hfinish : ∀ p : σ, T.interactive.step p .finish = T.finish p := fun p => rfl
  rw [feed_append, feed_interactive_map_step, feed_cons, hfinish, runFrom_snd, runFrom_fst,
    List.append_assoc]

/-! ### Passing flushes on -/

/-- The machine that writes calls: the blocks of `T` symbol by symbol, and every flush as it is. -/
def relay : Transducer σ (Call α) (Call β) where
  init := T.init
  step s
    | .step x => ((T.step s x).1, (T.step s x).2.map .step)
    | .finish => (s, [.finish])
  finish s := (s, [])

/-- Calls that do not flush are relayed as calls that do not flush. -/
theorem feed_relay_map_step (s : σ) (xs : List α) :
    T.relay.feed s (xs.map .step) = ((T.feed s xs).1, (T.feed s xs).2.map .step) := by
  induction xs generalizing s with
  | nil => rfl
  | cons x xs ih =>
    have hstep : T.relay.step s (.step x) = ((T.step s x).1, (T.step s x).2.map .step) := rfl
    rw [List.map_cons, feed_cons, hstep, ih, feed_cons, List.map_append]

end Transducer
