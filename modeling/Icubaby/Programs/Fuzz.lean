import Icubaby.Output.Chain
import Icubaby.Ranges.Pipeline

/-!
# The fuzz tests of the unit tests

There are three ways to convert: to call the transcoder for each code unit, to copy to an output
iterator, and to read a range adaptor. The fuzz tests convert any input in two of them and expect
the same units and the same flag, for each of the nine pairs of character types. `fuzz` says that
they cannot fail.
-/

namespace Icubaby

namespace Fuzz

variable {σ α β : Type}

/-- `Manual` -/
def manual (t : Transcoder σ α β) (input : List α) : List β × Bool :=
  let r := input.foldl (fun r codeUnit =>
    let d := t.step r.1 codeUnit
    (d.1, r.2 ++ d.2)) (t.init, [])
  let d := t.finish r.1
  (r.2 ++ d.2, t.wellFormed d.1)

/-- The loop of `Manual`. -/
theorem foldl_manual (t : Transcoder σ α β) (s : σ) (out : List β) (input : List α) :
    input.foldl (fun r codeUnit =>
      let d := t.step r.1 codeUnit
      (d.1, r.2 ++ d.2)) (s, out) = ((t.feed s input).1, out ++ (t.feed s input).2) := by
  induction input generalizing s out with
  | nil => exact Prod.ext rfl (List.append_nil out).symm
  | cons x input ih =>
    rw [List.foldl_cons, ih, Transducer.feed_cons, List.append_assoc]

theorem manual_eq (t : Transcoder σ α β) (input : List α) :
    manual t input = ((t.run input).2, t.wellFormed (t.run input).1) := by
  rw [manual, foldl_manual, List.nil_append]
  rfl

/-- `ManualAndIteratorAlwaysMatch` -/
def manualAndIteratorAlwaysMatch (F T : CharType) (input : List F.Unit) : Bool :=
  let man := manual (transcoder F T) input
  let it := Output.copyThrough (transcoder F T) (transcoder F T).init input
  man.2 = (transcoder F T).wellFormed it.1 && man.1 = it.2

/-- `ManualAndRangeAdaptorAlwaysMatch`: `fuel` bounds the number of turns of each loop. -/
def manualAndRangeAdaptorAlwaysMatch (fuel : ℕ) (F T : CharType) (input : List F.Unit) :
    Except RangeFault Bool :=
  let man := manual (transcoder F T) input
  let r := adaptor (transcoder F T) (maxOutputBytes F T) fuel
    (CursorRange.ofList RangeFault.pastEnd input)
  match r.collectAll .outOfFuel fuel ((), true) with
  | .ok (rngOut, view) => .ok (man.2 = view.2 && rngOut = man.1)
  | .error fault => .error fault

end Fuzz

open Fuzz

/-- **The three ways to convert agree** on every input, well formed or not. -/
theorem fuzz (F T : CharType) (input : List F.Unit) :
    manualAndIteratorAlwaysMatch F T input = true ∧
      ∃ N, ∀ fuel, N ≤ fuel → manualAndRangeAdaptorAlwaysMatch fuel F T input = .ok true := by
  constructor
  · rw [manualAndIteratorAlwaysMatch, manual_eq, Output.copyThrough_eq]
    have hrun : (transcoder F T).runFrom (transcoder F T).init input =
        (transcoder F T).run input := rfl
    simp only [hrun, decide_true, Bool.and_self]
  · refine ⟨max input.length ((transcoder F T).run input).2.length, fun fuel hfuel => ?_⟩
    have hdelivers := delivers_transcoder F T input ((le_max_left _ _).trans hfuel)
    rw [manualAndRangeAdaptorAlwaysMatch,
      hdelivers.collectAll ((le_max_right _ _).trans hfuel), manual_eq]
    simp only [decide_true, Bool.and_self]

end Icubaby
