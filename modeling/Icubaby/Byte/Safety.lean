import Icubaby.Byte.Assertions
import Icubaby.Byte.Dialogue
import Icubaby.Transcoder.Assertions

/-!
# Calls in any order and assertions

`Icubaby.Byte.Assertions` has the machine of the byte transcoder with its assertions, for streams of
bytes. Calls of `end_cp` may come in between: they start the run of UTF-8 in states that bytes alone
do not leave in this way. `assertions_hold` says that no assertion about the state of a transcoder
ever fails. It does not speak of `assert (coder == this)` in the overloads of `end_cp` that take an
`icubaby::iterator`: these fail for an iterator of another object.
-/

namespace Icubaby

open CheckedTransducer (Checks)

variable {T : CharType}

namespace ByteTranscoder

/-- `end_cp` -/
def checkedEndCp (b : ByteTranscoder T) : Except Violation (ByteTranscoder T × List T.Unit) :=
  match b.variant with
  | .monostate => b.checkedRun8Start (b.state ≠ .start)
  | _ => .ok b.endCp

theorem checkedEndCp_bom {b : ByteTranscoder T} (hstate : b.state ∈ bomStates)
    (hvar : b.variant = .monostate) : b.checkedEndCp = .ok b.endCp := by
  have hrun : ∀ s ∈ bomStates, s.isRunMode = false := by decide
  rw [checkedEndCp, endCp, hvar]
  exact checkedRun8Start_eq (hrun _ hstate) hvar _

theorem checkedEndCp_run {b : ByteTranscoder T} (hvar : b.variant ≠ .monostate) :
    b.checkedEndCp = .ok b.endCp := by
  rw [checkedEndCp]
  split
  next h => exact absurd h hvar
  · rfl

end ByteTranscoder

namespace Dialogue

open ByteTranscoder Framing

variable {d : Dialogue} {b : ByteTranscoder T} {out : List T.Unit}

/-- **All assertions hold** in the states that calls lead to: those of `operator()`, -/
theorem Holds.checkedCall (h : d.Holds b out) (x : UInt8) : b.checkedCall x = .ok (b.call x) := by
  cases d with
  | detecting seen =>
    obtain ⟨hstate, hvar⟩ := h.1.mem_bomStates
    exact checkedCall_bom hstate hvar x
  | utf8 calls =>
    obtain ⟨hstate, hvar, -⟩ := h
    exact checkedCall_run8 hstate hvar x
  | utf16 e calls =>
    obtain ⟨hstate, -, -, hvar, -⟩ := h
    rcases run16State_cases e (e.assembler16.relay.feed [] calls).1 with hkeep | hlast
    · exact checkedCall_keep (hstate ▸ hkeep) x
    · exact checkedCall_run16 (hstate ▸ hlast) hvar x
  | utf32 e calls =>
    obtain ⟨hstate, -, -, hvar, -⟩ := h
    rcases run32State_cases e (e.assembler32.relay.feed [] calls).1 with hkeep | hlast
    · exact checkedCall_keep (hstate ▸ hkeep) x
    · exact checkedCall_run32 (hstate ▸ hlast) hvar x

/-- those of `end_cp`, -/
theorem Holds.checkedEndCp (h : d.Holds b out) : b.checkedEndCp = .ok b.endCp := by
  cases d with
  | detecting seen =>
    obtain ⟨hstate, hvar⟩ := h.1.mem_bomStates
    exact checkedEndCp_bom hstate hvar
  | utf8 calls => exact checkedEndCp_run (by rw [h.2.1]; simp)
  | utf16 e calls => exact checkedEndCp_run (by rw [h.2.2.2.1]; simp)
  | utf32 e calls => exact checkedEndCp_run (by rw [h.2.2.2.1]; simp)

/-- and the one of `selected_encoding`. -/
theorem Holds.selectedEncoding_ne (h : d.Holds b out) (hrun : b.state.isRunMode = true) :
    b.selectedEncoding ≠ .unknown := by
  rw [h.selectedEncoding]
  cases d with
  | detecting seen =>
    have hbom : ∀ s ∈ bomStates, s.isRunMode = false := by decide
    rw [hbom _ h.1.mem_bomStates.1] at hrun
    cases hrun
  | utf8 calls => simp [encoding]
  | utf16 e calls => cases e <;> simp [encoding]
  | utf32 e calls => cases e <;> simp [encoding]

end Dialogue

/-- `transcoder<std::byte, ToEncoding>` with its assertions -/
def checkedTx (T : CharType) : CheckedTransducer Violation (ByteTranscoder T) UInt8 T.Unit where
  init := (tx T).init
  step := ByteTranscoder.checkedCall
  finish := ByteTranscoder.checkedEndCp

/-- The invariant is that some dialogue has led to the state. -/
theorem checks_tx (T : CharType) :
    Checks (fun b => ∃ (d : Dialogue) (out : List T.Unit), d.Holds b out) (checkedTx T)
      (tx T).toTransducer where
  init := ⟨rfl, _, _, Dialogue.holds_ofCalls T []⟩
  step := by
    rintro b ⟨d, out, h⟩ x
    exact ⟨h.checkedCall x, _, _, h.next (.step x)⟩
  finish := by
    rintro b ⟨d, out, h⟩
    exact ⟨h.checkedEndCp, _, _, h.next .finish⟩

/-- **No assertion ever fails**, whatever is called in whatever order, apart from the one in the
overloads of `end_cp` for an `icubaby::iterator` that this belongs to the same object: not in the
code-unit transcoders, and not in the byte transcoders, which call them. With the assertions the
machines do what they do without them. -/
theorem assertions_hold :
    (∀ (F T : CharType) (calls : List (Transducer.Call F.Unit)),
      (checkedTranscoder F T).interactive.feed (checkedTranscoder F T).init calls =
        .ok ((transcoder F T).interactive.feed (transcoder F T).init calls)) ∧
    ∀ (T : CharType) (calls : List (Transducer.Call UInt8)),
      (checkedTx T).interactive.feed (checkedTx T).init calls =
        .ok ((tx T).interactive.feed (tx T).init calls) ∧
      let s := ((tx T).interactive.feed (tx T).init calls).1
      s.state.isRunMode = true → s.selectedEncoding ≠ .unknown := by
  constructor
  · intro F T calls
    obtain ⟨I, hchecks⟩ := exists_checks_transcoder F T
    rw [hchecks.init.1]
    exact (hchecks.interactive.feed hchecks.init.2 calls).1
  · intro T calls
    have hchecks := checks_tx T
    refine ⟨(hchecks.interactive.feed hchecks.init.2 calls).1, fun hrun => ?_⟩
    exact (Dialogue.holds_ofCalls T calls).selectedEncoding_ne hrun

end Icubaby
