import Icubaby.Output.Chain
import Icubaby.Ranges.Units

/-!
# The converters of `demo8.cpp`

`convert` writes the whole input through an output iterator and looks at the flag in the end.
`convert2` calls the transcoder itself and bails out as soon as the flag is cleared. As the flag is
a latch, this makes no difference (`convert2Loop_eq`): both return the UTF-16 form of well-formed
UTF-8, and nothing for any other input (`demo8`).
-/

namespace Icubaby

namespace Demo8

/-- `convert` -/
def convert (src : List UInt8) : Option (List UInt16) :=
  let r := Output.copyThrough t8_16 t8_16.init src
  if t8_16.wellFormed r.1 then some r.2 else none

/-- The loop of `convert2`, for any transcoder: the transcoder and what has been appended, or `none`
if the flag has been cleared. -/
def convert2Loop {σ α β : Type} (t : Transcoder σ α β) : σ → List β → List α → Option (σ × List β)
  | s, out, [] => some (s, out)
  | s, out, x :: xs =>
    let r := t.step s x
    if t.wellFormed r.1 then convert2Loop t r.1 (out ++ r.2) xs else none

/-- `convert2` -/
def convert2 (src : List UInt8) : Option (List UInt16) := do
  let r ← convert2Loop t8_16 t8_16.init [] src
  let e := t8_16.finish r.1
  if t8_16.wellFormed e.1 then some (r.2 ++ e.2) else none

/-- **Bailing out** makes no difference if the flag is a latch: it would still be cleared at the
end of the loop. -/
theorem convert2Loop_eq {σ α β : Type} {t : Transcoder σ α β} (h : TranscodeView.Latches t) (s : σ)
    (out : List β) (xs : List α) (hs : t.wellFormed s = true) :
    convert2Loop t s out xs =
      if t.wellFormed (t.feed s xs).1 then some ((t.feed s xs).1, out ++ (t.feed s xs).2)
      else none := by
  induction xs generalizing s out with
  | nil =>
    rw [convert2Loop, Transducer.feed_nil, if_pos hs, List.append_nil]
  | cons x xs ih =>
    rw [convert2Loop, Transducer.feed_cons]
    cases hx : t.wellFormed (t.step s x).1 with
    | true =>
      rw [if_pos rfl, ih _ _ hx, List.append_assoc]
    | false =>
      have hend : ¬ t.wellFormed (t.feed (t.step s x).1 xs).1 = true := by
        intro hwf
        have hxs : t.feed (t.step s x).1 xs = ((t.feed (t.step s x).1 xs).1, _) := rfl
        rw [h.of_feed hxs hwf] at hx
        cases hx
      rw [if_neg (by simp), if_neg hend]

theorem convert2_eq_convert (src : List UInt8) : convert2 src = convert src := by
  have hlatch : TranscodeView.Latches t8_16 := (fits_transcoder .char8 .char16).toLatches
  rw [convert2, convert2Loop_eq hlatch _ _ _ rfl, convert, Output.copyThrough_eq, List.nil_append]
  change _ = if t8_16.wellFormed (t8_16.finish (t8_16.feed t8_16.init src).1).1 then
    some ((t8_16.feed t8_16.init src).2 ++ (t8_16.finish (t8_16.feed t8_16.init src).1).2) else none
  cases hwf : t8_16.wellFormed (t8_16.feed t8_16.init src).1 with
  | true => rfl
  | false =>
    have hend : ¬ t8_16.wellFormed (t8_16.finish (t8_16.feed t8_16.init src).1).1 = true := by
      intro hend
      rw [hlatch.of_finish hend] at hwf
      cases hwf
    rw [if_neg hend]
    rfl

end Demo8

/-- **The two converters** agree on every input. They succeed exactly on well-formed UTF-8, and
return its UTF-16 form. -/
theorem demo8 (src : List UInt8) :
    Demo8.convert2 src = Demo8.convert src ∧
      ∀ out, Demo8.convert src = some out ↔
        ∃ cs, src = utf8.encode cs ∧ out = utf16.encode cs := by
  refine ⟨Demo8.convert2_eq_convert src, fun out => ?_⟩
  have hwell := wellFormed_run_iff (T := .char16) (F := .char8) src
  have hout := (transcoder_run .char8 .char16 src).1
  rw [Demo8.convert, Output.copyThrough_eq]
  change (if (transcoder .char8 .char16).wellFormed ((transcoder .char8 .char16).run src).1 then
    some ((transcoder .char8 .char16).run src).2 else none) = some out ↔ _
  split_ifs with hwf
  · obtain ⟨cs, rfl⟩ := hwell.mp hwf
    have henc : ((transcoder .char8 .char16).run (CharType.char8.code.encode cs)).2 =
        utf16.encode cs := by
      rw [hout, CharType.decodeTo, CharType.scalars_encode]
      rfl
    rw [henc, Option.some.injEq]
    constructor
    · rintro rfl
      exact ⟨cs, rfl, rfl⟩
    · rintro ⟨ds, hds, rfl⟩
      have hscalars := congrArg CharType.char8.scalars hds
      rw [CharType.scalars_encode] at hscalars
      rw [hscalars]
      exact congrArg utf16.encode (CharType.char8.scalars_encode ds)
  · constructor
    · intro h
      cases h
    · rintro ⟨cs, rfl, -⟩
      exact absurd (hwell.mpr ⟨cs, rfl⟩) hwf

end Icubaby
