import Icubaby.Output.Chain
import Icubaby.Ranges.Pipeline

/-!
# The test program `exhaust.cpp`

The program takes all code points through the transcoders and asserts that they come back. One test
uses the same two objects for one code point after the other; another converts all of them at once,
by way of a converter between equal encodings; the third goes back and forth between UTF-8 and
UTF-16 with views, or with output iterators where there are no ranges.

Nothing depends on which code points these are, nor on their order: `exhaust` says that no assertion
fails for any list, and that the two objects are left as good as new.
-/

namespace Icubaby

namespace Exhaust

/-- What ends the program early. -/
inductive Failure
  /-- An `assert` of the program. -/
  | assertion
  /-- A fault in the iteration over a range. -/
  | range (fault : RangeFault)

/-- `assert (b)` -/
def assert (b : Bool) : Except Failure PUnit := if b then .ok () else .error .assertion

/-! ### The program -/

/-- The values of `for (code_point = 0; code_point <= max_code_point; ++code_point)`. -/
def codePoints : List UInt32 := (List.range (maxCodePoint + 1)).map UInt32.ofNat

/-- The states of the objects `encode` and `decode`. -/
abbrev Coders (T : CharType) : Type := TranscoderState .char32 T × TranscoderState T .char32

/-- The body of the loop in `check_each_code_point`. -/
def checkCodePoint (T : CharType) (s : Coders T) (codePoint : UInt32) :
    Except Failure (Coders T) :=
  if IsSurrogate codePoint.toNat then .ok s
  else do
    let encoded := (transcoder .char32 T).runFrom s.1 [codePoint]
    assert ((transcoder .char32 T).wellFormed encoded.1)
    let output := Output.copyThrough (transcoder T .char32) s.2 encoded.2
    assert ((transcoder T .char32).wellFormed output.1)
    assert (output.2.length = 1)
    assert (output.2.head? = some codePoint)
    return (encoded.1, output.1)

/-- `check_each_code_point` -/
def checkEachCodePoint (T : CharType) (cps : List UInt32) : Except Failure (Coders T) :=
  cps.foldlM (checkCodePoint T) ((transcoder .char32 T).init, (transcoder T .char32).init)

/-- `all_code_points` -/
def allCodePoints (cps : List UInt32) : List UInt32 := cps.filter fun cp => ¬ IsSurrogate cp.toNat

/-- `check_all_code_points`: whether the result matches the initial collection. -/
def checkAllCodePoints (T : CharType) (all : List UInt32) : Except Failure Bool := do
  let encoded := Output.copyThrough (transcoder .char32 T) (transcoder .char32 T).init all
  assert ((transcoder .char32 T).wellFormed encoded.1)
  let midcoded := Output.copyThrough (transcoder T T) (transcoder T T).init encoded.2
  assert ((transcoder T T).wellFormed midcoded.1)
  let decoded := Output.copyThrough (transcoder T .char32) (transcoder T .char32).init midcoded.2
  assert ((transcoder T .char32).wellFormed decoded.1)
  return decoded.2 = all

/-- `convert`, with ranges: `fuel` bounds the number of turns of each loop. -/
def convert (fuel : ℕ) (F T : CharType) (input : List F.Unit) : Except Failure (List T.Unit) :=
  let range := adaptor (transcoder F T) (maxOutputBytes F T) fuel
    (CursorRange.ofList RangeFault.pastEnd input)
  match range.collectAll .outOfFuel fuel ((), true) with
  | .ok (output, view) => do
    assert view.2
    return output
  | .error fault => .error (.range fault)

/-- `convert`, without ranges. -/
def convertWithoutRanges (F T : CharType) (input : List F.Unit) : Except Failure (List T.Unit) := do
  let r := Output.copyThrough (transcoder F T) (transcoder F T).init input
  assert ((transcoder F T).wellFormed r.1)
  return r.2

/-- `check_utf8_to_16` -/
def checkUtf8To16 (fuel : ℕ) (all : List UInt32) : Except Failure PUnit := do
  let all8a ← convert fuel .char32 .char8 all
  let all16 ← convert fuel .char8 .char16 all8a
  let all8b ← convert fuel .char16 .char8 all16
  assert (all8a = all8b)

/-! ### Each step on its own -/

/-- An assertion that holds. -/
theorem assert_bind {δ : Type} {b : Bool} (h : b = true) (f : PUnit → Except Failure δ) :
    (assert b >>= f) = f ⟨⟩ := by
  rw [h]
  rfl

variable {F T : CharType}

/-- Both objects are as good as new: they stand for no units, and their flags are set. -/
def Coders.AsNew (s : Coders T) : Prop :=
  (TranscoderState.StandsFor s.1 [] ∧ (transcoder .char32 T).wellFormed s.1 = true) ∧
    TranscoderState.StandsFor s.2 [] ∧ (transcoder T .char32).wellFormed s.2 = true

/-- An object that stands for no units can convert well-formed input, and then does so again. -/
theorem runFrom_encode {s : TranscoderState F T} (hs : TranscoderState.StandsFor s [])
    (hwf : (transcoder F T).wellFormed s = true) (cs : List Char) :
    let r := (transcoder F T).runFrom s (F.code.encode cs)
    r.2 = T.code.encode cs ∧ (transcoder F T).wellFormed r.1 = true ∧
      TranscoderState.StandsFor r.1 [] := by
  have ht := converts_transcoder F T
  obtain ⟨hout, hflag⟩ := ht.runFrom (F.code.encode cs) hs
  have hfed := ht.feed (F.code.encode cs) hs
  rw [List.nil_append, CharType.rest_eq_nil_of_wellFormed ⟨cs, rfl⟩] at hfed
  rw [List.nil_append, CharType.decodeTo, CharType.scalars_encode] at hout
  rw [List.nil_append, hwf, (F.wellFormed_iff_read _).mp ⟨cs, rfl⟩, Bool.and_true] at hflag
  refine ⟨hout, hflag, ?_⟩
  rw [Transducer.runFrom_fst, ht.settled hfed]
  exact hfed

theorem copyThrough_encode (cs : List Char) :
    let r := Output.copyThrough (transcoder F T) (transcoder F T).init (F.code.encode cs)
    r.2 = T.code.encode cs ∧ (transcoder F T).wellFormed r.1 = true := by
  obtain ⟨hs, hwf⟩ := (converts_transcoder F T).init
  obtain ⟨hout, hflag, -⟩ := runFrom_encode hs hwf cs
  rw [Output.copyThrough_eq]
  exact ⟨hout, hflag⟩

/-- **One turn of the loop** leaves both objects as good as new. -/
theorem checkCodePoint_ok {s : Coders T} (hs : s.AsNew) {cp : UInt32}
    (hcp : cp.toNat ≤ maxCodePoint) :
    ∃ s' : Coders T, checkCodePoint T s cp = .ok s' ∧ s'.AsNew := by
  rw [checkCodePoint]
  split_ifs with hsurrogate
  · exact ⟨s, rfl, hs⟩
  · obtain ⟨c, rfl⟩ : ∃ c : Char, cp = c.val :=
      ⟨⟨cp, isValidChar_iff.mpr ⟨hsurrogate, hcp⟩⟩, rfl⟩
    have hword : [c.val] = CharType.char32.code.encode [c] := rfl
    obtain ⟨hout, hwf, hstands⟩ := runFrom_encode hs.1.1 hs.1.2 [c]
    obtain ⟨hout', hwf', hstands'⟩ := runFrom_encode hs.2.1 hs.2.2 [c]
    refine ⟨(_, _), ?_, ⟨hstands, hwf⟩, hstands', hwf'⟩
    dsimp only
    have hlen : (CharType.char32.code.encode [c]).length = 1 := rfl
    have hhead : (CharType.char32.code.encode [c]).head? = some c.val := rfl
    rw [hword, assert_bind hwf, hout, Output.copyThrough_eq, assert_bind hwf', hout',
      assert_bind (decide_eq_true hlen), assert_bind (decide_eq_true hhead)]
    rfl

/-- **The loop**, over any list of code points. -/
theorem foldlM_checkCodePoint {s : Coders T} (hs : s.AsNew) {cps : List UInt32}
    (hcps : ∀ cp ∈ cps, cp.toNat ≤ maxCodePoint) :
    ∃ s' : Coders T, cps.foldlM (checkCodePoint T) s = .ok s' ∧ s'.AsNew := by
  induction cps generalizing s with
  | nil => exact ⟨s, rfl, hs⟩
  | cons cp cps ih =>
    obtain ⟨s', hok, hnext⟩ := checkCodePoint_ok hs (hcps cp List.mem_cons_self)
    obtain ⟨s'', hrest, hend⟩ := ih hnext fun cp' hcp' => hcps cp' (List.mem_cons_of_mem _ hcp')
    refine ⟨s'', ?_, hend⟩
    rw [List.foldlM_cons, hok]
    exact hrest

/-- The code points that are left are scalar values. -/
theorem exists_allCodePoints {cps : List UInt32} (hcps : ∀ cp ∈ cps, cp.toNat ≤ maxCodePoint) :
    ∃ cs : List Char, allCodePoints cps = CharType.char32.code.encode cs := by
  have hscalar : ∀ cp ∈ allCodePoints cps,
      ¬ IsSurrogate cp.toNat ∧ cp.toNat ≤ maxCodePoint := by
    intro cp hcp
    obtain ⟨hmem, hsurrogate⟩ := List.mem_filter.mp hcp
    exact ⟨of_decide_eq_true hsurrogate, hcps cp hmem⟩
  obtain ⟨cs, hcs⟩ := CharType.wellFormed_char32 hscalar
  exact ⟨cs, hcs.symm⟩

theorem checkAllCodePoints_encode (cs : List Char) :
    checkAllCodePoints T (CharType.char32.code.encode cs) = .ok true := by
  obtain ⟨hout, hwf⟩ := copyThrough_encode (F := .char32) (T := T) cs
  obtain ⟨hmid, hwf'⟩ := copyThrough_encode (F := T) (T := T) cs
  obtain ⟨hdecoded, hwf''⟩ := copyThrough_encode (F := T) (T := .char32) cs
  rw [checkAllCodePoints]
  dsimp only
  rw [assert_bind hwf, hout, assert_bind hwf', hmid, assert_bind hwf'', hdecoded,
    decide_eq_true rfl]
  rfl

/-- **Both versions of `convert`** do the same, on well-formed input and on any other. -/
theorem convert_eq (F T : CharType) (input : List F.Unit) {fuel : ℕ}
    (hfuel : input.length ≤ fuel) (hfuel' : (F.decodeTo T input).length ≤ fuel) :
    convert fuel F T input = convertWithoutRanges F T input := by
  have hdelivers := delivers_transcoder F T input hfuel
  have hout := ((converts_transcoder F T).run input).1
  rw [← hout] at hfuel'
  rw [convert, convertWithoutRanges, hdelivers.collectAll hfuel', Output.copyThrough_eq]
  rfl

theorem convert_encode (F T : CharType) (cs : List Char) {fuel : ℕ}
    (hfuel : (F.code.encode cs).length ≤ fuel) (hfuel' : (T.code.encode cs).length ≤ fuel) :
    convert fuel F T (F.code.encode cs) = .ok (T.code.encode cs) := by
  obtain ⟨hout, hwf⟩ := copyThrough_encode (F := F) (T := T) cs
  have hdecode : F.decodeTo T (F.code.encode cs) = T.code.encode cs := by
    rw [CharType.decodeTo, CharType.scalars_encode]
  rw [convert_eq F T _ hfuel (hdecode ▸ hfuel'), convertWithoutRanges, assert_bind hwf, hout]
  rfl

theorem codePoints_le {cp : UInt32} (h : cp ∈ codePoints) : cp.toNat ≤ maxCodePoint := by
  obtain ⟨n, hn, rfl⟩ := List.mem_map.mp h
  have hle : n ≤ maxCodePoint := Nat.le_of_lt_succ (List.mem_range.mp hn)
  rw [UInt32.toNat_ofNat']
  exact (Nat.mod_le _ _).trans hle

end Exhaust

open Exhaust

/-- **No assertion of the test program fails**, for any list of code points in place of the list of
all of them, and what is decoded always matches. The objects that are used for one code point after
the other are as good as new afterwards. -/
theorem exhaust (cps : List UInt32) (hcps : ∀ cp ∈ cps, cp.toNat ≤ maxCodePoint) :
    (∀ T : CharType, ∃ s : Coders T, checkEachCodePoint T cps = .ok s ∧ s.AsNew) ∧
      (∀ T : CharType, checkAllCodePoints T (allCodePoints cps) = .ok true) ∧
      ∃ N, ∀ fuel, N ≤ fuel → checkUtf8To16 fuel (allCodePoints cps) = .ok () := by
  refine ⟨fun T => ?_, fun T => ?_, ?_⟩
  · exact foldlM_checkCodePoint
      ⟨(converts_transcoder .char32 T).init, (converts_transcoder T .char32).init⟩ hcps
  · obtain ⟨cs, hcs⟩ := exists_allCodePoints hcps
    rw [hcs]
    exact checkAllCodePoints_encode cs
  · obtain ⟨cs, hcs⟩ := exists_allCodePoints hcps
    refine ⟨(CharType.char8.code.encode cs).length + (CharType.char16.code.encode cs).length +
      (CharType.char32.code.encode cs).length, fun fuel hfuel => ?_⟩
    rw [checkUtf8To16, hcs, convert_encode .char32 .char8 cs (by omega) (by omega)]
    change (convert fuel .char8 .char16 (CharType.char8.code.encode cs) >>= _) = _
    rw [convert_encode .char8 .char16 cs (by omega) (by omega)]
    change (convert fuel .char16 .char8 (CharType.char16.code.encode cs) >>= _) = _
    rw [convert_encode .char16 .char8 cs (by omega) (by omega)]
    change assert (decide (_ = _)) = _
    rw [decide_eq_true rfl]
    rfl

/-- The list of the program. -/
theorem exhaust_main :
    (∀ T : CharType, ∃ s : Coders T, checkEachCodePoint T codePoints = .ok s ∧ s.AsNew) ∧
      (∀ T : CharType, checkAllCodePoints T (allCodePoints codePoints) = .ok true) ∧
      ∃ N, ∀ fuel, N ≤ fuel → checkUtf8To16 fuel (allCodePoints codePoints) = .ok () :=
  exhaust codePoints fun _ h => codePoints_le h

end Icubaby
