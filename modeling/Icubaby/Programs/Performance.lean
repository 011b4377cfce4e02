import Icubaby.Programs.Exhaust
import Icubaby.Programs.Iconv

/-!
# The benchmark `performance.cpp`

The program encodes all code points, except for the byte order mark, and notes how many units each
of them takes. Then it converts them one by one with a single object, which is flushed after each
code point and used again. The output goes to a buffer of a fixed size, from its begin in each
iteration, and what `end_cp` returns is thrown away.

Neither the reads nor the writes of the loop are checked by the program. Here they are:
`performance` says that none of them is out of bounds, whatever list of code points is taken in
place of the list of all of them, and that only the assertion about their number can fail;
`performance_main` says that it does not.
-/

namespace Icubaby

namespace Performance

open Exhaust (codePoints runFrom_encode)
open Iconv (byteOrderMark resize store store_append)

/-- What ends the program early, or ought to. -/
inductive Failure
  /-- An `assert` about a code point. -/
  | assertion
  /-- `assert (result.sizes.size () == total_code_points)` -/
  | count
  /-- A unit is read past the end of the input. -/
  | inputEnd
  /-- A unit is written past the end of the output. -/
  | outputEnd
  deriving DecidableEq, Repr

/-! ### The program -/

def numCodePoints : ℕ := maxCodePoint + 1
def numHighSurrogates : ℕ := lastHighSurrogate - firstHighSurrogate + 1
def numLowSurrogates : ℕ := lastLowSurrogate - firstLowSurrogate + 1
def totalCodePoints : ℕ := numCodePoints - 1 - numHighSurrogates - numLowSurrogates

/-- `convert_code_point`: the units are appended to `codeUnits`. -/
def convertCodePoint (T : CharType) (codePoint : UInt32) (codeUnits : List T.Unit) :
    Except Failure (List T.Unit) :=
  let r := (transcoder .char32 T).run [codePoint]
  if (transcoder .char32 T).wellFormed r.1 then .ok (codeUnits ++ r.2) else .error .assertion

/-- `all_code_points` -/
structure AllCodePoints (T : CharType) where
  codeUnits : List T.Unit
  sizes : List UInt8

/-- The body of the loop in `make_all_code_points`, with `old_size` beside the result. -/
def addCodePoint (T : CharType) (s : AllCodePoints T × ℕ) (codePoint : UInt32) :
    Except Failure (AllCodePoints T × ℕ) :=
  if ¬ IsSurrogate codePoint.toNat ∧ codePoint ≠ byteOrderMark.val then do
    let codeUnits ← convertCodePoint T codePoint s.1.codeUnits
    let newSize := codeUnits.length
    if newSize - s.2 ≤ T.longestSequence ∧ newSize - s.2 > 0 then
      return (⟨codeUnits, s.1.sizes ++ [UInt8.ofNat (newSize - s.2)]⟩, newSize)
    else throw .assertion
  else .ok s

/-- `make_all_code_points`, for the code points `cps` in place of all of them. -/
def makeAllCodePoints (T : CharType) (cps : List UInt32) : Except Failure (AllCodePoints T) := do
  let s ← cps.foldlM (addCodePoint T) (⟨[], []⟩, 0)
  if s.1.sizes.length = totalCodePoints then return s.1 else throw .count

/-- The variables of the loops in `go`. The iterators are distances from the begin. -/
structure Loop (F T : CharType) where
  transcoder : TranscoderState F T
  output : List T.Unit
  outputIterator : ℕ
  cuPos : ℕ

namespace Loop

variable {F T : CharType}

/-- A call of the transcoder writes through `output_iterator`. -/
def write (l : Loop F T) (r : TranscoderState F T × List T.Unit) : Except Failure (Loop F T) :=
  let outputIterator := l.outputIterator + r.2.length
  if outputIterator ≤ l.output.length then
    .ok ⟨r.1, store l.output l.outputIterator r.2, outputIterator, l.cuPos⟩
  else .error .outputEnd

/-- The body of the innermost loop. -/
def codeUnit (codeUnits : List F.Unit) (l : Loop F T) : Except Failure (Loop F T) :=
  match codeUnits[l.cuPos]? with
  | none => .error .inputEnd
  | some cu => do
    let l' ← l.write ((Icubaby.transcoder F T).step l.transcoder cu)
    return { l' with cuPos := l.cuPos + 1 }

/-- The innermost loop, for as many units as are left of a code point. -/
def codeUnitLoop (codeUnits : List F.Unit) : ℕ → Loop F T → Except Failure (Loop F T)
  | 0, l => .ok l
  | n + 1, l => l.codeUnit codeUnits >>= codeUnitLoop codeUnits n

/-- The body of the loop over `sizes`. -/
def codePoint (codeUnits : List F.Unit) (l : Loop F T) (cuCount : UInt8) :
    Except Failure (Loop F T) := do
  let l ← codeUnitLoop codeUnits cuCount.toNat l
  -- the iterator that `end_cp` returns is not used
  let l' ← l.write ((Icubaby.transcoder F T).finish l.transcoder)
  if (Icubaby.transcoder F T).wellFormed l'.transcoder then
    return { l' with outputIterator := l.outputIterator }
  else throw .assertion

/-- The loop over `iterations`, for as many as are left. -/
def iterate (all : AllCodePoints F) : ℕ → Loop F T → Except Failure (Loop F T)
  | 0, l => .ok l
  | n + 1, l =>
    all.sizes.foldlM (codePoint all.codeUnits) { l with outputIterator := 0, cuPos := 0 } >>=
      iterate all n

end Loop

/-- `go`: the buffer that is left. -/
def go (F T : CharType) (cps : List UInt32) (iterations : UInt16) :
    Except Failure (List T.Unit) := do
  let output := resize [] (T.longestSequence * totalCodePoints)
  let all ← makeAllCodePoints F cps
  let l ← Loop.iterate all iterations.toNat ⟨(transcoder F T).init, output, 0, 0⟩
  return l.output

/-! ### All code points -/

variable {F T : CharType}

/-- The number of units of a code point, as it is noted in `sizes`. -/
def size (T : CharType) (c : Char) : UInt8 := UInt8.ofNat (T.code.encode [c]).length

/-- A buffer with room for the longest sequences is large enough. -/
theorem length_encode_le (T : CharType) (cs : List Char) :
    (T.code.encode cs).length ≤ T.longestSequence * cs.length := by
  induction cs with
  | nil => exact Nat.zero_le _
  | cons c cs ih =>
    have hle := length_word_le T c
    rw [PrefixCode.encode_cons, List.length_append, List.length_cons, Nat.mul_succ]
    omega

theorem length_encode_singleton_le (T : CharType) (c : Char) :
    (T.code.encode [c]).length ≤ T.longestSequence :=
  (length_encode_le T [c]).trans_eq (Nat.mul_one _)

/-- Nothing is lost in the conversion to `std::uint_least8_t`. -/
theorem toNat_size (T : CharType) (c : Char) : (size T c).toNat = (T.code.encode [c]).length := by
  have hle := length_encode_singleton_le T c
  have hlt : T.longestSequence < 2 ^ 8 := by cases T <;> decide
  rw [size, UInt8.toNat_ofNat', Nat.mod_eq_of_lt (hle.trans_lt hlt)]

theorem convertCodePoint_ok (T : CharType) (c : Char) (codeUnits : List T.Unit) :
    convertCodePoint T c.val codeUnits = .ok (codeUnits ++ T.code.encode [c]) := by
  obtain ⟨hs, hflag⟩ := (converts_transcoder .char32 T).init
  obtain ⟨hout, hwf, -⟩ := runFrom_encode hs hflag [c]
  have hrun : (transcoder .char32 T).run [c.val] =
      (transcoder .char32 T).runFrom (transcoder .char32 T).init
        (CharType.char32.code.encode [c]) := rfl
  rw [convertCodePoint, hrun, if_pos hwf, hout]

/-- **One turn** of the loop in `make_all_code_points`. -/
theorem addCodePoint_ok (T : CharType) {c : Char} (hc : c ≠ byteOrderMark) (cs : List Char) :
    addCodePoint T (⟨T.code.encode cs, cs.map (size T)⟩, (T.code.encode cs).length) c.val =
      .ok (⟨T.code.encode (cs ++ [c]), (cs ++ [c]).map (size T)⟩,
        (T.code.encode (cs ++ [c])).length) := by
  have hkept : ¬ IsSurrogate c.val.toNat ∧ c.val ≠ byteOrderMark.val :=
    ⟨not_isSurrogate_toNat c, fun heq => hc (Char.ext heq)⟩
  have hnew : (T.code.encode (cs ++ [c])).length - (T.code.encode cs).length =
      (T.code.encode [c]).length := by
    rw [PrefixCode.encode_append, List.length_append, Nat.add_sub_cancel_left]
  have hpos : (T.code.encode [c]).length > 0 :=
    List.length_pos_iff.mpr (mt T.code.encode_eq_nil_iff.mp (List.cons_ne_nil c []))
  rw [addCodePoint, if_pos hkept, convertCodePoint_ok, ← PrefixCode.encode_append]
  change (if _ ∧ _ then Except.ok _ else _) = _
  rw [hnew, if_pos ⟨length_encode_singleton_le T c, hpos⟩, List.map_append]
  rfl

/-- **The loop** in `make_all_code_points`, over any list of code points. -/
theorem foldlM_addCodePoint (T : CharType) {cps : List UInt32} {cs : List Char}
    (hcs : Iconv.allCodePoints cps = cs.map Char.val) (done : List Char) :
    cps.foldlM (addCodePoint T)
        (⟨T.code.encode done, done.map (size T)⟩, (T.code.encode done).length) =
      .ok (⟨T.code.encode (done ++ cs), (done ++ cs).map (size T)⟩,
        (T.code.encode (done ++ cs)).length) := by
  induction cps generalizing cs done with
  | nil =>
    obtain rfl := List.map_eq_nil_iff.mp hcs.symm
    rw [List.append_nil]
    rfl
  | cons cp cps ih =>
    rw [Iconv.allCodePoints, List.filter_cons] at hcs
    split_ifs at hcs with hkept
    · obtain ⟨c, cs, rfl, rfl, hrest⟩ := List.map_eq_cons_iff.mp hcs.symm
      have hc : c ≠ byteOrderMark := fun heq => (of_decide_eq_true hkept).2 (congrArg _ heq)
      rw [List.foldlM_cons, addCodePoint_ok T hc]
      change cps.foldlM _ _ = _
      rw [ih hrest.symm, List.append_assoc, List.singleton_append]
    · rw [List.foldlM_cons, addCodePoint, if_neg (mt decide_eq_true hkept)]
      exact ih hcs done

theorem pairwise_codePoints : codePoints.Pairwise (· < ·) := by
  rw [codePoints, List.pairwise_map]
  refine List.pairwise_lt_range.imp_of_mem ?_
  intro m n hm hn hlt
  have hm' := List.mem_range.mp hm
  have hn' := List.mem_range.mp hn
  rw [maxCodePoint] at hm' hn'
  rw [UInt32.lt_iff_toNat_lt, UInt32.toNat_ofNat', UInt32.toNat_ofNat',
    Nat.mod_eq_of_lt (by omega), Nat.mod_eq_of_lt (by omega)]
  exact hlt

theorem val_mem_codePoints (c : Char) : c.val ∈ codePoints := by
  refine List.mem_map.mpr ⟨c.toNat, List.mem_range.mpr ?_, UInt32.ofNat_toNat⟩
  exact Nat.lt_succ_of_le (toNat_le_maxCodePoint c)

/-- The scalar values that the program encodes are in order, -/
theorem pairwise_of_allCodePoints {cs : List Char}
    (hcs : Iconv.allCodePoints codePoints = cs.map Char.val) : cs.Pairwise (· < ·) := by
  have hsorted := pairwise_codePoints.filter fun cp =>
    ¬ IsSurrogate cp.toNat ∧ cp ≠ byteOrderMark.val
  rw [← Iconv.allCodePoints, hcs, List.pairwise_map] at hsorted
  exact hsorted

/-- and only the byte order mark is missing. -/
theorem mem_iff_of_allCodePoints {cs : List Char}
    (hcs : Iconv.allCodePoints codePoints = cs.map Char.val) (c : Char) :
    c ∈ cs ↔ c ≠ byteOrderMark := by
  have hmem : c ∈ cs ↔ c.val ∈ Iconv.allCodePoints codePoints := by
    rw [hcs, List.mem_map_of_injective fun _ _ => Char.ext]
  rw [hmem, Iconv.allCodePoints, List.mem_filter, decide_eq_true_iff]
  constructor
  · rintro ⟨-, -, hne⟩ heq
    exact hne (congrArg _ heq)
  · intro hc
    exact ⟨val_mem_codePoints c, not_isSurrogate_toNat c, fun heq => hc (Char.ext heq)⟩

/-- The constant is right: of the numbers up to the last code point, it leaves out the surrogates
and one more. -/
theorem length_eq_totalCodePoints {cs : List Char} (hnodup : cs.Nodup)
    (hmem : ∀ c, c ∈ cs ↔ c ≠ byteOrderMark) : cs.length = totalCodePoints := by
  have hinj : Function.Injective Char.toNat := fun c d h => Char.ext (UInt32.toNat_inj.mp h)
  have hset : (cs.map Char.toNat).toFinset =
      Finset.range numCodePoints \
        insert 0xFEFF (Finset.Icc firstHighSurrogate lastLowSurrogate) := by
    ext n
    rw [List.mem_toFinset, List.mem_map, Finset.mem_sdiff, Finset.mem_range, Finset.mem_insert,
      Finset.mem_Icc, not_or]
    constructor
    · rintro ⟨c, hc, rfl⟩
      refine ⟨Nat.lt_succ_of_le (toNat_le_maxCodePoint c), ?_, ?_⟩
      · exact fun heq => (hmem c).mp hc (hinj heq)
      · exact fun h => not_isSurrogate_toNat c (isSurrogate_iff.mpr h)
    · rintro ⟨hlt, hne, hsurrogate⟩
      have hval := toNat_ofNat (mt isSurrogate_iff.mp hsurrogate) (Nat.le_of_lt_succ hlt)
      refine ⟨Char.ofNat n, (hmem _).mpr fun heq => hne ?_, hval⟩
      rw [← hval, heq]
      rfl
  have hsub : insert 0xFEFF (Finset.Icc firstHighSurrogate lastLowSurrogate) ⊆
      Finset.range numCodePoints := by
    intro n hn
    rw [Finset.mem_insert, Finset.mem_Icc, lastLowSurrogate] at hn
    rw [Finset.mem_range, numCodePoints, maxCodePoint]
    omega
  have hnotMem : 0xFEFF ∉ Finset.Icc firstHighSurrogate lastLowSurrogate := by
    rw [Finset.mem_Icc, lastLowSurrogate]
    omega
  rw [← List.length_map Char.toNat, ← List.toFinset_card_of_nodup (hnodup.map hinj), hset,
    Finset.card_sdiff_of_subset hsub, Finset.card_range, Finset.card_insert_of_notMem hnotMem,
    Nat.card_Icc]
  rfl

/-- `make_all_code_points` asserts that there are as many code points as expected. -/
theorem makeAllCodePoints_eq (T : CharType) {cps : List UInt32} {cs : List Char}
    (hcs : Iconv.allCodePoints cps = cs.map Char.val) :
    makeAllCodePoints T cps = if cs.length = totalCodePoints
      then .ok ⟨T.code.encode cs, cs.map (size T)⟩ else .error .count := by
  have hloop := foldlM_addCodePoint T hcs []
  rw [List.nil_append] at hloop
  rw [makeAllCodePoints]
  change (cps.foldlM (addCodePoint T)
    (⟨T.code.encode [], [].map (size T)⟩, (T.code.encode []).length) >>= _) = _
  rw [hloop]
  change (if _ then Except.ok _ else _) = _
  rw [List.length_map]
  rfl

/-! ### The buffer -/

/-- Storing at the begin. -/
theorem store_zero (buf us : List T.Unit) : store buf 0 us = us ++ buf.drop us.length := by
  rw [store, List.take_zero, List.nil_append, Nat.zero_add]

/-- Storing behind what has been stored at the begin. -/
theorem store_store (buf us vs : List T.Unit) :
    store (store buf 0 us) us.length vs = store buf 0 (us ++ vs) := by
  rw [store_zero, store_append, List.drop_drop, store_zero, List.length_append, List.append_assoc]

theorem store_nil (buf : List T.Unit) : store buf 0 [] = buf := by
  rw [store_zero]
  rfl

/-- Storing the same units once more. -/
theorem store_idem (buf us : List T.Unit) : store (store buf 0 us) 0 us = store buf 0 us := by
  rw [store_zero, store_zero, List.drop_left]

theorem length_store {buf us : List T.Unit} (h : us.length ≤ buf.length) :
    (store buf 0 us).length = buf.length := by
  rw [store_zero, List.length_append, List.length_drop]
  omega

namespace Loop

/-- The variables after `read` has been read and `out` has been written to the begin of `buf`. -/
def after (buf : List T.Unit) (s : TranscoderState F T) (read : List F.Unit) (out : List T.Unit) :
    Loop F T := ⟨s, store buf 0 out, out.length, read.length⟩

variable {buf : List T.Unit}

theorem write_after {s : TranscoderState F T} (read : List F.Unit) {out : List T.Unit}
    (r : TranscoderState F T × List T.Unit) (hfits : (out ++ r.2).length ≤ buf.length) :
    (after buf s read out).write r = .ok (after buf r.1 read (out ++ r.2)) := by
  rw [List.length_append] at hfits
  have hroom : out.length + r.2.length ≤ (store buf 0 out).length := by
    rw [length_store (by omega)]
    exact hfits
  change (if out.length + r.2.length ≤ (store buf 0 out).length then
    Except.ok (⟨r.1, store (store buf 0 out) out.length r.2, out.length + r.2.length,
      read.length⟩ : Loop F T) else Except.error Failure.outputEnd) = _
  rw [if_pos hroom, store_store, ← List.length_append]
  rfl

/-- **One turn** of the innermost loop. -/
theorem codeUnit_after {codeUnits read : List F.Unit} {u : F.Unit}
    (hread : codeUnits[read.length]? = some u) {s : TranscoderState F T} {out : List T.Unit}
    (hfits : (out ++ ((Icubaby.transcoder F T).step s u).2).length ≤ buf.length) :
    (after buf s read out).codeUnit codeUnits =
      .ok (after buf ((Icubaby.transcoder F T).step s u).1 (read ++ [u])
        (out ++ ((Icubaby.transcoder F T).step s u).2)) := by
  have hunit : (after buf s read out).codeUnit codeUnits =
      ((after buf s read out).write ((Icubaby.transcoder F T).step s u) >>= fun l =>
        .ok { l with cuPos := (read ++ [u]).length }) := by
    change (match codeUnits[read.length]? with
      | none => _
      | some cu => _) = _
    rw [hread, List.length_append]
    rfl
  rw [hunit, write_after read _ hfits]
  rfl

/-- **The innermost loop** feeds the transcoder. -/
theorem codeUnitLoop_ok (pre us post : List F.Unit) {s : TranscoderState F T} {out : List T.Unit}
    (hfits : (out ++ ((Icubaby.transcoder F T).feed s us).2).length ≤ buf.length) :
    codeUnitLoop (pre ++ us ++ post) us.length (after buf s pre out) =
      .ok (after buf ((Icubaby.transcoder F T).feed s us).1 (pre ++ us)
        (out ++ ((Icubaby.transcoder F T).feed s us).2)) := by
  induction us generalizing pre s out with
  | nil =>
    rw [Transducer.feed_nil, List.append_nil, List.append_nil]
    rfl
  | cons u us ih =>
    rw [Transducer.feed_cons, ← List.append_assoc] at hfits ⊢
    have hread : (pre ++ u :: us ++ post)[pre.length]? = some u := by
      rw [List.append_assoc, List.getElem?_append_right le_rfl, Nat.sub_self]
      rfl
    have hunit := codeUnit_after hread ((List.prefix_append _ _).length_le.trans hfits)
    have hsplit : pre ++ u :: us ++ post = pre ++ [u] ++ us ++ post := by
      rw [List.append_assoc pre [u] us]
      rfl
    rw [List.length_cons, codeUnitLoop, hunit]
    change codeUnitLoop _ _ _ = _
    rw [hsplit, ih (pre ++ [u]) hfits, List.append_assoc pre [u] us]
    rfl

/-- An object that stands for no units decides a code point with its last unit: `end_cp` has nothing
to write where the next code point will be written. -/
theorem feed_encode_singleton {s : TranscoderState F T} (hs : TranscoderState.StandsFor s [])
    (hflag : (Icubaby.transcoder F T).wellFormed s = true) (c : Char) :
    let r := (Icubaby.transcoder F T).feed s (F.code.encode [c])
    r.2 = T.code.encode [c] ∧ (Icubaby.transcoder F T).finish r.1 = (r.1, []) ∧
      (Icubaby.transcoder F T).wellFormed r.1 = true ∧ TranscoderState.StandsFor r.1 [] := by
  have ht := converts_transcoder F T
  obtain ⟨hout, hwf, -⟩ := runFrom_encode hs hflag [c]
  have hfed := ht.feed (F.code.encode [c]) hs
  rw [List.nil_append, CharType.rest_eq_nil_of_wellFormed ⟨[c], rfl⟩] at hfed
  have hfinish := ht.settled hfed
  rw [Transducer.runFrom_snd, hfinish, List.append_nil] at hout
  rw [Transducer.runFrom_fst, hfinish] at hwf
  exact ⟨hout, hfinish, hwf, hfed⟩

/-- The body of the loop over `sizes`, when nothing goes wrong. -/
theorem codePoint_of_ok {codeUnits : List F.Unit} {cuCount : UInt8} {l l₁ l₂ : Loop F T}
    (hloop : codeUnitLoop codeUnits cuCount.toNat l = .ok l₁)
    (hwrite : l₁.write ((Icubaby.transcoder F T).finish l₁.transcoder) = .ok l₂)
    (hwf : (Icubaby.transcoder F T).wellFormed l₂.transcoder = true) :
    l.codePoint codeUnits cuCount = .ok { l₂ with outputIterator := l₁.outputIterator } := by
  rw [codePoint, hloop]
  change (l₁.write _ >>= _) = _
  rw [hwrite]
  change (if _ then Except.ok _ else _) = _
  rw [if_pos hwf]

/-- **One turn** of the loop over `sizes`. -/
theorem codePoint_ok (done : List Char) (c : Char) (rest : List Char) {s : TranscoderState F T}
    (hs : TranscoderState.StandsFor s [])
    (hflag : (Icubaby.transcoder F T).wellFormed s = true)
    (hfits : (T.code.encode (done ++ [c])).length ≤ buf.length) :
    ∃ s', (after buf s (F.code.encode done) (T.code.encode done)).codePoint
        (F.code.encode (done ++ c :: rest)) (size F c) =
        .ok (after buf s' (F.code.encode (done ++ [c])) (T.code.encode (done ++ [c]))) ∧
      TranscoderState.StandsFor s' [] ∧ (Icubaby.transcoder F T).wellFormed s' = true := by
  obtain ⟨hout, hfinish, hwf, hnext⟩ := feed_encode_singleton hs hflag c
  have hunits : F.code.encode (done ++ c :: rest) =
      F.code.encode (done ++ [c]) ++ F.code.encode rest := by
    rw [← PrefixCode.encode_append, List.append_assoc]
    rfl
  have hroom : (T.code.encode done ++
      ((Icubaby.transcoder F T).feed s (F.code.encode [c])).2).length ≤ buf.length := by
    rwa [hout, ← PrefixCode.encode_append]
  have hloop := codeUnitLoop_ok (F.code.encode done) (F.code.encode [c]) (F.code.encode rest) hroom
  rw [hout, ← T.code.encode_append done [c], ← F.code.encode_append done [c], ← hunits,
    ← toNat_size] at hloop
  generalize ((Icubaby.transcoder F T).feed s (F.code.encode [c])).1 = s' at *
  have hwrite : (after buf s' (F.code.encode (done ++ [c])) (T.code.encode (done ++ [c]))).write
      ((Icubaby.transcoder F T).finish s') =
        .ok (after buf s' (F.code.encode (done ++ [c])) (T.code.encode (done ++ [c]))) := by
    rw [hfinish, write_after _ _ (by rwa [List.append_nil]), List.append_nil]
  exact ⟨s', codePoint_of_ok hloop hwrite hwf, hnext, hwf⟩

/-- **The loop** over `sizes`, from any code point on. -/
theorem foldlM_codePoint (done rest : List Char) {s : TranscoderState F T}
    (hs : TranscoderState.StandsFor s [])
    (hflag : (Icubaby.transcoder F T).wellFormed s = true)
    (hfits : (T.code.encode (done ++ rest)).length ≤ buf.length) :
    ∃ s', (rest.map (size F)).foldlM (codePoint (F.code.encode (done ++ rest)))
        (after buf s (F.code.encode done) (T.code.encode done)) =
        .ok (after buf s' (F.code.encode (done ++ rest)) (T.code.encode (done ++ rest))) ∧
      TranscoderState.StandsFor s' [] ∧ (Icubaby.transcoder F T).wellFormed s' = true := by
  induction rest generalizing done s with
  | nil =>
    rw [List.append_nil]
    exact ⟨s, rfl, hs, hflag⟩
  | cons c rest ih =>
    have hsplit : done ++ c :: rest = done ++ [c] ++ rest := by
      rw [List.append_assoc]
      rfl
    have hnext : (T.code.encode (done ++ [c])).length ≤ buf.length := by
      rw [hsplit, PrefixCode.encode_append] at hfits
      exact (List.prefix_append _ _).length_le.trans hfits
    obtain ⟨s', hturn, hs', hflag'⟩ := codePoint_ok done c rest hs hflag hnext
    obtain ⟨s'', hloop, hend⟩ := ih (done ++ [c]) hs' hflag' (hsplit ▸ hfits)
    refine ⟨s'', ?_, hend⟩
    rw [List.map_cons, List.foldlM_cons, hturn]
    change List.foldlM _ _ _ = _
    rw [hsplit, hloop]

/-- **The loop** over `iterations`: each of them writes the same over what the last one wrote. -/
theorem iterate_ok (cs : List Char) (n : ℕ) {l : Loop F T}
    (hs : TranscoderState.StandsFor l.transcoder [])
    (hflag : (Icubaby.transcoder F T).wellFormed l.transcoder = true)
    (hfits : (T.code.encode cs).length ≤ l.output.length) :
    ∃ l', iterate ⟨F.code.encode cs, cs.map (size F)⟩ n l = .ok l' ∧
      l'.output = store l.output 0 (if n = 0 then [] else T.code.encode cs) := by
  induction n generalizing l with
  | zero => exact ⟨l, rfl, (store_nil _).symm⟩
  | succ n ih =>
    obtain ⟨s', hloop, hs', hflag'⟩ := foldlM_codePoint [] cs hs hflag hfits
    obtain ⟨l', hrest, hout⟩ :=
      ih (l := after l.output s' (F.code.encode cs) (T.code.encode cs)) hs' hflag'
        (hfits.trans_eq (length_store hfits).symm)
    refine ⟨l', ?_, ?_⟩
    · rw [iterate]
      change ((cs.map (size F)).foldlM (codePoint (F.code.encode ([] ++ cs)))
        (after l.output l.transcoder (F.code.encode []) (T.code.encode [])) >>= _) = _
      rw [hloop]
      exact hrest
    · rw [hout, if_neg n.succ_ne_zero]
      change store (store l.output 0 (T.code.encode cs)) 0 _ = _
      split_ifs
      · exact store_nil _
      · exact store_idem _ _

end Loop

/-- What has been stored at the begin of a fresh buffer. -/
theorem store_resize {us : List T.Unit} {n : ℕ} (h : us.length ≤ n) :
    store (resize [] n) 0 us = resize us n := by
  rw [store_zero, resize, resize, List.take_nil, List.nil_append, List.drop_replicate,
    List.take_of_length_le h]
  rfl

/-- The whole run, if there are as many code points as expected. -/
theorem go_ok (F T : CharType) {cps : List UInt32} {cs : List Char}
    (hcs : Iconv.allCodePoints cps = cs.map Char.val) (hlen : cs.length = totalCodePoints)
    (iterations : UInt16) : go F T cps iterations =
      .ok (resize (if iterations = 0 then [] else T.code.encode cs)
        (T.longestSequence * totalCodePoints)) := by
  obtain ⟨hs, hflag⟩ := (converts_transcoder F T).init
  have hfits := hlen ▸ length_encode_le T cs
  obtain ⟨l, hloop, hout⟩ := Loop.iterate_ok cs iterations.toNat
    (l := ⟨(transcoder F T).init, resize [] (T.longestSequence * totalCodePoints), 0, 0⟩)
    hs hflag (hfits.trans_eq (Iconv.length_resize _ _).symm)
  have hzero : iterations.toNat = 0 ↔ iterations = 0 := UInt16.toNat_inj (b := 0)
  simp only [hzero] at hout
  rw [store_resize (by split_ifs; exacts [Nat.zero_le _, hfits])] at hout
  rw [go, makeAllCodePoints_eq F hcs, if_pos hlen]
  change (Loop.iterate _ _ _ >>= _) = _
  rw [hloop]
  change Except.ok l.output = _
  rw [hout]

end Performance

open Performance

/-- **Nothing is read or written out of bounds** by the benchmark, for all encodings, any list of
code points in place of the list of all of them, and any number of iterations. No assertion fails
but the one that there are as many code points as there should be. If there are, and unless there
are no iterations, the buffer holds their encodings, and zeros behind them. -/
theorem performance {cps : List UInt32} (hcps : ∀ cp ∈ cps, cp.toNat ≤ maxCodePoint) :
    ∃ cs : List Char, Iconv.allCodePoints cps = cs.map Char.val ∧
      ∀ (F T : CharType) (iterations : UInt16), go F T cps iterations =
        if cs.length = totalCodePoints then
          .ok (Iconv.resize (if iterations = 0 then [] else T.code.encode cs)
            (T.longestSequence * totalCodePoints))
        else .error .count := by
  obtain ⟨cs, hcs, -⟩ := Iconv.exists_allCodePoints hcps
  rw [← map_val_eq_encode] at hcs
  refine ⟨cs, hcs, ?_⟩
  intro F T iterations
  by_cases hlen : cs.length = totalCodePoints
  · rw [if_pos hlen, go_ok F T hcs hlen]
  · rw [if_neg hlen, go, makeAllCodePoints_eq F hcs, if_neg hlen]
    rfl

/-- **The benchmark runs without a fault** for the list of the program: the code points are all
scalar values other than the byte order mark, in their order. -/
theorem performance_main : ∃ cs : List Char, cs.Pairwise (· < ·) ∧
    (∀ c, c ∈ cs ↔ c ≠ Iconv.byteOrderMark) ∧ ∀ (F T : CharType) (iterations : UInt16),
      go F T Exhaust.codePoints iterations =
        .ok (Iconv.resize (if iterations = 0 then [] else T.code.encode cs)
          (T.longestSequence * totalCodePoints)) := by
  obtain ⟨cs, hcs, hgo⟩ := performance fun _ h => Exhaust.codePoints_le h
  have hsorted := pairwise_of_allCodePoints hcs
  have hmem := mem_iff_of_allCodePoints hcs
  have hnodup : cs.Nodup := by
    apply hsorted.imp
    intro c d hlt heq
    subst heq
    exact UInt32.lt_irrefl _ hlt
  refine ⟨cs, hsorted, hmem, ?_⟩
  intro F T iterations
  rw [hgo, if_pos (length_eq_totalCodePoints hnodup hmem)]

end Icubaby
