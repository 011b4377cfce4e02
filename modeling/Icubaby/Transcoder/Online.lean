import Icubaby.Transcoder.Family

/-!
# Conversions before the end of the input

What a transcoder has written, and what its observers say, after some units and before `end_cp`.
`Converts` alone determines it: the output is the conversion of `CharType.settled`, the units
before what is undecided, and the flag is that of their reading (`Converts.feed_out`).

So the flag falls with the first unit that makes the input hopeless (`wellFormed_feed_iff`), and
ill-formed UTF-8 spoils at most the one code point that follows it (`feed_after`).
-/

namespace Icubaby

variable {σ : Type} {F T : CharType}

/-- **Run rule without the flush**: what is settled has been written, and nothing else. -/
theorem Converts.feed_out {t : Transcoder σ F.Unit T.Unit} {R : σ → List F.Unit → Prop}
    (h : Converts F T t R) {s : σ} {p : List F.Unit} (hs : R s p) (us : List F.Unit) :
    (t.feed s us).2 = F.decodeTo T (F.settled (p ++ us)) ∧
      t.wellFormed (t.feed s us).1 =
        (t.wellFormed s && (F.read (F.settled (p ++ us))).all Option.isSome) := by
  have hfed := h.feed us hs
  constructor
  · -- the flush writes the rest
    have hout := (h.runFrom us hs).1
    have hflush := (h.runFrom [] hfed).1
    have hsplit := F.decodeTo_append T (p ++ us) []
    rw [Transducer.runFrom_snd, Transducer.feed_nil, List.nil_append] at hflush
    rw [List.append_nil] at hsplit
    rw [Transducer.runFrom_snd, hflush, hsplit] at hout
    exact List.append_cancel_right hout
  · -- units that complete the rest to a word leave the flag alone
    obtain ⟨c, ⟨vs, hvs⟩, -⟩ := F.pending_rest (p ++ us)
    have hword : (F.read (F.rest (p ++ us) ++ vs)).all Option.isSome = true := by
      rw [hvs, ← F.wellFormed_iff_read]
      exact ⟨[c], by simp⟩
    have hwf := (h.runFrom (us ++ vs) hs).2
    rw [Transducer.runFrom_append, (h.runFrom vs hfed).2, hword, Bool.and_true,
      ← List.append_assoc, F.read_append, List.all_append, hword, Bool.and_true] at hwf
    exact hwf

/-- What a fresh transcoder has written before the flush. -/
theorem transcoder_feed (F T : CharType) (us : List F.Unit) :
    let r := (transcoder F T).feed (transcoder F T).init us
    r.2 = F.decodeTo T (F.settled us) ∧
      ((transcoder F T).wellFormed r.1 = true ↔ F.code.WellFormed (F.settled us)) ∧
      ((transcoder F T).isPartial r.1 = false ↔ F.rest us = []) := by
  have ht := converts_transcoder F T
  obtain ⟨hout, hwf⟩ := ht.feed_out ht.init.1 us
  rw [List.nil_append] at hout hwf
  rw [ht.init.2, Bool.true_and] at hwf
  exact ⟨hout, by rw [hwf, F.wellFormed_iff_read], ht.isPartial (ht.feed_init us)⟩

/-- Nothing has been written exactly as long as the input is the begin of one code point. -/
theorem feed_eq_nil_iff (F T : CharType) (us : List F.Unit) :
    ((transcoder F T).feed (transcoder F T).init us).2 = [] ↔ F.code.Pending us := by
  rw [(transcoder_feed F T us).1, CharType.decodeTo_eq_nil_iff, CharType.settled_eq_nil_iff]

/-! ### The reader -/

namespace CharType

/-- The machine that reads code points: a state is what is undecided, and a step writes the scalar
values that it settles. -/
noncomputable def reader (F : CharType) : Transducer (List F.Unit) F.Unit Char where
  init := []
  step p x := (F.rest (p ++ [x]), F.scalars (F.settled (p ++ [x])))
  finish p := ([], F.scalars p)

theorem reader_feed {p : List F.Unit} (hp : F.code.Pending p) (us : List F.Unit) :
    F.reader.feed p us = (F.rest (p ++ us), F.scalars (F.settled (p ++ us))) := by
  induction us generalizing p with
  | nil =>
    rw [List.append_nil, rest_of_pending hp, settled_of_pending hp, scalars_nil]
    rfl
  | cons x us ih =>
    have hassoc : p ++ x :: us = (p ++ [x]) ++ us := by simp
    have hstep : F.reader.step p x = (F.rest (p ++ [x]), F.scalars (F.settled (p ++ [x]))) := rfl
    rw [Transducer.feed_cons, hstep, ih (F.pending_rest _), hassoc, F.rest_append (p ++ [x]),
      F.scalars_settled_append (p ++ [x])]

/-- With the flush everything is read. -/
theorem reader_runFrom (us : List F.Unit) : (F.reader.runFrom [] us).2 = F.scalars us := by
  rw [Transducer.runFrom_snd, reader_feed F.code.pending_nil, List.nil_append]
  exact F.scalars_settled_append_rest us

/-- The scalar values that are written once `us` has been read: all of them when the input has
ended, and otherwise those that are settled. -/
noncomputable def delivered (F : CharType) (us : List F.Unit) (last : Bool) : List Char :=
  F.scalars (if last then us else F.settled us)

theorem reader_wrote (p : List F.Unit) (x : F.Unit) (us : List F.Unit) :
    F.reader.wrote p x us = F.delivered (p ++ [x]) us.isEmpty := by
  cases us with
  | nil => exact F.scalars_settled_append_rest (p ++ [x])
  | cons y ys => rfl

/-- What leaves nothing undecided has been written before. -/
theorem delivered_append {us : List F.Unit} (hus : F.rest us = []) (vs : List F.Unit)
    (last : Bool) : F.delivered (us ++ vs) last = F.scalars us ++ F.delivered vs last := by
  have hsettled := settled_of_rest_eq_nil hus
  cases last with
  | true =>
    refine (F.scalars_append us vs).trans ?_
    rw [hsettled, hus]
    rfl
  | false =>
    refine (F.scalars_settled_append us vs).trans ?_
    rw [hsettled, hus]
    rfl

theorem length_delivered_le (F : CharType) (us : List F.Unit) (last : Bool) :
    (F.delivered us last).length ≤ (F.scalars us).length := by
  rw [delivered]
  split_ifs
  · exact le_rfl
  · rw [← F.scalars_settled_append_rest us, List.length_append]
    exact Nat.le_add_right _ _

/-- Undecided units and one more are one code point, except in UTF-16. -/
theorem length_scalars_concat (hF : F ≠ char16) {p : List F.Unit} (hp : F.code.Pending p)
    (u : F.Unit) : (F.scalars (p ++ [u])).length = 1 := by
  rw [scalars, List.length_map]
  cases F with
  | char8 => exact PrefixCode.Pending.length_read_concat hp u
  | char16 => exact absurd rfl hF
  | char32 =>
    obtain rfl := eq_nil_of_utf32_pending hp
    rfl

private theorem scalars_utf16 (us : List UInt16) :
    char16.scalars us = (utf16Reading us).map fun o => (o.map Char.ofNat).getD replacement := by
  rw [scalars, read, utf16Read, List.map_map]
  rfl

/-- A unit of UTF-16 alone is itself or U+FFFD. -/
theorem exists_scalars_utf16 (u : UInt16) : ∃ c, char16.scalars [u] = [c] ∧
    c.toNat = if IsSurrogate u.toNat then replacementChar else u.toNat := by
  have hread : char16.scalars [u] = [((unitValue u).map Char.ofNat).getD replacement] := by
    rw [scalars_utf16]
    rfl
  refine ⟨_, hread, ?_⟩
  by_cases hu : IsSurrogate u.toNat
  · rw [unitValue_of_surrogate hu, if_pos hu]
    exact toNat_replacement
  · have hlt := u.toNat_lt
    rw [unitValue_of_not_surrogate hu, if_neg hu]
    exact toNat_ofNat hu (by rw [maxCodePoint]; omega)

theorem length_scalars_utf16 (u : UInt16) : (char16.scalars [u]).length = 1 := by
  obtain ⟨c, hc, -⟩ := exists_scalars_utf16 u
  rw [hc]
  rfl

theorem length_scalars_pair {h l : UInt16} (hh : IsHighSurrogate h.toNat)
    (hl : IsLowSurrogate l.toNat) : (char16.scalars [h, l]).length = 1 := by
  rw [scalars_utf16, utf16Reading_pair hh hl]
  rfl

/-- **A broken surrogate pair**: with the unit `u` the high surrogate before it is replaced, and
`u` is read as well unless it has to wait for another unit. -/
theorem delivered_broken_pair {h u : UInt16} (hh : IsHighSurrogate h.toNat)
    (hu : ¬ IsLowSurrogate u.toNat) (last : Bool) :
    char16.delivered [h, u] last =
      replacement :: if IsHighSurrogate u.toNat ∧ last = false then [] else char16.scalars [u] := by
  have hboth : char16.scalars [h, u] = replacement :: char16.scalars [u] := by
    rw [scalars_utf16, utf16Reading_of_not_low hh hu, scalars_utf16]
    rfl
  have hrest : char16.rest [h, u] = if IsHighSurrogate u.toNat then [u] else [] :=
    utf16Rest_concat [h] u
  have hsplit := char16.scalars_settled_append_rest [h, u]
  rw [hboth, hrest] at hsplit
  cases last with
  | true => exact hboth.trans (by simp)
  | false =>
    have hsettled : char16.delivered [h, u] false = char16.scalars (char16.settled [h, u]) := rfl
    rw [hsettled]
    by_cases hhigh : IsHighSurrogate u.toNat
    · rw [if_pos hhigh] at hsplit
      rw [if_pos ⟨hhigh, rfl⟩]
      exact List.append_cancel_right (hsplit : _ = [replacement] ++ char16.scalars [u])
    · rw [if_neg hhigh, scalars_nil, List.append_nil] at hsplit
      rw [if_neg fun h => hhigh h.1, hsplit]

/-- **The pulls of the reader** of a well-formed list are its words, one after the other. -/
theorem reader_pulls_encode (F : CharType) (cs : List Char) :
    F.reader.pulls [] (F.code.encode cs) = cs.map fun c => (F.code.word c, [c]) := by
  induction cs with
  | nil => rfl
  | cons c cs ih =>
    obtain ⟨p, x, hword⟩ : ∃ p x, F.code.word c = p ++ [x] :=
      ⟨_, _, (List.dropLast_append_getLast (F.code.word_ne_nil c)).symm⟩
    have hp : F.code.Pending p := ⟨c, ⟨[x], hword.symm⟩, by rw [hword]; simp⟩
    have hwhole : F.code.WellFormed (p ++ [x]) := hword ▸ F.code.wellFormed_word c
    have hfeed : F.reader.feed [] p = (p, []) := by
      rw [reader_feed F.code.pending_nil, List.nil_append, rest_of_pending hp,
        settled_of_pending hp, scalars_nil]
    -- the last unit of the word settles it
    have hstep : F.reader.step p x = ([], [c]) := by
      have hscalars := F.scalars_encode [c]
      rw [PrefixCode.encode_cons, PrefixCode.encode_nil, List.append_nil, hword] at hscalars
      change (F.rest (p ++ [x]), F.scalars (F.settled (p ++ [x]))) = _
      rw [rest_eq_nil_of_wellFormed hwhole,
        settled_of_rest_eq_nil (rest_eq_nil_of_wellFormed hwhole), hscalars]
    have hwrote : F.reader.wrote p x (F.code.encode cs) = [c] := by
      have hfinish : (F.reader.finish []).2 = [] := F.scalars_nil
      rw [Transducer.wrote_eq, hstep, hfinish, ite_self, List.append_nil]
    rw [PrefixCode.encode_cons, hword, List.append_assoc, List.singleton_append,
      Transducer.pulls_append_cons hfeed (by rw [hstep]; simp), hwrote, hstep, ih, List.map_cons,
      hword]

end CharType

/-- What a transcoder writes for `us`, and for the flush if the input has ended. -/
theorem Converts.delivers {t : Transcoder σ F.Unit T.Unit} {R : σ → List F.Unit → Prop}
    (h : Converts F T t R) {s : σ} {p : List F.Unit} (hs : R s p) (us : List F.Unit)
    (last : Bool) :
    (t.feed s us).2 ++ (if last then (t.finish (t.feed s us).1).2 else []) =
      T.code.encode (F.delivered (p ++ us) last) := by
  cases last with
  | true => exact (h.runFrom us hs).1
  | false => exact (List.append_nil _).trans (h.feed_out hs us).1

/-- **A transcoder follows the reader**: it writes the encodings of what the reader writes. -/
theorem Converts.pulls {t : Transcoder σ F.Unit T.Unit} {R : σ → List F.Unit → Prop}
    (h : Converts F T t R) {s : σ} {p : List F.Unit} (hs : R s p) (us : List F.Unit) :
    t.pulls s us = (F.reader.pulls p us).map (Prod.map id T.code.encode) := by
  refine Transducer.pulls_of_simulates (R := R) (fun cs => T.code.encode_eq_nil_iff) ?_ hs us
  intro s p x hs
  refine ⟨?_, fun us => ?_⟩
  · rw [← Transducer.feed_singleton]
    exact h.feed [x] hs
  · rw [Transducer.wrote_eq, CharType.reader_wrote, ← h.delivers hs, Transducer.feed_singleton]

/-! ### Early detection -/

namespace CharType

/-- What is settled is well formed exactly when there is still hope for the whole. -/
theorem wellFormed_settled_iff {us : List F.Unit} :
    F.code.WellFormed (F.settled us) ↔ ∃ q, F.code.WellFormed (us ++ q) := by
  constructor
  · rintro ⟨cs, hcs⟩
    -- the rest is the begin of a word
    obtain ⟨c, ⟨q, hq⟩, -⟩ := F.pending_rest us
    refine ⟨q, cs ++ [c], ?_⟩
    rw [PrefixCode.encode_append, hcs, PrefixCode.encode_cons, PrefixCode.encode_nil,
      List.append_nil, ← hq, ← List.append_assoc, settled_append_rest]
  · rintro ⟨q, hq⟩
    rw [wellFormed_iff_read, read_append, List.all_append, Bool.and_eq_true] at hq
    exact (F.wellFormed_iff_read _).mpr hq.1

/-- If what is settled is well formed, it is the longest prefix that is. -/
theorem length_le_settled {us ws : List F.Unit} (h : F.code.WellFormed (F.settled us))
    (hws : ws <+: us) (hwf : F.code.WellFormed ws) : ws.length ≤ (F.settled us).length := by
  by_contra hlt
  obtain ⟨vs, rfl⟩ : F.settled us <+: ws :=
    List.prefix_of_prefix_length_le ⟨F.rest us, F.settled_append_rest us⟩ hws (by omega)
  have hvs : F.code.Pending vs := by
    refine (F.pending_rest us).of_isPrefix ((List.prefix_append_right_inj (F.settled us)).mp ?_)
    rwa [settled_append_rest]
  -- nothing is undecided at the end of `ws`, so `vs` is empty
  have hrest := rest_eq_nil_of_wellFormed hwf
  rw [rest_append, rest_eq_nil_of_wellFormed h, List.nil_append, rest_of_pending hvs] at hrest
  rw [hrest, List.append_nil] at hlt
  exact hlt le_rfl

end CharType

/-- **Early detection.** After units `p` and before the flush the flag is true exactly when some
continuation of `p` is well formed. In that case the longest well-formed prefix of `p` has been
converted, and `partial ()` tells whether it is shorter than `p`. -/
theorem wellFormed_feed_iff (F T : CharType) (p : List F.Unit) :
    let t := transcoder F T
    let r := t.feed t.init p
    (t.wellFormed r.1 = true ↔ ∃ q, F.code.WellFormed (p ++ q)) ∧
      (t.wellFormed r.1 = true → ∃ cs : List Char, F.code.encode cs <+: p ∧
        (∀ w, w <+: p → F.code.WellFormed w → w.length ≤ (F.code.encode cs).length) ∧
        r.2 = T.code.encode cs ∧
        (t.isPartial r.1 = true ↔ (F.code.encode cs).length < p.length)) := by
  intro t r
  obtain ⟨hout, hwf, hpart⟩ := transcoder_feed F T p
  refine ⟨hwf.trans CharType.wellFormed_settled_iff, fun hflag => ?_⟩
  have hsettled := hwf.mp hflag
  obtain ⟨cs, hcs⟩ := hsettled
  refine ⟨cs, ?_, fun w hw hwell => ?_, ?_, ?_⟩
  · rw [hcs]
    exact ⟨F.rest p, F.settled_append_rest p⟩
  · rw [hcs]
    exact CharType.length_le_settled ⟨cs, hcs⟩ hw hwell
  · rw [hout, ← hcs, CharType.decodeTo, CharType.scalars_encode]
  · -- the rest is what the prefix is shorter by
    have hlen := congrArg List.length (F.settled_append_rest p)
    rw [List.length_append] at hlen
    rw [hcs, ← Bool.not_eq_false, hpart, ← ne_eq, ← List.length_pos_iff]
    omega

/-! ### Resynchronisation -/

/-- A continuation byte begins no sequence. -/
private theorem dead_cont {b : UInt8} (hb : InRange b contRange) :
    ¬ utf8.Pending [b] ∧ utf8.symbol? [b] = none := by
  refine dead_of_not_owes (by simp) fun rs v h => ?_
  obtain ⟨b', t, hbt, hb', -⟩ := h.exists_lead
  obtain ⟨rfl, -⟩ := List.cons.inj hbt
  exact hb' hb

/-- A byte that is no continuation byte continues no sequence. -/
private theorem dead_lead {p : List UInt8} {b : UInt8} (hp : utf8.Pending p) (hne : p ≠ [])
    (hb : ¬ InRange b contRange) :
    ¬ utf8.Pending (p ++ [b]) ∧ utf8.symbol? (p ++ [b]) = none := by
  obtain ⟨r, rs, v, hr⟩ := (pending_iff hne).mp hp
  refine dead_of_not_owes (by simp) fun rs' v' h => ?_
  exact hb (hr.inRange_cont (hr.concat_iff.mp h).1)

/-- Continuation bytes without a lead byte are given up one by one. -/
private theorem read_cont {t : List UInt8} (ht : ∀ x ∈ t, InRange x contRange)
    (ys : List UInt8) :
    utf8.read (t ++ ys) = List.replicate t.length none ++ utf8.read ys ∧
      utf8.rest (t ++ ys) = utf8.rest ys := by
  induction t with
  | nil => exact ⟨rfl, rfl⟩
  | cons x t ih =>
    obtain ⟨hx, hnone⟩ := dead_cont (ht x List.mem_cons_self)
    obtain ⟨hread, hrest⟩ := ih fun y hy => ht y (List.mem_cons_of_mem x hy)
    have hread' := PrefixCode.read_append_cons utf8.pending_nil hx (t ++ ys)
    have hrest' := PrefixCode.rest_append_cons utf8.pending_nil hx (t ++ ys)
    rw [List.nil_append] at hread' hrest'
    rw [List.cons_append, hread', hrest', List.nil_append, hnone, hread, hrest]
    exact ⟨rfl, rfl⟩

/-- **One code point is spoiled**: after the begin of a sequence the lead byte of a word is
swallowed, and its continuation bytes are given up one by one. -/
private theorem read_spoiled {p : List UInt8} (hp : utf8.Pending p) (hne : p ≠ []) (c : Char)
    (ys : List UInt8) :
    utf8.read (p ++ (utf8.word c ++ ys)) =
        List.replicate (utf8.word c).length none ++ utf8.read ys ∧
      utf8.rest (p ++ (utf8.word c ++ ys)) = utf8.rest ys := by
  obtain ⟨b, t, hword, hb, ht⟩ := (owes_word c).exists_lead
  obtain ⟨hdead, hnone⟩ := dead_lead hp hne hb
  obtain ⟨hread, hrest⟩ := read_cont ht ys
  rw [show utf8.word c = b :: t from hword, List.cons_append,
    PrefixCode.read_append_cons hp hdead, PrefixCode.rest_append_cons hp hdead, hnone, hread, hrest]
  exact ⟨rfl, rfl⟩

private theorem decodeTo_spoiled (T : CharType) {p : List UInt8} (hp : utf8.Pending p)
    (hne : p ≠ []) (c : Char) (cs : List Char) :
    CharType.char8.decodeTo T (p ++ utf8.encode (c :: cs)) =
        T.code.encode (List.replicate (utf8.word c).length replacement) ++ T.code.encode cs ∧
      CharType.char8.rest (p ++ utf8.encode (c :: cs)) = [] := by
  obtain ⟨hread, hrest⟩ := read_spoiled hp hne c (utf8.encode cs)
  rw [← PrefixCode.encode_cons] at hread hrest
  constructor
  · have hscalars : CharType.char8.scalars (p ++ utf8.encode (c :: cs)) =
        List.replicate (utf8.word c).length replacement ++ cs := by
      rw [CharType.scalars, CharType.read, hread, PrefixCode.read_encode]
      simp [Function.comp_def]
    rw [CharType.decodeTo, hscalars, PrefixCode.encode_append]
  · exact hrest.trans (CharType.rest_eq_nil_of_wellFormed (F := .char8) ⟨cs, rfl⟩)

/-- **Ill-formed UTF-8 spoils at most one code point.** After bytes `u`, whatever they are, the
encoding of `c` and `cs` is converted, except that `c` is replaced byte by byte when `u` ends inside
a sequence; and nothing is left undecided. -/
theorem feed_after (T : CharType) (u : List UInt8) (c : Char) (cs : List Char) :
    let t := transcoder .char8 T
    let r := t.feed t.init u
    let r' := t.feed t.init (u ++ utf8.encode (c :: cs))
    r'.2 = r.2 ++ (if t.isPartial r.1 = false then T.code.word c
        else T.code.encode (List.replicate (utf8.word c).length replacement)) ++
      T.code.encode cs ∧ t.isPartial r'.1 = false := by
  intro t r r'
  obtain ⟨hout, -, hpart⟩ := transcoder_feed .char8 T u
  obtain ⟨hout', -, hpart'⟩ := transcoder_feed .char8 T (u ++ utf8.encode (c :: cs))
  -- it is enough to look at what the bytes `u` leave undecided
  have hfinal : CharType.char8.rest (CharType.char8.rest u ++ utf8.encode (c :: cs)) = [] →
      r'.2 = r.2 ++ CharType.char8.decodeTo T (CharType.char8.rest u ++ utf8.encode (c :: cs)) ∧
        t.isPartial r'.1 = false := by
    intro hrest
    rw [← CharType.rest_append] at hrest
    rw [CharType.settled_of_rest_eq_nil hrest, CharType.decodeTo_append, ← hout] at hout'
    exact ⟨hout', hpart'.mpr hrest⟩
  rw [List.append_assoc]
  by_cases hu : CharType.char8.rest u = []
  · rw [if_pos (hpart.mpr hu), ← PrefixCode.encode_cons]
    rw [hu, List.nil_append] at hfinal
    have hrest : CharType.char8.rest (utf8.encode (c :: cs)) = [] :=
      CharType.rest_eq_nil_of_wellFormed (F := .char8) ⟨c :: cs, rfl⟩
    have hword : CharType.char8.decodeTo T (utf8.encode (c :: cs)) = T.code.encode (c :: cs) :=
      congrArg T.code.encode (CharType.char8.scalars_encode (c :: cs))
    rw [← hword]
    exact hfinal hrest
  · obtain ⟨hdecode, hrest⟩ := decodeTo_spoiled T (CharType.char8.pending_rest u) hu c cs
    rw [if_neg (mt hpart.mp hu), ← hdecode]
    exact hfinal hrest

end Icubaby
