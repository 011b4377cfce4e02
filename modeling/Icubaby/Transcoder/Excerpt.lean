import Icubaby.ForMathlib.SelfSync
import Icubaby.Transcoder.Index
import Icubaby.Transcoder.Segments

/-!
# Excerpts of a text

Of the encodings of a text in UTF-8, UTF-16 or UTF-32 some code units can be read without the ones
before or after them. The code point that the excerpt begins in is lost, one U+FFFD being written
for each of its units, and the one that it ends in becomes one U+FFFD; all code points in between
are read as they are (`excerpt_run`).

`index (us, 0)` is the number of units to be skipped so as to begin with a code point, and
`length` counts the code points of which the excerpt has the begin.
-/

namespace Icubaby

namespace CharType

variable {F : CharType}

theorem marksStarts (F : CharType) : F.code.MarksStarts F.isCodePointStart := F.exists_start

/-- The search for the first code point passes over units that begin none. -/
theorem index_append_zero {p : List F.Unit} (hp : ∀ u ∈ p, F.isCodePointStart u = false)
    (us : List F.Unit) : F.index (p ++ us) 0 = p.length + F.index us 0 := by
  induction p with
  | nil => exact (Nat.zero_add _).symm
  | cons u p ih =>
    have hu : F.indexPredicate 0 0 u = (false, 0) := by
      rw [indexPredicate, hp u List.mem_cons_self]
      rfl
    have ih' := ih fun v hv => hp v (List.mem_cons_of_mem u hv)
    rw [index] at ih' ⊢
    rw [List.cons_append, findIf, hu]
    simp only [Bool.false_eq_true, if_false, ih', List.length_cons]
    omega

/-- It stops at a unit that begins one, and at the end. -/
theorem index_zero_eq_zero {us : List F.Unit} (hus : ∀ u ∈ us.head?, F.isCodePointStart u = true) :
    F.index us 0 = 0 := by
  cases us with
  | nil => rfl
  | cons u us =>
    have hu : F.indexPredicate 0 0 u = (true, 1) := by
      rw [indexPredicate, hus u rfl]
      rfl
    rw [index, findIf, hu]
    rfl

/-- A unit that begins no code point is given up at once. -/
theorem read_not_start {u : F.Unit} (hu : F.isCodePointStart u = false) :
    F.read [u] = [none] ∧ F.rest [u] = [] := by
  have hrest := F.settled_append_rest [u]
  have hblocks := F.exists_blocks_read [u]
  constructor
  · obtain ⟨blocks, hflat, hall⟩ := hblocks
    generalize F.read [u] = os at hall ⊢
    cases hall with
    | nil => cases hflat
    | @cons o b os bs hb hall =>
      -- the block is the whole list, and it is no word
      rw [List.flatten_cons] at hflat
      obtain ⟨v, b, rfl⟩ := List.exists_cons_of_ne_nil hb.1
      obtain ⟨rfl, hnil⟩ := List.cons.inj hflat
      obtain ⟨rfl, hbs⟩ := List.append_eq_nil_iff.mp hnil
      cases hall with
      | nil =>
        cases o with
        | none => rfl
        | some c =>
          have hword : F.code.word c = [v] := hb.2 c rfl
          exact absurd (hword ▸ List.prefix_rfl) (F.marksStarts.not_isPrefix hu c)
      | cons hb' _ =>
        rw [List.flatten_cons, List.append_eq_nil_iff] at hbs
        exact absurd hbs.1 hb'.1
  · by_contra hne
    obtain ⟨v, vs, hcons⟩ := List.exists_cons_of_ne_nil hne
    have hpending := F.pending_rest [u]
    cases hsettled : F.settled [u] with
    | nil =>
      rw [hsettled, List.nil_append] at hrest
      rw [hrest] at hpending
      exact F.marksStarts.not_pending hu hpending
    | cons w ws =>
      rw [hsettled, hcons, List.cons_append] at hrest
      simp at hrest

/-- Units that begin no code point are given up one by one. -/
theorem read_not_start_append {p : List F.Unit} (hp : ∀ u ∈ p, F.isCodePointStart u = false)
    (us : List F.Unit) :
    F.read (p ++ us) = List.replicate p.length none ++ F.read us ∧
      F.rest (p ++ us) = F.rest us := by
  induction p with
  | nil => exact ⟨rfl, rfl⟩
  | cons u p ih =>
    obtain ⟨hu, hrest⟩ := read_not_start (hp u List.mem_cons_self)
    obtain ⟨hread', hrest'⟩ := ih fun v hv => hp v (List.mem_cons_of_mem u hv)
    have hsplit : u :: p ++ us = [u] ++ (p ++ us) := rfl
    constructor
    · rw [hsplit, F.read_append, hrest, settled_of_rest_eq_nil hrest, hu, List.nil_append, hread']
      rfl
    · rw [hsplit, F.rest_append, hrest, List.nil_append, hrest']

/-- Words are read, and the rest on its own. -/
theorem read_encode_append (F : CharType) (ds : List Char) (us : List F.Unit) :
    F.read (F.code.encode ds ++ us) = ds.map some ++ F.read us ∧
      F.rest (F.code.encode ds ++ us) = F.rest us := by
  have hrest : F.rest (F.code.encode ds) = [] := rest_eq_nil_of_wellFormed ⟨ds, rfl⟩
  constructor
  · rw [F.read_append, hrest, settled_of_rest_eq_nil hrest, read_encode, List.nil_append]
  · rw [F.rest_append, hrest, List.nil_append]

variable {l : ℕ} {cs ds : List Char} {us p q : List F.Unit}

/-- **`index (us, 0)`** is the length of what is left of the first code point. -/
theorem index_zero_of_excerpt (he : F.code.Excerpt F.isCodePointStart l cs us p ds q) :
    F.index us 0 = p.length := by
  have hhead : ∀ u ∈ (F.code.encode ds ++ q).head?, F.isCodePointStart u = true := by
    intro u hu
    -- a word begins here, or the begin of a word
    obtain ⟨c, hpre⟩ : ∃ c, [u] <+: F.code.word c := by
      cases ds with
      | nil =>
        obtain ⟨c, hpre, -⟩ := he.pending
        rw [PrefixCode.encode_nil, List.nil_append] at hu
        obtain ⟨q, rfl⟩ := List.head?_eq_some_iff.mp hu
        exact ⟨c, (List.prefix_append [u] q).trans hpre⟩
      | cons d ds =>
        obtain ⟨v, t, hword, -⟩ := F.exists_start d
        rw [PrefixCode.encode_cons, hword] at hu
        obtain rfl := Option.some.inj hu
        exact ⟨d, by rw [hword]; exact List.prefix_append [v] t⟩
    by_contra hstart
    exact F.marksStarts.not_isPrefix (Bool.eq_false_iff.mpr hstart) c hpre
  rw [he.eq_append, index_append_zero he.not_start, index_zero_eq_zero hhead, Nat.add_zero]

end CharType

/-- **Reading an excerpt of a text.** -/
theorem excerpt_run (F T : CharType) (cs : List Char) (a b : ℕ) :
    let us := ((F.code.encode cs).drop a).take b
    let t := transcoder F T
    let isCut := t.isPartial (t.feed t.init us).1
    ∃ ds, ds <:+: cs ∧ F.code.encode ds <+: us.drop (F.index us 0) ∧
      F.index us 0 < F.longestSequence ∧
      us.length < F.index us 0 + (F.code.encode ds).length + F.longestSequence ∧
      F.length us = ds.length + isCut.toNat ∧
      (t.run us).2 = T.code.encode (List.replicate (F.index us 0) replacement ++
        (ds ++ List.replicate isCut.toNat replacement)) ∧
      (t.wellFormed (t.run us).1 = true ↔ F.index us 0 = 0 ∧ isCut = false) := by
  intro us t isCut
  obtain ⟨p, ds, q, he⟩ : ∃ p ds q,
      F.code.Excerpt F.isCodePointStart F.longestSequence cs us p ds q :=
    PrefixCode.exists_excerpt F.marksStarts (length_word_le F) cs a b
  have ht := converts_transcoder F T
  -- what is whole is read as it is, and what is cut off is not
  have hread : F.read us = List.replicate p.length none ++ (ds.map some ++ F.read q) := by
    rw [he.eq_append, (CharType.read_not_start_append he.not_start _).1,
      (F.read_encode_append ds q).1]
  have hrest : F.rest us = q := by
    rw [he.eq_append, (CharType.read_not_start_append he.not_start _).2,
      (F.read_encode_append ds q).2, CharType.rest_of_pending he.pending]
  have hcut : isCut = false ↔ q = [] := by
    rw [← hrest]
    exact ht.isPartial (ht.feed_init us)
  have hq : F.read q = List.replicate isCut.toNat none := by
    cases hisCut : isCut with
    | false => rw [hcut.mp hisCut]; exact F.read_encode []
    | true =>
      have hne : q ≠ [] := fun hnil => by rw [hcut.mpr hnil] at hisCut; cases hisCut
      exact CharType.read_of_pending he.pending hne
  have hindex := CharType.index_zero_of_excerpt he
  obtain ⟨hout, hwf⟩ := ht.run us
  refine ⟨ds, he.infix_symbols, ?_, ?_, ?_, ?_, ?_, ?_⟩
  · rw [hindex, he.eq_append, List.drop_left]
    exact List.prefix_append _ _
  · rw [hindex]
    exact he.length_left_lt
  · have hlen := congrArg List.length he.eq_append
    have hlt := he.length_right_lt
    rw [List.length_append, List.length_append] at hlen
    rw [hindex]
    omega
  · have hcount := he.countP_eq F.marksStarts
    rw [CharType.length, hcount]
    cases hisCut : isCut with
    | false => rw [if_pos (hcut.mp hisCut)]; rfl
    | true => rw [if_neg fun hnil => by rw [hcut.mpr hnil] at hisCut; cases hisCut]; rfl
  · rw [hout, CharType.decodeTo, CharType.scalars, hread, hq, hindex]
    simp only [List.map_append, List.map_replicate, Option.getD_none, List.map_map,
      Function.comp_def, Option.getD_some, List.map_id']
  · rw [hwf, hread, hq, hindex]
    cases isCut <;> simp

end Icubaby
