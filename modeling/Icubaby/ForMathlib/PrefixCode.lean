import Mathlib.Data.List.Induction
import Icubaby.ForMathlib.Transducer

/-!
# Prefix codes and the reading of arbitrary strings

A `PrefixCode σ α` gives every symbol of `σ` a non-empty word over `α`, none of which is a prefix
of another. `PrefixCode.encode` concatenates words and a string is `WellFormed` when it is such a
concatenation.

Strings that are not well formed are read too. A string is *pending* when it is a proper prefix of
some word. `PrefixCode.read` repeatedly cuts off the shortest non-empty prefix that is not pending
(`IsFirstDead`): such a piece either is a word, and stands for its symbol, or can never become one,
and is dropped and reported as `none`. A non-empty rest is reported as one more `none`.

A string is well formed exactly when nothing is reported (`wellFormed_iff_read`), and reading
inverts encoding (`read_encode`). `PrefixCode.rest` is the pending rest alone.
`PrefixCode.Decodes` is the condition on the steps of a transducer under which it computes the
reading (`Decodes.reads`).
-/

/-- A code whose words are non-empty and prefix-free. -/
structure PrefixCode (σ α : Type*) where
  /-- The word of a symbol. -/
  word : σ → List α
  /-- No word is empty. -/
  word_ne_nil : ∀ c, word c ≠ []
  /-- No word is a prefix of another. -/
  eq_of_isPrefix : ∀ {c d}, word c <+: word d → c = d

namespace PrefixCode

variable {σ α β τ : Type*} (C : PrefixCode σ α)

/-- The concatenation of the words of a list of symbols. -/
def encode (cs : List σ) : List α := cs.flatMap C.word

/-- A string is well formed when it is a concatenation of words. -/
def WellFormed (xs : List α) : Prop := ∃ cs, C.encode cs = xs

/-- A string is pending when it is a proper prefix of a word. -/
def Pending (p : List α) : Prop := ∃ c, p <+: C.word c ∧ p ≠ C.word c

/-- `q` is the shortest non-empty prefix of `xs` that is not pending. -/
def IsFirstDead (xs q : List α) : Prop :=
  q <+: xs ∧ q ≠ [] ∧ ¬ C.Pending q ∧ ∀ p, p <+: q → p ≠ [] → p ≠ q → C.Pending p

open Classical in
/-- The symbol whose word is `q`, if there is one. -/
noncomputable def symbol? (q : List α) : Option σ :=
  if h : ∃ c, C.word c = q then some h.choose else none

open Classical in
/-- The reading of a string: the symbols of its first dead prefixes, cut off as long as there are
any, and one `none` for what is left. -/
noncomputable def read (xs : List α) : List (Option σ) :=
  if h : ∃ q, C.IsFirstDead xs q then
    C.symbol? h.choose :: read (xs.drop h.choose.length)
  else if xs = [] then [] else [none]
termination_by xs.length
decreasing_by
  obtain ⟨hpre, hne, -⟩ := h.choose_spec
  have hpos := List.length_pos_iff.mpr hne
  have hle := hpre.length_le
  rw [List.length_drop]
  omega

open Classical in
/-- What is left of a string when no dead prefix can be cut off any more. -/
noncomputable def rest (xs : List α) : List α :=
  if h : ∃ q, C.IsFirstDead xs q then rest (xs.drop h.choose.length) else xs
termination_by xs.length
decreasing_by
  obtain ⟨hpre, hne, -⟩ := h.choose_spec
  have hpos := List.length_pos_iff.mpr hne
  have hle := hpre.length_le
  rw [List.length_drop]
  omega

/-! ### Words and pending strings -/

@[simp] theorem encode_nil : C.encode [] = [] := rfl

@[simp] theorem encode_cons (c : σ) (cs : List σ) :
    C.encode (c :: cs) = C.word c ++ C.encode cs := by
  simp [encode]

@[simp] theorem encode_append (cs ds : List σ) :
    C.encode (cs ++ ds) = C.encode cs ++ C.encode ds := List.flatMap_append

theorem encode_eq_nil_iff {cs : List σ} : C.encode cs = [] ↔ cs = [] := by
  constructor
  · intro h
    cases cs with
    | nil => rfl
    | cons c cs =>
      rw [encode_cons, List.append_eq_nil_iff] at h
      exact absurd h.1 (C.word_ne_nil c)
  · rintro rfl
    rfl

/-- A position in an encoding is a position in the word of one symbol. -/
theorem exists_word_of_lt_length {cs : List σ} {n : ℕ} (hn : n < (C.encode cs).length) :
    ∃ as c bs i, cs = as ++ c :: bs ∧ n = (C.encode as).length + i ∧ i < (C.word c).length := by
  induction cs generalizing n with
  | nil => simp at hn
  | cons c cs ih =>
    rw [encode_cons, List.length_append] at hn
    rcases Nat.lt_or_ge n (C.word c).length with hc | hc
    · exact ⟨[], c, cs, n, rfl, by simp, hc⟩
    · obtain ⟨as, d, bs, i, rfl, hi, hd⟩ := ih (n := n - (C.word c).length) (by omega)
      refine ⟨c :: as, d, bs, i, rfl, ?_, hd⟩
      rw [encode_cons, List.length_append]
      omega

/-- One encoding begins with another one exactly when the symbols do. -/
theorem encode_isPrefix_iff {cs ds : List σ} : C.encode cs <+: C.encode ds ↔ cs <+: ds := by
  constructor
  · intro h
    induction cs generalizing ds with
    | nil => exact List.nil_prefix
    | cons c cs ih =>
      cases ds with
      | nil => exact absurd (C.encode_eq_nil_iff.mp (List.prefix_nil.mp h)) (List.cons_ne_nil c cs)
      | cons d ds =>
        rw [encode_cons, encode_cons] at h
        have hc : C.word c <+: C.word d ++ C.encode ds := (List.prefix_append _ _).trans h
        have hcd : c = d := by
          rcases List.prefix_or_prefix_of_prefix hc (List.prefix_append _ _) with hle | hle
          · exact C.eq_of_isPrefix hle
          · exact (C.eq_of_isPrefix hle).symm
        rw [hcd, List.prefix_append_right_inj] at h
        rw [hcd]
        exact (List.prefix_cons_inj d).mpr (ih h)
  · rintro ⟨es, rfl⟩
    exact ⟨C.encode es, (C.encode_append cs es).symm⟩

theorem encode_injective : Function.Injective C.encode := by
  intro cs ds h
  have hle : cs <+: ds := C.encode_isPrefix_iff.mp (h ▸ List.prefix_rfl)
  have hge : ds <+: cs := C.encode_isPrefix_iff.mp (h ▸ List.prefix_rfl)
  exact hle.eq_of_length_le hge.length_le

theorem word_injective : Function.Injective C.word := fun _ _ h =>
  C.eq_of_isPrefix (h ▸ List.prefix_rfl)

@[simp] theorem symbol?_word (c : σ) : C.symbol? (C.word c) = some c := by
  have h : ∃ d, C.word d = C.word c := ⟨c, rfl⟩
  rw [symbol?, dif_pos h, C.word_injective h.choose_spec]

theorem symbol?_eq_some_iff {q : List α} {c : σ} : C.symbol? q = some c ↔ C.word c = q := by
  constructor
  · intro h
    unfold symbol? at h
    split at h
    next hex => rw [← Option.some.inj h, hex.choose_spec]
    next => cases h
  · rintro rfl
    exact C.symbol?_word c

theorem symbol?_eq_none_iff {q : List α} : C.symbol? q = none ↔ ∀ c, C.word c ≠ q := by
  simp [Option.eq_none_iff_forall_ne_some, symbol?_eq_some_iff]

theorem pending_nil [Nonempty σ] : C.Pending [] := by
  obtain ⟨c⟩ := ‹Nonempty σ›
  exact ⟨c, List.nil_prefix, (C.word_ne_nil c).symm⟩

/-- Words are not pending: they are prefix-free. -/
theorem not_pending_word (c : σ) : ¬ C.Pending (C.word c) := by
  rintro ⟨d, hpre, hne⟩
  exact hne (congrArg C.word (C.eq_of_isPrefix hpre))

variable {C}

/-- A prefix of a pending string is pending. -/
theorem Pending.of_isPrefix {p q : List α} (h : C.Pending p) (hq : q <+: p) : C.Pending q := by
  obtain ⟨c, hpre, hne⟩ := h
  refine ⟨c, hq.trans hpre, ?_⟩
  rintro rfl
  exact hne (hpre.eq_of_length_le hq.length_le)

/-- No concatenation of words is pending, except the empty one. -/
theorem Pending.eq_nil_of_wellFormed {p : List α} (h : C.Pending p) (hp : C.WellFormed p) :
    p = [] := by
  obtain ⟨cs, rfl⟩ := hp
  cases cs with
  | nil => rfl
  | cons c cs =>
    rw [encode_cons] at h
    exact absurd (h.of_isPrefix (List.prefix_append _ _)) (C.not_pending_word c)

/-- The first dead prefix is unique. -/
theorem IsFirstDead.unique {xs q q' : List α} (h : C.IsFirstDead xs q)
    (h' : C.IsFirstDead xs q') : q = q' := by
  obtain ⟨hpre, hne, hdead, hmin⟩ := h
  obtain ⟨hpre', hne', hdead', hmin'⟩ := h'
  by_contra hqq
  rcases List.prefix_or_prefix_of_prefix hpre hpre' with hle | hle
  · exact hdead (hmin' q hle hne hqq)
  · exact hdead' (hmin q' hle hne' (Ne.symm hqq))

/-- Where a pending string stops being pending, there is its first dead prefix. -/
theorem isFirstDead_append_cons {p : List α} {x : α} (hp : C.Pending p)
    (hx : ¬ C.Pending (p ++ [x])) (xs : List α) : C.IsFirstDead (p ++ x :: xs) (p ++ [x]) := by
  refine ⟨⟨xs, by simp⟩, by simp, hx, fun q hq _ hne => ?_⟩
  rcases List.prefix_concat_iff.mp hq with rfl | hq
  · exact absurd rfl hne
  · exact hp.of_isPrefix hq

/-! ### The equations of the reading -/

/-- A pending string has no dead prefix. -/
theorem Pending.not_isFirstDead {p : List α} (hp : C.Pending p) : ¬ ∃ q, C.IsFirstDead p q := by
  rintro ⟨q, hpre, -, hdead, -⟩
  exact hdead (hp.of_isPrefix hpre)

private theorem read_of_pending' {p : List α} (hp : C.Pending p) :
    C.read p = if p = [] then [] else [none] := by
  rw [read, dif_neg hp.not_isFirstDead]

theorem read_of_pending {p : List α} (hp : C.Pending p) (hne : p ≠ []) : C.read p = [none] := by
  rw [read_of_pending' hp, if_neg hne]

@[simp] theorem read_nil [Nonempty σ] : C.read [] = [] := by
  rw [read_of_pending' C.pending_nil, if_pos rfl]

private theorem drop_dead (p : List α) (x : α) (xs : List α) :
    (p ++ x :: xs).drop (p ++ [x]).length = xs := by
  rw [show p ++ x :: xs = (p ++ [x]) ++ xs by simp, List.drop_left]

theorem read_append_cons {p : List α} {x : α} (hp : C.Pending p) (hx : ¬ C.Pending (p ++ [x]))
    (xs : List α) : C.read (p ++ x :: xs) = C.symbol? (p ++ [x]) :: C.read xs := by
  have h : ∃ q, C.IsFirstDead (p ++ x :: xs) q := ⟨_, isFirstDead_append_cons hp hx xs⟩
  have hq : h.choose = p ++ [x] := h.choose_spec.unique (isFirstDead_append_cons hp hx xs)
  rw [read, dif_pos h, hq, drop_dead]

theorem rest_of_pending {p : List α} (hp : C.Pending p) : C.rest p = p := by
  rw [rest, dif_neg hp.not_isFirstDead]

theorem rest_append_cons {p : List α} {x : α} (hp : C.Pending p) (hx : ¬ C.Pending (p ++ [x]))
    (xs : List α) : C.rest (p ++ x :: xs) = C.rest xs := by
  have h : ∃ q, C.IsFirstDead (p ++ x :: xs) q := ⟨_, isFirstDead_append_cons hp hx xs⟩
  have hq : h.choose = p ++ [x] := h.choose_spec.unique (isFirstDead_append_cons hp hx xs)
  rw [rest, dif_pos h, hq, drop_dead]

/-- A string is pending, or it has a shortest prefix that is not. -/
theorem pending_or_split [Nonempty σ] (xs : List α) :
    C.Pending xs ∨
      ∃ p x rest, xs = p ++ x :: rest ∧ C.Pending p ∧ ¬ C.Pending (p ++ [x]) := by
  induction xs using List.reverseRecOn with
  | nil => exact .inl C.pending_nil
  | append_singleton xs x ih =>
    rcases ih with hp | ⟨p, y, rest, rfl, hp, hy⟩
    · by_cases hx : C.Pending (xs ++ [x])
      · exact .inl hx
      · exact .inr ⟨xs, x, [], rfl, hp, hx⟩
    · exact .inr ⟨p, y, rest ++ [x], by simp, hp, hy⟩

/-- **Induction along the reading**: over the first dead prefix, down to a pending rest. -/
theorem read_induction [Nonempty σ] {P : List α → Prop}
    (pending : ∀ p, C.Pending p → P p)
    (split : ∀ p x xs, C.Pending p → ¬ C.Pending (p ++ [x]) → P xs → P (p ++ x :: xs))
    (xs : List α) : P xs := by
  induction hn : xs.length using Nat.strongRecOn generalizing xs with
  | ind n ih =>
    rcases C.pending_or_split xs with hp | ⟨p, x, rest, rfl, hp, hx⟩
    · exact pending xs hp
    · refine split p x rest hp hx (ih rest.length ?_ rest rfl)
      rw [← hn, List.length_append, List.length_cons]
      omega

/-- What is left of a string is pending. -/
theorem pending_rest [Nonempty σ] (xs : List α) : C.Pending (C.rest xs) := by
  induction xs using read_induction (C := C) with
  | pending p hp =>
    rw [rest_of_pending hp]
    exact hp
  | split p x xs hp hx ih =>
    rw [rest_append_cons hp hx]
    exact ih

/-- What has been cut off is not looked at again. -/
theorem rest_append [Nonempty σ] (xs ys : List α) :
    C.rest (xs ++ ys) = C.rest (C.rest xs ++ ys) := by
  induction xs using read_induction (C := C) with
  | pending p hp => rw [rest_of_pending hp]
  | split p x xs hp hx ih =>
    rw [List.append_assoc, List.cons_append, rest_append_cons hp hx, rest_append_cons hp hx, ih]

/-- **Cutting off the rest**: what comes before it is read independently of what follows. -/
theorem exists_append_rest [Nonempty σ] (xs : List α) :
    ∃ zs, zs ++ C.rest xs = xs ∧ ∀ ys, C.read (zs ++ ys) = C.read zs ++ C.read ys := by
  induction xs using read_induction (C := C) with
  | pending p hp =>
    refine ⟨[], by rw [List.nil_append, rest_of_pending hp], fun ys => ?_⟩
    rw [read_nil, List.nil_append, List.nil_append]
  | split p x xs hp hx ih =>
    obtain ⟨zs, hzs, hread⟩ := ih
    refine ⟨p ++ x :: zs, ?_, fun ys => ?_⟩
    · rw [rest_append_cons hp hx, List.append_assoc, List.cons_append, hzs]
    · rw [List.append_assoc, List.cons_append, read_append_cons hp hx, read_append_cons hp hx,
        hread, List.cons_append]

/-- **The pieces of a reading** are pieces of the string: it falls into non-empty blocks, one for
each piece, and the block of a symbol is its word. -/
theorem exists_blocks_read [Nonempty σ] (xs : List α) :
    ∃ blocks : List (List α), blocks.flatten = xs ∧
      List.Forall₂ (fun o b => b ≠ [] ∧ ∀ c ∈ o, C.word c = b) (C.read xs) blocks := by
  induction xs using read_induction (C := C) with
  | pending p hp =>
    by_cases hne : p = []
    · rw [hne, read_nil]
      exact ⟨[], rfl, .nil⟩
    · rw [read_of_pending hp hne]
      exact ⟨[p], List.append_nil p, .cons ⟨hne, by simp⟩ .nil⟩
  | split p x xs hp hx ih =>
    obtain ⟨blocks, rfl, hblocks⟩ := ih
    rw [read_append_cons hp hx]
    refine ⟨(p ++ [x]) :: blocks, by simp, .cons ⟨by simp, fun c hc => ?_⟩ hblocks⟩
    exact C.symbol?_eq_some_iff.mp hc

/-- A pending string and one more symbol are one piece. -/
theorem Pending.length_read_concat [Nonempty σ] {p : List α} (hp : C.Pending p) (x : α) :
    (C.read (p ++ [x])).length = 1 := by
  by_cases hx : C.Pending (p ++ [x])
  · rw [read_of_pending hx (by simp)]
    rfl
  · rw [read_append_cons hp hx, read_nil]
    rfl

/-- A word at the front of a string is read as its symbol. -/
theorem read_word_append (c : σ) (xs : List α) :
    C.read (C.word c ++ xs) = some c :: C.read xs := by
  obtain ⟨p, x, hw⟩ : ∃ p x, C.word c = p ++ [x] :=
    ⟨_, _, (List.dropLast_append_getLast (C.word_ne_nil c)).symm⟩
  have hp : C.Pending p := ⟨c, ⟨[x], hw.symm⟩, by rw [hw]; simp⟩
  have hx : ¬ C.Pending (p ++ [x]) := hw ▸ C.not_pending_word c
  calc C.read (C.word c ++ xs) = C.read (p ++ x :: xs) := by rw [hw]; simp
    _ = C.symbol? (p ++ [x]) :: C.read xs := read_append_cons hp hx xs
    _ = some c :: C.read xs := by rw [← hw, symbol?_word]

/-- **Reading inverts encoding.** -/
@[simp] theorem read_encode [Nonempty σ] (cs : List σ) :
    C.read (C.encode cs) = cs.map some := by
  induction cs with
  | nil => simp
  | cons c cs ih => rw [encode_cons, read_word_append, ih, List.map_cons]

/-- A string that falls into the words of symbols is well formed. -/
theorem wellFormed_of_blocks {os : List (Option σ)} {blocks : List (List α)}
    (h : List.Forall₂ (fun o b => b ≠ [] ∧ ∀ c ∈ o, C.word c = b) os blocks)
    (hos : os.all Option.isSome = true) : C.WellFormed blocks.flatten := by
  induction h with
  | nil => exact ⟨[], rfl⟩
  | @cons o b os blocks hb _ ih =>
    rw [List.all_cons, Bool.and_eq_true] at hos
    obtain ⟨c, hc⟩ := Option.isSome_iff_exists.mp hos.1
    obtain ⟨cs, hcs⟩ := ih hos.2
    exact ⟨c :: cs, by rw [encode_cons, hb.2 c hc, hcs, List.flatten_cons]⟩

/-- **Well-formedness is read off**: a string is a concatenation of words exactly when its reading
reports nothing. -/
theorem wellFormed_iff_read [Nonempty σ] {xs : List α} :
    C.WellFormed xs ↔ (C.read xs).all Option.isSome = true := by
  constructor
  · rintro ⟨cs, rfl⟩
    simp
  · obtain ⟨blocks, rfl, hblocks⟩ := C.exists_blocks_read xs
    exact wellFormed_of_blocks hblocks

/-! ### Transducers that compute the reading -/

/-- The transducer `T` decodes `C`: the relation `R` says which pending string a state stands for,
`emit` what is written for a piece, and `sound` observes that no piece has been dropped yet. -/
structure Decodes (C : PrefixCode σ α) (T : Transducer τ α β) (emit : Option σ → β)
    (sound : τ → Bool) (R : τ → List α → Prop) : Prop where
  /-- A state stands for a pending string. -/
  pending {s p} : R s p → C.Pending p
  /-- While the string stays pending nothing is written. -/
  hold {s p x} : R s p → C.Pending (p ++ [x]) →
    R (T.step s x).1 (p ++ [x]) ∧ (T.step s x).2 = [] ∧ sound (T.step s x).1 = sound s
  /-- When it stops being pending, the piece is written and forgotten. -/
  write {s p x} : R s p → ¬ C.Pending (p ++ [x]) →
    R (T.step s x).1 [] ∧ (T.step s x).2 = [emit (C.symbol? (p ++ [x]))] ∧
      sound (T.step s x).1 = (sound s && (C.symbol? (p ++ [x])).isSome)
  /-- The flush writes one piece for a non-empty rest. -/
  flush {s p} : R s p →
    (T.finish s).2 = (if p.isEmpty then [] else [emit none]) ∧
      sound (T.finish s).1 = (sound s && p.isEmpty)

/-- **A transducer that decodes the code computes its reading online.** -/
theorem Decodes.reads [Nonempty σ] {T : Transducer τ α β} {emit : Option σ → β}
    {sound : τ → Bool} {R : τ → List α → Prop} (h : C.Decodes T emit sound R) :
    T.Reads C.read emit Option.isSome sound R where
  step {s p} x hs := by
    -- a symbol either keeps the string pending or completes a piece
    by_cases hx : C.Pending (p ++ [x])
    · obtain ⟨hR, hout, hsound⟩ := h.hold hs hx
      exact ⟨p ++ [x], [], hR, hout, by simp [hsound], fun xs => by simp⟩
    · obtain ⟨hR, hout, hsound⟩ := h.write hs hx
      exact ⟨[], [C.symbol? (p ++ [x])], hR, hout, by simp [hsound],
        fun xs => read_append_cons (h.pending hs) hx xs⟩
  flush {s p} hs := by
    obtain ⟨hout, hsound⟩ := h.flush hs
    rw [hout, hsound]
    by_cases hp : p = []
    · simp [hp]
    · simp [read_of_pending (h.pending hs) hp, hp]

/-- Without the flush a decoder stands for the rest of what it has read. -/
theorem Decodes.feed_rest {T : Transducer τ α β} {emit : Option σ → β} {sound : τ → Bool}
    {R : τ → List α → Prop} (h : C.Decodes T emit sound R) {s : τ} {p : List α} (hs : R s p)
    (xs : List α) : R (T.feed s xs).1 (C.rest (p ++ xs)) := by
  induction xs generalizing s p with
  | nil =>
    rw [List.append_nil, rest_of_pending (h.pending hs)]
    exact hs
  | cons x xs ih =>
    rw [Transducer.feed_cons]
    by_cases hx : C.Pending (p ++ [x])
    · have hrest := ih (h.hold hs hx).1
      rwa [List.append_assoc, List.singleton_append] at hrest
    · rw [rest_append_cons (h.pending hs) hx]
      exact ih (h.write hs hx).1

/-! ### Transducers that write words -/

theorem wellFormed_nil : C.WellFormed [] := ⟨[], rfl⟩

theorem wellFormed_word (c : σ) : C.WellFormed (C.word c) := ⟨[c], by simp⟩

theorem WellFormed.append {xs ys : List α} (h : C.WellFormed xs) (h' : C.WellFormed ys) :
    C.WellFormed (xs ++ ys) := by
  obtain ⟨cs, rfl⟩ := h
  obtain ⟨ds, rfl⟩ := h'
  exact ⟨cs ++ ds, C.encode_append cs ds⟩

/-- The transducer `T` writes whole words of `C`: every call does, from states with the invariant
`I`, which it keeps. -/
structure Writes (C : PrefixCode σ β) (T : Transducer τ α β) (I : τ → Prop) : Prop where
  init : I T.init
  step {s} (x) : I s → I (T.step s x).1 ∧ C.WellFormed (T.step s x).2
  finish {s} : I s → I (T.finish s).1 ∧ C.WellFormed (T.finish s).2

namespace Writes

variable {C : PrefixCode σ β} {T : Transducer τ α β} {I : τ → Prop}

theorem feed (h : C.Writes T I) {s : τ} (hs : I s) (xs : List α) :
    I (T.feed s xs).1 ∧ C.WellFormed (T.feed s xs).2 := by
  induction xs generalizing s with
  | nil => exact ⟨hs, wellFormed_nil⟩
  | cons x xs ih =>
    obtain ⟨hI, hwords⟩ := h.step x hs
    obtain ⟨hI', hwords'⟩ := ih hI
    exact ⟨hI', hwords.append hwords'⟩

/-- The order of the calls does not matter. -/
theorem interactive (h : C.Writes T I) : C.Writes T.interactive I where
  init := h.init
  step c hs :=
    match c with
    | .step x => h.step x hs
    | .finish => h.finish hs
  finish hs := h.finish hs

end Writes

end PrefixCode
