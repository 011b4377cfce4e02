import Icubaby.Transcoder.Online
import Icubaby.Transcoder.Segments

/-!
# What a transcoder writes early, and what it has to remember

A transcoder cannot write a code point before it is certain which one it is. It does not wait any
longer either: before the flush it has written exactly the code points that the output begins with
whatever follows (`feed_prompt`).

Nor does it remember more than it must. After two inputs it goes on in the same way exactly when
they leave the same units undecided (`sameFuture_iff`). For both results the point is that the begin
of a word can be continued to the word of something other than U+FFFD, which is what it is replaced
by if the input ends there.
-/

namespace Icubaby

namespace CharType

variable {F : CharType}

/-- A word that begins like the one of U+FFFD as far as that one can be undecided. -/
private theorem dropLast_word_replacement (F : CharType) :
    (F.code.word replacement).dropLast <+: F.code.word '\uFFFC' := by
  cases F <;> decide

/-- **The begin of a word** is the begin of a word of something other than U+FFFD. -/
theorem exists_word_of_pending {p : List F.Unit} (hp : F.code.Pending p) :
    ∃ c v, F.code.word c = p ++ v ∧ c ≠ replacement := by
  obtain ⟨c, hpre, hne⟩ := hp
  by_cases hc : c = replacement
  · subst hc
    have hdrop : p <+: (F.code.word replacement).dropLast := by
      have hconcat := List.dropLast_append_getLast (F.code.word_ne_nil replacement)
      rw [← hconcat] at hpre
      rcases List.prefix_concat_iff.mp hpre with heq | hle
      · exact absurd (heq.trans hconcat) hne
      · exact hle
    obtain ⟨v, hv⟩ := hdrop.trans F.dropLast_word_replacement
    exact ⟨'\uFFFC', v, hv.symm, by decide⟩
  · obtain ⟨v, hv⟩ := hpre
    exact ⟨c, v, hv.symm, hc⟩

/-- A word is read as its code point. -/
theorem scalars_word (F : CharType) (c : Char) : F.scalars (F.code.word c) = [c] := by
  have hscalars := F.scalars_encode [c]
  rwa [PrefixCode.encode_cons, PrefixCode.encode_nil, List.append_nil] at hscalars

/-- Units that are read as one code point other than U+FFFD are its word. -/
theorem eq_word_of_scalars {us : List F.Unit} {c : Char} (h : F.scalars us = [c])
    (hc : c ≠ replacement) : us = F.code.word c := by
  obtain ⟨blocks, rfl, hblocks⟩ := F.exists_blocks_read us
  rw [scalars, List.map_eq_singleton_iff] at h
  obtain ⟨o, hread, ho⟩ := h
  rw [hread] at hblocks
  cases hblocks with
  | cons hb hrest =>
    cases hrest
    cases o with
    | none => exact absurd ho.symm hc
    | some d =>
      obtain rfl : d = c := ho
      rw [List.flatten_singleton]
      exact (hb.2 d rfl).symm

/-- What is settled is all that is certain. -/
theorem isPrefix_settled_iff (F : CharType) (us : List F.Unit) (es : List Char) :
    (∀ vs, es <+: F.scalars (us ++ vs)) ↔ es <+: F.scalars (F.settled us) := by
  constructor
  · intro h
    by_cases hrest : F.rest us = []
    · have hes := h []
      rwa [List.append_nil, ← settled_of_rest_eq_nil hrest] at hes
    · -- the rest may become `c`, and if the input ends, U+FFFD
      obtain ⟨c, v, hword, hc⟩ := exists_word_of_pending (F.pending_rest us)
      have hcontinue := h v
      have hends := h []
      have hreplaced : F.scalars (F.rest us) = [replacement] := by
        rw [scalars, CharType.read_of_pending (F.pending_rest us) hrest]
        rfl
      rw [scalars_append, ← hword, scalars_word] at hcontinue
      rw [List.append_nil, ← scalars_settled_append_rest, hreplaced] at hends
      rcases List.prefix_concat_iff.mp hcontinue with rfl | hle
      · rcases List.prefix_concat_iff.mp hends with heq | hle
        · exact absurd (List.append_cancel_left heq) (by simpa using hc)
        · exact hle
      · exact hle
  · intro h vs
    rw [scalars_append]
    exact h.trans (List.prefix_append _ _)

end CharType

/-- **A code point is written as soon as it is certain**, and no sooner: before the flush, the
output is the encoding of the longest text that every continuation leads to. -/
theorem feed_prompt (F T : CharType) (us : List F.Unit) :
    let t := transcoder F T
    ∃ ds, (t.feed t.init us).2 = T.code.encode ds ∧
      ∀ es, (∀ vs, T.code.encode es <+: (t.run (us ++ vs)).2) ↔ es <+: ds := by
  intro t
  refine ⟨F.scalars (F.settled us), (transcoder_feed F T us).1, fun es => ?_⟩
  rw [← CharType.isPrefix_settled_iff]
  refine forall_congr' fun vs => ?_
  have hrun : (t.run (us ++ vs)).2 = F.decodeTo T (us ++ vs) := ((converts_transcoder F T).run _).1
  rw [hrun, CharType.decodeTo, PrefixCode.encode_isPrefix_iff]

/-- **A transcoder remembers what is undecided**, and nothing else of its input: after `us` and
after `vs` it writes the same for any further input exactly when these leave the same units. -/
theorem sameFuture_iff (F T : CharType) (us vs : List F.Unit) :
    let t := transcoder F T
    (∀ ws, (t.runFrom (t.feed t.init us).1 ws).2 = (t.runFrom (t.feed t.init vs).1 ws).2) ↔
      F.rest us = F.rest vs := by
  intro t
  have ht := converts_transcoder F T
  have hout : ∀ us ws : List F.Unit, (t.runFrom (t.feed t.init us).1 ws).2 =
      T.code.encode (F.scalars (F.rest us ++ ws)) :=
    fun us ws => (ht.runFrom ws (ht.feed_init us)).1
  constructor
  · intro h
    -- a continuation that only one of the two rests can be completed with
    obtain ⟨c, v, hword, hc⟩ := CharType.exists_word_of_pending (F.pending_rest us)
    have hv := h v
    rw [hout, hout, ← hword, CharType.scalars_word] at hv
    have hsame : F.scalars (F.rest vs ++ v) = [c] := (T.code.encode_injective hv).symm
    have hvs := CharType.eq_word_of_scalars hsame hc
    rw [hword] at hvs
    exact (List.append_cancel_right hvs).symm
  · intro h ws
    rw [hout, hout, h]

end Icubaby
