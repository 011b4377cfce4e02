import Icubaby.Byte.Transcoder

/-!
# Calls in any order

Nothing stops a program from calling `operator()` after `end_cp`, or `end_cp` twice. Whatever the
order, a transcoder writes complete encodings of scalar values and nothing else
(`wellFormed_calls`). Encoders write a word with every call. The decoders need an invariant: between
two calls the automaton for UTF-8 stands for the begin of a sequence or is in `reject`, and the
decoder of UTF-16 remembers a high surrogate or none.
-/

namespace Icubaby

variable {σ τ : Type} {F T : CharType}

/-! ### The code-unit transcoders -/

theorem IsEncoder.writes {t : Transcoder σ UInt32 T.Unit} (h : IsEncoder T t) :
    T.code.Writes t.toTransducer fun _ => True where
  init := trivial
  step {s} u _ := by
    rw [(h.step s u).1]
    exact ⟨trivial, PrefixCode.wellFormed_word _⟩
  finish {s} _ := by
    rw [h.finish]
    exact ⟨trivial, PrefixCode.wellFormed_nil⟩

/-- What an encoder is fed does not matter, so neither does the decoder before it. -/
theorem IsEncoder.writes_triangulator {α : Type} (t : Transcoder σ α UInt32)
    {t' : Transcoder τ UInt32 T.Unit} (h : IsEncoder T t') :
    T.code.Writes (triangulator t t').toTransducer fun _ => True where
  init := trivial
  step {s} x _ := by
    have hout : ((triangulator t t').step s x).2 = (t'.feed s.2 (t.step s.1 x).2).2 := rfl
    rw [hout]
    exact ⟨trivial, (h.writes.feed trivial _).2⟩
  finish {s} _ := by
    have hout : ((triangulator t t').finish s).2 = (t'.runFrom s.2 (t.finish s.1).2).2 := rfl
    rw [hout, (h.runFrom _ _).1]
    exact ⟨trivial, _, rfl⟩

private theorem wellFormed_replacement :
    utf32.WellFormed [UInt32.ofNat replacementChar] :=
  PrefixCode.wellFormed_word (C := utf32) replacement

namespace T8To32

/-- What the decoder of UTF-8 can be in between two calls. -/
def Reachable (t : T8To32) : Prop := (∃ p, t.StandsFor p) ∨ t.state = reject

private theorem Reachable.call {t : T8To32} (h : t.Reachable) (x : UInt8) :
    (t.call x).1.Reachable ∧ utf32.WellFormed (t.call x).2 := by
  rcases h with ⟨p, hp⟩ | hreject
  · by_cases hx : utf8.Pending (p ++ [x])
    · obtain ⟨hR, hout, -⟩ := call_hold hp hx
      rw [hout]
      exact ⟨.inl ⟨_, hR⟩, PrefixCode.wellFormed_nil⟩
    · obtain ⟨hR, hout, -⟩ := call_write hp hx
      rw [hout]
      exact ⟨.inl ⟨_, hR⟩, PrefixCode.wellFormed_word (C := utf32) _⟩
  · obtain ⟨hR, hout⟩ := call_of_state_reject hreject x
    rw [hout]
    exact ⟨.inl ⟨[], hR⟩, wellFormed_replacement⟩

private theorem Reachable.endCp {t : T8To32} (h : t.Reachable) :
    t.endCp.1.Reachable ∧ utf32.WellFormed t.endCp.2 := by
  rw [T8To32.endCp]
  split_ifs
  · exact ⟨.inr rfl, wellFormed_replacement⟩
  · exact ⟨h, PrefixCode.wellFormed_nil⟩

end T8To32

theorem writes_t8_32 : utf32.Writes t8_32.toTransducer T8To32.Reachable where
  init := .inl ⟨[], T8To32.standsFor_init⟩
  step x h := h.call x
  finish h := h.endCp

/-- The pieces of a reading in numbers are written as words. -/
private theorem wellFormed_map_codePointUnit {pieces : List (Option ℕ)}
    (h : ∀ n, some n ∈ pieces → ¬ IsSurrogate n ∧ n ≤ maxCodePoint) :
    utf32.WellFormed (pieces.map codePointUnit) := by
  induction pieces with
  | nil => exact PrefixCode.wellFormed_nil
  | cons o pieces ih =>
    have hpieces := ih fun n hn => h n (List.mem_cons_of_mem o hn)
    have hunit : utf32.WellFormed [codePointUnit o] := by
      cases o with
      | none =>
        rw [codePointUnit_none]
        exact wellFormed_replacement
      | some n =>
        obtain ⟨hsur, hmax⟩ := h n List.mem_cons_self
        have hval : codePointUnit (some n) = (Char.ofNat n).val := by
          rw [codePointUnit_some, ← toNat_ofNat hsur hmax, ← Char.toNat_val, UInt32.ofNat_toNat,
            Char.toNat_val, toNat_ofNat hsur hmax]
        rw [hval]
        exact PrefixCode.wellFormed_word (C := utf32) _
    exact hunit.append hpieces

theorem writes_t16_32 : utf32.Writes t16_32.toTransducer fun t => ∃ p, t.StandsFor p where
  init := ⟨[], T16To32.standsFor_init⟩
  step {t} x h := by
    obtain ⟨p, hp⟩ := h
    obtain ⟨q, pieces, -, hq, hout, -, hread⟩ := T16To32.call_reads x hp
    refine ⟨⟨q, hq⟩, ?_⟩
    rw [show (t16_32.step t x).2 = (t.call x).2 from rfl, hout]
    refine wellFormed_map_codePointUnit fun n hn => ?_
    have hmem : some n ∈ utf16Reading (p ++ [x]) := by
      rw [hread]
      exact List.mem_append_left _ hn
    exact scalar_of_mem_utf16Reading hmem
  finish {t} h := by
    obtain ⟨p, hp⟩ := h
    refine ⟨⟨[], hp.endCp⟩, ?_⟩
    rw [show (t16_32.finish t).2 = t.endCp.2 from rfl, (T16To32.endCp_reads hp).1]
    exact wellFormed_map_codePointUnit fun n hn => scalar_of_mem_utf16Reading hn

/-- Every transcoder between character types writes whole words. -/
theorem exists_writes_transcoder (F T : CharType) :
    ∃ I, T.code.Writes (transcoder F T).toTransducer I := by
  cases F with
  | char8 =>
    cases T with
    | char8 => exact ⟨_, isEncoder_t32_8.writes_triangulator t8_32⟩
    | char16 => exact ⟨_, isEncoder_t32_16.writes_triangulator t8_32⟩
    | char32 => exact ⟨_, writes_t8_32⟩
  | char16 =>
    cases T with
    | char8 => exact ⟨_, isEncoder_t32_8.writes_triangulator t16_32⟩
    | char16 => exact ⟨_, isEncoder_t32_16.writes_triangulator t16_32⟩
    | char32 => exact ⟨_, writes_t16_32⟩
  | char32 =>
    cases T with
    | char8 => exact ⟨_, isEncoder_t32_8.writes⟩
    | char16 => exact ⟨_, isEncoder_t32_16.writes⟩
    | char32 => exact ⟨_, isEncoder_t32_32.writes⟩

/-! ### The byte transcoder -/

namespace ByteTranscoder

/-- What the transcoder for the code units can be in between two calls. -/
def Reachable (I₈ : TranscoderState .char8 T → Prop) (I₁₆ : TranscoderState .char16 T → Prop)
    (I₃₂ : TranscoderState .char32 T → Prop) (b : ByteTranscoder T) : Prop :=
  match b.variant with
  | .monostate => True
  | .t8 t => I₈ t
  | .t16 t => I₁₆ t
  | .t32 t => I₃₂ t

variable {I₈ : TranscoderState .char8 T → Prop} {I₁₆ : TranscoderState .char16 T → Prop}
  {I₃₂ : TranscoderState .char32 T → Prop}

/-- A call leaves the transcoder for the code units sane and writes whole words. -/
def Sane (I₈ : TranscoderState .char8 T → Prop) (I₁₆ : TranscoderState .char16 T → Prop)
    (I₃₂ : TranscoderState .char32 T → Prop) (r : ByteTranscoder T × List T.Unit) : Prop :=
  r.1.Reachable I₈ I₁₆ I₃₂ ∧ T.code.WellFormed r.2

theorem Reachable.quiet {b b' : ByteTranscoder T} (h : b.Reachable I₈ I₁₆ I₃₂)
    (hvar : b'.variant = b.variant) : Sane I₈ I₁₆ I₃₂ (b', []) := by
  refine ⟨?_, PrefixCode.wellFormed_nil⟩
  rw [Reachable, hvar]
  exact h

section

variable (h₈ : T.code.Writes (transcoder .char8 T).toTransducer I₈)
include h₈

theorem sane_run8Start (b : ByteTranscoder T) (copyBuffer : Bool) :
    Sane I₈ I₁₆ I₃₂ (b.run8Start copyBuffer) := by
  rw [run8Start]
  cases copyBuffer with
  | false => exact ⟨h₈.init, PrefixCode.wellFormed_nil⟩
  | true => exact h₈.feed h₈.init _

theorem Reachable.startState {b : ByteTranscoder T} (h : b.Reachable I₈ I₁₆ I₃₂) (x : UInt8) :
    Sane I₈ I₁₆ I₃₂ (b.startState x) := by
  rw [ByteTranscoder.startState]
  dsimp only
  split_ifs
  iterate 4 exact h.quiet rfl
  exact sane_run8Start h₈ _ true

theorem Reachable.bomByte {b : ByteTranscoder T} (h : b.Reachable I₈ I₁₆ I₃₂) (x : UInt8) :
    Sane I₈ I₁₆ I₃₂ (b.bomByte x) := by
  rw [ByteTranscoder.bomByte]
  split_ifs
  · exact h.quiet rfl
  · exact sane_run8Start h₈ _ true

end

theorem Reachable.run16 (h₁₆ : T.code.Writes (transcoder .char16 T).toTransducer I₁₆)
    {b : ByteTranscoder T} (h : b.Reachable I₈ I₁₆ I₃₂) (x : UInt8) :
    Sane I₈ I₁₆ I₃₂ (b.run16 x) := by
  obtain ⟨state, buffer, variant⟩ := b
  cases variant with
  | t16 t => exact h₁₆.step _ h
  | monostate | t8 t | t32 t => exact h.quiet rfl

theorem Reachable.run32 (h₃₂ : T.code.Writes (transcoder .char32 T).toTransducer I₃₂)
    {b : ByteTranscoder T} (h : b.Reachable I₈ I₁₆ I₃₂) (x : UInt8) :
    Sane I₈ I₁₆ I₃₂ (b.run32 x) := by
  obtain ⟨state, buffer, variant⟩ := b
  cases variant with
  | t32 t => exact h₃₂.step _ h
  | monostate | t8 t | t16 t => exact h.quiet rfl

/-- **One call**, whatever the state. -/
theorem Reachable.call (h₈ : T.code.Writes (transcoder .char8 T).toTransducer I₈)
    (h₁₆ : T.code.Writes (transcoder .char16 T).toTransducer I₁₆)
    (h₃₂ : T.code.Writes (transcoder .char32 T).toTransducer I₃₂)
    {b : ByteTranscoder T} (h : b.Reachable I₈ I₁₆ I₃₂) (x : UInt8) :
    Sane I₈ I₁₆ I₃₂ (b.call x) := by
  have hstart : ∀ s : States, ∀ v : Vector UInt8 4,
      Sane I₈ I₁₆ I₃₂ (⟨s, v, .t16 (transcoder .char16 T).init⟩, []) := fun _ _ =>
    ⟨h₁₆.init, PrefixCode.wellFormed_nil⟩
  obtain ⟨state, buffer, variant⟩ := b
  cases state with
  | start => exact h.startState h₈ x
  | utf8BomByte2 => exact sane_run8Start h₈ _ _
  | utf16BeBomByte1 =>
    simp only [ByteTranscoder.call]
    split_ifs
    · exact hstart _ _
    · exact sane_run8Start h₈ _ true
  | utf32Or16LeBomByte2 =>
    simp only [ByteTranscoder.call]
    split_ifs
    · exact hstart _ _
    · exact h.bomByte h₈ x
  | utf8BomByte1 | utf32Or16LeBomByte1 | utf32Or16BeBomByte1 | utf32BeBomByte2 =>
    exact h.bomByte h₈ x
  | utf32LeBomByte3 | utf32BeBomByte3 =>
    simp only [ByteTranscoder.call]
    split_ifs
    · exact ⟨h₃₂.init, PrefixCode.wellFormed_nil⟩
    · exact sane_run8Start h₈ _ true
  | run8 =>
    cases variant with
    | t8 t => exact h₈.step x h
    | monostate | t16 t | t32 t => exact h.quiet rfl
  | run16beByte1 | run16leByte1 => exact h.run16 h₁₆ x
  | run32beByte3 | run32leByte3 => exact h.run32 h₃₂ x
  | run16beByte0 | run16leByte0 | run32beByte0 | run32beByte1 | run32beByte2 | run32leByte0
  | run32leByte1 | run32leByte2 | other c => exact h.quiet rfl

theorem Reachable.endCp (h₈ : T.code.Writes (transcoder .char8 T).toTransducer I₈)
    (h₁₆ : T.code.Writes (transcoder .char16 T).toTransducer I₁₆)
    (h₃₂ : T.code.Writes (transcoder .char32 T).toTransducer I₃₂)
    {b : ByteTranscoder T} (h : b.Reachable I₈ I₁₆ I₃₂) : Sane I₈ I₁₆ I₃₂ b.endCp := by
  obtain ⟨state, buffer, variant⟩ := b
  cases variant with
  | monostate => exact sane_run8Start h₈ _ _
  | t8 t => exact h₈.finish h
  | t16 t => exact h₁₆.finish h
  | t32 t => exact h₃₂.finish h

end ByteTranscoder

/-- The byte transcoder writes whole words. -/
theorem exists_writes_tx (T : CharType) : ∃ I, T.code.Writes (tx T).toTransducer I := by
  obtain ⟨I₈, h₈⟩ := exists_writes_transcoder .char8 T
  obtain ⟨I₁₆, h₁₆⟩ := exists_writes_transcoder .char16 T
  obtain ⟨I₃₂, h₃₂⟩ := exists_writes_transcoder .char32 T
  exact ⟨ByteTranscoder.Reachable I₈ I₁₆ I₃₂, trivial, fun x h => h.call h₈ h₁₆ h₃₂ x,
    fun h => h.endCp h₈ h₁₆ h₃₂⟩

/-- **Everything written is well formed.** For each of the twelve transcoders and all calls of
`operator()` and `end_cp` on one object, in any order, what has been written is a concatenation of
encodings of scalar values. -/
theorem wellFormed_calls (T : CharType) :
    (∀ (F : CharType) (calls : List (Transducer.Call F.Unit)),
      let t := (transcoder F T).interactive
      T.code.WellFormed (t.feed t.init calls).2) ∧
    ∀ calls : List (Transducer.Call UInt8),
      let t := (tx T).interactive
      T.code.WellFormed (t.feed t.init calls).2 := by
  refine ⟨fun F calls => ?_, fun calls => ?_⟩
  · obtain ⟨I, h⟩ := exists_writes_transcoder F T
    exact (h.interactive.feed h.init calls).2
  · obtain ⟨I, h⟩ := exists_writes_tx T
    exact (h.interactive.feed h.init calls).2

end Icubaby
