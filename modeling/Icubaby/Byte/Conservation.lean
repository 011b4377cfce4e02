import Icubaby.Byte.Assertions
import Icubaby.Byte.Conversion

/-!
# Conservation of bytes

What the state code, the buffer, the variant and the output of the byte transcoder say about the
bytes fed to it, stated without the framing: while a mark is being identified all bytes are in the
buffer; in a run the code-unit transcoder has been fed what follows the mark, except for the bytes
of an incomplete code unit, which are in the buffer (`conserves`).
-/

namespace Icubaby

variable {T : CharType}

namespace States

/-- The states of a run of UTF-16. -/
def run16States : Endian → List States
  | .big => [.run16beByte0, .run16beByte1]
  | .little => [.run16leByte0, .run16leByte1]

/-- The states of a run of UTF-32. -/
def run32States : Endian → List States
  | .big => [.run32beByte0, .run32beByte1, .run32beByte2, .run32beByte3]
  | .little => [.run32leByte0, .run32leByte1, .run32leByte2, .run32leByte3]

end States

namespace ByteTranscoder

/-- The first bytes of the buffer, as many as the byte number of the state. -/
def gathered (b : ByteTranscoder T) : List UInt8 :=
  b.buffer.toList.take b.state.getByteNo.toNat

/-- The bytes are accounted for by the transcoder and what it has written. -/
structure Conserves (bytes : List UInt8) (b : ByteTranscoder T) (out : List T.Unit) : Prop where
  /-- The state is an enumerator. -/
  known : b.state ∈ States.enumerators
  bomMode : b.state.isRunMode = false →
    b.state.getByteNo.toNat = bytes.length ∧ b.gathered = bytes ∧ b.variant = .monostate ∧ out = []
  run8 : b.state = .run8 →
    let units := if utf8Mark <+: bytes then bytes.drop 3 else bytes
    let r := (transcoder .char8 T).feed (transcoder .char8 T).init units
    b.variant = .t8 r.1 ∧ out = r.2
  run16 (e : Endian) : b.state ∈ States.run16States e →
    ∃ groups : List (List UInt8), bytes = e.mark16 ++ groups.flatten ++ b.gathered ∧
      (∀ g ∈ groups, g.length = 2) ∧ b.gathered.length < 2 ∧
        let r := (transcoder .char16 T).feed (transcoder .char16 T).init (groups.map e.join16)
        b.variant = .t16 r.1 ∧ out = r.2
  run32 (e : Endian) : b.state ∈ States.run32States e →
    ∃ groups : List (List UInt8), bytes = e.mark32 ++ groups.flatten ++ b.gathered ∧
      (∀ g ∈ groups, g.length = 4) ∧ b.gathered.length < 4 ∧
        let r := (transcoder .char32 T).feed (transcoder .char32 T).init (groups.map e.join32)
        b.variant = .t32 r.1 ∧ out = r.2

end ByteTranscoder

namespace Framing

open ByteTranscoder States

/-! ### The states of the machine, by kind -/

private theorem bomStates_spec (e : Endian) : ∀ s ∈ bomStates,
    s ∈ enumerators ∧ s ≠ .run8 ∧ s ∉ run16States e ∧ s ∉ run32States e := by
  cases e <;> decide

private theorem run8_spec (e : Endian) :
    States.run8 ∉ run16States e ∧ States.run8 ∉ run32States e := by
  cases e <;> decide

private theorem run16States_spec (e e' : Endian) : ∀ s ∈ run16States e,
    s ∈ enumerators ∧ s.isRunMode = true ∧ s ≠ .run8 ∧ (s ∈ run16States e' → e' = e) ∧
      s ∉ run32States e' := by
  cases e <;> cases e' <;> decide

private theorem run32States_spec (e e' : Endian) : ∀ s ∈ run32States e,
    s ∈ enumerators ∧ s.isRunMode = true ∧ s ≠ .run8 ∧ s ∉ run16States e' ∧
      (s ∈ run32States e' → e' = e) := by
  cases e <;> cases e' <;> decide

private theorem getByteNo_run :
    run16beByte0.getByteNo.toNat = 0 ∧ run16beByte1.getByteNo.toNat = 1 ∧
      run16leByte0.getByteNo.toNat = 0 ∧ run16leByte1.getByteNo.toNat = 1 ∧
      run32beByte0.getByteNo.toNat = 0 ∧ run32beByte1.getByteNo.toNat = 1 ∧
      run32beByte2.getByteNo.toNat = 2 ∧ run32beByte3.getByteNo.toNat = 3 ∧
      run32leByte0.getByteNo.toNat = 0 ∧ run32leByte1.getByteNo.toNat = 1 ∧
      run32leByte2.getByteNo.toNat = 2 ∧ run32leByte3.getByteNo.toNat = 3 := by
  decide

/-- The state of a run of UTF-16 says how many bytes of a unit have been gathered. -/
theorem run16State_spec (e : Endian) {held : List UInt8} (hlen : held.length < 2) :
    run16State e held ∈ run16States e ∧ (run16State e held).getByteNo.toNat = held.length := by
  match held with
  | [] | [_] => cases e <;> simp [run16State, run16States, getByteNo_run]

/-- The state of a run of UTF-32 says how many bytes of a unit have been gathered. -/
theorem run32State_spec (e : Endian) {held : List UInt8} (hlen : held.length < 4) :
    run32State e held ∈ run32States e ∧ (run32State e held).getByteNo.toNat = held.length := by
  match held with
  | [] | [_] | [_, _] | [_, _, _] => cases e <;> simp [run32State, run32States, getByteNo_run]

private theorem gathered_eq {b : ByteTranscoder T} {held : List UInt8}
    (hno : b.state.getByteNo.toNat = held.length) (h : held <+: b.buffer.toList) :
    b.gathered = held := by
  rw [gathered, hno]
  exact (List.prefix_iff_eq_take.mp h).symm

/-! ### One kind of framing after the other -/

/-- The bytes held back are those in the buffer, and nothing has been fed to any transcoder. -/
theorem HoldsBack.conserves {seen : List UInt8} {b : ByteTranscoder T} (h : HoldsBack seen b) :
    Conserves seen b [] := by
  obtain ⟨hstate, hvar⟩ := h.mem_bomStates
  have hno : b.state.getByteNo.toNat = seen.length := by
    change (b.state.byteIndex : ℕ) = seen.length
    cases h <;> simp
  have hheld : seen <+: b.buffer.toList := by cases h <;> simp
  exact
    { known := (bomStates_spec .big _ hstate).1
      bomMode _ := ⟨hno, gathered_eq hno hheld, hvar, rfl⟩
      run8 h8 := absurd h8 (bomStates_spec .big _ hstate).2.1
      run16 e h16 := absurd h16 (bomStates_spec e _ hstate).2.2.1
      run32 e h32 := absurd h32 (bomStates_spec e _ hstate).2.2.2 }

/-- The payload of UTF-8 is all that follows a mark. -/
theorem eq_of_ofBytes_utf8 {bytes p : List UInt8} (h : ofBytes bytes = utf8 p) :
    p = if utf8Mark <+: bytes then bytes.drop 3 else bytes := by
  by_cases hmark : utf8Mark <+: bytes
  · obtain ⟨rest, rfl⟩ := hmark
    rw [(ofBytes_mark rest).1] at h
    rw [if_pos (List.prefix_append _ _), ← utf8.inj h]
    rfl
  · have hacc := accounts_ofBytes bytes
    rw [h] at hacc
    rw [if_neg hmark]
    rcases hacc with rfl | rfl
    · rfl
    · exact absurd (List.prefix_append _ _) hmark

theorem Holds.conserves_utf8 {bytes p : List UInt8} {b : ByteTranscoder T} {out : List T.Unit}
    (h : (utf8 p).Holds b out) (hp : p = if utf8Mark <+: bytes then bytes.drop 3 else bytes) :
    Conserves bytes b out := by
  obtain ⟨hstate, hvar, hout⟩ := h
  rw [hp] at hvar hout
  exact
    { known := hstate ▸ by decide
      bomMode hbom := by
        rw [hstate] at hbom
        exact absurd hbom (by decide)
      run8 _ := ⟨hvar, hout⟩
      run16 e h16 := absurd (hstate ▸ h16) (run8_spec e).1
      run32 e h32 := absurd (hstate ▸ h32) (run8_spec e).2 }

theorem Holds.conserves_utf16 {e : Endian} {p : List UInt8} {b : ByteTranscoder T}
    {out : List T.Unit} (h : (utf16 e p).Holds b out) : Conserves (e.mark16 ++ p) b out := by
  obtain ⟨hstate, hheld, hvar, hout⟩ := h
  obtain ⟨groups, hp, hgroups, hunits⟩ := e.exists_groups16 p
  have hlen := e.length_feed_assembler16_lt p
  obtain ⟨hmem, hno⟩ := run16State_spec e hlen
  rw [← hstate] at hmem hno
  -- the bytes gathered are those in the buffer
  rw [← gathered_eq hno hheld] at hp hlen
  rw [hunits] at hvar hout
  obtain ⟨hknown, hmode, hrun8, -⟩ := run16States_spec e e _ hmem
  exact
    { known := hknown
      bomMode hbom := absurd (hmode.symm.trans hbom) (by decide)
      run8 h8 := absurd h8 hrun8
      run16 e' h16 := by
        obtain rfl := (run16States_spec e e' _ hmem).2.2.2.1 h16
        refine ⟨groups, ?_, hgroups, hlen, hvar, hout⟩
        rw [List.append_assoc, ← hp]
      run32 e' h32 := absurd h32 (run16States_spec e e' _ hmem).2.2.2.2 }

theorem Holds.conserves_utf32 {e : Endian} {p : List UInt8} {b : ByteTranscoder T}
    {out : List T.Unit} (h : (utf32 e p).Holds b out) : Conserves (e.mark32 ++ p) b out := by
  obtain ⟨hstate, hheld, hvar, hout⟩ := h
  obtain ⟨groups, hp, hgroups, hunits⟩ := e.exists_groups32 p
  have hlen := e.length_feed_assembler32_lt p
  obtain ⟨hmem, hno⟩ := run32State_spec e hlen
  rw [← hstate] at hmem hno
  rw [← gathered_eq hno hheld] at hp hlen
  rw [hunits] at hvar hout
  obtain ⟨hknown, hmode, hrun8, -⟩ := run32States_spec e e _ hmem
  exact
    { known := hknown
      bomMode hbom := absurd (hmode.symm.trans hbom) (by decide)
      run8 h8 := absurd h8 hrun8
      run16 e' h16 := absurd h16 (run32States_spec e e' _ hmem).2.2.2.1
      run32 e' h32 := by
        obtain rfl := (run32States_spec e e' _ hmem).2.2.2.2 h32
        refine ⟨groups, ?_, hgroups, hlen, hvar, hout⟩
        rw [List.append_assoc, ← hp] }

/-- **What a framing says about the transcoder** is what conservation asks for. -/
theorem Holds.conserves {bytes : List UInt8} {b : ByteTranscoder T} {out : List T.Unit}
    (h : (ofBytes bytes).Holds b out) : Conserves bytes b out := by
  have hacc := accounts_ofBytes bytes
  cases hf : ofBytes bytes with
  | detecting seen =>
    rw [hf] at h hacc
    obtain ⟨hb, rfl⟩ := h
    rw [hacc.1]
    exact hb.conserves
  | utf8 p =>
    rw [hf] at h
    exact h.conserves_utf8 (eq_of_ofBytes_utf8 hf)
  | utf16 e p =>
    rw [hf] at h hacc
    rw [hacc]
    exact h.conserves_utf16
  | utf32 e p =>
    rw [hf] at h hacc
    rw [hacc]
    exact h.conserves_utf32

end Framing

/-- **Conservation.** Whatever bytes have been fed to a fresh transcoder, they are accounted for:
they are in the buffer, or the transcoder for the selected encoding has been fed what follows the
mark, but for the bytes of an incomplete unit, which are in the buffer. No assertion has failed. -/
theorem tx_conserves (T : CharType) (bytes : List UInt8) :
    let r := (tx T).feed (tx T).init bytes
    ByteTranscoder.Conserves bytes r.1 r.2 ∧ (tx T).init.checkedFeed bytes = .ok r :=
  ⟨(Framing.holds_ofBytes T bytes).conserves, checkedFeed_eq T bytes⟩

end Icubaby
