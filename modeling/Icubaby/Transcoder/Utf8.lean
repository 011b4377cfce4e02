import Icubaby.Transcoder.Basic

/-!
# The transcoder that consumes UTF-8

`transcoder<char8, char32_t>`: a deterministic automaton whose table `utf8d_` holds both the
classes of the bytes and the transitions. The class of a lead byte doubles as the number of bits
to be masked off its payload.

The simulation is with `Owes`: the eight states that a sequence passes through correspond to the
eight lists of ranges that can be owed (`dfaState`), and while the automaton is not in `accept`,
`code_point_` is the payload so far. Two facts about the table, checked cell by cell
(`utf8d_lead` and `utf8d_row`), are all the proofs use of it.
-/

namespace Icubaby

/-- The members of `transcoder<char8, char32_t>`. -/
structure T8To32 where
  /-- The code point value being assembled, a field of `codePointBits` bits. -/
  codePoint : ℕ := 0
  /-- True if the input consumed is well formed. -/
  wellFormed : Bool := true
  /-- The state of the converter. -/
  state : ℕ := 0
  deriving DecidableEq, Repr

namespace T8To32

def accept : ℕ := 0
def reject : ℕ := 12

/-- The first part of the table maps bytes to character classes, the second part maps a
combination of a state of the automaton and a character class to a state. -/
def utf8d : List ℕ := [
  0,0,0,0,0,0,0,0,0,0,0,0,0,0,0,0,  0,0,0,0,0,0,0,0,0,0,0,0,0,0,0,0,
  0,0,0,0,0,0,0,0,0,0,0,0,0,0,0,0,  0,0,0,0,0,0,0,0,0,0,0,0,0,0,0,0,
  0,0,0,0,0,0,0,0,0,0,0,0,0,0,0,0,  0,0,0,0,0,0,0,0,0,0,0,0,0,0,0,0,
  0,0,0,0,0,0,0,0,0,0,0,0,0,0,0,0,  0,0,0,0,0,0,0,0,0,0,0,0,0,0,0,0,
  1,1,1,1,1,1,1,1,1,1,1,1,1,1,1,1,  9,9,9,9,9,9,9,9,9,9,9,9,9,9,9,9,
  7,7,7,7,7,7,7,7,7,7,7,7,7,7,7,7,  7,7,7,7,7,7,7,7,7,7,7,7,7,7,7,7,
  8,8,2,2,2,2,2,2,2,2,2,2,2,2,2,2,  2,2,2,2,2,2,2,2,2,2,2,2,2,2,2,2,
  10,3,3,3,3,3,3,3,3,3,3,3,3,4,3,3, 11,6,6,6,5,8,8,8,8,8,8,8,8,8,8,8,

  0,12,24,36,60,96,84,12,12,12,48,72, 12,12,12,12,12,12,12,12,12,12,12,12,
  12, 0,12,12,12,12,12, 0,12, 0,12,12, 12,24,12,12,12,12,12,24,12,24,12,12,
  12,12,12,12,12,12,12,24,12,12,12,12, 12,24,12,12,12,12,12,12,12,24,12,12,
  12,12,12,12,12,12,12,36,12,36,12,12, 12,36,12,12,12,12,12,36,12,36,12,12,
  12,36,12,12,12,12,12,12,12,12,12,12]

/-- The branch that clamps units wider than eight bits is compiled in: `CHAR_BIT` and
`sizeof (std::uint_least8_t)` are those of the platform. -/
def clampsUnits (charBit sizeofUintLeast8 : ℕ) : Bool :=
  charBit > 8 || sizeofUintLeast8 > 1

/-- The character class of a unit. An index past the end of `utf8d_` is undefined behaviour in
the source and reads `0` here. -/
def unitClass (ucu : ℕ) : ℕ := utf8d.getD ucu 0

/-- The value assigned to `code_point_`. -/
def assemble (t : T8To32) (ucu : ℕ) : ℕ :=
  if t.state ≠ accept then (ucu &&& utf8Mask) ||| (t.codePoint <<< utf8Shift)
  else (0xFF >>> unitClass ucu) &&& ucu

/-- The index of the transition. -/
def idx (t : T8To32) (ucu : ℕ) : ℕ := 256 + t.state + unitClass ucu

/-- `operator()`, on the value of a code unit. -/
def callWith (clamps : Bool) (t : T8To32) (codeUnit : ℕ) : T8To32 × List UInt32 :=
  let ucu := if clamps then max codeUnit 0xFF else codeUnit
  let codePoint := t.assemble ucu % 2 ^ codePointBits
  let state := utf8d.getD (t.idx ucu) 0
  if state = accept then ({ t with codePoint, state }, [UInt32.ofNat codePoint])
  else if state = reject then
    -- the unit is dropped with the sequence that it does not continue
    ({ codePoint, wellFormed := false, state := accept }, [UInt32.ofNat replacementChar])
  else ({ t with codePoint, state }, [])

/-- `operator()`, on a platform with bytes of eight bits. -/
def call (t : T8To32) (codeUnit : UInt8) : T8To32 × List UInt32 :=
  callWith (clampsUnits 8 1) t codeUnit.toNat

/-- `end_cp` -/
def endCp (t : T8To32) : T8To32 × List UInt32 :=
  if t.state ≠ accept then
    ({ t with state := reject, wellFormed := false }, [UInt32.ofNat replacementChar])
  else (t, [])

end T8To32

/-- `transcoder<char8, char32_t>` -/
def t8_32 : Transcoder T8To32 UInt8 UInt32 where
  init := {}
  step := T8To32.call
  finish := T8To32.endCp
  wellFormed := T8To32.wellFormed
  isPartial t := t.state ≠ T8To32.accept

namespace T8To32

/-! ### The table -/

/-- The state of the automaton when the ranges are owed. -/
def dfaState (rs : List (ℕ × ℕ)) : ℕ :=
  if rs = [] then accept
  else if rs = [contRange] then 24
  else if rs = [contRange, contRange] then 36
  else if rs = [(0xA0, 0xBF), contRange] then 48
  else if rs = [(0x80, 0x9F), contRange] then 60
  else if rs = [(0x90, 0xBF), contRange, contRange] then 72
  else if rs = [contRange, contRange, contRange] then 84
  else if rs = [(0x80, 0x8F), contRange, contRange] then 96
  else reject

/-- The first row of the transitions and the masks: Table 3-7's lead bytes. -/
private theorem utf8d_lead : ∀ b < 256,
    utf8d.getD (256 + accept + unitClass b) 0 = ((tailRanges b).map dfaState).getD reject ∧
      ((tailRanges b).isSome = true → (0xFF >>> unitClass b) &&& b = leadPayload b) := by
  decide +kernel

/-- The other rows of the transitions: a state, the range of the bytes that lead on, and the
state they lead to. -/
private def dfaRows : List (ℕ × (ℕ × ℕ) × ℕ) :=
  [(24, (0x80, 0xBF), accept), (36, (0x80, 0xBF), 24), (48, (0xA0, 0xBF), 24),
    (60, (0x80, 0x9F), 24), (72, (0x90, 0xBF), 36), (84, (0x80, 0xBF), 36),
    (96, (0x80, 0x8F), 36)]

private theorem utf8d_row : ∀ row ∈ dfaRows, ∀ b < 256,
    utf8d.getD (256 + row.1 + unitClass b) 0 =
      if row.2.1.1 ≤ b ∧ b ≤ row.2.1.2 then row.2.2 else reject := by
  decide +kernel

private theorem mem_dfaRows : ∀ l ∈ owedLists, ∀ r ∈ l.head?,
    (dfaState l, r, dfaState l.tail) ∈ dfaRows := by
  decide

/-- A byte in the range owed first leads on, any other is rejected. -/
private theorem utf8d_tail {r : ℕ × ℕ} {rs : List (ℕ × ℕ)} (h : r :: rs ∈ owedLists) (b : UInt8) :
    utf8d.getD (256 + dfaState (r :: rs) + unitClass b.toNat) 0 =
      if InRange b r then dfaState rs else reject :=
  utf8d_row _ (mem_dfaRows _ h r rfl) b.toNat b.toNat_lt

private theorem dfaState_eq_accept_iff : ∀ l ∈ owedLists, dfaState l = accept ↔ l = [] := by
  decide

private theorem dfaState_ne_reject : ∀ l ∈ owedLists, dfaState l ≠ reject := by
  decide

/-! ### The simulation -/

/-- The bytes that a state stands for: none, or the begin of a sequence of the table whose owed
ranges and payload the state records. -/
def StandsFor (t : T8To32) (p : List UInt8) : Prop :=
  (p = [] ∧ t.state = accept) ∨
    ∃ r rs, Owes p (r :: rs) t.codePoint ∧ t.state = dfaState (r :: rs)

/-- A fresh decoder stands for no bytes. -/
theorem standsFor_init : StandsFor t8_32.init [] := .inl ⟨rfl, rfl⟩

/-- The payload of a continuation byte is pushed below the bits assembled so far. -/
theorem assemble_of_ne_accept {t : T8To32} (ht : t.state ≠ accept) (x : UInt8) :
    t.assemble x.toNat = pushPayload t.codePoint x := by
  rw [assemble, if_pos ht, and_utf8Mask]
  exact or_shiftLeft _ (Nat.mod_lt _ (by decide))

/-- **One transition.** After one more byte the table leads to the state of what is owed then, and
to `reject` if the bytes begin no sequence. -/
theorem transition {t : T8To32} {p : List UInt8} (h : t.StandsFor p) (x : UInt8) :
    (∃ rs v, Owes (p ++ [x]) rs v ∧ utf8d.getD (t.idx x.toNat) 0 = dfaState rs ∧
        t.assemble x.toNat % 2 ^ codePointBits = v) ∨
      ((∀ rs v, ¬ Owes (p ++ [x]) rs v) ∧ utf8d.getD (t.idx x.toNat) 0 = reject) := by
  rcases h with ⟨rfl, ht⟩ | ⟨r, rs, hp, ht⟩
  · -- a lead byte
    obtain ⟨hstate, hmask⟩ := utf8d_lead x.toNat x.toNat_lt
    rw [List.nil_append, idx, ht, hstate, assemble, if_neg (not_not.mpr ht)]
    cases hx : tailRanges x.toNat with
    | none => exact .inr ⟨fun rs v h => by simp [owes_singleton_iff, hx] at h, rfl⟩
    | some rs =>
      refine .inl ⟨rs, leadPayload x.toNat, .lead hx, rfl, ?_⟩
      rw [hmask (by rw [hx]; rfl)]
      have hle : leadPayload x.toNat ≤ x.toNat := by
        rw [leadPayload]
        split_ifs <;> omega
      exact Nat.mod_eq_of_lt (lt_of_le_of_lt hle (x.toNat_lt.trans (by decide)))
  · -- a byte after a lead byte: the row of the state says which bytes lead on
    have hmem := hp.mem_owedLists
    have hne : t.state ≠ accept := by
      rw [ht, Ne, dfaState_eq_accept_iff _ hmem]
      simp
    rw [idx, ht, utf8d_tail hmem, assemble_of_ne_accept hne]
    by_cases hx : InRange x r
    · refine .inl ⟨rs, pushPayload t.codePoint x, hp.tail hx, if_pos hx, ?_⟩
      have hle := hp.payload_le
      refine Nat.mod_eq_of_lt ?_
      rw [pushPayload]
      rw [maxCodePoint] at hle
      rw [codePointBits]
      omega
    · exact .inr ⟨fun rs' v h => hx (hp.concat_iff.mp h).1, if_neg hx⟩

theorem call_of_accept {t : T8To32} {x : UInt8} (h : utf8d.getD (t.idx x.toNat) 0 = accept) :
    t.call x = ({ t with codePoint := t.assemble x.toNat % 2 ^ codePointBits, state := accept },
      [UInt32.ofNat (t.assemble x.toNat % 2 ^ codePointBits)]) := by
  rw [call, callWith, show clampsUnits 8 1 = false from rfl]
  simp only [Bool.false_eq_true, if_false, h, if_true]

theorem call_of_reject {t : T8To32} {x : UInt8} (h : utf8d.getD (t.idx x.toNat) 0 = reject) :
    t.call x =
      (⟨t.assemble x.toNat % 2 ^ codePointBits, false, accept⟩,
        [UInt32.ofNat replacementChar]) := by
  rw [call, callWith, show clampsUnits 8 1 = false from rfl]
  simp only [Bool.false_eq_true, if_false, h, show reject ≠ accept by decide, if_true]

theorem call_of_pending {t : T8To32} {x : UInt8} {q : ℕ}
    (h : utf8d.getD (t.idx x.toNat) 0 = q) (ha : q ≠ accept) (hr : q ≠ reject) :
    t.call x =
      ({ t with codePoint := t.assemble x.toNat % 2 ^ codePointBits, state := q }, []) := by
  rw [call, callWith, show clampsUnits 8 1 = false from rfl]
  simp only [Bool.false_eq_true, if_false, h, ha, hr]

theorem StandsFor.pending {t : T8To32} {p : List UInt8} (h : t.StandsFor p) : utf8.Pending p := by
  rcases h with ⟨rfl, -⟩ | ⟨r, rs, hp, -⟩
  · exact utf8.pending_nil
  · exact (pending_iff hp.ne_nil).mpr ⟨r, rs, _, hp⟩

/-- A state stands for no bytes exactly when it is `accept`. -/
theorem StandsFor.eq_nil_iff {t : T8To32} {p : List UInt8} (h : t.StandsFor p) :
    p = [] ↔ t.state = accept := by
  rcases h with ⟨rfl, ht⟩ | ⟨r, rs, hp, ht⟩
  · simp [ht]
  · rw [ht, dfaState_eq_accept_iff _ hp.mem_owedLists]
    simp [hp.ne_nil]

/-- A byte that keeps the string pending is held back. -/
theorem call_hold {t : T8To32} {p : List UInt8} {x : UInt8} (h : t.StandsFor p)
    (hx : utf8.Pending (p ++ [x])) :
    (t.call x).1.StandsFor (p ++ [x]) ∧ (t.call x).2 = [] ∧
      (t.call x).1.wellFormed = t.wellFormed := by
  obtain ⟨r, rs, v, hp⟩ := (pending_iff (by simp)).mp hx
  rcases transition h x with ⟨rs', v', hp', hstate, hv⟩ | ⟨hno, -⟩
  · obtain ⟨rfl, rfl⟩ := hp.unique hp'
    have hmem := hp.mem_owedLists
    have ha : dfaState (r :: rs) ≠ accept := by
      rw [Ne, dfaState_eq_accept_iff _ hmem]
      simp
    rw [call_of_pending hstate ha (dfaState_ne_reject _ hmem)]
    exact ⟨.inr ⟨r, rs, by rwa [hv], rfl⟩, rfl, rfl⟩
  · exact absurd hp (hno _ _)

/-- A byte that ends the string, well or badly, has one code point written. -/
theorem call_write {t : T8To32} {p : List UInt8} {x : UInt8} (h : t.StandsFor p)
    (hx : ¬ utf8.Pending (p ++ [x])) :
    (t.call x).1.StandsFor [] ∧ (t.call x).2 = [pieceUnit (utf8.symbol? (p ++ [x]))] ∧
      (t.call x).1.wellFormed = (t.wellFormed && (utf8.symbol? (p ++ [x])).isSome) := by
  rcases transition h x with ⟨rs, v, hp, hstate, hv⟩ | ⟨hno, hstate⟩
  · cases rs with
    | cons r rs => exact absurd ((pending_iff (by simp)).mpr ⟨r, rs, v, hp⟩) hx
    | nil =>
      obtain ⟨c, hc, hcv⟩ := symbol?_of_owes hp
      have hval : UInt32.ofNat v = c.val := by rw [← hcv, ← Char.toNat_val, UInt32.ofNat_toNat]
      rw [call_of_accept hstate, hc, hv, hval]
      exact ⟨.inl ⟨rfl, rfl⟩, rfl, by simp⟩
  · obtain ⟨-, hnone⟩ := dead_of_not_owes (by simp) hno
    rw [call_of_reject hstate, hnone]
    exact ⟨.inl ⟨rfl, rfl⟩, rfl, by simp⟩

theorem StandsFor.exists_call {t : T8To32} {p : List UInt8} (h : t.StandsFor p) (x : UInt8) :
    ∃ q, (t.call x).1.StandsFor q := by
  by_cases hx : utf8.Pending (p ++ [x])
  · exact ⟨_, (call_hold h hx).1⟩
  · exact ⟨_, (call_write h hx).1⟩

/-- Whatever the state, a call and the flush after it write one code point between them. -/
theorem length_call_endCp (t : T8To32) (x : UInt8) :
    ((t.call x).2 ++ (t.call x).1.endCp.2).length = 1 := by
  by_cases ha : utf8d.getD (t.idx x.toNat) 0 = accept
  · rw [call_of_accept ha]
    rfl
  by_cases hr : utf8d.getD (t.idx x.toNat) 0 = reject
  · rw [call_of_reject hr]
    rfl
  · -- the code point is written by the flush
    rw [call_of_pending rfl ha hr, endCp, if_pos ha]
    rfl

theorem length_call_le (t : T8To32) (x : UInt8) : (t.call x).2.length ≤ 1 := by
  rw [← length_call_endCp t x, List.length_append]
  exact Nat.le_add_right _ _

theorem length_endCp_le (t : T8To32) : t.endCp.2.length ≤ 1 := by
  rw [endCp]
  split_ifs
  · exact le_rfl
  · exact Nat.zero_le _

/-! ### After the flush -/

/-- Without a partial sequence the flush changes nothing. -/
theorem StandsFor.endCp {t : T8To32} (h : t.StandsFor []) : t.endCp = (t, []) :=
  if_neg (not_not.mpr (h.eq_nil_iff.mp rfl))

/-- A partial sequence leaves the automaton in its reject state. -/
theorem StandsFor.endCp_of_ne_nil {t : T8To32} {p : List UInt8} (h : t.StandsFor p) (hp : p ≠ []) :
    t.endCp = ({ t with state := reject, wellFormed := false }, [UInt32.ofNat replacementChar]) :=
  if_pos (mt h.eq_nil_iff.mpr hp)

private theorem utf8d_reject : ∀ b < 256, utf8d.getD (256 + reject + unitClass b) 0 = reject := by
  decide +kernel

/-- The automaton leaves `reject` with the next byte, which it drops. -/
theorem call_of_state_reject {t : T8To32} (ht : t.state = reject) (x : UInt8) :
    (t.call x).1.StandsFor [] ∧ (t.call x).2 = [UInt32.ofNat replacementChar] := by
  have hnext : utf8d.getD (t.idx x.toNat) 0 = reject := by
    rw [idx, ht]
    exact utf8d_reject x.toNat x.toNat_lt
  rw [call_of_reject hnext]
  exact ⟨.inl ⟨rfl, rfl⟩, rfl⟩

end T8To32

/-- **The UTF-8 decoder follows the code**: it computes the reading of `utf8`. -/
theorem decodes_t8_32 :
    utf8.Decodes t8_32.toTransducer pieceUnit t8_32.wellFormed T8To32.StandsFor where
  pending h := h.pending
  hold h hx := T8To32.call_hold h hx
  write h hx := T8To32.call_write h hx
  flush {t p} h := by
    have hfinish : t8_32.finish t = t.endCp := rfl
    by_cases hp : p = []
    · subst hp
      rw [hfinish, h.endCp]
      simp
    · have hempty : p.isEmpty = false := by simpa using hp
      rw [hfinish, h.endCp_of_ne_nil hp, hempty, Bool.and_false]
      exact ⟨rfl, rfl⟩

/-- **The UTF-8 decoder.** For every list of bytes the code points written are those of the reading
that cuts off the shortest prefix which cannot be continued to a well-formed sequence, with U+FFFD
for a prefix that is none; and the flag is set exactly on well-formed UTF-8. -/
theorem t8_32_run (bytes : List UInt8) :
    (t8_32.run bytes).2 = (utf8.read bytes).map pieceUnit ∧
      (t8_32.wellFormed (t8_32.run bytes).1 = true ↔ utf8.WellFormed bytes) := by
  obtain ⟨hout, hsound⟩ := decodes_t8_32.reads.runFrom T8To32.standsFor_init bytes
  rw [List.nil_append] at hout hsound
  refine ⟨hout, ?_⟩
  rw [Transducer.run, hsound, PrefixCode.wellFormed_iff_read]
  exact Iff.rfl

end Icubaby
