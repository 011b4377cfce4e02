import Icubaby.Byte.Simulation

/-!
# The assertions of the byte transcoder

The machine once more, with the assertions and the accesses by a computed index as steps that can
fail. What is left when all of them pass is the machine of `Icubaby.Byte.Transcoder`. In the states
that bytes lead to they do pass (`Framing.Holds.checkedCall`), so the machine with the assertions
runs through every stream (`checkedFeed_eq`).

`assert (coder == this)` in the overload of `end_cp` that takes an `icubaby::iterator` is left out.
It is about the iterator, which may belong to another object; then it fails.
-/

namespace Icubaby

/-- What can go wrong in a call. -/
inductive Violation
  /-- "Expected this state to target byte #…" -/
  | byteExpected
  /-- "The FSM should not be in run mode when … is called" -/
  | inRunMode
  /-- "The variant should hold monostate until the FSM is in run mode" -/
  | noMonostate
  /-- The variant does not hold the transcoder for the code units of the run. -/
  | wrongAlternative
  /-- A handler is called in a state that is not its own. -/
  | wrongState
  /-- "States must not try to address a byte number > 3" -/
  | byteNumber
  /-- "Expected a BOM mode state" -/
  | bomModeExpected
  /-- A state byte has bits above those of the encoding. -/
  | strayBits
  /-- "The index is too large for the BOMs array" -/
  | bomsRow
  /-- "Byte number must lie within the BOMs array" -/
  | bomsColumn
  /-- `buffer_` is accessed past its end. -/
  | bufferIndex
  /-- "Unknown byte transcoder state" -/
  | unknownState
  deriving DecidableEq, Repr

/-- `assert` -/
def check (p : Prop) [Decidable p] (v : Violation) : Except Violation Unit :=
  if p then .ok () else .error v

@[simp] theorem check_bind {p : Prop} [Decidable p] {v : Violation} {γ : Type}
    {f : Unit → Except Violation γ} (hp : p) : check p v >>= f = f () := by
  rw [check, if_pos hp]
  rfl

namespace States

/-- `set_byte` -/
def checkedSetByte (s : States) (byteNumber : UInt8) : Except Violation States := do
  check (byteNumber < 4) .byteNumber
  return s.setByte byteNumber

/-- `next_byte` -/
def checkedNextByte (s : States) : Except Violation States := s.checkedSetByte (s.getByteNo + 1)

/-- `set_run_mode` -/
def checkedSetRunMode (s : States) : Except Violation States := do
  check (s.code &&& runMask = bomMode) .bomModeExpected
  return s.setRunMode

/-- `bom_value`, for a state byte and a byte number -/
def checkedBomValueOf (stateByte byteNumber : UInt8) : Except Violation UInt8 := do
  check ((stateByte &&& (encodingMask ||| endianMask)) >>> endianShift = stateByte >>> endianShift)
    .strayBits
  check ((stateByte >>> endianShift).toNat < boms.length) .bomsRow
  check (byteNumber.toNat < (boms.getD (stateByte >>> endianShift).toNat []).length) .bomsColumn
  return bomValueOf stateByte byteNumber

/-- `bom_value`, for a state -/
def checkedBomValue (s : States) : Except Violation UInt8 := checkedBomValueOf s.code s.getByteNo

end States

/-- `std::holds_alternative<std::monostate>` -/
def TranscoderVariant.isMonostate {T : CharType} : TranscoderVariant T → Bool
  | .monostate => true
  | _ => false

/-- `std::holds_alternative<t8_type>` -/
def TranscoderVariant.isT8 {T : CharType} : TranscoderVariant T → Bool
  | .t8 _ => true
  | _ => false

/-- `std::holds_alternative<t16_type>` -/
def TranscoderVariant.isT16 {T : CharType} : TranscoderVariant T → Bool
  | .t16 _ => true
  | _ => false

/-- `std::holds_alternative<t32_type>` -/
def TranscoderVariant.isT32 {T : CharType} : TranscoderVariant T → Bool
  | .t32 _ => true
  | _ => false

namespace ByteTranscoder

variable {T : CharType}

/-- `buffer_[get_byte_no ()] = value` -/
def checkedStore (b : ByteTranscoder T) (value : UInt8) : Except Violation (ByteTranscoder T) := do
  check (b.state.getByteNo.toNat < 4) .bufferIndex
  return b.store value

/-- `run8_start` -/
def checkedRun8Start (b : ByteTranscoder T) (copyBuffer : Bool) :
    Except Violation (ByteTranscoder T × List T.Unit) := do
  check (b.state.isRunMode = false) .inRunMode
  check (b.variant.isMonostate = true) .noMonostate
  check (copyBuffer = true → b.state.getByteNo.toNat + 1 ≤ 4) .bufferIndex
  return b.run8Start copyBuffer

/-- `run16_start` -/
def checkedRun16Start (b : ByteTranscoder T) : Except Violation (ByteTranscoder T) := do
  check (b.state.isRunMode = false) .inRunMode
  check (b.variant.isMonostate = true) .noMonostate
  -- `byte_no (0U)`
  check ((0 : UInt8) < 4) .byteNumber
  return b.run16Start

/-- The buffer has a first element. -/
theorem size_pos : 0 < 4 := by decide

/-- `start_state` -/
def checkedStartState (b : ByteTranscoder T) (value : UInt8) :
    Except Violation (ByteTranscoder T × List T.Unit) := do
  let b := { b with buffer := b.buffer.set 0 value size_pos }
  if value = (← States.checkedBomValueOf (encodingUtf8 ||| bigEndian) 0) then
    return ({ b with state := .utf8BomByte1 }, [])
  else if value = (← States.checkedBomValueOf (encodingUtf16 ||| bigEndian) 0) then
    return ({ b with state := .utf16BeBomByte1 }, [])
  else if value = (← States.checkedBomValueOf (encodingUtf16 ||| littleEndian) 0) then
    return ({ b with state := .utf32Or16LeBomByte1 }, [])
  else if value = (← States.checkedBomValueOf (encodingUtf32 ||| bigEndian) 0) then
    return ({ b with state := .utf32Or16BeBomByte1 }, [])
  else b.checkedRun8Start true

/-- `run16` -/
def checkedRun16 (b : ByteTranscoder T) (value : UInt8) :
    Except Violation (ByteTranscoder T × List T.Unit) := do
  check (b.state = .run16beByte1 ∨ b.state = .run16leByte1) .wrongState
  check (b.variant.isT16 = true) .wrongAlternative
  let _ ← b.state.checkedSetByte 0
  return b.run16 value

/-- `run32` -/
def checkedRun32 (b : ByteTranscoder T) (value : UInt8) :
    Except Violation (ByteTranscoder T × List T.Unit) := do
  check (b.state = .run32beByte3 ∨ b.state = .run32leByte3) .wrongState
  check (b.variant.isT32 = true) .wrongAlternative
  let _ ← b.state.checkedSetByte 0
  return b.run32 value

/-- The case that several states share. -/
def checkedBomByte (b : ByteTranscoder T) (value : UInt8) :
    Except Violation (ByteTranscoder T × List T.Unit) := do
  check (b.state.getByteNo = 1 ∨ b.state.getByteNo = 2) .byteExpected
  let b ← b.checkedStore value
  if value = (← b.state.checkedBomValue) then
    let state ← b.state.checkedNextByte
    return ({ b with state }, [])
  else b.checkedRun8Start true

/-- `operator()` -/
def checkedCall (b : ByteTranscoder T) (value : UInt8) :
    Except Violation (ByteTranscoder T × List T.Unit) :=
  match b.state with
  | .start => b.checkedStartState value
  | .utf8BomByte2 => do
    check (b.state.getByteNo = 2) .byteExpected
    let b ← b.checkedStore value
    let bomValue ← b.state.checkedBomValue
    b.checkedRun8Start (value ≠ bomValue)
  | .utf16BeBomByte1 => do
    check (b.state.getByteNo = 1) .byteExpected
    let b ← b.checkedStore value
    if value = (← b.state.checkedBomValue) then return (← b.checkedRun16Start, [])
    else b.checkedRun8Start true
  | .utf32Or16LeBomByte2 => do
    check (b.state.getByteNo = 2) .byteExpected
    let bomValue ← States.checkedBomValueOf (encodingUtf32 ||| littleEndian) b.state.getByteNo
    if value ≠ bomValue then
      let b ← b.checkedRun16Start
      return ({ b with state := .run16leByte1, buffer := b.buffer.set 0 value size_pos }, [])
    else b.checkedBomByte value
  | .utf8BomByte1 | .utf32Or16LeBomByte1 | .utf32Or16BeBomByte1 | .utf32BeBomByte2 =>
    b.checkedBomByte value
  | .utf32LeBomByte3 | .utf32BeBomByte3 => do
    check (b.state.getByteNo = 3) .byteExpected
    let b ← b.checkedStore value
    let bomValue ← States.checkedBomValueOf (encodingUtf32 ||| (b.state.code &&& endianMask))
      b.state.getByteNo
    if value = bomValue then
      let state ← (← b.state.checkedSetByte 0).checkedSetRunMode
      return ({ b with variant := .t32 (transcoder .char32 T).init, state }, [])
    else b.checkedRun8Start true
  | .run16beByte0 | .run16leByte0 | .run32beByte0 | .run32beByte1 | .run32beByte2
  | .run32leByte0 | .run32leByte1 | .run32leByte2 => do
    check (b.state.getByteNo < 3) .byteExpected
    let b ← b.checkedStore value
    let state ← b.state.checkedNextByte
    return ({ b with state }, [])
  | .run8 => do
    check (b.variant.isT8 = true) .wrongAlternative
    return b.call value
  | .run16beByte1 | .run16leByte1 => b.checkedRun16 value
  | .run32beByte3 | .run32leByte3 => b.checkedRun32 value
  | .other _ => .error .unknownState

/-- The bytes of a list in order. -/
def checkedFeed (b : ByteTranscoder T) :
    List UInt8 → Except Violation (ByteTranscoder T × List T.Unit)
  | [] => return (b, [])
  | x :: xs => do
    let r ← b.checkedCall x
    let r' ← checkedFeed r.1 xs
    return (r'.1, r.2 ++ r'.2)

end ByteTranscoder

/-! ### Assertions that hold -/

theorem ok_bind {γ δ : Type} {a : γ} {f : γ → Except Violation δ} :
    (Except.ok a >>= f) = f a := rfl

namespace States

theorem checkedSetByte_eq (s : States) {n : UInt8} (hn : n < 4) :
    s.checkedSetByte n = .ok (s.setByte n) := check_bind hn

theorem checkedSetRunMode_eq : ∀ s ∈ [utf32BeBomByte3.setByte 0, utf32LeBomByte3.setByte 0],
    s.checkedSetRunMode = .ok s.setRunMode := by
  decide

theorem checkedNextByte_eq {s : States} (hs : s.getByteNo < 3) :
    s.checkedNextByte = .ok s.nextByte := by
  refine checkedSetByte_eq s ?_
  rw [UInt8.lt_iff_toNat_lt] at hs ⊢
  rw [UInt8.toNat_add]
  change s.getByteNo.toNat < 3 at hs
  change (s.getByteNo.toNat + 1) % 256 < 4
  omega

theorem checkedBomValue_eq : ∀ s ∈ enumerators, s ≠ start →
    s.checkedBomValue = .ok s.bomValue := by
  decide

/-- The first bytes of the marks. -/
theorem checkedBomValueOf_zero :
    checkedBomValueOf (encodingUtf8 ||| bigEndian) 0 =
        .ok (bomValueOf (encodingUtf8 ||| bigEndian) 0) ∧
      checkedBomValueOf (encodingUtf16 ||| bigEndian) 0 =
        .ok (bomValueOf (encodingUtf16 ||| bigEndian) 0) ∧
      checkedBomValueOf (encodingUtf16 ||| littleEndian) 0 =
        .ok (bomValueOf (encodingUtf16 ||| littleEndian) 0) ∧
      checkedBomValueOf (encodingUtf32 ||| bigEndian) 0 =
        .ok (bomValueOf (encodingUtf32 ||| bigEndian) 0) := by
  decide

/-- The fourth bytes of the marks. -/
theorem checkedBomValueOf_utf32 : ∀ s ∈ [utf32BeBomByte3, utf32LeBomByte3],
    checkedBomValueOf (encodingUtf32 ||| (s.code &&& endianMask)) s.getByteNo =
      .ok (bomValueOf (encodingUtf32 ||| (s.code &&& endianMask)) s.getByteNo) := by
  decide

theorem checkedBomValueOf_or16 :
    checkedBomValueOf (encodingUtf32 ||| littleEndian) utf32Or16LeBomByte2.getByteNo =
      .ok (bomValueOf (encodingUtf32 ||| littleEndian) utf32Or16LeBomByte2.getByteNo) := by
  decide

/-- The states of a run in which a byte completes no code unit. -/
def keepStates : List States :=
  [run16beByte0, run16leByte0, run32beByte0, run32beByte1, run32beByte2, run32leByte0,
    run32leByte1, run32leByte2]

theorem getByteNo_keep : ∀ s ∈ keepStates, s.getByteNo < 3 := by
  decide

end States

namespace ByteTranscoder

theorem checkedStore_eq (b : ByteTranscoder T) (x : UInt8) :
    b.checkedStore x = .ok (b.store x) := check_bind b.state.getByteNo_lt

theorem checkedRun8Start_eq {b : ByteTranscoder T} (hstate : b.state.isRunMode = false)
    (hvar : b.variant = .monostate) (copyBuffer : Bool) :
    b.checkedRun8Start copyBuffer = .ok (b.run8Start copyBuffer) := by
  have hmono : b.variant.isMonostate = true := by rw [hvar]; rfl
  have hindex : copyBuffer = true → b.state.getByteNo.toNat + 1 ≤ 4 := fun _ => b.state.getByteNo_lt
  rw [checkedRun8Start, check_bind hstate, check_bind hmono, check_bind hindex]
  rfl

theorem checkedRun16Start_eq {b : ByteTranscoder T} (hstate : b.state.isRunMode = false)
    (hvar : b.variant = .monostate) : b.checkedRun16Start = .ok b.run16Start := by
  have hmono : b.variant.isMonostate = true := by rw [hvar]; rfl
  rw [checkedRun16Start, check_bind hstate, check_bind hmono, check_bind (by decide)]
  rfl

theorem checkedStartState_eq {b : ByteTranscoder T} (hstate : b.state.isRunMode = false)
    (hvar : b.variant = .monostate) (x : UInt8) :
    b.checkedStartState x = .ok (b.startState x) := by
  obtain ⟨h8, h16be, h16le, h32be⟩ := States.checkedBomValueOf_zero
  rw [checkedStartState, h8, ok_bind, h16be, ok_bind, h16le, ok_bind, h32be, ok_bind,
    checkedRun8Start_eq (b := { b with buffer := b.buffer.set 0 x }) hstate hvar, startState]
  dsimp only
  split_ifs <;> rfl

theorem checkedBomByte_eq {b : ByteTranscoder T}
    (hstate : b.state ∈ [.utf8BomByte1, .utf32Or16LeBomByte1, .utf32Or16BeBomByte1,
      .utf32BeBomByte2, .utf32Or16LeBomByte2])
    (hvar : b.variant = .monostate) (x : UInt8) : b.checkedBomByte x = .ok (b.bomByte x) := by
  have hall : ∀ s ∈ [States.utf8BomByte1, .utf32Or16LeBomByte1, .utf32Or16BeBomByte1,
      .utf32BeBomByte2, .utf32Or16LeBomByte2],
      (s.getByteNo = 1 ∨ s.getByteNo = 2) ∧ s ∈ States.enumerators ∧ s ≠ .start ∧
        s.getByteNo < 3 ∧ s.isRunMode = false := by
    decide
  obtain ⟨hno, hmem, hne, hlt, hrun⟩ := hall _ hstate
  have hbom : (b.store x).state.checkedBomValue = .ok (b.store x).state.bomValue :=
    States.checkedBomValue_eq _ hmem hne
  have hnext : (b.store x).state.checkedNextByte = .ok (b.store x).state.nextByte :=
    States.checkedNextByte_eq hlt
  rw [checkedBomByte, check_bind hno, checkedStore_eq, ok_bind, hbom, ok_bind, hnext, ok_bind,
    checkedRun8Start_eq (b := b.store x) hrun hvar, bomByte]
  split_ifs <;> rfl

/-- The states in which a byte order mark is being identified. -/
def bomStates : List States :=
  [.start, .utf8BomByte1, .utf8BomByte2, .utf16BeBomByte1, .utf32BeBomByte2, .utf32BeBomByte3,
    .utf32Or16BeBomByte1, .utf32Or16LeBomByte1, .utf32Or16LeBomByte2, .utf32LeBomByte3]

/-- **While a mark is being identified** all assertions hold if there is no transcoder yet. -/
theorem checkedCall_bom {b : ByteTranscoder T} (hstate : b.state ∈ bomStates)
    (hvar : b.variant = .monostate) (x : UInt8) : b.checkedCall x = .ok (b.call x) := by
  obtain ⟨state, buffer, variant⟩ := b
  obtain rfl : variant = .monostate := hvar
  have hrun : ∀ s ∈ bomStates, s.isRunMode = false := by decide
  replace hrun := hrun _ hstate
  -- what is stored does not matter
  let b' : ByteTranscoder T := store ⟨state, buffer, .monostate⟩ x
  have hrun8 : ∀ c, b'.checkedRun8Start c = .ok (b'.run8Start c) := checkedRun8Start_eq hrun rfl
  have hrun16 : b'.checkedRun16Start = .ok b'.run16Start := checkedRun16Start_eq hrun rfl
  have hbom : state ≠ .start → b'.state.checkedBomValue = .ok b'.state.bomValue := by
    have hmem : ∀ s ∈ bomStates, s ∈ States.enumerators := by decide
    exact States.checkedBomValue_eq _ (hmem _ hstate)
  cases state with
  | start => exact checkedStartState_eq hrun rfl x
  | utf8BomByte1 | utf32Or16LeBomByte1 | utf32Or16BeBomByte1 | utf32BeBomByte2 =>
    exact checkedBomByte_eq (by simp) rfl x
  | utf8BomByte2 =>
    simp only [checkedCall]
    rw [check_bind (by decide), checkedStore_eq, ok_bind, hbom (by simp), ok_bind, hrun8]
    rfl
  | utf16BeBomByte1 =>
    simp only [checkedCall]
    rw [check_bind (by decide), checkedStore_eq, ok_bind, hbom (by simp), ok_bind, hrun8, hrun16,
      ok_bind, call]
    dsimp only
    split_ifs <;> rfl
  | utf32Or16LeBomByte2 =>
    have hstart : checkedRun16Start (T := T) ⟨.utf32Or16LeBomByte2, buffer, .monostate⟩ = .ok _ :=
      checkedRun16Start_eq hrun rfl
    simp only [checkedCall]
    rw [check_bind (by decide), States.checkedBomValueOf_or16, ok_bind, hstart, ok_bind,
      checkedBomByte_eq (by simp) rfl, call]
    dsimp only
    split_ifs <;> rfl
  | utf32LeBomByte3 | utf32BeBomByte3 =>
    simp only [checkedCall]
    rw [check_bind (by decide), checkedStore_eq, ok_bind,
      States.checkedBomValueOf_utf32 _ (by simp), ok_bind, hrun8,
      States.checkedSetByte_eq _ (by decide), ok_bind, States.checkedSetRunMode_eq _ (by simp),
      ok_bind, call]
    dsimp only
    split_ifs <;> rfl
  | _ => simp [bomStates] at hstate

/-- **In a run** all assertions hold if the variant holds the transcoder for its code units. -/
theorem checkedCall_run8 {b : ByteTranscoder T} (hstate : b.state = .run8)
    {t : TranscoderState .char8 T} (hvar : b.variant = .t8 t) (x : UInt8) :
    b.checkedCall x = .ok (b.call x) := by
  obtain ⟨state, buffer, variant⟩ := b
  obtain rfl : state = .run8 := hstate
  obtain rfl : variant = .t8 t := hvar
  exact check_bind rfl

theorem checkedCall_keep {b : ByteTranscoder T} (hstate : b.state ∈ States.keepStates) (x : UInt8) :
    b.checkedCall x = .ok (b.call x) := by
  obtain ⟨state, buffer, variant⟩ := b
  have hlt := States.getByteNo_keep _ hstate
  cases state with
  | run16beByte0 | run16leByte0 | run32beByte0 | run32beByte1 | run32beByte2 | run32leByte0
  | run32leByte1 | run32leByte2 =>
    simp only [checkedCall]
    rw [check_bind hlt, checkedStore_eq, ok_bind, store_state, States.checkedNextByte_eq hlt]
    rfl
  | _ => simp [States.keepStates] at hstate

theorem checkedCall_run16 {b : ByteTranscoder T}
    (hstate : b.state = .run16beByte1 ∨ b.state = .run16leByte1)
    {t : TranscoderState .char16 T} (hvar : b.variant = .t16 t) (x : UInt8) :
    b.checkedCall x = .ok (b.call x) := by
  have hrun : b.checkedRun16 x = .ok (b.run16 x) := by
    have ht16 : b.variant.isT16 = true := by rw [hvar]; rfl
    rw [checkedRun16, check_bind hstate, check_bind ht16, States.checkedSetByte_eq _ (by decide)]
    rfl
  rcases hstate with hstate | hstate <;> rw [checkedCall, call, hstate] <;> exact hrun

theorem checkedCall_run32 {b : ByteTranscoder T}
    (hstate : b.state = .run32beByte3 ∨ b.state = .run32leByte3)
    {t : TranscoderState .char32 T} (hvar : b.variant = .t32 t) (x : UInt8) :
    b.checkedCall x = .ok (b.call x) := by
  have hrun : b.checkedRun32 x = .ok (b.run32 x) := by
    have ht32 : b.variant.isT32 = true := by rw [hvar]; rfl
    rw [checkedRun32, check_bind hstate, check_bind ht32, States.checkedSetByte_eq _ (by decide)]
    rfl
  rcases hstate with hstate | hstate <;> rw [checkedCall, call, hstate] <;> exact hrun

end ByteTranscoder

namespace Framing

open ByteTranscoder

theorem HoldsBack.mem_bomStates {seen : List UInt8} {b : ByteTranscoder T}
    (h : HoldsBack seen b) : b.state ∈ bomStates ∧ b.variant = .monostate := by
  cases h <;> simp [bomStates]

/-- In a run a byte is kept or completes a code unit. -/
theorem run16State_cases (e : Endian) (held : List UInt8) :
    run16State e held ∈ States.keepStates ∨
      run16State e held = .run16beByte1 ∨ run16State e held = .run16leByte1 := by
  match held with
  | [] => exact .inl (by cases e <;> decide)
  | _ :: _ => exact .inr (by cases e <;> simp [run16State])

theorem run32State_cases (e : Endian) (held : List UInt8) :
    run32State e held ∈ States.keepStates ∨
      run32State e held = .run32beByte3 ∨ run32State e held = .run32leByte3 := by
  match held with
  | [] => exact .inl (by cases e <;> decide)
  | [_] => exact .inl (by cases e <;> simp [run32State, States.keepStates])
  | [_, _] => exact .inl (by cases e <;> simp [run32State, States.keepStates])
  | _ :: _ :: _ :: _ => exact .inr (by cases e <;> simp [run32State])

/-- **All assertions hold** in the states that bytes lead to. -/
theorem Holds.checkedCall {f : Framing} {b : ByteTranscoder T} {out : List T.Unit}
    (h : f.Holds b out) (x : UInt8) : b.checkedCall x = .ok (b.call x) := by
  cases f with
  | detecting seen =>
    obtain ⟨hstate, hvar⟩ := h.1.mem_bomStates
    exact checkedCall_bom hstate hvar x
  | utf8 p =>
    obtain ⟨hstate, hvar, -⟩ := h
    exact checkedCall_run8 hstate hvar x
  | utf16 e p =>
    obtain ⟨hstate, -, hvar, -⟩ := h
    rcases run16State_cases e (e.assembler16.feed [] p).1 with hkeep | hlast
    · exact checkedCall_keep (hstate ▸ hkeep) x
    · exact checkedCall_run16 (hstate ▸ hlast) hvar x
  | utf32 e p =>
    obtain ⟨hstate, -, hvar, -⟩ := h
    rcases run32State_cases e (e.assembler32.feed [] p).1 with hkeep | hlast
    · exact checkedCall_keep (hstate ▸ hkeep) x
    · exact checkedCall_run32 (hstate ▸ hlast) hvar x

theorem Holds.checkedFeed {f : Framing} {b : ByteTranscoder T} {out : List T.Unit}
    (h : f.Holds b out) (bytes : List UInt8) : b.checkedFeed bytes = .ok ((tx T).feed b bytes) := by
  induction bytes generalizing f b out with
  | nil => rfl
  | cons x bytes ih =>
    rw [ByteTranscoder.checkedFeed, h.checkedCall x, ok_bind, ih (h.next x)]
    rfl

end Framing

/-- **No assertion ever fails**: the machine with the assertions runs through every stream, and
does what the machine without them does. -/
theorem checkedFeed_eq (T : CharType) (bytes : List UInt8) :
    (tx T).init.checkedFeed bytes = .ok ((tx T).feed (tx T).init bytes) :=
  (Framing.holds_ofBytes T []).checkedFeed bytes

end Icubaby
