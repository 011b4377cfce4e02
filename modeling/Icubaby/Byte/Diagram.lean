import Icubaby.Byte.Transcoder

/-!
# The state diagram of the byte transcoder

`docs/byte_transcoder.dot` draws the states of the byte transcoder and how a byte leads from one to
another. `States.next` are the transitions that the code makes: the state after a call depends on
the state before it and on the byte only (`state_call`).

In one state the labels of the diagram do not belong to its arrows. After `FF FE` a zero byte may
continue a mark of UTF-32, and any other byte is the first one of a unit of UTF-16; the diagram has
it the other way round. As that byte has been read then, the arrow to `run_16le_byte0` should go to
`run_16le_byte1`. `diagram_iff` says that the diagram can be relied upon for all other input, and
that it is never right again once that state has been left.
-/

namespace Icubaby

namespace States

/-- The arrows of the diagram. -/
def diagram : States → UInt8 → States
  | start, x =>
    if x = 0xEF then utf8BomByte1
    else if x = 0xFE then utf16BeBomByte1
    else if x = 0xFF then utf32Or16LeBomByte1
    else if x = 0x00 then utf32Or16BeBomByte1
    else run8
  | utf8BomByte1, x => if x = 0xBB then utf8BomByte2 else run8
  | utf8BomByte2, x => if x = 0xBF then run8 else run8
  | utf16BeBomByte1, x => if x = 0xFF then run16beByte0 else run8
  | utf32Or16LeBomByte1, x => if x = 0xFE then utf32Or16LeBomByte2 else run8
  | utf32Or16LeBomByte2, x => if x = 0x00 then run16leByte0 else utf32LeBomByte3
  | utf32LeBomByte3, x => if x = 0x00 then run32leByte0 else run8
  | utf32Or16BeBomByte1, x => if x = 0x00 then utf32BeBomByte2 else run8
  | utf32BeBomByte2, x => if x = 0xFE then utf32BeBomByte3 else run8
  | utf32BeBomByte3, x => if x = 0xFF then run32beByte0 else run8
  | run8, _ => run8
  | run16beByte0, _ => run16beByte1
  | run16beByte1, _ => run16beByte0
  | run16leByte0, _ => run16leByte1
  | run16leByte1, _ => run16leByte0
  | run32beByte0, _ => run32beByte1
  | run32beByte1, _ => run32beByte2
  | run32beByte2, _ => run32beByte3
  | run32beByte3, _ => run32beByte0
  | run32leByte0, _ => run32leByte1
  | run32leByte1, _ => run32leByte2
  | run32leByte2, _ => run32leByte3
  | run32leByte3, _ => run32leByte0
  | other code, _ => other code

/-- The transitions of the code: those of the diagram but for the state after `FF FE`. -/
def next : States → UInt8 → States
  | utf32Or16LeBomByte2, x => if x = 0x00 then utf32LeBomByte3 else run16leByte1
  | s, x => s.diagram x

theorem next_of_ne {s : States} (h : s ≠ utf32Or16LeBomByte2) (x : UInt8) :
    s.next x = s.diagram x := by
  cases s <;> first | rfl | exact absurd rfl h

/-- A state is an enumerator of the source. -/
def IsEnumerator : States → Prop
  | other _ => False
  | _ => True

theorem IsEnumerator.next {s : States} (h : s.IsEnumerator) (x : UInt8) :
    (s.next x).IsEnumerator := by
  cases s <;> first | exact h.elim | (simp only [States.next, diagram]; (try split_ifs) <;> trivial)

/-- No arrow leads back to the states that the first two bytes `FF FE` lead through. -/
def Later (s : States) : Prop :=
  s ≠ start ∧ s ≠ utf32Or16LeBomByte1 ∧ s ≠ utf32Or16LeBomByte2

theorem Later.diagram {s : States} (h : s.Later) (x : UInt8) : (s.diagram x).Later := by
  obtain ⟨hstart, hbyte1, hbyte2⟩ := h
  cases s <;> first | contradiction | skip
  all_goals
    simp only [States.diagram, Later]
    try split_ifs
    all_goals simp

/-- In these states the diagram is right. -/
theorem Later.foldl {s : States} (h : s.Later) (bytes : List UInt8) :
    bytes.foldl next s = bytes.foldl States.diagram s := by
  induction bytes generalizing s with
  | nil => rfl
  | cons x bytes ih =>
    rw [List.foldl_cons, List.foldl_cons, next_of_ne h.2.2]
    exact ih (h.diagram x)

/-- The states that deal with UTF-16LE. -/
def IsUtf16Le (s : States) : Prop := s = run16leByte0 ∨ s = run16leByte1

/-- The other states that come after `FF FE`. -/
def IsNotUtf16Le (s : States) : Prop :=
  s = utf32LeBomByte3 ∨ s = run8 ∨ s = run32leByte0 ∨ s = run32leByte1 ∨ s = run32leByte2 ∨
    s = run32leByte3

theorem IsUtf16Le.diagram {s : States} (h : s.IsUtf16Le) (x : UInt8) :
    (s.diagram x).IsUtf16Le := by
  rcases h with rfl | rfl
  · exact .inr rfl
  · exact .inl rfl

theorem IsNotUtf16Le.diagram {s : States} (h : s.IsNotUtf16Le) (x : UInt8) :
    (s.diagram x).IsNotUtf16Le := by
  rcases h with rfl | rfl | rfl | rfl | rfl | rfl <;>
    simp only [States.diagram, IsNotUtf16Le] <;> (try split_ifs) <;> simp

theorem IsUtf16Le.later {s : States} (h : s.IsUtf16Le) : s.Later := by
  rcases h with rfl | rfl <;> simp [Later]

theorem IsNotUtf16Le.later {s : States} (h : s.IsNotUtf16Le) : s.Later := by
  rcases h with rfl | rfl | rfl | rfl | rfl | rfl <;> simp [Later]

/-- **Two runs that are apart** stay apart. -/
theorem foldl_ne {s s' : States} (h : s.IsUtf16Le) (h' : s'.IsNotUtf16Le) (bytes : List UInt8) :
    bytes.foldl States.diagram s ≠ bytes.foldl States.diagram s' := by
  induction bytes generalizing s s' with
  | nil =>
    rcases h with rfl | rfl <;> rcases h' with rfl | rfl | rfl | rfl | rfl | rfl <;> simp
  | cons x bytes ih => exact ih (h.diagram x) (h'.diagram x)

/-- **The diagram and the code** lead to the same state unless the stream goes on after `FF FE`. -/
theorem foldl_next_eq_iff (bytes : List UInt8) :
    bytes.foldl next start = bytes.foldl States.diagram start ↔
      ¬ ∃ x rest, bytes = 0xFF :: 0xFE :: x :: rest := by
  rcases bytes with _ | ⟨x, bytes⟩
  · exact iff_of_true rfl (by simp)
  by_cases hx : x = 0xFF
  · subst hx
    rcases bytes with _ | ⟨y, bytes⟩
    · exact iff_of_true rfl (by simp)
    by_cases hy : y = 0xFE
    · subst hy
      rcases bytes with _ | ⟨z, bytes⟩
      · exact iff_of_true rfl (by simp)
      -- the labels are exchanged here
      refine iff_of_false ?_ (by simp)
      change bytes.foldl next (if z = 0x00 then utf32LeBomByte3 else run16leByte1) ≠
        bytes.foldl States.diagram (if z = 0x00 then run16leByte0 else utf32LeBomByte3)
      have hle3 : IsNotUtf16Le utf32LeBomByte3 := .inl rfl
      split_ifs
      · rw [hle3.later.foldl]
        exact (foldl_ne (.inl rfl) hle3 bytes).symm
      · have hbyte1 : IsUtf16Le run16leByte1 := .inr rfl
        rw [hbyte1.later.foldl]
        exact foldl_ne hbyte1 hle3 bytes
    · have hnext : utf32Or16LeBomByte1.diagram y = run8 := if_neg hy
      have hlater : Later run8 := by simp [Later]
      refine iff_of_true ?_ (by simp [hy])
      change bytes.foldl next (utf32Or16LeBomByte1.diagram y) =
        bytes.foldl States.diagram (utf32Or16LeBomByte1.diagram y)
      rw [hnext]
      exact hlater.foldl bytes
  · have hlater : Later (start.diagram x) := by
      simp only [States.diagram, Later, if_neg hx]
      split_ifs <;> simp
    exact iff_of_true (hlater.foldl bytes) (by simp [hx])

end States

namespace ByteTranscoder

variable {T : CharType}

@[simp] theorem state_run8Start (b : ByteTranscoder T) (copyBuffer : Bool) :
    (b.run8Start copyBuffer).1.state = .run8 := rfl

@[simp] theorem state_run16Start (b : ByteTranscoder T) :
    b.run16Start.state = b.state.startRun16 := rfl

theorem state_startState (b : ByteTranscoder T) (x : UInt8) :
    (b.startState x).1.state = States.start.diagram x := by
  simp only [startState, States.bomValueOf_byte0, States.diagram]
  split_ifs <;> rfl

theorem state_bomByte (b : ByteTranscoder T) (x : UInt8) :
    (b.bomByte x).1.state = if x = b.state.bomValue then b.state.nextByte else .run8 := by
  have hs : (b.store x).state = b.state := rfl
  by_cases h : x = b.state.bomValue
  · simp only [bomByte, hs, if_pos h]
  · simp only [bomByte, hs, if_neg h, state_run8Start]

@[simp] theorem state_run16 (b : ByteTranscoder T) (x : UInt8) :
    (b.run16 x).1.state = b.state.setByte 0 := by
  cases hv : b.variant <;> simp only [run16, hv]

@[simp] theorem state_run32 (b : ByteTranscoder T) (x : UInt8) :
    (b.run32 x).1.state = b.state.setByte 0 := by
  cases hv : b.variant <;> simp only [run32, hv]

/-- **One call** makes the transition of the state. -/
theorem state_call (b : ByteTranscoder T) (hb : b.state.IsEnumerator) (x : UInt8) :
    (b.call x).1.state = b.state.next x := by
  cases hs : b.state with
  | other code =>
    rw [hs] at hb
    exact hb.elim
  | start =>
    simp only [call, hs]
    exact b.state_startState x
  | utf8BomByte1 | utf32Or16LeBomByte1 | utf32Or16BeBomByte1 | utf32BeBomByte2 =>
    simp only [call, hs, state_bomByte, States.bomValue_eq, States.nextByte_eq]
    rfl
  | utf8BomByte2 =>
    simp only [call, hs, state_run8Start]
    exact (ite_self _).symm
  | utf16BeBomByte1 =>
    simp only [call, hs, store_state, States.bomValue_eq, States.next, States.diagram]
    split_ifs
    · simp [hs]
    · simp
  | utf32Or16LeBomByte2 =>
    simp only [call, hs, States.bomValueOf_byte3, States.next]
    by_cases hx : x = 0x00
    · simp [state_bomByte, hs, hx]
    · simp [hx]
  | utf32LeBomByte3 | utf32BeBomByte3 =>
    simp only [call, hs, store_state, States.bomValueOf_byte3, States.next, States.diagram]
    split_ifs
    · simp
    · simp
  | run16beByte0 | run16leByte0 | run32beByte0 | run32beByte1 | run32beByte2 | run32leByte0
  | run32leByte1 | run32leByte2 =>
    simp only [call, hs, store_state, States.nextByte_eq]
    rfl
  | run16beByte1 | run16leByte1 =>
    simp only [call, hs, state_run16, States.setByte_zero_eq]
    rfl
  | run32beByte3 | run32leByte3 =>
    simp only [call, hs, state_run32, States.setByte_zero_eq]
    rfl
  | run8 =>
    cases hv : b.variant <;> simp [call, hs, hv, States.next, States.diagram]

/-- **Any number of calls** make the transitions one after the other. -/
theorem state_feed {b : ByteTranscoder T} (hb : b.state.IsEnumerator) (bytes : List UInt8) :
    ((tx T).feed b bytes).1.state = bytes.foldl States.next b.state := by
  induction bytes generalizing b with
  | nil => rfl
  | cons x bytes ih =>
    have hcall := state_call b hb x
    have hnext : (b.call x).1.state.IsEnumerator := hcall ▸ hb.next x
    calc ((tx T).feed b (x :: bytes)).1.state
        = ((tx T).feed (b.call x).1 bytes).1.state := rfl
      _ = bytes.foldl States.next (b.call x).1.state := ih hnext
      _ = (x :: bytes).foldl States.next b.state := by rw [hcall, List.foldl_cons]

end ByteTranscoder

/-- **The documented diagram.** The state after any bytes is the one that the arrows of the diagram
lead to, unless the stream begins with `FF FE` and goes on; then it is another one. There two labels
are exchanged, and the arrow to `run_16le_byte0` should go to `run_16le_byte1`. -/
theorem diagram_iff (T : CharType) (bytes : List UInt8) :
    ((tx T).feed (tx T).init bytes).1.state = bytes.foldl States.diagram .start ↔
      ¬ ∃ x rest, bytes = 0xFF :: 0xFE :: x :: rest := by
  have hfeed := ByteTranscoder.state_feed (b := (tx T).init) trivial bytes
  rw [hfeed]
  exact States.foldl_next_eq_iff bytes

end Icubaby
