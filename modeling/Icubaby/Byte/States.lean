import Mathlib.Tactic

/-!
# The states of the byte transcoder

The code of a state packs an encoding, an endianness, a mode and a byte number into the bits of a
byte, and the machine computes with these codes: it steps to the next byte of a unit, returns to
the first one and enters run mode by arithmetic on the bits, and the encoding and the endianness
together are the index of a row of the table of byte order marks.

An enumeration of the source with a fixed underlying type can hold any value of that type, so
`States` has a constructor `other` for the codes without an enumerator; `States.ofCode` is
`static_cast<states>`. That no run reaches such a state is a result, not an assumption.
-/

namespace Icubaby

/-- The encoding detected by the byte transcoder. -/
inductive Encoding
  | unknown | utf8 | utf16be | utf16le | utf32be | utf32le
  deriving DecidableEq, Repr

/-- The bytes that make up the encoded value of U+FEFF BYTE ORDER MARK. -/
def boms : List (List UInt8) := [
  [0xFE, 0xFF, 0x00, 0x00],  -- UTF-16 BE
  [0xFF, 0xFE, 0x00, 0x00],  -- UTF-16 LE
  [0x00, 0x00, 0xFE, 0xFF],  -- UTF-32 BE
  [0xFF, 0xFE, 0x00, 0x00],  -- UTF-32 LE
  [0xEF, 0xBB, 0xBF, 0x00]]  -- UTF-8

/-! ### The bits of a state code -/

def encodingShift : UInt8 := 4
def endianShift : UInt8 := 3
def runShift : UInt8 := 2

def encodingMask : UInt8 := 0b11 <<< encodingShift
def endianMask : UInt8 := 1 <<< endianShift
def runMask : UInt8 := 1 <<< runShift
def byteNoMask : UInt8 := 0b11

def encodingUtf16 : UInt8 := 0b00 <<< encodingShift
def encodingUtf32 : UInt8 := 0b01 <<< encodingShift
def encodingUtf8 : UInt8 := 0b10 <<< encodingShift
def encodingUnknown : UInt8 := 0b11 <<< encodingShift

/-- The machine is identifying the byte order mark. -/
def bomMode : UInt8 := 0
/-- The machine is consuming runs of bytes and emitting code units. -/
def runMode : UInt8 := runMask

def bigEndian : UInt8 := 0
def littleEndian : UInt8 := endianMask

/-- The states that the finite state machine can occupy. -/
inductive States
  /-- The initial state. -/
  | start
  /-- The second byte of a UTF-8 mark is expected. -/
  | utf8BomByte1
  /-- The third byte of a UTF-8 mark is expected. -/
  | utf8BomByte2
  /-- The second byte of a UTF-16 BE mark is expected. -/
  | utf16BeBomByte1
  /-- The third byte of a UTF-32 BE mark is expected. -/
  | utf32BeBomByte2
  /-- The fourth byte of a UTF-32 BE mark is expected. -/
  | utf32BeBomByte3
  /-- The second byte of a UTF-32 BE mark is expected. -/
  | utf32Or16BeBomByte1
  /-- The second byte of a UTF-32 LE or UTF-16 LE mark is expected. -/
  | utf32Or16LeBomByte1
  /-- The third byte of a UTF-32 LE mark, or the start of a UTF-16 LE run. -/
  | utf32Or16LeBomByte2
  /-- The fourth byte of a UTF-32 LE mark is expected. -/
  | utf32LeBomByte3
  | run8
  | run16beByte0 | run16beByte1
  | run16leByte0 | run16leByte1
  | run32beByte0 | run32beByte1 | run32beByte2 | run32beByte3
  | run32leByte0 | run32leByte1 | run32leByte2 | run32leByte3
  /-- A value of the underlying type that is no enumerator. -/
  | other (code : UInt8)
  deriving DecidableEq, Repr

namespace States

/-- The code of a state. -/
def code : States → UInt8
  | start => encodingUnknown ||| bomMode ||| 0
  | utf8BomByte1 => encodingUtf8 ||| bigEndian ||| bomMode ||| 1
  | utf8BomByte2 => encodingUtf8 ||| bigEndian ||| bomMode ||| 2
  | utf16BeBomByte1 => encodingUtf16 ||| bigEndian ||| bomMode ||| 1
  | utf32BeBomByte2 => encodingUtf32 ||| bigEndian ||| bomMode ||| 2
  | utf32BeBomByte3 => encodingUtf32 ||| bigEndian ||| bomMode ||| 3
  | utf32Or16BeBomByte1 => encodingUtf32 ||| bigEndian ||| bomMode ||| 1
  | utf32Or16LeBomByte1 => encodingUtf32 ||| littleEndian ||| bomMode ||| 1
  | utf32Or16LeBomByte2 => encodingUtf32 ||| littleEndian ||| bomMode ||| 2
  | utf32LeBomByte3 => encodingUtf32 ||| littleEndian ||| bomMode ||| 3
  | run8 => encodingUtf8 ||| bigEndian ||| runMode ||| 0
  | run16beByte0 => encodingUtf16 ||| bigEndian ||| runMode ||| 0
  | run16beByte1 => encodingUtf16 ||| bigEndian ||| runMode ||| 1
  | run16leByte0 => encodingUtf16 ||| littleEndian ||| runMode ||| 0
  | run16leByte1 => encodingUtf16 ||| littleEndian ||| runMode ||| 1
  | run32beByte0 => encodingUtf32 ||| bigEndian ||| runMode ||| 0
  | run32beByte1 => encodingUtf32 ||| bigEndian ||| runMode ||| 1
  | run32beByte2 => encodingUtf32 ||| bigEndian ||| runMode ||| 2
  | run32beByte3 => encodingUtf32 ||| bigEndian ||| runMode ||| 3
  | run32leByte0 => encodingUtf32 ||| littleEndian ||| runMode ||| 0
  | run32leByte1 => encodingUtf32 ||| littleEndian ||| runMode ||| 1
  | run32leByte2 => encodingUtf32 ||| littleEndian ||| runMode ||| 2
  | run32leByte3 => encodingUtf32 ||| littleEndian ||| runMode ||| 3
  | other code => code

/-- The enumerators. -/
def enumerators : List States :=
  [start, utf8BomByte1, utf8BomByte2, utf16BeBomByte1, utf32BeBomByte2, utf32BeBomByte3,
    utf32Or16BeBomByte1, utf32Or16LeBomByte1, utf32Or16LeBomByte2, utf32LeBomByte3, run8,
    run16beByte0, run16beByte1, run16leByte0, run16leByte1, run32beByte0, run32beByte1,
    run32beByte2, run32beByte3, run32leByte0, run32leByte1, run32leByte2, run32leByte3]

/-- `static_cast<states>` -/
def ofCode (c : UInt8) : States := (enumerators.find? fun s => s.code = c).getD (other c)

/-- The codes of the enumerators are distinct, so a cast recovers the state. -/
theorem ofCode_code : ∀ s ∈ enumerators, ofCode s.code = s := by
  decide

/-- `is_run_mode` -/
def isRunMode (s : States) : Bool := s.code &&& runMask = runMode

/-- `is_little_endian` -/
def isLittleEndian (s : States) : Bool := s.code &&& endianMask = littleEndian

/-- The byte number referenced by a state, `get_byte_no`. -/
def getByteNo (s : States) : UInt8 := s.code &&& byteNoMask

theorem getByteNo_lt (s : States) : s.getByteNo.toNat < 4 := by
  rw [getByteNo, byteNoMask, UInt8.toNat_and]
  exact Nat.lt_succ_of_le Nat.and_le_right

/-- The byte number as an index of the buffer. -/
def byteIndex (s : States) : Fin 4 := ⟨s.getByteNo.toNat, s.getByteNo_lt⟩

/-- The state that references a specific byte number. -/
def setByte (s : States) (byteNumber : UInt8) : States :=
  ofCode ((s.code &&& ~~~byteNoMask) ||| byteNumber)

/-- The state that references the next byte number. -/
def nextByte (s : States) : States := s.setByte (s.getByteNo + 1)

/-- The state with run mode selected. -/
def setRunMode (s : States) : States := ofCode ((s.code &&& ~~~runMask) ||| runMode)

/-- The state of a run of UTF-16 of the endianness of a state. -/
def startRun16 (s : States) : States :=
  ofCode (encodingUtf16 ||| (s.code &&& endianMask) ||| runMode ||| 0)

/-- The byte of the table of marks for a state byte and a byte number. -/
def bomValueOf (stateByte byteNumber : UInt8) : UInt8 :=
  let encodingIndex := (stateByte >>> endianShift).toNat
  if encodingIndex ≥ boms.length then 0
  else (boms.getD encodingIndex []).getD byteNumber.toNat 0

/-- The byte of the table of marks for a state. -/
def bomValue (s : States) : UInt8 := bomValueOf s.code s.getByteNo

/-- The encoding that a state is the run state of. -/
def selectedEncoding (s : States) : Encoding :=
  if !s.isRunMode then .unknown
  else if s.code &&& encodingMask = encodingUtf8 then .utf8
  else if s.code &&& encodingMask = encodingUtf16 then
    if s.isLittleEndian then .utf16le else .utf16be
  else if s.code &&& encodingMask = encodingUtf32 then
    if s.isLittleEndian then .utf32le else .utf32be
  else .unknown

/-! ### The arithmetic on codes, evaluated -/

@[simp] theorem byteIndex_eq :
    start.byteIndex = 0 ∧ utf8BomByte1.byteIndex = 1 ∧ utf8BomByte2.byteIndex = 2 ∧
      utf16BeBomByte1.byteIndex = 1 ∧ utf32BeBomByte2.byteIndex = 2 ∧
      utf32BeBomByte3.byteIndex = 3 ∧ utf32Or16BeBomByte1.byteIndex = 1 ∧
      utf32Or16LeBomByte1.byteIndex = 1 ∧ utf32Or16LeBomByte2.byteIndex = 2 ∧
      utf32LeBomByte3.byteIndex = 3 ∧ run16beByte0.byteIndex = 0 ∧ run16leByte0.byteIndex = 0 ∧
      run32beByte0.byteIndex = 0 ∧ run32beByte1.byteIndex = 1 ∧ run32beByte2.byteIndex = 2 ∧
      run32leByte0.byteIndex = 0 ∧ run32leByte1.byteIndex = 1 ∧ run32leByte2.byteIndex = 2 := by
  decide

@[simp] theorem bomValue_eq :
    utf8BomByte1.bomValue = 0xBB ∧ utf8BomByte2.bomValue = 0xBF ∧
      utf16BeBomByte1.bomValue = 0xFF ∧ utf32Or16BeBomByte1.bomValue = 0x00 ∧
      utf32BeBomByte2.bomValue = 0xFE ∧ utf32Or16LeBomByte1.bomValue = 0xFE ∧
      utf32Or16LeBomByte2.bomValue = 0x00 := by
  decide

/-- The bytes that a fourth byte of a mark is compared with. -/
@[simp] theorem bomValueOf_byte3 :
    bomValueOf (encodingUtf32 ||| (utf32BeBomByte3.code &&& endianMask))
        utf32BeBomByte3.getByteNo = 0xFF ∧
      bomValueOf (encodingUtf32 ||| (utf32LeBomByte3.code &&& endianMask))
        utf32LeBomByte3.getByteNo = 0x00 ∧
      bomValueOf (encodingUtf32 ||| littleEndian) utf32Or16LeBomByte2.getByteNo = 0x00 := by
  decide

/-- The bytes that the first byte is compared with. -/
@[simp] theorem bomValueOf_byte0 :
    bomValueOf (encodingUtf8 ||| bigEndian) 0 = 0xEF ∧
      bomValueOf (encodingUtf16 ||| bigEndian) 0 = 0xFE ∧
      bomValueOf (encodingUtf16 ||| littleEndian) 0 = 0xFF ∧
      bomValueOf (encodingUtf32 ||| bigEndian) 0 = 0x00 := by
  decide

@[simp] theorem nextByte_eq :
    utf8BomByte1.nextByte = utf8BomByte2 ∧ utf32Or16BeBomByte1.nextByte = utf32BeBomByte2 ∧
      utf32BeBomByte2.nextByte = utf32BeBomByte3 ∧
      utf32Or16LeBomByte1.nextByte = utf32Or16LeBomByte2 ∧
      utf32Or16LeBomByte2.nextByte = utf32LeBomByte3 ∧
      run16beByte0.nextByte = run16beByte1 ∧ run16leByte0.nextByte = run16leByte1 ∧
      run32beByte0.nextByte = run32beByte1 ∧ run32beByte1.nextByte = run32beByte2 ∧
      run32beByte2.nextByte = run32beByte3 ∧ run32leByte0.nextByte = run32leByte1 ∧
      run32leByte1.nextByte = run32leByte2 ∧ run32leByte2.nextByte = run32leByte3 := by
  decide

@[simp] theorem setByte_zero_eq :
    run16beByte1.setByte 0 = run16beByte0 ∧ run16leByte1.setByte 0 = run16leByte0 ∧
      run32beByte3.setByte 0 = run32beByte0 ∧ run32leByte3.setByte 0 = run32leByte0 := by
  decide

@[simp] theorem startRun_eq :
    utf16BeBomByte1.startRun16 = run16beByte0 ∧ utf32Or16LeBomByte2.startRun16 = run16leByte0 ∧
      (utf32BeBomByte3.setByte 0).setRunMode = run32beByte0 ∧
      (utf32LeBomByte3.setByte 0).setRunMode = run32leByte0 := by
  decide

@[simp] theorem selectedEncoding_eq :
    run8.selectedEncoding = .utf8 ∧ run16beByte0.selectedEncoding = .utf16be ∧
      run16beByte1.selectedEncoding = .utf16be ∧ run16leByte0.selectedEncoding = .utf16le ∧
      run16leByte1.selectedEncoding = .utf16le ∧ run32beByte0.selectedEncoding = .utf32be ∧
      run32beByte1.selectedEncoding = .utf32be ∧ run32beByte2.selectedEncoding = .utf32be ∧
      run32beByte3.selectedEncoding = .utf32be ∧ run32leByte0.selectedEncoding = .utf32le ∧
      run32leByte1.selectedEncoding = .utf32le ∧ run32leByte2.selectedEncoding = .utf32le ∧
      run32leByte3.selectedEncoding = .utf32le := by
  decide

/-- No encoding is selected while a mark is being identified. -/
@[simp] theorem selectedEncoding_bom :
    start.selectedEncoding = .unknown ∧ utf8BomByte1.selectedEncoding = .unknown ∧
      utf8BomByte2.selectedEncoding = .unknown ∧ utf16BeBomByte1.selectedEncoding = .unknown ∧
      utf32BeBomByte2.selectedEncoding = .unknown ∧ utf32BeBomByte3.selectedEncoding = .unknown ∧
      utf32Or16BeBomByte1.selectedEncoding = .unknown ∧
      utf32Or16LeBomByte1.selectedEncoding = .unknown ∧
      utf32Or16LeBomByte2.selectedEncoding = .unknown ∧
      utf32LeBomByte3.selectedEncoding = .unknown := by
  decide

end States

end Icubaby
