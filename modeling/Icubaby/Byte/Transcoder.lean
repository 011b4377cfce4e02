import Icubaby.Byte.States
import Icubaby.Transcoder.Family

/-!
# The byte transcoder

`transcoder<std::byte, ToEncoding>`: consumes bytes of unknown encoding. A leading byte order mark
selects the encoding and is dropped; without one the bytes are taken to be UTF-8. While the mark is
being identified the bytes are held in `buffer`; afterwards the buffer gathers the bytes of a code
unit, and complete units are passed on to the code-unit transcoder in `variant`.

Assertions are not part of the model, and a variant that does not hold the alternative asked for
leaves the state as it is, as `std::get_if` does.
-/

namespace Icubaby

/-- `std::variant<std::monostate, t8_type, t16_type, t32_type>` -/
inductive TranscoderVariant (T : CharType)
  | monostate
  | t8 (t : TranscoderState .char8 T)
  | t16 (t : TranscoderState .char16 T)
  | t32 (t : TranscoderState .char32 T)

/-- The members of `transcoder<std::byte, ToEncoding>`. -/
structure ByteTranscoder (T : CharType) where
  /-- The current state of the machine. -/
  state : States := .start
  /-- Holds the input bytes while a code unit is being assembled. -/
  buffer : Vector UInt8 4 := #v[0, 0, 0, 0]
  /-- Holds the transcoder for the input code units once the encoding has been selected. -/
  variant : TranscoderVariant T := .monostate

namespace ByteTranscoder

variable {T : CharType}

/-- Assigns a byte to the position in the buffer that the state references. -/
def store (b : ByteTranscoder T) (value : UInt8) : ByteTranscoder T :=
  { b with buffer := b.buffer.set b.state.byteIndex value }

@[simp] theorem store_state (b : ByteTranscoder T) (value : UInt8) :
    (b.store value).state = b.state := rfl

/-- Switches to the run state for UTF-8, with or without copying the buffer to the output. -/
def run8Start (b : ByteTranscoder T) (copyBuffer : Bool) : ByteTranscoder T × List T.Unit :=
  let t := transcoder .char8 T
  let r :=
    if copyBuffer then t.feed t.init (b.buffer.toList.take (b.state.byteIndex + 1))
    else (t.init, [])
  ({ b with variant := .t8 r.1, state := .run8 }, r.2)

/-- Switches to the run state for UTF-16. -/
def run16Start (b : ByteTranscoder T) : ByteTranscoder T :=
  { b with variant := .t16 (transcoder .char16 T).init, state := b.state.startRun16 }

/-- The initial state: checks the first byte against the first bytes of the marks. -/
def startState (b : ByteTranscoder T) (value : UInt8) : ByteTranscoder T × List T.Unit :=
  let b := { b with buffer := b.buffer.set 0 value }
  if value = States.bomValueOf (encodingUtf8 ||| bigEndian) 0 then
    ({ b with state := .utf8BomByte1 }, [])
  else if value = States.bomValueOf (encodingUtf16 ||| bigEndian) 0 then
    ({ b with state := .utf16BeBomByte1 }, [])
  else if value = States.bomValueOf (encodingUtf16 ||| littleEndian) 0 then
    ({ b with state := .utf32Or16LeBomByte1 }, [])
  else if value = States.bomValueOf (encodingUtf32 ||| bigEndian) 0 then
    ({ b with state := .utf32Or16BeBomByte1 }, [])
  else b.run8Start true

def char16FromBigEndianBuffer (b : ByteTranscoder T) (value : UInt8) : UInt16 :=
  (b.buffer[0].toUInt16 <<< 8) ||| value.toUInt16

def char16FromLittleEndianBuffer (b : ByteTranscoder T) (value : UInt8) : UInt16 :=
  (value.toUInt16 <<< 8) ||| b.buffer[0].toUInt16

def char32FromBigEndianBuffer (b : ByteTranscoder T) (value : UInt8) : UInt32 :=
  (b.buffer[0].toUInt32 <<< 24) ||| (b.buffer[1].toUInt32 <<< 16) |||
    (b.buffer[2].toUInt32 <<< 8) ||| value.toUInt32

def char32FromLittleEndianBuffer (b : ByteTranscoder T) (value : UInt8) : UInt32 :=
  (value.toUInt32 <<< 24) ||| (b.buffer[2].toUInt32 <<< 16) |||
    (b.buffer[1].toUInt32 <<< 8) ||| b.buffer[0].toUInt32

/-- The second byte of a UTF-16 code unit. -/
def run16 (b : ByteTranscoder T) (value : UInt8) : ByteTranscoder T × List T.Unit :=
  let r := match b.variant with
    | .t16 t =>
      let r := (transcoder .char16 T).step t <|
        if b.state = States.run16beByte1 then b.char16FromBigEndianBuffer value
        else b.char16FromLittleEndianBuffer value
      ({ b with variant := .t16 r.1 }, r.2)
    | _ => (b, [])
  ({ r.1 with state := r.1.state.setByte 0 }, r.2)

/-- The fourth byte of a UTF-32 code unit. -/
def run32 (b : ByteTranscoder T) (value : UInt8) : ByteTranscoder T × List T.Unit :=
  let r := match b.variant with
    | .t32 t =>
      let r := (transcoder .char32 T).step t <|
        if b.state = States.run32beByte3 then b.char32FromBigEndianBuffer value
        else b.char32FromLittleEndianBuffer value
      ({ b with variant := .t32 r.1 }, r.2)
    | _ => (b, [])
  ({ r.1 with state := r.1.state.setByte 0 }, r.2)

/-- The case that several states share: one more byte of a mark, or the default encoding. -/
def bomByte (b : ByteTranscoder T) (value : UInt8) : ByteTranscoder T × List T.Unit :=
  let b := b.store value
  if value = b.state.bomValue then ({ b with state := b.state.nextByte }, [])
  else b.run8Start true

/-- `operator()` -/
def call (b : ByteTranscoder T) (value : UInt8) : ByteTranscoder T × List T.Unit :=
  match b.state with
  | .start => b.startState value
  | .utf8BomByte2 =>
    let b := b.store value
    b.run8Start (value ≠ b.state.bomValue)
  | .utf16BeBomByte1 =>
    let b := b.store value
    if value = b.state.bomValue then (b.run16Start, []) else b.run8Start true
  | .utf32Or16LeBomByte2 =>
    if value ≠ States.bomValueOf (encodingUtf32 ||| littleEndian) b.state.getByteNo then
      -- not a mark of UTF-32 LE but the start of a run of UTF-16
      let b := b.run16Start
      ({ b with state := .run16leByte1, buffer := b.buffer.set 0 value }, [])
    else b.bomByte value
  | .utf8BomByte1 | .utf32Or16LeBomByte1 | .utf32Or16BeBomByte1 | .utf32BeBomByte2 =>
    b.bomByte value
  | .utf32LeBomByte3 | .utf32BeBomByte3 =>
    let b := b.store value
    if value =
        States.bomValueOf (encodingUtf32 ||| (b.state.code &&& endianMask)) b.state.getByteNo then
      ({ b with
        variant := .t32 (transcoder .char32 T).init
        state := (b.state.setByte 0).setRunMode }, [])
    else b.run8Start true
  | .run16beByte0 | .run16leByte0 | .run32beByte0 | .run32beByte1 | .run32beByte2
  | .run32leByte0 | .run32leByte1 | .run32leByte2 =>
    let b := b.store value
    ({ b with state := b.state.nextByte }, [])
  | .run8 =>
    match b.variant with
    | .t8 t =>
      let r := (transcoder .char8 T).step t value
      ({ b with variant := .t8 r.1 }, r.2)
    | _ => (b, [])
  | .run16beByte1 | .run16leByte1 => b.run16 value
  | .run32beByte3 | .run32leByte3 => b.run32 value
  | .other _ => (b, [])

/-- `end_cp` -/
def endCp (b : ByteTranscoder T) : ByteTranscoder T × List T.Unit :=
  match b.variant with
  | .monostate => b.run8Start (b.state ≠ .start)
  | .t8 t =>
    let r := (transcoder .char8 T).finish t
    ({ b with variant := .t8 r.1 }, r.2)
  | .t16 t =>
    let r := (transcoder .char16 T).finish t
    ({ b with variant := .t16 r.1 }, r.2)
  | .t32 t =>
    let r := (transcoder .char32 T).finish t
    ({ b with variant := .t32 r.1 }, r.2)

/-- `partial ()` -/
def isPartial (b : ByteTranscoder T) : Bool :=
  match b.variant with
  | .monostate => b.state ≠ .start
  | .t8 t => (transcoder .char8 T).isPartial t
  | .t16 t => (transcoder .char16 T).isPartial t
  | .t32 t => (transcoder .char32 T).isPartial t

/-- `well_formed ()` -/
def wellFormed (b : ByteTranscoder T) : Bool :=
  match b.variant with
  | .monostate => true
  | .t8 t => (transcoder .char8 T).wellFormed t
  | .t16 t => (transcoder .char16 T).wellFormed t
  | .t32 t => (transcoder .char32 T).wellFormed t

/-- The encoding of the input as detected from an optional leading byte order mark. -/
def selectedEncoding (b : ByteTranscoder T) : Encoding := b.state.selectedEncoding

end ByteTranscoder

/-- `transcoder<std::byte, ToEncoding>` -/
def tx (T : CharType) : Transcoder (ByteTranscoder T) UInt8 T.Unit where
  init := {}
  step := ByteTranscoder.call
  finish := ByteTranscoder.endCp
  wellFormed := ByteTranscoder.wellFormed
  isPartial := ByteTranscoder.isPartial

end Icubaby
