import Icubaby.ForMathlib.Transducer

/-!
# Byte orders

The code units of 16 and 32 bits as bytes, in either order: joining bytes (`join16`, `join32`),
serialising units (`bytes16`, `bytes32`), and the machines that gather the bytes of one unit after
the other. Gathering inverts serialising (`feed_assembler16`, `feed_assembler32`). The byte order
marks are the serialisations of U+FEFF.
-/

namespace Icubaby

/-- The byte order of a code unit. -/
inductive Endian
  | big | little
  deriving DecidableEq, Repr

namespace Endian

/-- The code unit of two bytes. -/
def join16 : Endian → List UInt8 → UInt16
  | big, [x, y] => (x.toUInt16 <<< 8) ||| y.toUInt16
  | little, [x, y] => (y.toUInt16 <<< 8) ||| x.toUInt16
  | _, _ => 0

/-- The code unit of four bytes. -/
def join32 : Endian → List UInt8 → UInt32
  | big, [x, y, z, w] =>
    (x.toUInt32 <<< 24) ||| (y.toUInt32 <<< 16) ||| (z.toUInt32 <<< 8) ||| w.toUInt32
  | little, [x, y, z, w] =>
    (w.toUInt32 <<< 24) ||| (z.toUInt32 <<< 16) ||| (y.toUInt32 <<< 8) ||| x.toUInt32
  | _, _ => 0

/-- The bytes of a 16-bit code unit. -/
def bytes16 : Endian → UInt16 → List UInt8
  | big, u => [(u >>> 8).toUInt8, u.toUInt8]
  | little, u => [u.toUInt8, (u >>> 8).toUInt8]

/-- The bytes of a 32-bit code unit. -/
def bytes32 : Endian → UInt32 → List UInt8
  | big, u => [(u >>> 24).toUInt8, (u >>> 16).toUInt8, (u >>> 8).toUInt8, u.toUInt8]
  | little, u => [u.toUInt8, (u >>> 8).toUInt8, (u >>> 16).toUInt8, (u >>> 24).toUInt8]

private theorem join_bytes16 (u : UInt16) :
    ((u >>> 8).toUInt8.toUInt16 <<< 8) ||| u.toUInt8.toUInt16 = u := by
  rw [← UInt16.toNat_inj]
  refine Nat.eq_of_testBit_eq fun i => ?_
  have h8 : UInt16.toNat 8 % 16 = 8 := rfl
  simp only [UInt16.toNat_or, UInt16.toNat_shiftLeft, UInt8.toNat_toUInt16, UInt16.toNat_toUInt8,
    UInt16.toNat_shiftRight, Nat.testBit_or, Nat.testBit_mod_two_pow, Nat.testBit_shiftLeft,
    Nat.testBit_shiftRight, h8]
  rcases Nat.lt_or_ge i 16 with hi | hi
  · grind
  · have hbit : u.toNat.testBit i = false :=
      Nat.testBit_lt_two_pow
        (Nat.lt_of_lt_of_le u.toNat_lt (Nat.pow_le_pow_right (by decide) hi))
    grind

private theorem join_bytes32 (u : UInt32) :
    ((u >>> 24).toUInt8.toUInt32 <<< 24) ||| ((u >>> 16).toUInt8.toUInt32 <<< 16) |||
      ((u >>> 8).toUInt8.toUInt32 <<< 8) ||| u.toUInt8.toUInt32 = u := by
  rw [← UInt32.toNat_inj]
  refine Nat.eq_of_testBit_eq fun i => ?_
  have h8 : UInt32.toNat 8 % 32 = 8 := rfl
  have h16 : UInt32.toNat 16 % 32 = 16 := rfl
  have h24 : UInt32.toNat 24 % 32 = 24 := rfl
  simp only [UInt32.toNat_or, UInt32.toNat_shiftLeft, UInt8.toNat_toUInt32, UInt32.toNat_toUInt8,
    UInt32.toNat_shiftRight, Nat.testBit_or, Nat.testBit_mod_two_pow, Nat.testBit_shiftLeft,
    Nat.testBit_shiftRight, h8, h16, h24]
  rcases Nat.lt_or_ge i 32 with hi | hi
  · grind
  · have hbit : u.toNat.testBit i = false :=
      Nat.testBit_lt_two_pow
        (Nat.lt_of_lt_of_le u.toNat_lt (Nat.pow_le_pow_right (by decide) hi))
    grind

theorem join16_bytes16 (e : Endian) (u : UInt16) : e.join16 (e.bytes16 u) = u := by
  cases e <;> exact join_bytes16 u

theorem join32_bytes32 (e : Endian) (u : UInt32) : e.join32 (e.bytes32 u) = u := by
  cases e <;> exact join_bytes32 u

theorem length_bytes16 (e : Endian) (u : UInt16) : (e.bytes16 u).length = 2 := by
  cases e <;> rfl

theorem length_bytes32 (e : Endian) (u : UInt32) : (e.bytes32 u).length = 4 := by
  cases e <;> rfl

/-- Gathers the bytes of 16-bit code units. -/
def assembler16 (e : Endian) : Transducer (List UInt8) UInt8 UInt16 :=
  Transducer.assembler 2 e.join16

/-- Gathers the bytes of 32-bit code units. -/
def assembler32 (e : Endian) : Transducer (List UInt8) UInt8 UInt32 :=
  Transducer.assembler 4 e.join32

theorem feed_assembler16 (e : Endian) (us : List UInt16) :
    e.assembler16.feed [] (us.flatMap e.bytes16) = ([], us) :=
  Transducer.feed_assembler_flatMap (by decide) e.length_bytes16 e.join16_bytes16 us

theorem feed_assembler32 (e : Endian) (us : List UInt32) :
    e.assembler32.feed [] (us.flatMap e.bytes32) = ([], us) :=
  Transducer.feed_assembler_flatMap (by decide) e.length_bytes32 e.join32_bytes32 us

/-- A byte completes a 16-bit code unit, or it is kept. -/
theorem assembler16_step_cases (e : Endian) (held : List UInt8) (x : UInt8) :
    held.length + 1 = 2 ∧ e.assembler16.step held x = ([], [e.join16 (held ++ [x])]) ∨
      held.length + 1 ≠ 2 ∧ e.assembler16.step held x = (held ++ [x], []) :=
  Transducer.assembler_step_cases held x

/-- A byte completes a 32-bit code unit, or it is kept. -/
theorem assembler32_step_cases (e : Endian) (held : List UInt8) (x : UInt8) :
    held.length + 1 = 4 ∧ e.assembler32.step held x = ([], [e.join32 (held ++ [x])]) ∨
      held.length + 1 ≠ 4 ∧ e.assembler32.step held x = (held ++ [x], []) :=
  Transducer.assembler_step_cases held x

/-- The bytes gathered in the end are those that complete no unit. -/
theorem length_feed_assembler16 (e : Endian) (bytes : List UInt8) :
    (e.assembler16.feed [] bytes).1.length = bytes.length % 2 := by
  rw [assembler16, Transducer.length_feed_assembler (by decide), List.length_nil, Nat.zero_add]

theorem length_feed_assembler32 (e : Endian) (bytes : List UInt8) :
    (e.assembler32.feed [] bytes).1.length = bytes.length % 4 := by
  rw [assembler32, Transducer.length_feed_assembler (by decide), List.length_nil, Nat.zero_add]

theorem length_feed_assembler16_lt (e : Endian) (bytes : List UInt8) :
    (e.assembler16.feed [] bytes).1.length < 2 := by
  rw [length_feed_assembler16]
  exact Nat.mod_lt _ (by decide)

theorem length_feed_assembler32_lt (e : Endian) (bytes : List UInt8) :
    (e.assembler32.feed [] bytes).1.length < 4 := by
  rw [length_feed_assembler32]
  exact Nat.mod_lt _ (by decide)

/-- Bytes are the complete groups that units are joined from, and those gathered in the end. -/
theorem exists_groups16 (e : Endian) (bytes : List UInt8) :
    ∃ groups : List (List UInt8), bytes = groups.flatten ++ (e.assembler16.feed [] bytes).1 ∧
      (∀ g ∈ groups, g.length = 2) ∧ (e.assembler16.feed [] bytes).2 = groups.map e.join16 :=
  Transducer.exists_feed_assembler [] bytes

theorem exists_groups32 (e : Endian) (bytes : List UInt8) :
    ∃ groups : List (List UInt8), bytes = groups.flatten ++ (e.assembler32.feed [] bytes).1 ∧
      (∀ g ∈ groups, g.length = 4) ∧ (e.assembler32.feed [] bytes).2 = groups.map e.join32 :=
  Transducer.exists_feed_assembler [] bytes

/-- The byte order mark of UTF-16. -/
def mark16 (e : Endian) : List UInt8 := e.bytes16 0xFEFF

/-- The byte order mark of UTF-32. -/
def mark32 (e : Endian) : List UInt8 := e.bytes32 0xFEFF

end Endian

/-- The byte order mark of UTF-8. -/
def utf8Mark : List UInt8 := [0xEF, 0xBB, 0xBF]

end Icubaby
