import Icubaby.Byte.Endian
import Icubaby.Byte.States
import Icubaby.Unicode.CodePoint

/-!
# What the byte transcoder takes its input to be

A `Framing` says what a list of bytes amounts to: the begin of a byte order mark, or the payload of
one of the encodings. `Framing.ofBytes` computes it byte by byte, without states, codes or buffers;
it does what the machine does, including the one case where the mark FF FE is taken back: FF FE 00
not followed by another 00 is text in UTF-8, of which nothing is dropped.

A framing accounts for all the bytes (`accounts_ofBytes`).
-/

namespace Icubaby

/-- What a list of bytes is taken to be. -/
inductive Framing
  /-- Only the begin of a mark has been seen. -/
  | detecting (seen : List UInt8)
  | utf8 (payload : List UInt8)
  | utf16 (e : Endian) (payload : List UInt8)
  | utf32 (e : Endian) (payload : List UInt8)
  deriving DecidableEq, Repr

/-- The marks for which all of the bytes have to be seen. -/
def marks : List (List UInt8) :=
  [utf8Mark, Endian.big.mark16, Endian.big.mark32, Endian.little.mark32]

theorem marks_eq :
    Endian.big.mark16 = [0xFE, 0xFF] ∧ Endian.little.mark16 = [0xFF, 0xFE] ∧
      Endian.big.mark32 = [0x00, 0x00, 0xFE, 0xFF] ∧
      Endian.little.mark32 = [0xFF, 0xFE, 0x00, 0x00] := by
  decide

/-- The proper prefixes of these marks. -/
def partialMarks : List (List UInt8) :=
  [[], [0xEF], [0xEF, 0xBB], [0xFE], [0x00], [0x00, 0x00], [0x00, 0x00, 0xFE], [0xFF],
    [0xFF, 0xFE], [0xFF, 0xFE, 0x00]]

theorem mem_partialMarks_iff {seen : List UInt8} :
    seen ∈ partialMarks ↔ ∃ m ∈ marks, seen <+: m ∧ seen ≠ m := by
  constructor
  · revert seen
    decide
  · rintro ⟨m, hm, hpre, hne⟩
    have hall : ∀ m ∈ marks, ∀ p ∈ m.inits, p ≠ m → p ∈ partialMarks := by decide
    exact hall m hm seen ((List.mem_inits _ _).mpr hpre) hne

namespace Framing

/-- What bytes amount to that extend the begin of a mark by one byte. -/
def ofSeen (seen : List UInt8) : Framing :=
  if seen = utf8Mark then utf8 []
  else if seen = Endian.big.mark16 then utf16 .big []
  else if seen = Endian.big.mark32 then utf32 .big []
  else if seen = Endian.little.mark32 then utf32 .little []
  else if seen ∈ partialMarks then detecting seen
  else if seen.dropLast = Endian.little.mark16 then utf16 .little (seen.drop 2)
  else utf8 seen

/-- One more byte. -/
def next : Framing → UInt8 → Framing
  | detecting seen, x => ofSeen (seen ++ [x])
  | utf8 p, x => utf8 (p ++ [x])
  | utf16 e p, x => utf16 e (p ++ [x])
  | utf32 e p, x => utf32 e (p ++ [x])

/-- The framing of a list of bytes. -/
def ofBytes (bytes : List UInt8) : Framing := bytes.foldl next (detecting [])

/-- Once the payload has begun, every byte belongs to it. -/
private theorem foldl_next {k : List UInt8 → Framing} (hk : ∀ p x, (k p).next x = k (p ++ [x]))
    (p xs : List UInt8) : xs.foldl next (k p) = k (p ++ xs) := by
  induction xs generalizing p with
  | nil => rw [List.append_nil, List.foldl_nil]
  | cons x xs ih => rw [List.foldl_cons, hk, ih, List.append_assoc, List.singleton_append]

theorem foldl_next_utf8 (p xs : List UInt8) : xs.foldl next (utf8 p) = utf8 (p ++ xs) :=
  foldl_next (fun _ _ => rfl) p xs

theorem foldl_next_utf16 (e : Endian) (p xs : List UInt8) :
    xs.foldl next (utf16 e p) = utf16 e (p ++ xs) :=
  foldl_next (fun _ _ => rfl) p xs

theorem foldl_next_utf32 (e : Endian) (p xs : List UInt8) :
    xs.foldl next (utf32 e p) = utf32 e (p ++ xs) :=
  foldl_next (fun _ _ => rfl) p xs

theorem ofBytes_append (xs ys : List UInt8) :
    ofBytes (xs ++ ys) = ys.foldl next (ofBytes xs) := List.foldl_append

theorem ofBytes_concat (xs : List UInt8) (x : UInt8) :
    ofBytes (xs ++ [x]) = (ofBytes xs).next x := ofBytes_append xs [x]

/-- The bytes that a framing accounts for: nothing but a complete mark is dropped. -/
def Accounts : Framing → List UInt8 → Prop
  | detecting seen, bytes => bytes = seen ∧ seen ∈ partialMarks
  | utf8 p, bytes => bytes = p ∨ bytes = utf8Mark ++ p
  | utf16 e p, bytes => bytes = e.mark16 ++ p
  | utf32 e p, bytes => bytes = e.mark32 ++ p

theorem accounts_ofSeen (seen : List UInt8) : (ofSeen seen).Accounts seen := by
  rw [ofSeen]
  split_ifs with h₁ h₂ h₃ h₄ h₅ h₆
  · exact .inr (by rw [h₁, List.append_nil])
  · exact h₂.trans (List.append_nil _).symm
  · exact h₃.trans (List.append_nil _).symm
  · exact h₄.trans (List.append_nil _).symm
  · exact ⟨rfl, h₅⟩
  · have hne : seen ≠ [] := fun h => h₅ (h ▸ by decide)
    obtain ⟨x, rfl⟩ : ∃ x, seen = Endian.little.mark16 ++ [x] :=
      ⟨seen.getLast hne, by rw [← h₆, List.dropLast_append_getLast]⟩
    rfl
  · exact .inl rfl

/-- **Conservation**: a framing accounts for all the bytes. -/
theorem accounts_ofBytes (bytes : List UInt8) : (ofBytes bytes).Accounts bytes := by
  induction bytes using List.reverseRecOn with
  | nil => exact ⟨rfl, by decide⟩
  | append_singleton bytes x ih =>
    rw [ofBytes_concat]
    cases hf : ofBytes bytes with
    | detecting seen =>
      rw [hf] at ih
      obtain ⟨rfl, -⟩ := ih
      exact accounts_ofSeen _
    | utf8 p =>
      rw [hf] at ih
      rcases ih with rfl | rfl
      · exact .inl rfl
      · exact .inr (List.append_assoc _ _ _)
    | utf16 e p =>
      rw [hf] at ih
      obtain rfl := ih
      exact List.append_assoc _ _ _
    | utf32 e p =>
      rw [hf] at ih
      obtain rfl := ih
      exact List.append_assoc _ _ _

/-! ### What a framing stands for -/

/-- The code units that a whole run passes on. An incomplete mark is replayed at the end of the
input with one byte too many: the byte number counts the bytes in the buffer then, not the ones
before the last. -/
def text : Framing → (F : CharType) × List F.Unit
  | detecting [] => ⟨.char8, []⟩
  | detecting seen => ⟨.char8, seen ++ [0]⟩
  | utf8 p => ⟨.char8, p⟩
  | utf16 e p => ⟨.char16, (e.assembler16.feed [] p).2⟩
  | utf32 e p => ⟨.char32, (e.assembler32.feed [] p).2⟩

/-- The encoding selected once the input has ended. -/
def encoding : Framing → Encoding
  | detecting _ | utf8 _ => .utf8
  | utf16 .big _ => .utf16be
  | utf16 .little _ => .utf16le
  | utf32 .big _ => .utf32be
  | utf32 .little _ => .utf32le

end Framing

end Icubaby
