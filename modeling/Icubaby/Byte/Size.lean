import Icubaby.Byte.Simulation
import Icubaby.Transcoder.Excerpt
import Icubaby.Transcoder.Size

/-!
# The size of the output of the byte transcoder

Nothing is known of the encoding in advance, but ill-formed UTF-8 is the worst that bytes can be:
two bytes of UTF-16 and four of UTF-32 do not need more than as many bytes of UTF-8, each replaced
by U+FFFD. There is one exception. If the input ends inside a mark, what has been held back is
replayed with a zero byte, which makes one unit more.
-/

namespace Icubaby

/-- Complete groups of bytes. -/
private theorem length_flatten_of_forall {groups : List (List UInt8)} {n : ℕ}
    (h : ∀ g ∈ groups, g.length = n) : groups.flatten.length = groups.length * n := by
  rw [List.length_flatten, List.map_congr_left h, List.map_const', List.sum_replicate, smul_eq_mul]

namespace Endian

theorem mul_length_assembler16_le (e : Endian) (bytes : List UInt8) :
    2 * (e.assembler16.feed [] bytes).2.length ≤ bytes.length := by
  obtain ⟨groups, hbytes, hgroups, hunits⟩ := e.exists_groups16 bytes
  have hlen := congrArg List.length hbytes
  rw [List.length_append, length_flatten_of_forall hgroups] at hlen
  rw [hunits, List.length_map]
  omega

theorem mul_length_assembler32_le (e : Endian) (bytes : List UInt8) :
    4 * (e.assembler32.feed [] bytes).2.length ≤ bytes.length := by
  obtain ⟨groups, hbytes, hgroups, hunits⟩ := e.exists_groups32 bytes
  have hlen := congrArg List.length hbytes
  rw [List.length_append, length_flatten_of_forall hgroups] at hlen
  rw [hunits, List.length_map]
  omega

end Endian

namespace Framing

/-- The replay of an incomplete mark. -/
private theorem length_replay_le (T : CharType) :
    ∀ seen ∈ partialMarks, seen ≠ [] → ((transcoder .char8 T).run (seen ++ [0])).2.length ≤
      unitsPerUnit .char8 T * seen.length + 1 := by
  cases T <;> decide

/-- What the bytes of a framing are written as, except for an incomplete mark. -/
private theorem length_text_le (T : CharType) {f : Framing} {bytes : List UInt8}
    (h : f.Accounts bytes) (hf : ∀ seen, f = detecting seen → seen = []) :
    (f.text.1.decodeTo T f.text.2).length ≤ unitsPerUnit .char8 T * bytes.length := by
  have hle := CharType.length_decodeTo_le f.text.1 T f.text.2
  refine hle.trans ?_
  cases f with
  | detecting seen =>
    obtain rfl := hf seen rfl
    exact Nat.zero_le _
  | utf8 p =>
    rcases h with rfl | rfl
    · exact le_rfl
    · rw [List.length_append]
      exact Nat.mul_le_mul_left _ (Nat.le_add_left _ _)
  | utf16 e p =>
    have hunits := e.mul_length_assembler16_le p
    obtain rfl := h
    rw [List.length_append]
    change unitsPerUnit .char16 T * (e.assembler16.feed [] p).2.length ≤ _
    generalize (e.assembler16.feed [] p).2.length = n at hunits
    cases T <;> simp only [unitsPerUnit] <;> omega
  | utf32 e p =>
    have hunits := e.mul_length_assembler32_le p
    obtain rfl := h
    rw [List.length_append]
    change unitsPerUnit .char32 T * (e.assembler32.feed [] p).2.length ≤ _
    generalize (e.assembler32.feed [] p).2.length = n at hunits
    cases T <;> simp only [unitsPerUnit] <;> omega

end Framing

/-- The bound, by the framing of the bytes. -/
private theorem length_tx_run_le (T : CharType) (bytes : List UInt8) :
    ((tx T).run bytes).2.length ≤ unitsPerUnit .char8 T * bytes.length +
      if bytes ∈ partialMarks ∧ bytes ≠ [] then 1 else 0 := by
  have hrun := (Framing.tx_run T bytes).1
  have hacc := Framing.accounts_ofBytes bytes
  by_cases hdetecting : ∃ seen, Framing.ofBytes bytes = .detecting seen ∧ seen ≠ []
  · obtain ⟨seen, hseen, hne⟩ := hdetecting
    rw [hseen] at hacc
    obtain ⟨rfl, hmem⟩ := hacc
    have hreplay := Framing.length_replay_le T bytes hmem hne
    obtain ⟨x, xs, rfl⟩ := List.exists_cons_of_ne_nil hne
    rw [if_pos ⟨hmem, hne⟩]
    rw [hseen] at hrun
    rw [hrun]
    exact hreplay
  · have htext := Framing.length_text_le T hacc fun seen hseen => by
      by_contra hne
      exact hdetecting ⟨seen, hseen, hne⟩
    have hout : ((tx T).run bytes).2 =
        (Framing.ofBytes bytes).text.1.decodeTo T (Framing.ofBytes bytes).text.2 :=
      hrun.trans ((converts_transcoder _ T).run _).1
    rw [hout]
    exact htext.trans (Nat.le_add_right _ _)

/-- Bytes that begin no code point are the worst case. -/
private theorem length_tx_run_replicate (T : CharType) (n : ℕ) :
    ((tx T).run (List.replicate n 0x80)).2.length = unitsPerUnit .char8 T * n := by
  have hframing : (Framing.ofBytes (List.replicate n 0x80)).text =
      ⟨.char8, List.replicate n 0x80⟩ := by
    cases n with
    | zero => rfl
    | succ n =>
      have hfirst : (Framing.detecting []).next 0x80 = .utf8 [0x80] := by decide
      rw [List.replicate_succ, Framing.ofBytes, List.foldl_cons, hfirst, Framing.foldl_next_utf8]
      rfl
  have hrun := (Framing.tx_run T (List.replicate n 0x80)).1
  rw [hframing] at hrun
  have hread := (CharType.read_not_start_append (F := .char8)
    (p := List.replicate n (0x80 : UInt8)) (fun u hu => by
      rw [List.eq_of_mem_replicate hu]
      rfl) []).1
  have hword : (T.code.word replacement).length = unitsPerUnit .char8 T := by
    cases T <;> decide
  rw [hrun, ((converts_transcoder .char8 T).run _).1, CharType.decodeTo, CharType.scalars]
  rw [List.append_nil, List.length_replicate, show CharType.char8.read [] = [] from
    CharType.char8.read_encode [], List.append_nil] at hread
  rw [hread, List.map_replicate, PrefixCode.encode, List.length_flatMap, List.map_replicate,
    List.sum_replicate, smul_eq_mul, Option.getD_none, hword, Nat.mul_comm]

/-- **The size of the output for bytes.** A byte transcoder writes at most as many units for each
byte as it does for ill-formed UTF-8, which is attained for every length, and one more if the input
ends inside a mark. -/
theorem length_tx_run (T : CharType) :
    (∀ bytes, ((tx T).run bytes).2.length ≤ unitsPerUnit .char8 T * bytes.length +
      if bytes ∈ partialMarks ∧ bytes ≠ [] then 1 else 0) ∧
    ∀ n, ∃ bytes, bytes.length = n ∧
      ((tx T).run bytes).2.length = unitsPerUnit .char8 T * n := by
  refine ⟨fun bytes => ?_, fun n => ?_⟩
  · exact length_tx_run_le T bytes
  · exact ⟨List.replicate n 0x80, List.length_replicate, length_tx_run_replicate T n⟩

end Icubaby
