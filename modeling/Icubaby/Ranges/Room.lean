import Icubaby.Transcoder.Online
import Icubaby.Ranges.Positions
import Icubaby.Ranges.Bytes

/-!
# The room in the buffer of a view of bytes

The array of a view of bytes has room for the encoding of one code point,
`max_output_bytes<std::byte, ToEncoding>`. One call of `fill` can write more: the bytes held back
while a byte order mark is being identified are replayed all at once, and a unit of UTF-16 can
settle two code points.

`Framing.HasRoom` says what has to be true of the bytes consumed, the next byte and the ones after
it for the array to be large enough, and that is exactly what is needed (`fitsBuffer_iff`).
-/

namespace Icubaby

open TranscodeView

variable {F T : CharType}

/-! ### Encodings of one code point -/

/-- At most one code point fits. -/
theorem encode_fits {cs : List Char} (h : cs.length ≤ 1) :
    (T.code.encode cs).length ≤ T.longestSequence := by
  match cs with
  | [] => exact Nat.zero_le _
  | [c] =>
    rw [PrefixCode.encode_cons, PrefixCode.encode_nil, List.append_nil]
    exact length_word_le T c

namespace CharType

/-- What a pending list is replaced by. -/
theorem length_scalars_le_of_pending {p : List F.Unit} (hp : F.code.Pending p) :
    (F.scalars p).length ≤ 1 := by
  rw [scalars, List.length_map]
  cases F with
  | char8 =>
    rcases eq_or_ne p [] with rfl | hne
    · exact (congrArg List.length utf8.read_nil).trans_le (Nat.zero_le _)
    · exact (congrArg List.length (PrefixCode.read_of_pending hp hne)).le
  | char16 =>
    rcases utf16_pending_iff.mp hp with rfl | ⟨h, rfl, -⟩
    · exact Nat.zero_le _
    · exact le_rfl
  | char32 =>
    obtain rfl := eq_nil_of_utf32_pending hp
    exact Nat.zero_le _

/-- One more unit delivers at most one code point, except in UTF-16. -/
theorem length_encode_delivered_le (hF : F ≠ char16) {p : List F.Unit} (hp : F.code.Pending p)
    (u : F.Unit) (last : Bool) :
    (T.code.encode (F.delivered (p ++ [u]) last)).length ≤ T.longestSequence :=
  encode_fits ((F.length_delivered_le _ last).trans (length_scalars_concat hF hp u).le)

/-- The flush delivers at most one code point. -/
theorem length_encode_delivered_le_of_pending {p : List F.Unit} (hp : F.code.Pending p)
    (last : Bool) : (T.code.encode (F.delivered p last)).length ≤ T.longestSequence :=
  encode_fits ((F.length_delivered_le _ last).trans (length_scalars_le_of_pending hp))

/-- **A unit of UTF-16** behind undecided ones: there is room unless a surrogate pair is broken. -/
theorem length_encode_delivered_utf16_le_iff {p : List UInt16} (hp : utf16.Pending p) (u : UInt16)
    (last : Bool) :
    (T.code.encode (char16.delivered (p ++ [u]) last)).length ≤ T.longestSequence ↔
      ∀ h, p = [h] → IsLowSurrogate u.toNat ∨ IsHighSurrogate u.toNat ∧ last = false ∨
        T = char16 ∨ T = char8 ∧ u.toNat ≤ 0x7F := by
  have hfits : (char16.scalars (p ++ [u])).length = 1 →
      (T.code.encode (char16.delivered (p ++ [u]) last)).length ≤ T.longestSequence := fun hone =>
    encode_fits ((char16.length_delivered_le _ last).trans hone.le)
  rcases utf16_pending_iff.mp hp with rfl | ⟨h, rfl, hh⟩
  · exact iff_of_true (hfits (length_scalars_utf16 u)) (by simp)
  by_cases hlow : IsLowSurrogate u.toNat
  · exact iff_of_true (hfits (length_scalars_pair hh hlow)) fun _ _ => .inl hlow
  rw [List.singleton_append, delivered_broken_pair hh hlow]
  by_cases hwaits : IsHighSurrogate u.toNat ∧ last = false
  · rw [if_pos hwaits]
    exact iff_of_true (encode_fits le_rfl) fun _ _ => .inr (.inl hwaits)
  · -- U+FFFD and the unit itself, or U+FFFD twice
    obtain ⟨c, hc, hval⟩ := exists_scalars_utf16 u
    have hlt := u.toNat_lt
    rw [if_neg hwaits, hc, PrefixCode.encode_cons, PrefixCode.encode_cons, PrefixCode.encode_nil,
      List.append_nil, List.length_append, length_word, length_word, hval, toNat_replacement,
      replacementChar]
    simp only [hlow, hwaits, false_or, List.cons.injEq, and_true, forall_eq']
    cases T with
    | char8 =>
      simp only [wordLength, longestSequence, isSurrogate_iff, reduceCtorEq, false_or, true_and]
      split_ifs <;> omega
    | char16 =>
      simp only [wordLength, longestSequence, isSurrogate_iff, true_or, iff_true]
      split_ifs <;> omega
    | char32 => exact iff_of_false (by simp [wordLength, longestSequence]) (by simp)

/-- The units that a byte of UTF-8 is turned into that neither leads nor continues a sequence. -/
def replayLength (T : CharType) (b : UInt8) : ℕ :=
  if b.toNat ≤ 0x7F then 1 else (T.code.word replacement).length

/-- The byte leads a sequence of UTF-8 of several bytes. -/
def IsLead (b : UInt8) : Prop := 0xC2 ≤ b.toNat ∧ b.toNat ≤ 0xF4

instance (b : UInt8) : Decidable (IsLead b) := inferInstanceAs (Decidable (_ ∧ _))

/-- **A byte of UTF-8 alone** is an ASCII character, the begin of a sequence, or neither. -/
private theorem exists_scalars_byte (b : UInt8) : ∃ c, char8.scalars [b] = [c] ∧
    (c.toNat = if b.toNat ≤ 0x7F then b.toNat else replacementChar) ∧
    char8.rest [b] = if IsLead b then [b] else [] := by
  rcases utf8_byte_cases b with ⟨hb, c, hword, hc⟩ | ⟨hlead, hp⟩ | ⟨⟨hb, hlead⟩, hdead, hsymbol⟩
  · have hencode : char8.code.encode [c] = [b] := (List.append_nil _).trans hword
    have hlead : ¬ IsLead b := fun h => by
      have hlow := h.1
      omega
    refine ⟨c, ?_, ?_, ?_⟩
    · rw [← hencode, scalars_encode]
    · rw [if_pos hb, hc]
    · rw [if_neg hlead]
      exact rest_eq_nil_of_wellFormed ⟨[c], hencode⟩
  · have hhigh : ¬ b.toNat ≤ 0x7F := by omega
    rw [scalars, read, PrefixCode.read_of_pending hp (by simp), if_neg hhigh,
      if_pos (show IsLead b from hlead)]
    exact ⟨_, rfl, toNat_replacement, PrefixCode.rest_of_pending hp⟩
  · have hread := PrefixCode.read_append_cons utf8.pending_nil hdead []
    have hrest := PrefixCode.rest_append_cons utf8.pending_nil hdead []
    rw [List.nil_append, hsymbol, PrefixCode.read_nil] at hread
    rw [List.nil_append, PrefixCode.rest_of_pending utf8.pending_nil] at hrest
    rw [scalars, read, hread, if_neg (by omega), if_neg (show ¬ IsLead b from hlead)]
    exact ⟨_, rfl, toNat_replacement, hrest⟩

private theorem length_encode_byte (T : CharType) (b : UInt8) :
    (T.code.encode (char8.scalars [b])).length = T.replayLength b := by
  obtain ⟨c, hc, hval, -⟩ := exists_scalars_byte b
  rw [hc, PrefixCode.encode_cons, PrefixCode.encode_nil, List.append_nil, length_word, hval,
    replayLength, length_word, toNat_replacement]
  split_ifs with hb
  · cases T with
    | char8 => exact if_pos hb
    | char16 => exact if_pos (by omega)
    | char32 => rfl
  · rfl

/-- What has been held back, except the begin of the mark of UTF-8, is replayed byte by byte. -/
theorem length_encode_replay (T : CharType) {seen : List UInt8} (hseen : ∀ b ∈ seen, ¬ IsLead b)
    (x : UInt8) (last : Bool) :
    (T.code.encode (char8.delivered (seen ++ [x]) last)).length =
      (seen.map T.replayLength).sum + if IsLead x ∧ last = false then 0 else T.replayLength x := by
  induction seen with
  | nil =>
    obtain ⟨-, -, -, hrest⟩ := exists_scalars_byte x
    rw [List.nil_append, List.map_nil, List.sum_nil, Nat.zero_add]
    by_cases hwaits : IsLead x ∧ last = false
    · -- the byte is undecided
      obtain ⟨hlead, rfl⟩ := hwaits
      have hnone : char8.delivered [x] false = char8.scalars [] := by
        rw [delivered, if_neg Bool.false_ne_true, settled, hrest, if_pos hlead, Nat.sub_self,
          List.take_zero]
      rw [hnone, scalars_nil, if_pos ⟨hlead, rfl⟩]
      rfl
    · have hall : char8.delivered [x] last = char8.scalars [x] := by
        rw [delivered]
        split_ifs with hlast
        · rfl
        · rw [if_neg fun h => hwaits ⟨h, Bool.eq_false_iff.mpr hlast⟩] at hrest
          rw [settled_of_rest_eq_nil hrest]
      rw [hall, length_encode_byte, if_neg hwaits]
  | cons b seen ih =>
    obtain ⟨-, -, -, hrest⟩ := exists_scalars_byte b
    rw [if_neg (hseen b List.mem_cons_self)] at hrest
    have hsplit : char8.delivered (b :: seen ++ [x]) last =
        char8.scalars [b] ++ char8.delivered (seen ++ [x]) last :=
      delivered_append hrest (seen ++ [x]) last
    rw [hsplit, PrefixCode.encode_append, List.length_append, length_encode_byte,
      ih fun y hy => hseen y (List.mem_cons_of_mem b hy), List.map_cons, List.sum_cons,
      Nat.add_assoc]

end CharType

/-! ### The next byte -/

namespace Framing

/-- The bytes `seen` have been held back and are replayed with `x`, which may be the last byte. The
begin of the mark of UTF-8 is also the begin of a sequence and is replaced as a whole. -/
def ReplayFits (T : CharType) (seen : List UInt8) (x : UInt8) (last : Bool) : Prop :=
  seen.head? = some 0xEF ∨
    (seen.map T.replayLength).sum + (if CharType.IsLead x ∧ last = false then 0
      else T.replayLength x) ≤ T.longestSequence

/-- There is room for what the next byte `x` makes the transcoder write. Held-back bytes are
replayed when they turn out to be no mark, and with a null byte when the input ends. A unit of
UTF-16 that breaks a surrogate pair is written together with U+FFFD, unless it has to wait. -/
def HasRoom (T : CharType) (x : UInt8) (last : Bool) : Framing → Prop
  | detecting seen =>
    match ofSeen (seen ++ [x]) with
    | detecting seen' => last = true → ReplayFits T seen' 0 true
    | utf8 _ => ReplayFits T seen x last
    | _ => True
  | utf16 e p =>
    let a := e.assembler16.feed [] p
    ∀ h ∈ a.2.getLast?, ∀ u ∈ (e.assembler16.step a.1 x).2, IsHighSurrogate h.toNat →
      IsLowSurrogate u.toNat ∨ IsHighSurrogate u.toNat ∧ last = false ∨
        T = .char16 ∨ T = .char8 ∧ u.toNat ≤ 0x7F
  | _ => True

/-- The room for a replay. -/
theorem length_replay_le_iff {seen : List UInt8} (hseen : seen ∈ partialMarks) (x : UInt8)
    (last : Bool) :
    (T.code.encode (CharType.char8.delivered (seen ++ [x]) last)).length ≤ T.longestSequence ↔
      ReplayFits T seen x last := by
  by_cases hhead : seen.head? = some 0xEF
  · have hpre : ∀ seen ∈ partialMarks, seen.head? = some 0xEF →
        seen <+: utf8Mark ∧ seen ≠ utf8Mark := by decide
    have hword : CharType.char8.code.word (Char.ofNat 0xFEFF) = utf8Mark := by decide
    have hp : CharType.char8.code.Pending seen := ⟨Char.ofNat 0xFEFF, hword ▸ hpre seen hseen hhead⟩
    exact iff_of_true (CharType.length_encode_delivered_le (F := .char8) (by simp) hp x last)
      (.inl hhead)
  · have hbytes : ∀ seen ∈ partialMarks, seen.head? ≠ some 0xEF →
        ∀ b ∈ seen, ¬ CharType.IsLead b := by
      simp [partialMarks, CharType.IsLead]
    rw [CharType.length_encode_replay T (hbytes seen hseen hhead), ReplayFits, or_iff_right hhead]

/-- Bytes taken for UTF-8 are all kept, or they are the mark. -/
private theorem eq_of_ofSeen_utf8 {seen p : List UInt8} (h : ofSeen seen = utf8 p) :
    seen = utf8Mark ∧ p = [] ∨ p = seen := by
  rw [ofSeen] at h
  split_ifs at h with h₁
  · exact .inl ⟨h₁, (utf8.inj h).symm⟩
  · exact .inr (utf8.inj h).symm

/-- The next byte while a mark is being identified. -/
private theorem length_delivered_detecting_le_iff {seen : List UInt8} (hseen : seen ∈ partialMarks)
    (x : UInt8) (last : Bool) :
    (T.code.encode ((detecting seen).delivered x last)).length ≤ T.longestSequence ↔
      (detecting seen).HasRoom T x last := by
  have hacc := accounts_ofSeen (seen ++ [x])
  rw [HasRoom, delivered]
  cases hf : ofSeen (seen ++ [x]) with
  | detecting seen' =>
    rw [hf] at hacc
    cases last with
    | false => exact iff_of_true (Nat.zero_le _) (fun h => by cases h)
    | true => exact (length_replay_le_iff hacc.2 0 true).trans ⟨fun h _ => h, fun h => h rfl⟩
  | utf8 p =>
    rcases eq_of_ofSeen_utf8 hf with ⟨hmark, rfl⟩ | rfl
    · -- nothing is written for a mark
      have hbytes : seen ++ [x] = [0xEF, 0xBB] ++ [0xBF] := hmark
      obtain ⟨rfl, -⟩ := List.append_inj' hbytes rfl
      exact iff_of_true
        (CharType.length_encode_delivered_le_of_pending (CharType.code _).pending_nil _) (.inl rfl)
    · exact length_replay_le_iff hseen x last
  | utf16 e p => exact iff_of_true (Nat.zero_le _) trivial
  | utf32 e p => exact iff_of_true (Nat.zero_le _) trivial

/-- **The next byte** makes the transcoder write no more than there is room for exactly when
`HasRoom` says so. -/
theorem length_delivered_le_iff {f : Framing} {bytes : List UInt8} (hf : f.Accounts bytes)
    (x : UInt8) (last : Bool) :
    (T.code.encode (f.delivered x last)).length ≤ T.longestSequence ↔ f.HasRoom T x last := by
  cases f with
  | detecting seen => exact length_delivered_detecting_le_iff hf.2 x last
  | utf8 p =>
    exact iff_of_true
      (CharType.length_encode_delivered_le (by simp) (CharType.char8.pending_rest p) x _) trivial
  | utf16 e p =>
    have hp := CharType.char16.pending_rest (e.assembler16.feed [] p).2
    rw [HasRoom, delivered]
    rcases e.assembler16_step_cases (e.assembler16.feed [] p).1 x with ⟨-, hstep⟩ | ⟨-, hstep⟩
    · -- the byte completes a code unit
      rw [hstep, CharType.length_encode_delivered_utf16_le_iff hp]
      constructor
      · intro h hi hmem u hu hhigh
        obtain rfl := List.mem_singleton.mp hu
        exact h hi (utf16Rest_eq_singleton_iff.mpr ⟨hmem, hhigh⟩)
      · intro h hi hrest
        obtain ⟨hmem, hhigh⟩ := utf16Rest_eq_singleton_iff.mp hrest
        exact h hi hmem _ List.mem_cons_self hhigh
    · -- the byte is kept, so only the flush can write
      rw [hstep, List.append_nil]
      exact iff_of_true (CharType.length_encode_delivered_le_of_pending hp _)
        fun _ _ _ hu => absurd hu List.not_mem_nil
  | utf32 e p =>
    refine iff_of_true ?_ trivial
    rw [delivered]
    rcases e.assembler32_step_cases (e.assembler32.feed [] p).1 x with ⟨-, hstep⟩ | ⟨-, hstep⟩
    · rw [hstep]
      exact CharType.length_encode_delivered_le (p := []) (by simp)
        (CharType.code _).pending_nil _ _
    · rw [hstep]
      exact CharType.length_encode_delivered_le_of_pending (CharType.code _).pending_nil _

end Framing

/-! ### The flush after the end -/

/-- When the byte transcoder is flushed twice, the second flush writes at most one code point. -/
theorem length_endCp_endCp_le (b : ByteTranscoder T) :
    b.endCp.1.endCp.2.length ≤ T.longestSequence := by
  obtain ⟨state, buffer, variant⟩ := b
  cases variant with
  | monostate => exact length_finish_le .char8 T _
  | t8 t => exact length_finish_le .char8 T _
  | t16 t => exact length_finish_le .char16 T _
  | t32 t => exact length_finish_le .char32 T _

/-- `max_output_bytes<std::byte, ToEncoding>`, by the primary template. -/
def maxOutputBytesOfBytes (T : CharType) : ℕ := T.longestSequence

/-- No call of `fill` in a traversal of the view of `bytes` writes more than the array holds. -/
def FitsBuffer (T : CharType) (bytes : List UInt8) : Prop :=
  ∀ v it, Reached (tx T) ⟨bytes, true⟩ v it → it.state.out.length ≤ maxOutputBytesOfBytes T

/-- **The pulls of a view of bytes** all fit exactly when there is room for every byte. -/
theorem forall_mem_pulls_tx_iff (T : CharType) (bytes : List UInt8) :
    (∀ g ∈ (tx T).pulls (tx T).init bytes, g.2.length ≤ maxOutputBytesOfBytes T) ↔
      ∀ ys x zs, bytes = ys ++ x :: zs → (Framing.ofBytes ys).HasRoom T x zs.isEmpty := by
  rw [Transducer.forall_mem_pulls_iff_of_nil (P := fun us => us.length ≤ _) (Nat.zero_le _)]
  refine forall_congr' fun ys => forall_congr' fun x => forall_congr' fun zs =>
    imp_congr_right fun _ => ?_
  rw [(Framing.holds_ofBytes T ys).wrote]
  exact Framing.length_delivered_le_iff (Framing.accounts_ofBytes ys) x zs.isEmpty

/-- **The buffer of a view of bytes** is large enough for every call of `fill` exactly when there is
room for every byte. -/
theorem fitsBuffer_iff (T : CharType) (bytes : List UInt8) :
    FitsBuffer T bytes ↔
      ∀ ys x zs, bytes = ys ++ x :: zs → (Framing.ofBytes ys).HasRoom T x zs.isEmpty := by
  rw [← forall_mem_pulls_tx_iff]
  constructor
  · intro h g hg
    obtain ⟨pre, post, hsplit⟩ := List.append_of_mem hg
    obtain ⟨v, it, -, hreached, hshows⟩ := nth_shows hsplit (i := 0) (.inr rfl)
    rw [← hshows.shows.out_eq]
    exact h v it hreached
  · intro h v it hreached
    rcases hreached.shows with ⟨pre, g, post, i, hsplit, -, hshows⟩ | ⟨-, hnil | ⟨b, hout⟩⟩
    · rw [hshows.shows.out_eq]
      exact h g (hsplit ▸ by simp)
    · rw [hnil]
      exact Nat.zero_le _
    · rw [hout]
      exact length_endCp_endCp_le b

/-- A null byte that has been held back and the letter after it do not fit into one unit. -/
theorem not_fitsBuffer_null : ¬ FitsBuffer .char32 [0x00, 0x41] := by
  intro h
  exact absurd (h _ _ .begin) (by decide)

end Icubaby
