import Icubaby.Transcoder.Utf8

/-!
# Code units wider than a byte

Where bytes have more than eight bits, a branch that is compiled into the decoder of UTF-8 is meant
to keep its units below 256 before they are looked up. It takes the maximum of the unit and FF, not
the minimum. So every unit up to FF is read as FF, which leads no sequence, and a larger unit keeps
its value and leaves the part of the table with the classes.

The lists of units on which this makes no difference are those on which the decoder without the
branch has nothing but U+FFFD to write, one for each unit (`platformIndependent_iff`).
-/

namespace Icubaby

namespace T8To32

/-- The value that a code unit is looked up with. -/
def ucu (clamps : Bool) (codeUnit : ℕ) : ℕ := if clamps then max codeUnit 0xFF else codeUnit

theorem callWith_eq (clamps : Bool) (t : T8To32) (codeUnit : ℕ) :
    callWith clamps t codeUnit = callWith false t (ucu clamps codeUnit) := rfl

end T8To32

/-- `transcoder<char8, char32_t>` where bytes have `charBit` bits, with or without the branch. -/
def t8_32Wide (clamps : Bool) (charBit : ℕ) : Transcoder T8To32 (BitVec charBit) UInt32 where
  init := {}
  step t u := T8To32.callWith clamps t u.toNat
  finish := T8To32.endCp
  wellFormed := T8To32.wellFormed
  isPartial t := t.state ≠ T8To32.accept

variable {charBit : ℕ}

/-- Units that are looked up as bytes are decoded as these bytes. -/
theorem feed_t8_32Wide {clamps : Bool} {f : BitVec charBit → UInt8} {units : List (BitVec charBit)}
    (h : ∀ u ∈ units, T8To32.ucu clamps u.toNat = (f u).toNat) (t : T8To32) :
    (t8_32Wide clamps charBit).feed t units = t8_32.feed t (units.map f) := by
  induction units generalizing t with
  | nil => rfl
  | cons u units ih =>
    have hstep : (t8_32Wide clamps charBit).step t u = t8_32.step t (f u) := by
      have hucu := h u List.mem_cons_self
      change T8To32.callWith clamps t u.toNat = T8To32.callWith false t (f u).toNat
      rw [T8To32.callWith_eq, hucu]
    rw [List.map_cons, Transducer.feed_cons, Transducer.feed_cons, hstep,
      ih fun v hv => h v (List.mem_cons_of_mem u hv)]

theorem run_t8_32Wide {clamps : Bool} {f : BitVec charBit → UInt8} {units : List (BitVec charBit)}
    (h : ∀ u ∈ units, T8To32.ucu clamps u.toNat = (f u).toNat) :
    (t8_32Wide clamps charBit).run units = t8_32.run (units.map f) := by
  rw [Transducer.run, Transducer.runFrom, feed_t8_32Wide h]
  rfl

/-! ### One code point for each byte -/

/-- The unit leads no sequence of UTF-8. -/
def LeadsNothing (u : ℕ) : Prop := 0x7F < u ∧ u ≤ 0xFF ∧ ¬ (0xC2 ≤ u ∧ u ≤ 0xF4)

instance (u : ℕ) : Decidable (LeadsNothing u) := inferInstanceAs (Decidable (_ ∧ _))

namespace T8To32

private theorem val_ne_replacement {c : Char} (hc : c.toNat ≤ 0x7F) :
    pieceUnit (some c) ≠ pieceUnit none := by
  intro h
  have hval : c.toNat = replacementChar := by
    rw [← toNat_replacement, ← Char.toNat_val, ← Char.toNat_val]
    exact congrArg UInt32.toNat h
  rw [hval] at hc
  exact absurd hc (by decide)

/-- **One byte of a decoder that stands for no bytes**: exactly a byte that leads nothing has
U+FFFD written at once, and exactly a byte beyond ASCII when the flush follows. -/
theorem call_of_standsFor_nil {t : T8To32} (h : t.StandsFor []) (b : UInt8) :
    ((t.call b).2 = [pieceUnit none] ↔ LeadsNothing b.toNat) ∧
      ((t.call b).2 ++ (t.call b).1.endCp.2 = [pieceUnit none] ↔ 0x7F < b.toNat) ∧
      (LeadsNothing b.toNat → (t.call b).1.StandsFor [] ∧ (t.call b).1.wellFormed = false) ∧
      (0x7F < b.toNat → (t.call b).1.endCp.1.wellFormed = false) := by
  rcases utf8_byte_cases b with ⟨hb, c, hword, hc⟩ | ⟨hlead, hp⟩ | ⟨⟨hb, hlead⟩, hdead, hsymbol⟩
  · -- an ASCII character is written
    have hnp : ¬ utf8.Pending ([] ++ [b]) := hword ▸ utf8.not_pending_word c
    have hsymbol : utf8.symbol? ([] ++ [b]) = some c := utf8.symbol?_eq_some_iff.mpr hword
    obtain ⟨hR, hout, -⟩ := call_write h hnp
    have hne : ¬ [pieceUnit (some c)] = [pieceUnit none] := by
      simpa using val_ne_replacement (hc ▸ hb)
    rw [hout, hR.endCp, hsymbol, List.append_nil]
    refine ⟨iff_of_false hne fun hu => ?_, iff_of_false hne (by omega), fun hu => ?_, ?_⟩
    · exact absurd hu.1 (by omega)
    · exact absurd hu.1 (by omega)
    · omega
  · -- the begin of a sequence is held back
    obtain ⟨hR, hout, -⟩ := call_hold h hp
    rw [hout, hR.endCp_of_ne_nil (by simp), List.nil_append]
    refine ⟨iff_of_false (by simp) fun hu => hu.2.2 hlead, iff_of_true rfl (by omega),
      fun hu => absurd hlead hu.2.2, fun _ => rfl⟩
  · obtain ⟨hR, hout, hwf⟩ := call_write h hdead
    have hu : LeadsNothing b.toNat := ⟨hb, Nat.le_of_lt_succ b.toNat_lt, hlead⟩
    rw [List.nil_append, hsymbol] at hout hwf
    rw [Option.isSome_none, Bool.and_false] at hwf
    rw [hout, hR.endCp, List.append_nil]
    exact ⟨iff_of_true rfl hu, iff_of_true rfl hb, fun _ => ⟨hR, hwf⟩, fun _ => hwf⟩

end T8To32

/-- Of two lists that together have one element too few to spare, both are full. -/
private theorem append_eq_replicate_succ_iff {α : Type} {us vs : List α} {a : α} {n : ℕ}
    (hus : us.length ≤ n) (hvs : vs.length ≤ 1) :
    us ++ vs = List.replicate (n + 1) a ↔ us = List.replicate n a ∧ vs = [a] := by
  constructor
  · intro h
    obtain ⟨hlen, husr, hvsr⟩ := List.append_eq_replicate_iff.mp h
    have hun : us.length = n := by omega
    have hvn : vs.length = 1 := by omega
    rw [hun] at husr
    rw [hvn] at hvsr
    exact ⟨husr, hvsr⟩
  · rintro ⟨rfl, rfl⟩
    exact List.replicate_succ'.symm

private theorem length_feed_t8_32_le (bytes : List UInt8) :
    (t8_32.feed t8_32.init bytes).2.length ≤ bytes.length := by
  induction bytes using List.reverseRecOn with
  | nil => exact Nat.zero_le _
  | append_singleton bytes b ih =>
    have hcall := T8To32.length_call_le (t8_32.feed t8_32.init bytes).1 b
    rw [Transducer.feed_append, Transducer.feed_singleton, List.length_append, List.length_append,
      List.length_singleton]
    exact Nat.add_le_add ih hcall

/-- The decoder has nothing to remember of bytes that lead nothing but that they were there. -/
theorem standsFor_nil_of_leadsNothing {bytes : List UInt8}
    (h : ∀ b ∈ bytes, LeadsNothing b.toNat) :
    (t8_32.feed t8_32.init bytes).1.StandsFor [] ∧
      (t8_32.feed t8_32.init bytes).1.wellFormed = bytes.isEmpty := by
  induction bytes using List.reverseRecOn with
  | nil => exact ⟨T8To32.standsFor_init, rfl⟩
  | append_singleton bytes b ih =>
    obtain ⟨hR, -⟩ := ih fun x hx => h x (List.mem_append_left _ hx)
    obtain ⟨-, -, hnext, -⟩ := T8To32.call_of_standsFor_nil hR b
    obtain ⟨hR', hwf⟩ := hnext (h b (by simp))
    rw [Transducer.feed_append, Transducer.feed_singleton]
    refine ⟨hR', hwf.trans ?_⟩
    simp

/-- **U+FFFD for each byte** is written exactly for bytes that lead nothing. -/
theorem feed_eq_replicate_iff (bytes : List UInt8) :
    (t8_32.feed t8_32.init bytes).2 = List.replicate bytes.length (pieceUnit none) ↔
      ∀ b ∈ bytes, LeadsNothing b.toNat := by
  induction bytes using List.reverseRecOn with
  | nil => simp
  | append_singleton bytes b ih =>
    have hcall := T8To32.length_call_le (t8_32.feed t8_32.init bytes).1 b
    rw [Transducer.feed_append, Transducer.feed_singleton, List.length_append,
      List.length_singleton, List.forall_mem_append, List.forall_mem_singleton, ← ih]
    refine (append_eq_replicate_succ_iff (length_feed_t8_32_le bytes) hcall).trans ?_
    refine and_congr_right fun hout => ?_
    have hbytes := ih.mp hout
    exact (T8To32.call_of_standsFor_nil (standsFor_nil_of_leadsNothing hbytes).1 b).1

/-- With the flush the last byte may also be the begin of a sequence. -/
theorem run_concat_eq_replicate_iff (bytes : List UInt8) (b : UInt8) :
    (t8_32.run (bytes ++ [b])).2 = List.replicate (bytes.length + 1) (pieceUnit none) ↔
      (∀ x ∈ bytes, LeadsNothing x.toNat) ∧ 0x7F < b.toNat := by
  have hlast := (T8To32.length_call_endCp (t8_32.feed t8_32.init bytes).1 b).le
  rw [Transducer.run, Transducer.runFrom_append, Transducer.runFrom_snd, Transducer.feed_singleton,
    ← feed_eq_replicate_iff]
  refine (append_eq_replicate_succ_iff (length_feed_t8_32_le bytes) hlast).trans ?_
  refine and_congr_right fun hout => ?_
  have hbytes := (feed_eq_replicate_iff bytes).mp hout
  exact (T8To32.call_of_standsFor_nil (standsFor_nil_of_leadsNothing hbytes).1 b).2.1

/-- Bytes after which only the last may begin a sequence are reported. -/
theorem wellFormed_run_concat {bytes : List UInt8} {b : UInt8}
    (h : ∀ x ∈ bytes, LeadsNothing x.toNat) (hb : 0x7F < b.toNat) :
    (t8_32.run (bytes ++ [b])).1.wellFormed = false := by
  rw [Transducer.run, Transducer.runFrom_append]
  exact (T8To32.call_of_standsFor_nil (standsFor_nil_of_leadsNothing h).1 b).2.2.2 hb

/-! ### The two variants -/

/-- The first look-up into `utf8d_` stays in the part with the classes. -/
def LooksUpClasses (charBit sizeofUintLeast8 : ℕ) (units : List (BitVec charBit)) : Prop :=
  ∀ u ∈ units, T8To32.ucu (T8To32.clampsUnits charBit sizeofUintLeast8) u.toNat ≤ 255

/-- The same code points are written and the same `well_formed ()` is left. -/
def SameResult (r r' : T8To32 × List UInt32) : Prop :=
  r.2 = r'.2 ∧ r.1.wellFormed = r'.1.wellFormed

/-- On units up to FF the decoder with the branch does what the one without it does. -/
def ClampsNothing (units : List (BitVec charBit)) : Prop :=
  let t := t8_32Wide true charBit
  let t' := t8_32Wide false charBit
  (∀ u ∈ units, u.toNat ≤ 0xFF) → SameResult (t.feed t.init units) (t'.feed t'.init units)

/-- The same of runs that end with `end_cp`. -/
def ClampsNothingFlushed (units : List (BitVec charBit)) : Prop :=
  (∀ u ∈ units, u.toNat ≤ 0xFF) →
    SameResult ((t8_32Wide true charBit).run units) ((t8_32Wide false charBit).run units)

/-- What is looked up is a class exactly if no unit is wider than a byte, for the branch passes on
what it ought to clamp. -/
theorem looksUpClasses_iff {sizeofUintLeast8 : ℕ} {units : List (BitVec charBit)} :
    LooksUpClasses charBit sizeofUintLeast8 units ↔ ∀ u ∈ units, u.toNat ≤ 0xFF := by
  refine forall₂_congr fun u _ => ?_
  cases hclamps : T8To32.clampsUnits charBit sizeofUintLeast8 with
  | true => simp [T8To32.ucu]
  | false =>
    -- without the branch bytes have no more than eight bits
    have hbits : charBit ≤ 8 := by
      rw [T8To32.clampsUnits, Bool.or_eq_false_iff] at hclamps
      simpa using hclamps.1
    have hlt := u.isLt.trans_le (Nat.pow_le_pow_right (by decide) hbits)
    simp only [T8To32.ucu, Bool.false_eq_true, if_false]

/-- The byte that a unit is. -/
private def toByte (u : BitVec charBit) : UInt8 := UInt8.ofNat u.toNat

private theorem toNat_toByte {u : BitVec charBit} (h : u.toNat ≤ 0xFF) :
    (toByte u).toNat = u.toNat := by
  rw [toByte, UInt8.toNat_ofNat']
  exact Nat.mod_eq_of_lt (by omega)

private theorem ucu_true {u : BitVec charBit} (h : u.toNat ≤ 0xFF) :
    T8To32.ucu true u.toNat = (0xFF : UInt8).toNat := Nat.max_eq_right h

private theorem ucu_false {u : BitVec charBit} (h : u.toNat ≤ 0xFF) :
    T8To32.ucu false u.toNat = (toByte u).toNat := (toNat_toByte h).symm

private theorem forall_mem_map_toByte {units : List (BitVec charBit)}
    (h : ∀ u ∈ units, u.toNat ≤ 0xFF) :
    (∀ b ∈ units.map toByte, LeadsNothing b.toNat) ↔ ∀ u ∈ units, LeadsNothing u.toNat := by
  rw [List.forall_mem_map]
  exact forall₂_congr fun u hu => by rw [toNat_toByte (h u hu)]

private theorem leadsNothing_ff (units : List (BitVec charBit)) :
    ∀ b ∈ units.map fun _ => (0xFF : UInt8), LeadsNothing b.toNat := by
  rw [List.forall_mem_map]
  exact fun _ _ => by decide

/-- **Without `end_cp`** the branch makes no difference exactly if every unit leads nothing. -/
theorem clampsNothing_iff {units : List (BitVec charBit)} (h : ∀ u ∈ units, u.toNat ≤ 0xFF) :
    ClampsNothing units ↔ ∀ u ∈ units, LeadsNothing u.toNat := by
  -- with the branch every unit is read as FF
  have hclamped := feed_t8_32Wide (fun u hu => ucu_true (h u hu)) t8_32.init
  have hplain := feed_t8_32Wide (fun u hu => ucu_false (h u hu)) t8_32.init
  have hff := leadsNothing_ff units
  have hout := (feed_eq_replicate_iff _).mpr hff
  have hiff := feed_eq_replicate_iff (units.map toByte)
  rw [List.length_map] at hout hiff
  change ((∀ u ∈ units, u.toNat ≤ 0xFF) →
    SameResult ((t8_32Wide true charBit).feed t8_32.init units)
      ((t8_32Wide false charBit).feed t8_32.init units)) ↔ _
  rw [hclamped, hplain, ← forall_mem_map_toByte h]
  constructor
  · intro hsame
    exact hiff.mp ((hsame h).1.symm.trans hout)
  · intro hu _
    refine ⟨hout.trans (hiff.mpr hu).symm, ?_⟩
    rw [(standsFor_nil_of_leadsNothing hff).2, (standsFor_nil_of_leadsNothing hu).2,
      List.isEmpty_map, List.isEmpty_map]

/-- **With `end_cp`** the last unit may also be the begin of a sequence. -/
theorem clampsNothingFlushed_concat_iff {units : List (BitVec charBit)} {u : BitVec charBit}
    (h : ∀ v ∈ units ++ [u], v.toNat ≤ 0xFF) :
    ClampsNothingFlushed (units ++ [u]) ↔ (∀ v ∈ units, LeadsNothing v.toNat) ∧ 0x7F < u.toNat := by
  have hclamped := run_t8_32Wide (fun v hv => ucu_true (h v hv))
  have hplain := run_t8_32Wide (fun v hv => ucu_false (h v hv))
  have hff := leadsNothing_ff units
  have hout := (run_concat_eq_replicate_iff _ 0xFF).mpr ⟨hff, by decide⟩
  have hiff := run_concat_eq_replicate_iff (units.map toByte) (toByte u)
  have hu : (toByte u).toNat = u.toNat := toNat_toByte (h u (by simp))
  rw [List.length_map] at hout hiff
  rw [forall_mem_map_toByte fun v hv => h v (List.mem_append_left _ hv), hu] at hiff
  rw [List.map_append, List.map_singleton] at hclamped hplain
  rw [ClampsNothingFlushed, hclamped, hplain]
  constructor
  · intro hsame
    exact hiff.mp ((hsame h).1.symm.trans hout)
  · intro hlead _
    refine ⟨hout.trans (hiff.mpr hlead).symm, ?_⟩
    rw [wellFormed_run_concat hff (by decide), wellFormed_run_concat]
    · rw [forall_mem_map_toByte fun v hv => h v (List.mem_append_left _ hv)]
      exact hlead.1
    · rw [hu]
      exact hlead.2

/-- **Platform independence.** What is looked up is a class exactly if every unit is a byte, and the
branch makes no difference either exactly if every unit is a byte that leads no sequence of UTF-8.
If the input is followed by `end_cp`, its last unit may be any byte beyond ASCII. -/
theorem platformIndependent_iff (charBit sizeofUintLeast8 : ℕ) (units : List (BitVec charBit)) :
    (LooksUpClasses charBit sizeofUintLeast8 units ↔ ∀ u ∈ units, u.toNat ≤ 0xFF) ∧
      (LooksUpClasses charBit sizeofUintLeast8 units ∧ ClampsNothing units ↔
        ∀ u ∈ units, LeadsNothing u.toNat) ∧
      (LooksUpClasses charBit sizeofUintLeast8 units ∧ ClampsNothingFlushed units ↔
        (∀ u ∈ units.dropLast, LeadsNothing u.toNat) ∧
          ∀ u ∈ units.getLast?, 0x7F < u.toNat ∧ u.toNat ≤ 0xFF) := by
  rw [looksUpClasses_iff]
  refine ⟨Iff.rfl, ⟨fun h => (clampsNothing_iff h.1).mp h.2, fun h => ?_⟩, ?_⟩
  · have hle : ∀ u ∈ units, u.toNat ≤ 0xFF := fun u hu => (h u hu).2.1
    exact ⟨hle, (clampsNothing_iff hle).mpr h⟩
  · rcases units.eq_nil_or_concat' with rfl | ⟨units, u, rfl⟩
    · refine iff_of_true ⟨by simp, fun _ => ⟨rfl, rfl⟩⟩ (by simp)
    · rw [List.dropLast_concat, List.getLast?_concat]
      simp only [Option.mem_some_iff, forall_eq']
      constructor
      · rintro ⟨hle, hsame⟩
        obtain ⟨hlead, hu⟩ := (clampsNothingFlushed_concat_iff hle).mp hsame
        exact ⟨hlead, hu, hle u (by simp)⟩
      · rintro ⟨hlead, hu, hle⟩
        have hall : ∀ v ∈ units ++ [u], v.toNat ≤ 0xFF := by
          rw [List.forall_mem_append, List.forall_mem_singleton]
          exact ⟨fun v hv => (hlead v hv).2.1, hle⟩
        exact ⟨hall, (clampsNothingFlushed_concat_iff hall).mpr ⟨hlead, hu⟩⟩

/-- On 16-bit bytes the letter A is decoded as U+FFFD where the branch is compiled in, and a unit
above FF is looked up where it is. -/
theorem not_platformIndependent_ascii :
    ¬ ClampsNothing [0x41#16] ∧ ¬ ClampsNothingFlushed [0x41#16] ∧
      ¬ LooksUpClasses 16 1 [0x141#16] := by
  refine ⟨fun h => ?_, fun h => ?_, fun h => ?_⟩
  · have hsame := (h (by simp)).1
    revert hsame
    decide +kernel
  · have hsame := (h (by simp)).1
    revert hsame
    decide +kernel
  · have hclass := h 0x141#16 (by simp)
    simp [T8To32.ucu, T8To32.clampsUnits] at hclass

end Icubaby
