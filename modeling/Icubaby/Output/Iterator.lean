import Icubaby.Byte.Simulation
import Icubaby.Transcoder.Online

/-!
# The output iterator adaptor

`icubaby::iterator` passes what is assigned to it to a transcoder, which writes to another output
iterator. The transcoder is shared, by pointer, but the position of the other output iterator is
part of the value of the adaptor, and `operator++ (int)` returns a copy: an assignment to the copy
moves the position of the copy only. With a destination whose position is part of its own value,
such as a pointer, `*(it++) = x` therefore writes everything at one place. The loop agrees with
direct calls of the transcoder exactly as long as nothing has been written (`agrees_iff`).
-/

namespace Icubaby

namespace Output

variable {σ α β μ π : Type}

/-! ### Destinations -/

/-- An output iterator whose position is part of its value, into memory with room for whatever is
written: moving on never returns to a position. -/
structure OutputIterator (μ π β : Type) where
  /-- The memory after `*p = u`. -/
  assign : μ → π → β → μ
  /-- The position after `++p`. -/
  next : π → π
  /-- Moving on leads to new positions. -/
  iterate_next_ne (p : π) (n : ℕ) : next^[n + 1] p ≠ p

/-- Pointers into an array without end. -/
def pointer (β : Type) : OutputIterator (ℕ → β) ℕ β where
  assign m p u := Function.update m p u
  next p := p + 1
  iterate_next_ne p n := by
    rw [← Nat.succ_eq_add_one, Nat.succ_iterate]
    omega

/-- The memory and the position after `*(p++) = u` for each of the units. -/
def OutputIterator.write (o : OutputIterator μ π β) (d : μ × π) (us : List β) : μ × π :=
  us.foldl (fun d u => (o.assign d.1 d.2 u, o.next d.2)) d

theorem OutputIterator.write_append (o : OutputIterator μ π β) (d : μ × π) (us vs : List β) :
    o.write d (us ++ vs) = o.write (o.write d us) vs := List.foldl_append

/-- Every unit written moves the position on. -/
theorem OutputIterator.write_snd (o : OutputIterator μ π β) (d : μ × π) (us : List β) :
    (o.write d us).2 = o.next^[us.length] d.2 := by
  induction us generalizing d with
  | nil => rfl
  | cons u us ih => exact ih (o.assign d.1 d.2 u, o.next d.2)

/-- Only writing nothing leaves the position where it is. -/
theorem OutputIterator.write_snd_eq_iff (o : OutputIterator μ π β) (d : μ × π) (us : List β) :
    (o.write d us).2 = d.2 ↔ us = [] := by
  constructor
  · intro h
    cases us with
    | nil => rfl
    | cons u us =>
      rw [o.write_snd] at h
      exact absurd h (o.iterate_next_ne d.2 us.length)
  · rintro rfl
    rfl

/-! ### The adaptor -/

/-- What all copies of an adaptor share: the transcoder that they point to, and the memory. -/
structure Shared (σ μ : Type) where
  transcoder : σ
  memory : μ

/-- The members of `icubaby::iterator`, apart from the pointer to the transcoder. -/
structure Iterator (π : Type) where
  /-- The output iterator to which code units are written. -/
  out : π

section Adaptor

variable (t : Transcoder σ α β) (o : OutputIterator μ π β)

/-- `dest = (*transcoder_) (value, dest)` -/
def call (w : Shared σ μ) (dest : π) (value : α) : Shared σ μ × π :=
  let r := t.step w.transcoder value
  let d := o.write (w.memory, dest) r.2
  (⟨r.1, d.1⟩, d.2)

/-- `dest = transcoder_->end_cp (dest)` -/
def endCp (w : Shared σ μ) (dest : π) : Shared σ μ × π :=
  let r := t.finish w.transcoder
  let d := o.write (w.memory, dest) r.2
  (⟨r.1, d.1⟩, d.2)

namespace Iterator

/-- `base ()` -/
def base (it : Iterator π) : π := it.out

/-- `operator* ()` refers to the iterator itself. -/
def deref (it : Iterator π) : Iterator π := it

/-- `operator++ ()` -/
def preIncr (it : Iterator π) : Iterator π := it

/-- `operator++ (int)`: the value returned, which is a copy, and the iterator afterwards. -/
def postIncr (it : Iterator π) : Iterator π × Iterator π := (it, it)

/-- `operator= (value)` -/
def assign (w : Shared σ μ) (it : Iterator π) (value : α) : Shared σ μ × Iterator π :=
  let r := call t o w it.out value
  (r.1, ⟨r.2⟩)

/-- `it = t.end_cp (it)` -/
def endCp (w : Shared σ μ) (it : Iterator π) : Shared σ μ × Iterator π :=
  let r := Output.endCp t o w it.base
  (r.1, ⟨r.2⟩)

/-- `*it = x; ++it` -/
def putPre (s : Shared σ μ × Iterator π) (x : α) : Shared σ μ × Iterator π :=
  let r := s.2.deref.assign t o s.1 x
  (r.1, r.2.preIncr)

/-- `*(it++) = x`: the assignment is to the copy, which is then gone. -/
def putPost (s : Shared σ μ × Iterator π) (x : α) : Shared σ μ × Iterator π :=
  let r := s.2.postIncr
  ((r.1.deref.assign t o s.1 x).1, r.2)

end Iterator

/-- `dest = t (x, dest)` -/
def putDirect (s : Shared σ μ × π) (x : α) : Shared σ μ × π := call t o s.1 s.2 x

/-- The loops over `xs` that write with `*(it++) = x`, with `*it = x; ++it` and by direct calls,
from a fresh transcoder, leave the same memory and the same `base ()`, and they still do after
`end_cp`. -/
def Agrees (m : μ) (p : π) (xs : List α) : Prop :=
  let w : Shared σ μ := ⟨t.init, m⟩
  let post := xs.foldl (Iterator.putPost t o) (w, ⟨p⟩)
  let pre := xs.foldl (Iterator.putPre t o) (w, ⟨p⟩)
  let direct := xs.foldl (putDirect t o) (w, p)
  let post' := post.2.endCp t o post.1
  let pre' := pre.2.endCp t o pre.1
  let direct' := endCp t o direct.1 direct.2
  (post.1.memory = direct.1.memory ∧ post.2.base = direct.2) ∧
    (pre.1.memory = direct.1.memory ∧ pre.2.base = direct.2) ∧
    (post'.1.memory = direct'.1.memory ∧ post'.2.base = direct'.2) ∧
    pre'.1.memory = direct'.1.memory ∧ pre'.2.base = direct'.2

/-! ### The three loops -/

/-- Direct calls write one block after the other. -/
theorem foldl_putDirect (w : Shared σ μ) (p : π) (xs : List α) :
    xs.foldl (putDirect t o) (w, p) =
      (⟨(t.feed w.transcoder xs).1, (o.write (w.memory, p) (t.feed w.transcoder xs).2).1⟩,
        (o.write (w.memory, p) (t.feed w.transcoder xs).2).2) := by
  induction xs generalizing w p with
  | nil => rfl
  | cons x xs ih =>
    rw [List.foldl_cons, putDirect, call, ih, Transducer.feed_cons, o.write_append]

/-- `*it = x; ++it` is a direct call. -/
theorem foldl_putPre (w : Shared σ μ) (p : π) (xs : List α) :
    xs.foldl (Iterator.putPre t o) (w, ⟨p⟩) =
      ((xs.foldl (putDirect t o) (w, p)).1, ⟨(xs.foldl (putDirect t o) (w, p)).2⟩) := by
  induction xs generalizing w p with
  | nil => rfl
  | cons x xs ih => exact ih _ _

/-- `*(it++) = x` feeds the transcoder but leaves the iterator as it is. -/
theorem foldl_putPost (w : Shared σ μ) (p : π) (xs : List α) :
    (xs.foldl (Iterator.putPost t o) (w, ⟨p⟩)).1.transcoder = (t.feed w.transcoder xs).1 ∧
      (xs.foldl (Iterator.putPost t o) (w, ⟨p⟩)).2 = ⟨p⟩ ∧
      ((t.feed w.transcoder xs).2 = [] →
        (xs.foldl (Iterator.putPost t o) (w, ⟨p⟩)).1.memory = w.memory) := by
  induction xs generalizing w with
  | nil => exact ⟨rfl, rfl, fun _ => rfl⟩
  | cons x xs ih =>
    obtain ⟨htrans, hit, hmem⟩ := ih (Iterator.assign t o w ⟨p⟩ x).1
    refine ⟨htrans, hit, fun hnil => ?_⟩
    rw [Transducer.feed_cons, List.append_eq_nil_iff] at hnil
    have hstep : (Iterator.assign t o w ⟨p⟩ x).1.memory = w.memory := by
      simp only [Iterator.assign, call, hnil.1]
      rfl
    exact (hmem hnil.2).trans hstep

/-- **The idioms agree exactly as long as nothing has been written.** -/
theorem agrees_iff_feed (m : μ) (p : π) (xs : List α) :
    Agrees t o m p xs ↔ (t.feed t.init xs).2 = [] := by
  obtain ⟨htrans, hit, hmem⟩ := foldl_putPost t o ⟨t.init, m⟩ p xs
  have hdirect := foldl_putDirect t o ⟨t.init, m⟩ p xs
  have hpre := foldl_putPre t o ⟨t.init, m⟩ p xs
  constructor
  · rintro ⟨⟨-, hbase⟩, -⟩
    -- the position that the iterator has kept is the one that direct calls have moved on from
    rw [hit, hdirect] at hbase
    exact (o.write_snd_eq_iff (m, p) _).mp hbase.symm
  · intro hnil
    have hpost : xs.foldl (Iterator.putPost t o) (⟨t.init, m⟩, ⟨p⟩) =
        (⟨(t.feed t.init xs).1, m⟩, ⟨p⟩) := by
      generalize xs.foldl (Iterator.putPost t o) (⟨t.init, m⟩, ⟨p⟩) = s at htrans hit hmem
      obtain ⟨⟨state, memory⟩, it⟩ := s
      obtain rfl : memory = m := hmem hnil
      obtain rfl : state = (t.feed t.init xs).1 := htrans
      obtain rfl : it = ⟨p⟩ := hit
      rfl
    rw [hnil] at hdirect
    rw [hdirect] at hpre
    rw [Agrees, hpost, hpre, hdirect]
    exact ⟨⟨rfl, rfl⟩, ⟨rfl, rfl⟩, ⟨rfl, rfl⟩, rfl, rfl⟩

end Adaptor

end Output

/-! ### Inputs that write nothing -/

/-- The stream is the begin of a byte order mark, or what comes after the mark is the begin of one
code point. -/
def Framing.BeginsOne : Framing → Prop
  | detecting _ => True
  | utf8 p => CharType.char8.code.Pending p
  | utf16 e p => CharType.char16.code.Pending (e.assembler16.feed [] p).2
  | utf32 e p => CharType.char32.code.Pending (e.assembler32.feed [] p).2

theorem Framing.feed_tx_eq_nil_iff (T : CharType) (bytes : List UInt8) :
    ((tx T).feed (tx T).init bytes).2 = [] ↔ (ofBytes bytes).BeginsOne := by
  have h := holds_ofBytes T bytes
  cases hf : ofBytes bytes with
  | detecting seen =>
    rw [hf] at h
    exact iff_of_true h.2 trivial
  | utf8 p =>
    rw [hf] at h
    rw [h.2.2]
    exact feed_eq_nil_iff .char8 T p
  | utf16 e p =>
    rw [hf] at h
    rw [h.2.2.2]
    exact feed_eq_nil_iff .char16 T _
  | utf32 e p =>
    rw [hf] at h
    rw [h.2.2.2]
    exact feed_eq_nil_iff .char32 T _

/-- **The idioms for writing through `icubaby::iterator`** agree, for every transcoder and every
destination, exactly on the inputs that are the begin of one code point: nothing is written for
these before `end_cp`. -/
theorem agrees_iff (T : CharType) {μ π : Type} (o : Output.OutputIterator μ π T.Unit) (m : μ)
    (p : π) :
    (∀ (F : CharType) (us : List F.Unit),
      Output.Agrees (transcoder F T) o m p us ↔ F.code.Pending us) ∧
    ∀ bytes : List UInt8,
      Output.Agrees (tx T) o m p bytes ↔ (Framing.ofBytes bytes).BeginsOne := by
  refine ⟨fun F us => ?_, fun bytes => ?_⟩
  · rw [Output.agrees_iff_feed, feed_eq_nil_iff]
  · rw [Output.agrees_iff_feed, Framing.feed_tx_eq_nil_iff]

/-- Two ASCII characters in UTF-32: the second overwrites the first. -/
theorem not_agrees_ascii :
    ¬ Output.Agrees (transcoder .char32 .char32) (Output.pointer UInt32) (fun _ => 0) 0
      [0x41, 0x42] := by
  rintro ⟨⟨hmem, -⟩, -⟩
  exact absurd (congrFun hmem 0) (by decide)

end Icubaby
