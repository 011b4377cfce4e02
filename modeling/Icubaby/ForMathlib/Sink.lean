import Mathlib.Data.List.Basic

/-!
# Output iterators

A `Sink ω π β` is an output iterator over a world `ω`: a value `p : π` can be assigned to, which may
change `p` itself, and moved on by `++p` and by `p++`. A unit is put with one of two idioms,
`*p = u; ++p` or `*(p++) = u`.

The idioms differ if an assignment moves `p`, since the one to `p++` is made to a copy. They agree
for sinks that are `Stationary`, such as the `inserter` of a container, and then any mixture of them
writes the same (`Stationary.putAll_eq`).
-/

/-- What can be done with output iterators. -/
structure Sink (ω π β : Type*) where
  /-- `*p = u`: the world and `p` afterwards. -/
  assign : ω → π → β → ω × π
  /-- `++p` -/
  preIncr : π → π
  /-- `p++`: the value returned, and `p` afterwards. -/
  postIncr : π → π × π

namespace Sink

variable {ω π β : Type*}

/-- The two ways to put a unit and to move on. -/
inductive Idiom
  /-- `*p = u; ++p` -/
  | pre
  /-- `*(p++) = u` -/
  | post

section Put

variable (S : Sink ω π β)

/-- Puts one unit. -/
def put (d : ω × π) : Idiom → β → ω × π
  | .pre, u =>
    let r := S.assign d.1 d.2 u
    (r.1, S.preIncr r.2)
  | .post, u =>
    let r := S.postIncr d.2
    ((S.assign d.1 r.1 u).1, r.2)

/-- Puts the units of a list with `*(p++) = u`. -/
def write (d : ω × π) (us : List β) : ω × π := us.foldl (fun d u => S.put d .post u) d

/-- Puts units, each with an idiom of its own. -/
def putAll (d : ω × π) (us : List (Idiom × β)) : ω × π :=
  us.foldl (fun d u => S.put d u.1 u.2) d

theorem write_append (d : ω × π) (us vs : List β) :
    S.write d (us ++ vs) = S.write (S.write d us) vs := List.foldl_append

end Put

/-- The iterators stay where they are. -/
structure Stationary (S : Sink ω π β) : Prop where
  assign_snd (w p u) : (S.assign w p u).2 = p
  preIncr_eq (p) : S.preIncr p = p
  postIncr_eq (p) : S.postIncr p = (p, p)

namespace Stationary

variable {S : Sink ω π β}

theorem put_eq (h : S.Stationary) (d : ω × π) (i : Idiom) (u : β) :
    S.put d i u = ((S.assign d.1 d.2 u).1, d.2) := by
  cases i with
  | pre => rw [put, h.assign_snd, h.preIncr_eq]
  | post => rw [put, h.postIncr_eq]

theorem write_snd (h : S.Stationary) (d : ω × π) (us : List β) : (S.write d us).2 = d.2 := by
  induction us generalizing d with
  | nil => rfl
  | cons u us ih =>
    rw [write, List.foldl_cons, h.put_eq]
    exact ih _

/-- **The idiom makes no difference.** -/
theorem putAll_eq (h : S.Stationary) (d : ω × π) (us : List (Idiom × β)) :
    S.putAll d us = S.write d (us.map Prod.snd) := by
  induction us generalizing d with
  | nil => rfl
  | cons u us ih =>
    rw [List.map_cons, putAll, List.foldl_cons, write, List.foldl_cons, h.put_eq, h.put_eq]
    exact ih _

end Stationary

/-- The iterators that append to a list. -/
def inserter (β : Type*) : Sink (List β) Unit β where
  assign w p u := (w ++ [u], p)
  preIncr p := p
  postIncr p := (p, p)

theorem stationary_inserter : (inserter β).Stationary where
  assign_snd _ _ _ := rfl
  preIncr_eq _ := rfl
  postIncr_eq _ := rfl

theorem write_inserter (d : List β × Unit) (us : List β) :
    (inserter β).write d us = (d.1 ++ us, ()) := by
  induction us generalizing d with
  | nil => rw [List.append_nil]; rfl
  | cons u us ih =>
    rw [write, List.foldl_cons, stationary_inserter.put_eq]
    refine (ih _).trans ?_
    rw [inserter, List.append_assoc]
    rfl

end Sink
