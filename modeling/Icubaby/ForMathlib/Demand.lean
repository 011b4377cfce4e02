import Icubaby.ForMathlib.Transducer
import Mathlib.Order.Bounds.Basic

/-!
# The input that a symbol of the output needs

A consumer that wants more than `n` symbols of output has to let a transducer read some of its
input. `Transducer.demand` is the least number of symbols to read before the flush, and
`Transducer.demand_of_pulls` says that the pulls read no more than that: a symbol of the output
belongs to the pull that first needs the input it is written for.

`Transducer.consumed` is the state in which a consumer that has pulled so much finds the machine.
-/

namespace Transducer

variable {σ α β : Type*} (T : Transducer σ α β)

/-- The number of symbols to be read until more than `n` have been written: all of them if the flush
is needed, or if there is not so much output. -/
def demand (s : σ) (n : ℕ) : List α → ℕ
  | [] => 0
  | x :: xs =>
    let r := T.step s x
    if n < r.2.length then 1 else demand r.1 (n - r.2.length) xs + 1

/-- The state after `k` symbols of a list, and after the flush if that is the whole list. -/
def consumed (xs : List α) (k : ℕ) : σ :=
  if k < xs.length then (T.feed T.init (xs.take k)).1 else (T.run xs).1

variable {T}

theorem demand_cons (s : σ) (n : ℕ) (x : α) (xs : List α) :
    T.demand s n (x :: xs) = if n < (T.step s x).2.length then 1
      else T.demand (T.step s x).1 (n - (T.step s x).2.length) xs + 1 := rfl

/-- **The demand is a least number**: that of the symbols to be read before the flush. -/
theorem isLeast_demand (s : σ) (n : ℕ) (xs : List α) :
    IsLeast {k | n < (T.feed s (xs.take k)).2.length ∨ k = xs.length} (T.demand s n xs) := by
  induction xs generalizing s n with
  | nil => exact ⟨.inr rfl, fun _ _ => Nat.zero_le _⟩
  | cons x xs ih =>
    have hlen (k : ℕ) : (T.feed s ((x :: xs).take (k + 1))).2.length =
        (T.step s x).2.length + (T.feed (T.step s x).1 (xs.take k)).2.length := by
      rw [List.take_succ_cons, feed_cons, List.length_append]
    obtain ⟨hmem, hlower⟩ := ih (T.step s x).1 (n - (T.step s x).2.length)
    rw [demand_cons]
    constructor
    · change _ ∨ _
      split_ifs with hlt
      · left
        rw [hlen]
        exact Nat.lt_add_right _ hlt
      · rw [hlen]
        rcases hmem with hmem | hmem
        · left
          omega
        · exact .inr (congrArg Nat.succ hmem)
    · rintro (_ | k) hk
      · -- before the first symbol nothing has been written
        simp at hk
      · split_ifs with hlt
        · exact Nat.le_add_left 1 k
        · refine Nat.succ_le_succ (hlower ?_)
          rcases hk with hk | hk
          · rw [hlen] at hk
            exact .inl (by omega)
          · exact .inr (Nat.succ.inj hk)

/-- Symbols whose output is wanted are read. -/
theorem demand_append {s s' : σ} {zs : List α} {out : List β} {n : ℕ} (xs : List α)
    (hzs : T.feed s zs = (s', out)) (hn : out.length ≤ n) :
    T.demand s n (zs ++ xs) = zs.length + T.demand s' (n - out.length) xs := by
  induction zs generalizing s out n with
  | nil =>
    obtain ⟨rfl, rfl⟩ := Prod.mk.inj hzs
    exact (Nat.zero_add _).symm
  | cons z zs ih =>
    rw [feed_cons] at hzs
    obtain ⟨hstate, rfl⟩ := Prod.mk.inj hzs
    rw [List.length_append] at hn
    have hrest : T.feed (T.step s z).1 zs = (s', (T.feed (T.step s z).1 zs).2) :=
      Prod.ext hstate rfl
    have hle : (T.feed (T.step s z).1 zs).2.length ≤ n - (T.step s z).2.length := by omega
    rw [List.cons_append, demand_cons, if_neg (by omega), ih hrest hle,
      List.length_append, List.length_cons, Nat.sub_sub]
    exact Nat.add_right_comm _ _ 1

/-- **A pull reads what is needed** for each symbol that it yields. -/
theorem demand_of_pulls {s : σ} {xs : List α} {pre post : List (List α × List β)}
    {g : List α × List β} (h : T.pulls s xs = pre ++ g :: post) {i : ℕ} (hi : i < g.2.length) :
    T.demand s ((pre.flatMap Prod.snd).length + i) xs =
      (pre.flatMap Prod.fst).length + g.1.length := by
  induction s, xs using pulls_induction (T := T) generalizing pre with
  | nil s => simp [pulls] at h
  | pull s s' zs x ws hzs hx ih =>
    rw [pulls_append_cons hzs hx] at h
    cases pre with
    | nil =>
      obtain ⟨rfl, -⟩ := List.cons.inj h
      rw [demand_append _ hzs (Nat.zero_le _), demand_cons]
      dsimp only at hi
      cases ws with
      | nil => simp [demand]
      | cons w ws =>
        rw [wrote] at hi
        simp [hi]
    | cons g₀ pre =>
      obtain ⟨rfl, hrest⟩ := List.cons.inj h
      have hws : ws ≠ [] := by
        rintro rfl
        simp [pulls] at hrest
      obtain ⟨w, ws, rfl⟩ := List.exists_cons_of_ne_nil hws
      have hfeed : T.feed s (zs ++ [x]) = ((T.step s' x).1, T.wrote s' x (w :: ws)) := by
        rw [feed_append, hzs, feed_singleton]
        rfl
      have hsplit : zs ++ x :: w :: ws = (zs ++ [x]) ++ w :: ws := by simp
      rw [hsplit, demand_append _ hfeed (by simp; omega)]
      simp only [List.flatMap_cons, List.length_append, Nat.add_assoc, Nat.add_sub_cancel_left,
        ih hrest]

/-- **Each symbol of the output** belongs to a pull. -/
theorem exists_pull {s : σ} {xs : List α} (hxs : xs ≠ []) {n : ℕ}
    (hn : n < (T.runFrom s xs).2.length) :
    ∃ pre g post i, T.pulls s xs = pre ++ g :: post ∧ n = (pre.flatMap Prod.snd).length + i ∧
      i < g.2.length := by
  rw [← flatMap_snd_pulls s hxs] at hn
  generalize T.pulls s xs = gs at hn
  induction gs generalizing n with
  | nil => exact absurd hn (Nat.not_lt_zero n)
  | cons g gs ih =>
    rw [List.flatMap_cons, List.length_append] at hn
    by_cases hlt : n < g.2.length
    · exact ⟨[], g, gs, n, rfl, (Nat.zero_add n).symm, hlt⟩
    · obtain ⟨pre, g', post, i, rfl, heq, hi⟩ := ih (n := n - g.2.length) (by omega)
      refine ⟨g :: pre, g', post, i, rfl, ?_, hi⟩
      rw [List.flatMap_cons, List.length_append]
      omega

/-- What is not written is never reached. -/
theorem demand_of_length_le {s : σ} {n : ℕ} {xs : List α} (h : (T.feed s xs).2.length ≤ n) :
    T.demand s n xs = xs.length := by
  rcases (isLeast_demand (T := T) s n xs).1 with hlt | hend
  · have hfeed := T.feed_append s (xs.take (T.demand s n xs)) (xs.drop (T.demand s n xs))
    rw [List.take_append_drop] at hfeed
    rw [hfeed, List.length_append] at h
    omega
  · exact hend

end Transducer
