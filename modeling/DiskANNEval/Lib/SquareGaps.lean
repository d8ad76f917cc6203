import Mathlib

/-!
# Lib.SquareGaps — sums of squared differences

The sum of `(v x - v y) ^ 2` over a list of pairs determines the list, up to its order, the order in
each pair, and the pairs of a point with itself (`gapSum_eq_iff`).
-/

namespace DiskANNEval.Lib

open List

variable {α : Type*} [DecidableEq α]

def gapSum (v : α → ℚ) (l : List (α × α)) : ℚ := (l.map fun p => (v p.1 - v p.2) ^ 2).sum

/-- The pairs of two points, unordered. -/
def realPairs (l : List (α × α)) : List (Sym2 α) :=
  (l.map fun p => s(p.1, p.2)).filter fun z => ¬ z.IsDiag

/-- The square of a pair. -/
def squareGap (v : α → ℚ) : Sym2 α → ℚ :=
  Sym2.lift ⟨fun x y => (v x - v y) ^ 2, fun x y => by ring⟩

theorem gapSum_eq_realPairs (v : α → ℚ) (l : List (α × α)) :
    gapSum v l = ((realPairs l).map (squareGap v)).sum := by
  induction l with
  | nil => rfl
  | cons p l ih =>
    rw [gapSum, realPairs, map_cons, map_cons, filter_cons, sum_cons]
    rw [gapSum, realPairs] at ih
    by_cases hp : p.1 = p.2
    · rw [if_neg (by simpa using hp), ← ih, hp]
      ring
    · rw [if_pos (by simpa using hp), map_cons, sum_cons, ← ih]
      rfl

/-- One at `x`. -/
def bump (x : α) : α → ℚ := fun a => if a = x then 1 else 0

theorem bump_gap {x y : α} (hne : x ≠ y) (a b : α) :
    (bump x a - bump x b) ^ 2 + (bump y a - bump y b) ^ 2 -
      (bump x a + bump y a - (bump x b + bump y b)) ^ 2 = if s(a, b) = s(x, y) then 2 else 0 := by
  have hiff : s(a, b) = s(x, y) ↔ a = x ∧ b = y ∨ a = y ∧ b = x := Sym2.eq_iff
  rw [bump, bump, bump, bump]
  by_cases hax : a = x <;> by_cases hay : a = y <;> by_cases hbx : b = x <;> by_cases hby : b = y
  all_goals
    simp_all
  all_goals norm_num

theorem count_realPairs {x y : α} (hne : x ≠ y) (l : List (α × α)) :
    gapSum (bump x) l + gapSum (bump y) l - gapSum (fun a => bump x a + bump y a) l =
      2 * ((realPairs l).count s(x, y) : ℚ) := by
  rw [realPairs, count_filter (by simpa using hne)]
  induction l with
  | nil => simp [gapSum]
  | cons p l ih =>
    have hp := bump_gap hne p.1 p.2
    rw [gapSum, gapSum, gapSum] at ih ⊢
    rw [map_cons, map_cons, map_cons, sum_cons, sum_cons, sum_cons,
      map_cons, count_cons]
    by_cases heq : s(p.1, p.2) = s(x, y)
    · rw [if_pos heq] at hp
      rw [if_pos (by simpa using heq)]
      push_cast
      linarith
    · rw [if_neg heq] at hp
      rw [if_neg (by simpa using heq)]
      push_cast
      linarith

theorem gapSum_eq_iff {l l' : List (α × α)} :
    (∀ v, gapSum v l = gapSum v l') ↔ (realPairs l).Perm (realPairs l') := by
  constructor
  · intro h
    rw [perm_iff_count]
    intro z
    induction z with
    | _ x y =>
      by_cases hxy : x = y
      · have hnot : ∀ m : List (α × α), s(x, y) ∉ realPairs m := by
          intro m hm
          exact absurd hxy (by simpa using (mem_filter.1 hm).2)
        rw [count_eq_zero_of_not_mem (hnot l), count_eq_zero_of_not_mem (hnot l')]
      · have hl := count_realPairs hxy l
        rw [h, h, h, count_realPairs hxy l'] at hl
        have hcast := mul_left_cancel₀ (two_ne_zero) hl
        exact_mod_cast hcast.symm
  · intro h v
    rw [gapSum_eq_realPairs, gapSum_eq_realPairs]
    exact (h.map _).sum_eq

end DiskANNEval.Lib
