import Mathlib

/-!
# Lib.Packed — marked elements that are moved together

`packed P N a` is the array `a` after one pass over its first `N` places that moves the element at
each marked place to the number of the marks before it.  A pass in this direction overwrites only
places that it has left behind.  The elements of a list that stay in a `filter` have the same numbers
there.
-/

namespace DiskANNEval.Lib

open List

variable {α : Type*} {P : ℕ → Prop} [DecidablePred P]

theorem exists_count_eq {N n : ℕ} (h : n < Nat.count P N) : ∃ i < N, P i ∧ Nat.count P i = n := by
  induction N with
  | zero => exact absurd h (by simp)
  | succ N ih =>
    rw [Nat.count_succ] at h
    by_cases hn : n < Nat.count P N
    · obtain ⟨i, hi, hP, hc⟩ := ih hn
      exact ⟨i, hi.trans (Nat.lt_succ_self N), hP, hc⟩
    · split_ifs at h with hP
      · exact ⟨N, Nat.lt_succ_self N, hP, by omega⟩
      · omega

variable (P) in
/-- The body of the pass. -/
def packStep (a : ℕ → α) (i : ℕ) : ℕ → α :=
  if P i then Function.update a (Nat.count P i) (a i) else a

variable (P) in
def packed (N : ℕ) (a : ℕ → α) : ℕ → α := (List.range N).foldl (packStep P) a

/-- The elements at the marked places before `N` are moved, and the others are in their places. -/
theorem packed_spec (N : ℕ) (a : ℕ → α) :
    (∀ i < N, P i → packed P N a (Nat.count P i) = a i) ∧ ∀ j, N ≤ j → packed P N a j = a j := by
  induction N with
  | zero => exact ⟨fun i hi => absurd hi (Nat.not_lt_zero i), fun _ _ => rfl⟩
  | succ N ih =>
    obtain ⟨hdone, hrest⟩ := ih
    have hstep : packed P (N + 1) a = packStep P (packed P N a) N := by
      rw [packed, range_succ, foldl_append]
      rfl
    rw [hstep]
    unfold packStep
    split_ifs with hN
    · refine ⟨fun i hi hP => ?_, fun j hj => ?_⟩
      · by_cases he : i = N
        · rw [he, Function.update_self]
          exact hrest N le_rfl
        · have hne : Nat.count P i ≠ Nat.count P N := fun h => he (Nat.count_injective hP hN h)
          rw [Function.update_of_ne hne]
          exact hdone i (by omega) hP
      · have hle : Nat.count P N ≤ N := Nat.count_le _
        rw [Function.update_of_ne (by omega)]
        exact hrest j (by omega)
    · refine ⟨fun i hi hP => ?_, fun j hj => hrest j (by omega)⟩
      have hne : i ≠ N := by
        rintro rfl
        exact hN hP
      exact hdone i (by omega) hP

theorem packed_count {N i : ℕ} (a : ℕ → α) (hi : i < N) (hP : P i) :
    packed P N a (Nat.count P i) = a i :=
  (packed_spec N a).1 i hi hP

/-! ### The places of a filtered list -/

section Filter

variable {l : List α} {q : α → Bool} (hP : ∀ i, P i ↔ ∃ x, l[i]? = some x ∧ q x = true)

include hP

theorem count_eq_length_filter_take (i : ℕ) : Nat.count P i = ((l.take i).filter q).length := by
  induction i with
  | zero => simp
  | succ i ih =>
    rw [Nat.count_succ, ih, take_add_one]
    rcases hx : l[i]? with _ | x
    · rw [if_neg]
      · simp
      · rw [hP, hx]
        simp
    · by_cases hq : q x = true
      · rw [if_pos ((hP i).2 ⟨x, hx, hq⟩)]
        simp [hq]
      · rw [if_neg]
        · simp [hq]
        · rw [hP, hx]
          simpa using hq

theorem count_eq_length_filter {N : ℕ} (hN : l.length ≤ N) : Nat.count P N = (l.filter q).length := by
  rw [count_eq_length_filter_take hP, take_of_length_le hN]

theorem getElem?_filter_count {i : ℕ} {x : α} (hx : l[i]? = some x) (hq : q x = true) :
    (l.filter q)[Nat.count P i]? = some x := by
  have hi : i < l.length := (List.getElem?_eq_some_iff.1 hx).1
  have hsplit : l.filter q = (l.take i).filter q ++ x :: (l.drop (i + 1)).filter q := by
    conv_lhs => rw [← take_append_drop i l, filter_append, drop_eq_getElem_cons hi]
    rw [(List.getElem?_eq_some_iff.1 hx).2, filter_cons_of_pos hq]
  rw [hsplit, count_eq_length_filter_take hP, getElem?_append_right le_rfl, Nat.sub_self]
  rfl

theorem exists_count_of_getElem?_filter {j : ℕ} {x : α} (hx : (l.filter q)[j]? = some x) :
    ∃ i, l[i]? = some x ∧ q x = true ∧ Nat.count P i = j := by
  have hj : j < Nat.count P l.length := by
    rw [count_eq_length_filter hP le_rfl]
    exact (List.getElem?_eq_some_iff.1 hx).1
  obtain ⟨i, -, hi, hcount⟩ := exists_count_eq hj
  obtain ⟨y, hy, hq⟩ := (hP i).1 hi
  have hyx := getElem?_filter_count hP hy hq
  rw [hcount, hx, Option.some.injEq] at hyx
  exact ⟨i, hyx ▸ hy, hyx ▸ hq, hcount⟩

end Filter

end DiskANNEval.Lib
