import Mathlib

/-!
# Lib.Filled — an array that is written cell by cell

Each cell is written to its index, in the order of a list.  Where no other cell has the index, the
value stays (`filled_of_mem`).  `flat_inj` is for an index made of a row and a column.
-/

namespace DiskANNEval.Lib

open List

variable {κ ι β : Type*} [DecidableEq ι]

/-- The cells are written over `t`. -/
def filled (t : ι → β) (cells : List κ) (idx : κ → ι) (val : κ → β) : ι → β :=
  cells.foldl (fun t k => Function.update t (idx k) (val k)) t

theorem filled_of_mem {t : ι → β} {cells : List κ} (idx : κ → ι) (val : κ → β) {a : κ}
    (ha : a ∈ cells) (hinj : ∀ k ∈ cells, idx k = idx a → k = a) :
    filled t cells idx val (idx a) = val a := by
  rw [filled]
  induction cells using reverseRecOn with
  | nil => exact absurd ha not_mem_nil
  | append_singleton cells k ih =>
    rw [foldl_append, foldl_cons, foldl_nil]
    by_cases hk : idx k = idx a
    · rw [hinj k (mem_append_right _ (mem_singleton_self k)) hk, Function.update_self]
    · rw [Function.update_of_ne (Ne.symm hk)]
      obtain ha | ha := mem_append.1 ha
      · exact ih ha fun k' hk' => hinj k' (mem_append_left _ hk')
      · exact absurd (congrArg idx (mem_singleton.1 ha)).symm hk

theorem filled_of_not_mem {t : ι → β} {cells : List κ} (idx : κ → ι) (val : κ → β) {i : ι}
    (hi : i ∉ cells.map idx) : filled t cells idx val i = t i := by
  rw [filled]
  induction cells generalizing t with
  | nil => rfl
  | cons k cells ih =>
    rw [map_cons, mem_cons, not_or] at hi
    rw [foldl_cons, ih hi.2, Function.update_of_ne hi.1]

theorem flat_inj {m i j i' j' : ℕ} (hj : j < m) (hj' : j' < m) (h : i * m + j = i' * m + j') :
    i = i' ∧ j = j' := by
  have hi : (i * m + j) / m = i := by
    rw [Nat.mul_comm, Nat.mul_add_div (by omega), Nat.div_eq_of_lt hj, Nat.add_zero]
  have hi' : (i' * m + j') / m = i' := by
    rw [Nat.mul_comm, Nat.mul_add_div (by omega), Nat.div_eq_of_lt hj', Nat.add_zero]
  rw [h, hi'] at hi
  subst hi
  exact ⟨rfl, Nat.add_left_cancel h⟩

theorem flat_lt {n m i j : ℕ} (hi : i < n) (hj : j < m) : i * m + j < n * m := by
  have h : (i + 1) * m ≤ n * m := Nat.mul_le_mul_right m hi
  rw [Nat.succ_mul] at h
  omega

end DiskANNEval.Lib
