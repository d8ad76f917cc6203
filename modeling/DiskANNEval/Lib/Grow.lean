import Mathlib.Data.List.GetD

/-!
# Lib.Grow — vectors that are resized before a write

`grow xs n d` is `std::vector::resize` (and `dynamic_bitset::resize`) when it only ever makes the
vector longer: the new cells hold `d`.
-/

namespace DiskANNEval.Lib

open List

variable {α : Type*}

/-- `xs` made at least `n` long, the new cells holding `d`. -/
def grow (xs : List α) (n : ℕ) (d : α) : List α := xs ++ List.replicate (n - xs.length) d

variable {xs : List α} {n i : ℕ}

@[simp] theorem length_grow (xs : List α) (n : ℕ) (d : α) : (grow xs n d).length = max xs.length n := by
  simp only [grow, List.length_append, List.length_replicate]
  omega

theorem grow_of_le (h : n ≤ xs.length) (d : α) : grow xs n d = xs := by
  simp [grow, Nat.sub_eq_zero_of_le h]

variable {d : α}

theorem getElem?_grow_of_lt (h : i < xs.length) : (grow xs n d)[i]? = xs[i]? := by
  rw [grow, getElem?_append_left h]

theorem getElem?_grow_new (h : xs.length ≤ i) (hn : i < n) : (grow xs n d)[i]? = some d := by
  rw [grow, getElem?_append_right h, getElem?_replicate, if_pos (by omega)]

theorem getElem?_grow_eq_some_iff {v : α} (hv : v ≠ d) :
    (grow xs n d)[i]? = some v ↔ xs[i]? = some v := by
  by_cases h : i < xs.length
  · rw [getElem?_grow_of_lt h]
  · rw [getElem?_eq_none (l := xs) (by omega)]
    by_cases hn : i < n
    · rw [getElem?_grow_new (by omega) hn]
      simp [Ne.symm hv]
    · rw [getElem?_eq_none (by rw [length_grow]; omega)]

theorem count_grow [BEq α] [LawfulBEq α] (xs : List α) (n : ℕ) {v : α} (hv : v ≠ d) :
    (grow xs n d).count v = xs.count v := by
  rw [grow, count_append, count_replicate]
  have : (d == v) = false := by simpa using Ne.symm hv
  simp [this]

end DiskANNEval.Lib
