import Mathlib.Order.Lattice
import Mathlib.Tactic.SplitIfs

/-!
# Lib.LowerBound — `std::lower_bound`

`lowerBound lt fuel first len` halves the `len` positions from `first` on; `lt i` says that the
element at `i` comes before the value.  Where the elements that come before are all in front, it
returns the first of the others (`lowerBound_eq`).  The search is exact on its own elements only if
they ascend (`lt_of_lowerBound`).
-/

namespace DiskANNEval.Lib

def lowerBound (lt : ℕ → Bool) : ℕ → ℕ → ℕ → ℕ
  | 0, first, _ => first
  | fuel + 1, first, len =>
    if len = 0 then first
    else if lt (first + len / 2) then
      lowerBound lt fuel (first + len / 2 + 1) (len - len / 2 - 1)
    else lowerBound lt fuel first (len / 2)

variable {lt : ℕ → Bool} {fuel first len p : ℕ}

theorem lowerBound_eq (hfuel : len ≤ fuel) (hp : first ≤ p) (hp' : p ≤ first + len)
    (hlt : ∀ i, first ≤ i → i < p → lt i = true)
    (hge : ∀ i, p ≤ i → i < first + len → lt i = false) : lowerBound lt fuel first len = p := by
  induction fuel generalizing first len with
  | zero =>
    rw [lowerBound]
    omega
  | succ fuel ih =>
    rw [lowerBound]
    split_ifs with hlen hmid
    · omega
    · have hpm : first + len / 2 < p := by
        by_contra hle
        rw [hge _ (by omega) (by omega)] at hmid
        cases hmid
      exact ih (by omega) (by omega) (by omega) (fun i h1 h2 => hlt i (by omega) h2)
        fun i h1 h2 => hge i h1 (by omega)
    · have hpm : p ≤ first + len / 2 := by
        by_contra hgt
        exact hmid (hlt _ (by omega) (by omega))
      exact ih (by omega) hp hpm hlt fun i h1 h2 => hge i h1 (by omega)

theorem le_lowerBound : first ≤ lowerBound lt fuel first len := by
  induction fuel generalizing first len with
  | zero => exact le_rfl
  | succ fuel ih =>
    rw [lowerBound]
    split_ifs
    · exact le_rfl
    · exact le_trans (by omega) ih
    · exact ih

theorem lowerBound_le : lowerBound lt fuel first len ≤ first + len := by
  induction fuel generalizing first len with
  | zero => exact Nat.le_add_right _ _
  | succ fuel ih =>
    rw [lowerBound]
    split_ifs
    · exact Nat.le_add_right _ _
    · exact ih.trans (by omega)
    · exact ih.trans (by omega)

theorem lt_pred_lowerBound (h : first < lowerBound lt fuel first len) :
    lt (lowerBound lt fuel first len - 1) = true := by
  induction fuel generalizing first len with
  | zero => exact absurd h (lt_irrefl _)
  | succ fuel ih =>
    rw [lowerBound] at h ⊢
    split_ifs at h ⊢ with hlen hmid
    · exact absurd h (lt_irrefl _)
    · have hle : first + len / 2 + 1 ≤
          lowerBound lt fuel (first + len / 2 + 1) (len - len / 2 - 1) := le_lowerBound
      obtain he | hlt := hle.eq_or_lt
      · rw [← he]
        exact hmid
      · exact ih hlt
    · exact ih h

theorem lt_of_lowerBound {α : Type*} [LinearOrder α] {xs : ℕ → α} (hfuel : len ≤ fuel)
    (h : ∀ k, first ≤ k → k < first + len →
      lowerBound (fun i => decide (xs i < xs k)) fuel first len = k)
    {i j : ℕ} (hi : first ≤ i) (hij : i < j) (hj : j < first + len) : xs i < xs j := by
  induction fuel generalizing first len i j with
  | zero => omega
  | succ fuel ih =>
    have hlen : len ≠ 0 := by omega
    -- the values behind the middle are greater, the others are not
    have hright : ∀ k, first + len / 2 < k → k < first + len →
        xs (first + len / 2) < xs k ∧ lowerBound (fun i => decide (xs i < xs k)) fuel
          (first + len / 2 + 1) (len - len / 2 - 1) = k := by
      intro k h1 h2
      have hk := h k (by omega) h2
      rw [lowerBound, if_neg hlen] at hk
      split_ifs at hk with hmid
      · exact ⟨of_decide_eq_true hmid, hk⟩
      · have hle : lowerBound (fun i => decide (xs i < xs k)) fuel first (len / 2) ≤
          first + len / 2 := lowerBound_le
        omega
    have hleft : ∀ k, first ≤ k → k ≤ first + len / 2 →
        lowerBound (fun i => decide (xs i < xs k)) fuel first (len / 2) = k := by
      intro k h1 h2
      have hk := h k h1 (by omega)
      rw [lowerBound, if_neg hlen] at hk
      split_ifs at hk with hmid
      · have hle : first + len / 2 + 1 ≤ lowerBound (fun i => decide (xs i < xs k)) fuel
          (first + len / 2 + 1) (len - len / 2 - 1) := le_lowerBound
        omega
      · exact hk
    have hbelow : ∀ a b, first ≤ a → a < b → b < first + len / 2 → xs a < xs b :=
      fun a b h1 h2 h3 => ih (by omega) (fun k hk1 hk2 => hleft k hk1 (by omega)) h1 h2 h3
    have habove : ∀ a b, first + len / 2 < a → a < b → b < first + len → xs a < xs b :=
      fun a b h1 h2 h3 => @ih (first + len / 2 + 1) (len - len / 2 - 1) (by omega)
        (fun k hk1 hk2 => (hright k hk1 (by omega)).2) a b h1 h2 (by omega)
    have hmid : ∀ a, first ≤ a → a < first + len / 2 → xs a < xs (first + len / 2) := by
      intro a h1 h2
      have he := hleft _ (by omega) le_rfl
      have hpos : first <
          lowerBound (fun i => decide (xs i < xs (first + len / 2))) fuel first (len / 2) := by
        omega
      have hlast := lt_pred_lowerBound hpos
      rw [he] at hlast
      have hlast' := of_decide_eq_true hlast
      obtain rfl | hlt := eq_or_lt_of_le (show a ≤ first + len / 2 - 1 by omega)
      · exact hlast'
      · exact (hbelow a _ h1 hlt (by omega)).trans hlast'
    obtain hjm | rfl | hjm := lt_trichotomy j (first + len / 2)
    · exact hbelow i j hi hij hjm
    · exact hmid i hi hij
    · obtain him | rfl | him := lt_trichotomy i (first + len / 2)
      · exact (hmid i hi him).trans (hright j hjm hj).1
      · exact (hright j hjm hj).1
      · exact habove i j him hij hj

end DiskANNEval.Lib
