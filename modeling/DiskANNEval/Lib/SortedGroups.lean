import Mathlib

/-!
# Lib.SortedGroups — groups in sorted order, on pages of one size

A list that is sorted by a key has its groups one behind the other.  When no group is larger than a
page, the groups are on a page each exactly when all but the last one fill theirs (`together_iff`).
-/

namespace DiskANNEval.Lib

open List Nat

section Sorted

variable {α : Type*} {key : α → ℕ} {l : List α}

theorem countP_bounds_of_sorted (h : l.Pairwise fun a b => key a ≤ key b) {p : ℕ} {x : α}
    (hp : l[p]? = some x) :
    l.countP (fun a => key a < key x) ≤ p ∧ p < l.countP (fun a => key a < key x + 1) := by
  induction l generalizing p with
  | nil => simp at hp
  | cons a l ih =>
    obtain ⟨hhead, htail⟩ := pairwise_cons.1 h
    cases p with
    | zero =>
      obtain rfl : a = x := by simpa using hp
      refine ⟨le_zero.2 (countP_eq_zero.2 fun b hb hlt => ?_), countP_pos_iff.2 ?_⟩
      · have hlt' := of_decide_eq_true hlt
        obtain rfl | hb := mem_cons.1 hb
        · exact lt_irrefl _ hlt'
        · exact absurd (hhead b hb) (not_le.2 hlt')
      · exact ⟨a, mem_cons_self, decide_eq_true (lt_succ_self _)⟩
    | succ p =>
      have hle := hhead x (mem_of_getElem? hp)
      obtain ⟨hbelow, habove⟩ := ih htail hp
      refine ⟨?_, ?_⟩
      · rw [countP_cons]
        split_ifs <;> omega
      · have hcount : decide (key a < key x + 1) = true := decide_eq_true (lt_succ_of_le hle)
        rw [countP_cons, if_pos hcount]
        exact succ_lt_succ habove

end Sorted

/-- How many of the first `n` have the key `k`. -/
def groupSize (key : ℕ → ℕ) (n k : ℕ) : ℕ := (List.range n).countP fun i => key i = k

/-- How many have a smaller key. -/
def below (key : ℕ → ℕ) (n k : ℕ) : ℕ := (List.range n).countP fun i => key i < k

variable {key : ℕ → ℕ} {n k m cap : ℕ} {l : List ℕ}

theorem below_zero : below key n 0 = 0 :=
  countP_eq_zero.2 fun i _ hi => not_lt_zero (key i) (of_decide_eq_true hi)

theorem below_succ : below key n (k + 1) = below key n k + groupSize key n k := by
  have hsplit : ∀ l : List ℕ, l.countP (fun i => key i < k + 1) =
      l.countP (fun i => key i < k) + l.countP fun i => key i = k := by
    intro l
    induction l with
    | nil => rfl
    | cons a l ih =>
      rw [countP_cons, countP_cons, countP_cons]
      simp only [decide_eq_true_eq]
      split_ifs <;> omega
  exact hsplit _

theorem below_mono {k' : ℕ} (h : k ≤ k') : below key n k ≤ below key n k' :=
  countP_mono_left fun _ _ hi => decide_eq_true ((of_decide_eq_true hi).trans_le h)

theorem below_eq (h : ∀ i < n, key i < m) : below key n m = n := by
  have hall : below key n m = (List.range n).length :=
    countP_eq_length.2 fun i hi => decide_eq_true (h i (List.mem_range.1 hi))
  rw [hall, length_range]

theorem below_add_le {d : ℕ} (h : ∀ j < k + d, groupSize key n j ≤ cap) :
    below key n (k + d) ≤ below key n k + d * cap := by
  induction d with
  | zero => exact le_add_right _ _
  | succ d ih =>
    have hprev := ih fun j hj => h j (lt_succ_of_lt hj)
    have hsize := h (k + d) (lt_succ_self _)
    rw [← Nat.add_assoc, below_succ, succ_mul]
    omega

theorem below_of_full (h : ∀ j < k, groupSize key n j = cap) : below key n k = k * cap := by
  induction k with
  | zero => rw [below_zero, zero_mul]
  | succ k ih =>
    rw [below_succ, ih fun j hj => h j (lt_succ_of_lt hj), h k (lt_succ_self k),
      succ_mul]

theorem below_eq_sum : below key n k = ∑ j ∈ Finset.range k, groupSize key n j := by
  induction k with
  | zero => exact below_zero
  | succ k ih => rw [below_succ, ih, Finset.sum_range_succ]

theorem idxOf_bounds (hl : l.Perm (List.range n)) (hsorted : l.Pairwise fun a b => key a ≤ key b)
    {i : ℕ} (hi : i < n) :
    below key n (key i) ≤ l.idxOf i ∧ l.idxOf i < below key n (key i + 1) := by
  have hmem : i ∈ l := hl.mem_iff.2 (List.mem_range.2 hi)
  have h := countP_bounds_of_sorted hsorted (getElem?_idxOf hmem)
  rwa [hl.countP_eq, hl.countP_eq] at h

theorem key_eq_of_idxOf (hl : l.Perm (List.range n))
    (hsorted : l.Pairwise fun a b => key a ≤ key b) {i : ℕ} (hi : i < n)
    (hle : below key n k ≤ l.idxOf i) (hlt : l.idxOf i < below key n (k + 1)) : key i = k := by
  obtain ⟨hlow, hhigh⟩ := idxOf_bounds hl hsorted hi
  obtain h | rfl | h := lt_trichotomy (key i) k
  · have hmono : below key n (key i + 1) ≤ below key n k := below_mono h
    omega
  · rfl
  · have hmono : below key n (k + 1) ≤ below key n (key i) := below_mono h
    omega

theorem exists_idxOf_eq (hl : l.Perm (List.range n)) {p : ℕ} (hp : p < n) :
    ∃ i < n, l.idxOf i = p := by
  have hlt : p < l.length := by rwa [hl.length_eq, length_range]
  have hnd : l.Nodup := hl.nodup_iff.2 nodup_range
  exact ⟨l[p], List.mem_range.1 (hl.mem_iff.1 (getElem_mem hlt)), hnd.idxOf_getElem p hlt⟩

/-- Each group is on one page exactly when all groups but the last one fill a page. -/
theorem together_iff (hcap : 0 < cap) (hl : l.Perm (List.range n))
    (hsorted : l.Pairwise fun a b => key a ≤ key b) (hsize : ∀ k < m, groupSize key n k ≤ cap)
    (hkey : ∀ i < n, key i < m) (hm : 0 < m → (m - 1) * cap < n) :
    (∀ i < n, ∀ j < n, key i = key j → l.idxOf i / cap = l.idxOf j / cap) ↔
      ∀ k, k + 1 < m → groupSize key n k = cap := by
  constructor
  · intro htogether
    by_contra hnot
    have hex : ∃ k, k + 1 < m ∧ groupSize key n k ≠ cap := by
      simpa only [not_forall, exists_prop] using hnot
    obtain ⟨hlt, hne⟩ := Nat.find_spec hex
    have hfull : ∀ j < Nat.find hex, groupSize key n j = cap := fun j hj =>
      not_not.1 fun h => Nat.find_min hex hj ⟨by omega, h⟩
    generalize Nat.find hex = k at hlt hne hfull
    -- the group behind the first one that is not full goes over the end of its page
    have hstart : below key n (k + 1) < (k + 1) * cap := by
      have hlt' : groupSize key n k < cap := lt_of_le_of_ne (hsize k (lt_of_succ_lt hlt)) hne
      rw [below_succ, below_of_full hfull, succ_mul]
      omega
    have hend : (k + 1) * cap < below key n (k + 1 + 1) := by
      obtain ⟨d, rfl⟩ : ∃ d, m = k + 1 + 1 + d := Nat.exists_eq_add_of_le hlt
      have hrest := below_add_le hsize
      have hall := below_eq hkey
      have hsum : (k + 1 + 1 + d - 1) * cap = (k + 1) * cap + d * cap := by
        rw [← add_mul]
        congr 1
        omega
      omega
    have hle : below key n (k + 1 + 1) ≤ n := (below_mono hlt).trans_eq (below_eq hkey)
    obtain ⟨i, hi, hpi⟩ := exists_idxOf_eq hl (show (k + 1) * cap - 1 < n by omega)
    obtain ⟨j, hj, hpj⟩ := exists_idxOf_eq hl (show (k + 1) * cap < n by omega)
    have hki : key i = k + 1 := key_eq_of_idxOf hl hsorted hi (by omega) (by omega)
    have hkj : key j = k + 1 := key_eq_of_idxOf hl hsorted hj (by omega) (by omega)
    have h := htogether i hi j hj (hki.trans hkj.symm)
    rw [hpi, hpj, Nat.mul_div_cancel _ hcap] at h
    have hdiv : ((k + 1) * cap - 1) / cap < k + 1 :=
      (div_lt_iff_lt_mul hcap).2 (by omega)
    omega
  · intro hfull
    have hpage : ∀ i < n, l.idxOf i / cap = key i := by
      intro i hi
      have hk := hkey i hi
      have hstart : below key n (key i) = key i * cap := below_of_full fun j hj => hfull j (by omega)
      obtain ⟨hlow, hhigh⟩ := idxOf_bounds hl hsorted hi
      have hend : l.idxOf i < (key i + 1) * cap := by
        have hgroup := hsize (key i) hk
        rw [below_succ] at hhigh
        rw [succ_mul]
        omega
      rw [hstart] at hlow
      exact Nat.div_eq_of_lt_le hlow hend
    intro i hi j hj hij
    rw [hpage i hi, hpage j hj, hij]

end DiskANNEval.Lib
