import Mathlib.Data.List.Basic

/-!
# Lib.Upto — the elements up to the `n`-th one of a kind

`upto p n l` ends with the `n`-th element that meets `p`; when there are fewer, it is the whole
list.  What lies behind has no part in it (`upto_append`), also when an element is put into the
list: the same is left when it is put into `upto p n l` only (`upto_place`).
-/

namespace DiskANNEval.Lib

open List

variable {α : Type*} (p : α → Bool)

def upto : ℕ → List α → List α
  | 0, _ => []
  | _ + 1, [] => []
  | n + 1, a :: l => a :: upto (if p a then n else n + 1) l

variable {p} {n : ℕ} {l l' : List α}

theorem upto_append (h : n ≤ l.countP p) : upto p n (l ++ l') = upto p n l := by
  induction l generalizing n with
  | nil =>
    obtain rfl := Nat.le_zero.1 h
    cases l' with
    | nil => rfl
    | cons a l' => rfl
  | cons a l ih =>
    cases n with
    | zero => rfl
    | succ n =>
      rw [cons_append, upto, upto, ih]
      rw [countP_cons] at h
      split_ifs at h ⊢
      all_goals omega

theorem upto_of_lt (h : l.countP p < n) : upto p n l = l := by
  induction l generalizing n with
  | nil =>
    cases n with
    | zero => rfl
    | succ n => rfl
  | cons a l ih =>
    cases n with
    | zero => omega
    | succ n =>
      rw [upto, ih]
      rw [countP_cons] at h
      split_ifs at h ⊢
      all_goals omega

theorem upto_of_length_le (h : l.length ≤ n) : upto p n l = l := by
  induction l generalizing n with
  | nil =>
    cases n with
    | zero => rfl
    | succ n => rfl
  | cons a l ih =>
    cases n with
    | zero => exact absurd h (by simp)
    | succ n =>
      rw [length_cons] at h
      rw [upto, ih]
      split_ifs
      all_goals omega

theorem exists_upto_append (p : α → Bool) (n : ℕ) (l : List α) :
    ∃ rest, l = upto p n l ++ rest := by
  induction l generalizing n with
  | nil =>
    refine ⟨[], ?_⟩
    cases n with
    | zero => rfl
    | succ n => rfl
  | cons a l ih =>
    cases n with
    | zero => exact ⟨a :: l, rfl⟩
    | succ n =>
      obtain ⟨rest, hrest⟩ := ih (if p a then n else n + 1)
      refine ⟨rest, ?_⟩
      rw [upto, cons_append, ← hrest]

theorem countP_upto (h : n ≤ l.countP p) : (upto p n l).countP p = n := by
  induction l generalizing n with
  | nil =>
    obtain rfl := Nat.le_zero.1 h
    rfl
  | cons a l ih =>
    cases n with
    | zero => rfl
    | succ n =>
      rw [countP_cons] at h
      rw [upto, countP_cons, ih]
      all_goals
        split_ifs at h ⊢
        all_goals omega

theorem upto_eq_of_front (hpre : l' <+: l) (h : n ≤ l'.countP p) : upto p n l = upto p n l' := by
  obtain ⟨rest, rfl⟩ := hpre
  exact upto_append h

theorem upto_place (p : α → Bool) (n i : ℕ) (l : List α) (x : α) :
    upto p n (l.take i ++ x :: l.drop i) =
      upto p n ((upto p n l).take i ++ x :: (upto p n l).drop i) := by
  by_cases hn : l.countP p < n
  · rw [upto_of_lt hn]
  obtain ⟨rest, hrest⟩ := exists_upto_append p n l
  have hcount : (upto p n l).countP p = n := countP_upto (Nat.not_lt.1 hn)
  generalize upto p n l = u at hrest hcount
  subst hrest
  by_cases hi : i ≤ u.length
  · have hpre : u.take i ++ x :: u.drop i <+: (u ++ rest).take i ++ x :: (u ++ rest).drop i := by
      refine ⟨rest, ?_⟩
      rw [take_append_of_le_length hi, drop_append_of_le_length hi, append_assoc,
        cons_append]
    refine upto_eq_of_front hpre ?_
    rw [countP_append, countP_cons, ← Nat.add_assoc, ← countP_append,
      take_append_drop, hcount]
    exact Nat.le_add_right _ _
  · -- behind the prefix
    have hlen : u.length ≤ i := Nat.le_of_lt (Nat.lt_of_not_le hi)
    have hleft : u <+: (u ++ rest).take i ++ x :: (u ++ rest).drop i := by
      rw [take_append, take_of_length_le hlen, append_assoc]
      exact prefix_append _ _
    have hright : u <+: u.take i ++ x :: u.drop i := by
      rw [take_of_length_le hlen]
      exact prefix_append _ _
    have hn := Nat.le_of_eq hcount.symm
    rw [upto_eq_of_front hleft hn, upto_eq_of_front hright hn]

end DiskANNEval.Lib
