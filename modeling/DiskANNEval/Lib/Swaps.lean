import Mathlib.Algebra.BigOperators.Group.List.Basic
import Mathlib.Algebra.Group.End
import Mathlib.Logic.Equiv.Basic

/-!
# Lib.Swaps — sequences of swaps in an array

Swapping cells in turn permutes an array, and the same swaps in the opposite order undo it
(`swapPerm_reverse`).  `swapCells` is the swap of two cells of a vector, undefined out of its range.
-/

namespace DiskANNEval.Lib

open List

variable {α : Type*}

/-- After swaps of these pairs in turn, cell `i` has what was in cell `swapPerm ps i`. -/
def swapPerm (ps : List (ℕ × ℕ)) : Equiv.Perm ℕ := (ps.map fun p => Equiv.swap p.1 p.2).prod

theorem swapPerm_cons (p : ℕ × ℕ) (ps : List (ℕ × ℕ)) :
    swapPerm (p :: ps) = Equiv.swap p.1 p.2 * swapPerm ps := prod_cons

theorem swapPerm_reverse (ps : List (ℕ × ℕ)) : swapPerm ps.reverse = (swapPerm ps)⁻¹ := by
  have hinv : (ps.map fun p => Equiv.swap p.1 p.2).map (·⁻¹) = ps.map fun p => Equiv.swap p.1 p.2 := by
    rw [map_map]
    apply map_congr_left
    intro p _
    exact Equiv.swap_inv p.1 p.2
  rw [swapPerm, swapPerm, prod_inv_reverse, hinv, map_reverse]

theorem swapPerm_map_swap (ps : List (ℕ × ℕ)) : swapPerm (ps.map Prod.swap) = swapPerm ps := by
  unfold swapPerm
  rw [map_map]
  congr 1
  apply map_congr_left
  intro p _
  exact Equiv.swap_comm p.2 p.1

variable {a b : ℕ}

theorem swap_lt_iff {n : ℕ} (ha : a < n) (hb : b < n) (i : ℕ) : Equiv.swap a b i < n ↔ i < n := by
  by_cases hia : i = a
  · rw [hia, Equiv.swap_apply_left]
    exact iff_of_true hb ha
  · by_cases hib : i = b
    · rw [hib, Equiv.swap_apply_right]
      exact iff_of_true ha hb
    · rw [Equiv.swap_apply_of_ne_of_ne hia hib]

variable {ps : List (ℕ × ℕ)}

theorem swapPerm_lt_iff {n : ℕ} (h : ∀ p ∈ ps, p.1 < n ∧ p.2 < n) (i : ℕ) :
    swapPerm ps i < n ↔ i < n := by
  induction ps with
  | nil => exact Iff.rfl
  | cons p ps ih =>
    obtain ⟨h1, h2⟩ := h p mem_cons_self
    rw [swapPerm_cons, Equiv.Perm.mul_apply, swap_lt_iff h1 h2]
    exact ih fun q hq => h q (mem_cons_of_mem p hq)

theorem foldl_comp_swap (ps : List (ℕ × ℕ)) (f : ℕ → α) :
    ps.foldl (fun f p => f ∘ Equiv.swap p.1 p.2) f = f ∘ swapPerm ps := by
  induction ps generalizing f with
  | nil => rfl
  | cons p ps ih =>
    rw [foldl_cons, ih]
    rfl

/-- Two cells of a vector are swapped; `none`: one of them is not there. -/
def swapCells (l : List α) (a b : ℕ) : Option (List α) :=
  (l[a]?).bind fun x => (l[b]?).map fun y => (l.set a y).set b x

variable {l : List α}

theorem exists_swapCells (ha : a < l.length) (hb : b < l.length) :
    ∃ l', swapCells l a b = some l' ∧ l'.length = l.length ∧
      ∀ i, l'[i]? = l[Equiv.swap a b i]? := by
  refine ⟨(l.set a l[b]).set b l[a], ?_, ?_, ?_⟩
  · rw [swapCells, getElem?_eq_getElem ha, getElem?_eq_getElem hb]
    rfl
  · rw [length_set, length_set]
  · intro i
    by_cases hib : i = b
    · rw [hib, getElem?_set_self (by rw [length_set]; exact hb), Equiv.swap_apply_right,
        getElem?_eq_getElem ha]
    · rw [getElem?_set_ne (Ne.symm hib)]
      by_cases hia : i = a
      · rw [hia, getElem?_set_self ha, Equiv.swap_apply_left, getElem?_eq_getElem hb]
      · rw [getElem?_set_ne (Ne.symm hia), Equiv.swap_apply_of_ne_of_ne hia hib]

theorem length_swapCells {l' : List α} (h : swapCells l a b = some l') : l'.length = l.length := by
  obtain ⟨x, -, h⟩ := Option.bind_eq_some_iff.1 h
  obtain ⟨y, -, rfl⟩ := Option.map_eq_some_iff.1 h
  rw [length_set, length_set]

theorem swapCells_eq_none_iff : swapCells l a b = none ↔ ¬ (a < l.length ∧ b < l.length) := by
  constructor
  · rintro h ⟨ha, hb⟩
    obtain ⟨l', hl', -⟩ := exists_swapCells ha hb
    rw [h] at hl'
    cases hl'
  · intro h
    unfold swapCells
    by_cases ha : a < l.length
    · have hb : l[b]? = none := getElem?_eq_none (not_lt.1 fun hb => h ⟨ha, hb⟩)
      rw [hb, getElem?_eq_getElem ha]
      rfl
    · rw [getElem?_eq_none (not_lt.1 ha)]
      rfl

theorem exists_foldlM_swapCells (h : ∀ p ∈ ps, p.1 < l.length ∧ p.2 < l.length) :
    ∃ l', ps.foldlM (fun l p => swapCells l p.1 p.2) l = some l' ∧ l'.length = l.length ∧
      ∀ i, l'[i]? = l[swapPerm ps i]? := by
  induction ps generalizing l with
  | nil => exact ⟨l, rfl, rfl, fun _ => rfl⟩
  | cons p ps ih =>
    obtain ⟨ha, hb⟩ := h p mem_cons_self
    obtain ⟨l1, h1, hlen1, hget1⟩ := exists_swapCells ha hb
    obtain ⟨l2, h2, hlen2, hget2⟩ := @ih l1 fun q hq => by
      rw [hlen1]
      exact h q (mem_cons_of_mem p hq)
    refine ⟨l2, ?_, hlen2.trans hlen1, ?_⟩
    · rw [foldlM_cons, h1]
      exact h2
    · intro i
      rw [hget2, hget1]
      rfl

theorem foldlM_swapCells_eq_none (h : ∃ p ∈ ps, ¬ (p.1 < l.length ∧ p.2 < l.length)) :
    ps.foldlM (fun l p => swapCells l p.1 p.2) l = none := by
  induction ps generalizing l with
  | nil =>
    obtain ⟨p, hp, -⟩ := h
    exact absurd hp not_mem_nil
  | cons q ps ih =>
    rw [foldlM_cons]
    rcases hq : swapCells l q.1 q.2 with _ | l1
    · rfl
    · apply ih
      obtain ⟨p, hp, hout⟩ := h
      rcases mem_cons.1 hp with rfl | hp
      · rw [swapCells_eq_none_iff.2 hout] at hq
        cases hq
      · refine ⟨p, hp, ?_⟩
        rw [length_swapCells hq]
        exact hout

end DiskANNEval.Lib
