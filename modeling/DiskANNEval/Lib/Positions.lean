import Mathlib

/-!
# Lib.Positions — where the elements of a list are

The positions of the elements of a list without duplicates, as a map and as an array, and as an array
that is filled while the list grows.
-/

namespace DiskANNEval.Lib

open List

/-- The map that a loop over the list fills: later entries come first. -/
def positionMap (l : List ℕ) : List (ℕ × ℕ) := l.zipIdx.reverse

theorem positionMap_concat (l : List ℕ) (x : ℕ) :
    positionMap (l ++ [x]) = (x, l.length) :: positionMap l := by
  rw [positionMap, zipIdx_append, reverse_append, Nat.zero_add]
  rfl

theorem lookup_positionMap {l : List ℕ} (hl : l.Nodup) {k x : ℕ} (hk : l[k]? = some x) :
    (positionMap l).lookup x = some k := by
  induction l using reverseRecOn with
  | nil => simp at hk
  | append_singleton l y ih =>
    rw [positionMap_concat]
    obtain ⟨hl', -, hdisj⟩ := nodup_append.1 hl
    rcases Nat.lt_or_ge k l.length with hlt | hge
    · rw [getElem?_append_left hlt] at hk
      have hne : x ≠ y := hdisj x (mem_of_getElem? hk) y mem_cons_self
      rw [lookup_cons, beq_eq_false_iff_ne.2 hne]
      exact ih hl' hk
    · rw [getElem?_append_right hge] at hk
      obtain ⟨hlt, hget⟩ := List.getElem?_eq_some_iff.1 hk
      rw [length_singleton] at hlt
      obtain rfl : k = l.length := by omega
      obtain rfl : y = x := by simpa using hget
      rw [lookup_cons, beq_self_eq_true]

/-- The array of `n` places that a loop over the list fills, with `d` where no element is. -/
def positionArray (n d : ℕ) (l : List ℕ) : List ℕ :=
  l.zipIdx.foldl (fun a p => a.set p.1 p.2) (List.replicate n d)

theorem positionArray_concat (n d : ℕ) (l : List ℕ) (x : ℕ) :
    positionArray n d (l ++ [x]) = (positionArray n d l).set x l.length := by
  rw [positionArray, zipIdx_append, foldl_append, Nat.zero_add]
  rfl

@[simp] theorem length_positionArray (n d : ℕ) (l : List ℕ) : (positionArray n d l).length = n := by
  induction l using List.reverseRecOn with
  | nil => exact List.length_replicate
  | append_singleton l y ih => rw [positionArray_concat, List.length_set, ih]

theorem getElem?_positionArray {n d : ℕ} {l : List ℕ} (hl : l.Nodup) {k x : ℕ} (hk : l[k]? = some x)
    (hx : x < n) : (positionArray n d l)[x]? = some k := by
  induction l using reverseRecOn with
  | nil => simp at hk
  | append_singleton l y ih =>
    rw [positionArray_concat]
    obtain ⟨hl', -, hdisj⟩ := nodup_append.1 hl
    rcases Nat.lt_or_ge k l.length with hlt | hge
    · rw [getElem?_append_left hlt] at hk
      have hne : x ≠ y := hdisj x (mem_of_getElem? hk) y mem_cons_self
      rw [getElem?_set_ne hne.symm]
      exact ih hl' hk
    · rw [getElem?_append_right hge] at hk
      obtain ⟨hlt, hget⟩ := List.getElem?_eq_some_iff.1 hk
      rw [length_singleton] at hlt
      obtain rfl : k = l.length := by omega
      obtain rfl : y = x := by simpa using hget
      rw [getElem?_set_self (by rwa [length_positionArray])]

theorem lt_of_mem_positionArray {n d b : ℕ} {l : List ℕ} (hd : d < b) (hl : l.length ≤ b) {y : ℕ}
    (hy : y ∈ positionArray n d l) : y < b := by
  induction l using reverseRecOn generalizing y with
  | nil =>
    rw [eq_of_mem_replicate hy]
    exact hd
  | append_singleton l x ih =>
    rw [length_append, length_singleton] at hl
    rw [positionArray_concat] at hy
    rcases mem_or_eq_of_mem_set hy with hy | rfl
    · exact ih (by omega) hy
    · omega

/-! ### Numbers handed out one after the other -/

/-- The array of `n` places that has the position of each element of the list at the place of that
element. -/
def numbering (n : ℕ) (l : List ℕ) : List (Option ℕ) :=
  (List.range n).map fun i => if i ∈ l then some (l.idxOf i) else none

variable {n : ℕ} {l : List ℕ}

@[simp] theorem length_numbering (n : ℕ) (l : List ℕ) : (numbering n l).length = n := by
  rw [numbering, List.length_map, List.length_range]

theorem getElem?_numbering {i : ℕ} (hi : i < n) :
    (numbering n l)[i]? = some (if i ∈ l then some (l.idxOf i) else none) := by
  rw [numbering, getElem?_map, getElem?_range hi, Option.map_some]

theorem numbering_nil (n : ℕ) : numbering n [] = replicate n none := by
  rw [numbering]
  simp

theorem set_numbering {x : ℕ} (hx : x ∉ l) :
    (numbering n l).set x (some l.length) = numbering n (l ++ [x]) := by
  apply ext_getElem?
  intro i
  rcases Nat.lt_or_ge i n with hi | hi
  · rw [getElem?_numbering hi]
    by_cases he : i = x
    · subst he
      rw [getElem?_set_self (by rwa [length_numbering]),
        if_pos (mem_append_right l mem_cons_self), idxOf_append_of_notMem hx,
        idxOf_cons_self, Nat.add_zero]
    · rw [getElem?_set_ne (Ne.symm he), getElem?_numbering hi]
      have hmem : i ∈ l ++ [x] ↔ i ∈ l := by simp [he]
      by_cases hl : i ∈ l
      · rw [if_pos hl, if_pos (hmem.2 hl), idxOf_append_of_mem hl]
      · rw [if_neg hl, if_neg fun h => hl (hmem.1 h)]
  · rw [getElem?_eq_none (by rwa [length_set, length_numbering]),
      getElem?_eq_none (by rwa [length_numbering])]

theorem numbering_of_perm (h : l.Perm (List.range n)) :
    numbering n l = ((List.range n).map l.idxOf).map some := by
  rw [map_map]
  apply map_congr_left
  intro i hi
  rw [if_pos (h.mem_iff.2 hi)]
  rfl

theorem map_idxOf_perm (h : l.Perm (List.range n)) :
    ((List.range n).map l.idxOf).Perm (List.range n) := by
  have hnd : l.Nodup := h.nodup_iff.2 nodup_range
  have hlen : l.length = n := by rw [h.length_eq, length_range]
  refine (perm_ext_iff_of_nodup ?_ nodup_range).2 fun v => ?_
  · refine Nodup.map_on (fun i hi j _ heq => ?_) nodup_range
    exact (idxOf_inj (h.mem_iff.2 hi)).1 heq
  · rw [mem_map, List.mem_range]
    constructor
    · rintro ⟨i, hi, rfl⟩
      rw [← hlen]
      exact idxOf_lt_length_iff.2 (h.mem_iff.2 hi)
    · intro hv
      have hlt : v < l.length := by rwa [hlen]
      exact ⟨l[v], h.mem_iff.1 (getElem_mem hlt), hnd.idxOf_getElem v hlt⟩

end DiskANNEval.Lib
