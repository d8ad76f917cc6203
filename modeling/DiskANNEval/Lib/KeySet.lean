import Mathlib

/-!
# Lib.KeySet — a sorted set whose elements are told apart by a key

`insertKey` puts an element at its place unless there is one with its key: so of the elements with
one key the set has the first that was inserted (`mem_keySet`), in the order of the keys.  The
elements before a place are counted by their keys (`mem_take_iff`).
-/

namespace DiskANNEval.Lib

open List

variable {α κ : Type*} [LinearOrder κ] {key : α → κ} {l s : List α} {x y : α}

theorem pairwise_insertionSort_key (key : α → κ) (l : List α) :
    (l.insertionSort fun a b => key a ≤ key b).Pairwise fun a b => key a ≤ key b := by
  exact pairwise_insertionSort _ l

/-- A new element at its place; nothing if there is one with its key. -/
def insertKey (key : α → κ) (s : List α) (x : α) : List α :=
  if key x ∈ s.map key then s else s.orderedInsert (fun a b => key a ≤ key b) x

/-- The elements are inserted one after the other. -/
def keySet (key : α → κ) (l : List α) : List α := l.foldl (insertKey key) []

theorem mem_insertKey : y ∈ insertKey key s x ↔ y ∈ s ∨ y = x ∧ key x ∉ s.map key := by
  rw [insertKey]
  split_ifs with h
  · simp [h]
  · rw [mem_orderedInsert]
    simp only [h, not_false_iff, and_true]
    exact or_comm

theorem mem_map_insertKey {d : κ} :
    d ∈ (insertKey key s x).map key ↔ d ∈ s.map key ∨ d = key x := by
  simp only [mem_map, mem_insertKey]
  constructor
  · rintro ⟨y, hy | ⟨rfl, -⟩, rfl⟩
    · exact .inl ⟨y, hy, rfl⟩
    · exact .inr rfl
  · rintro (⟨y, hy, rfl⟩ | rfl)
    · exact ⟨y, .inl hy, rfl⟩
    · by_cases h : ∃ a ∈ s, key a = key x
      · obtain ⟨a, ha, heq⟩ := h
        exact ⟨a, .inl ha, heq⟩
      · exact ⟨x, .inr ⟨rfl, h⟩, rfl⟩

theorem pairwise_insertKey (h : s.Pairwise fun a b => key a < key b) (x : α) :
    (insertKey key s x).Pairwise fun a b => key a < key b := by
  rw [insertKey]
  split_ifs with hx
  · exact h
  · induction s with
    | nil => exact pairwise_singleton _ _
    | cons a s ih =>
      obtain ⟨ha, hs⟩ := pairwise_cons.1 h
      rw [map_cons, mem_cons, not_or] at hx
      rw [orderedInsert_cons]
      split_ifs with hle
      · have hlt := lt_of_le_of_ne hle hx.1
        refine pairwise_cons.2 ⟨fun b hb => ?_, h⟩
        obtain rfl | hb := mem_cons.1 hb
        · exact hlt
        · exact hlt.trans (ha b hb)
      · refine pairwise_cons.2 ⟨fun b hb => ?_, ih hs hx.2⟩
        obtain rfl | hb := (mem_orderedInsert _).1 hb
        · exact not_le.1 hle
        · exact ha b hb

theorem pairwise_foldl_insertKey (h : s.Pairwise fun a b => key a < key b) (l : List α) :
    (l.foldl (insertKey key) s).Pairwise fun a b => key a < key b := by
  induction l generalizing s with
  | nil => exact h
  | cons x l ih => exact ih (pairwise_insertKey h x)

theorem pairwise_keySet (key : α → κ) (l : List α) :
    (keySet key l).Pairwise fun a b => key a < key b :=
  pairwise_foldl_insertKey Pairwise.nil l

/-- An element is in the set if it was, or if it is the first that is inserted with its key. -/
theorem mem_foldl_insertKey : y ∈ l.foldl (insertKey key) s ↔
    y ∈ s ∨ key y ∉ s.map key ∧ l.find? (fun z => key z = key y) = some y := by
  induction l generalizing s with
  | nil => simp
  | cons x l ih =>
    rw [foldl_cons, ih, mem_insertKey, mem_map_insertKey, find?_cons]
    by_cases hkey : key x = key y
    · simp only [hkey, decide_true, Option.some_inj]
      constructor
      · rintro ((h | ⟨rfl, h⟩) | ⟨h, -⟩)
        · exact .inl h
        · exact .inr ⟨h, rfl⟩
        · exact absurd (.inr trivial) h
      · rintro (h | ⟨h, rfl⟩)
        · exact .inl (.inl h)
        · exact .inl (.inr ⟨rfl, h⟩)
    · have hne : y ≠ x := fun h => hkey (by rw [h])
      simp only [hkey, decide_false, hne, false_and, or_false, Ne.symm hkey]

theorem mem_keySet : y ∈ keySet key l ↔ l.find? (fun z => key z = key y) = some y := by
  rw [keySet, mem_foldl_insertKey]
  simp

theorem mem_of_mem_keySet (h : y ∈ keySet key l) : y ∈ l :=
  mem_of_find?_eq_some (mem_keySet.1 h)

theorem exists_mem_keySet (h : x ∈ l) : ∃ y ∈ keySet key l, key y = key x := by
  cases hf : l.find? fun z => key z = key x with
  | none => exact absurd (find?_eq_none.1 hf x h) (by simp)
  | some y =>
    have hkey : key y = key x := by simpa using find?_some hf
    refine ⟨y, mem_keySet.2 ?_, hkey⟩
    rw [hkey]
    exact hf

theorem length_keySet : (keySet key l).length = (l.map key).toFinset.card := by
  have hnodup : ((keySet key l).map key).Nodup :=
    pairwise_map.2 ((pairwise_keySet key l).imp fun h => h.ne)
  rw [← length_map, ← toFinset_card_of_nodup hnodup]
  congr 1
  ext d
  simp only [mem_toFinset, mem_map]
  constructor
  · rintro ⟨y, hy, rfl⟩
    exact ⟨y, mem_of_mem_keySet hy, rfl⟩
  · rintro ⟨x, hx, rfl⟩
    exact exists_mem_keySet hx

theorem keySet_eq_nil : keySet key l = [] ↔ l = [] := by
  constructor
  · intro h
    refine eq_nil_iff_forall_not_mem.2 fun x hx => ?_
    obtain ⟨y, hy, -⟩ : ∃ y ∈ keySet key l, key y = key x := exists_mem_keySet hx
    rw [h] at hy
    cases hy
  · rintro rfl
    rfl

section map

variable {β : Type*} {key' : β → κ} {f : α → β}

theorem map_insertKey (hf : ∀ x, key' (f x) = key x) (s : List α) (x : α) :
    (insertKey key s x).map f = insertKey key' (s.map f) (f x) := by
  have hkeys : (s.map f).map key' = s.map key := by
    rw [List.map_map]
    exact map_congr_left fun x _ => hf x
  rw [insertKey, insertKey, hkeys, hf]
  split_ifs
  · rfl
  · exact map_orderedInsert _ _ _ _ _ (fun a _ => by rw [hf, hf]) fun a _ => by rw [hf, hf]

theorem map_keySet (hf : ∀ x, key' (f x) = key x) (l : List α) :
    (keySet key l).map f = keySet key' (l.map f) := by
  have hfold : ∀ s : List α, (l.foldl (insertKey key) s).map f =
      (l.map f).foldl (insertKey key') (s.map f) := by
    induction l with
    | nil => exact fun s => rfl
    | cons x l ih =>
      intro s
      rw [foldl_cons, ih, map_insertKey hf, map_cons, foldl_cons]
  exact hfold []

end map

theorem mem_take_iff (h : s.Pairwise fun a b => key a < key b) {k : ℕ} :
    x ∈ s.take k ↔ x ∈ s ∧ (s.filter fun y => key y < key x).length < k := by
  induction s generalizing k with
  | nil => simp
  | cons a s ih =>
    obtain ⟨ha, hs⟩ := pairwise_cons.1 h
    cases k with
    | zero => simp
    | succ k =>
      rw [take_succ_cons, mem_cons, mem_cons, ih hs]
      by_cases hx : x = a
      · subst hx
        have hnone : (x :: s).filter (fun y => key y < key x) = [] := by
          refine filter_eq_nil_iff.2 fun y hy => ?_
          obtain rfl | hy := mem_cons.1 hy
          · simp
          · simpa using (ha y hy).le
        rw [hnone]
        simp
      · simp only [hx, false_or]
        refine and_congr_right fun hmem => ?_
        rw [filter_cons_of_pos (by simpa using ha x hmem), length_cons,
          Nat.succ_lt_succ_iff]

end DiskANNEval.Lib
