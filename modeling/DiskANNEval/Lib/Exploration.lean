import Mathlib.Data.List.Duplicate
import Mathlib.Data.List.Perm.Subperm
import Mathlib.Logic.Relation

/-!
# Lib.Exploration — a graph is gone through from one node with a bounded list of candidates

What an expanded node offers is put into the list, and may fall out of it, or find no place in it,
when it is full; what has been expanded need not be in the list.  When every candidate of the list
has been expanded, either all that can be reached has been, or as many nodes as the list has places.
-/

namespace DiskANNEval.Lib

open List

variable {α : Type*}

/-- `put` are the nodes that have been put into the list, `held` is what is in it, and `full` has
been expanded. -/
structure Explored (offers : α → α → Prop) (entry : α) (L : ℕ) (put : α → Prop) (held full : List α) :
    Prop where
  entry_put : put entry
  held_nodup : held.Nodup
  held_put : ∀ x ∈ held, put x
  full_nodup : full.Nodup
  full_put : ∀ x ∈ full, put x
  closed : ∀ x ∈ full, ∀ y, offers x y → put y
  reached : ∀ x, put x → Relation.ReflTransGen offers entry x
  held_or_full : ∀ x, put x → x ∈ held ∨ L ≤ held.length

variable {offers : α → α → Prop} {entry : α} {L : ℕ} {put put' : α → Prop} {held held' full : List α}

theorem Explored.start (offers : α → α → Prop) (entry : α) (L : ℕ)
    (hput : ∀ x, put x ↔ x = entry) : Explored offers entry L put [entry] [] where
  entry_put := (hput entry).2 rfl
  held_nodup := nodup_singleton entry
  held_put x hx := (hput x).2 (mem_singleton.1 hx)
  full_nodup := nodup_nil
  full_put _ hx := absurd hx not_mem_nil
  closed _ hx := absurd hx not_mem_nil
  reached x hx := by
    rw [(hput x).1 hx]
  held_or_full x hx := Or.inl (mem_singleton.2 ((hput x).1 hx))

theorem Explored.congr (h : Explored offers entry L put held full) (hheld : held'.Nodup)
    (hmem : ∀ y ∈ held', put y) (hplace : ∀ y, put y → y ∈ held' ∨ L ≤ held'.length) :
    Explored offers entry L put held' full :=
  { h with held_nodup := hheld, held_put := hmem, held_or_full := hplace }

theorem Explored.expand (h : Explored offers entry L put held full) (xs : List α)
    (hput : ∀ y, put' y ↔ put y ∨ ∃ x ∈ xs, offers x y) (hxs : ∀ x ∈ xs, put x ∧ x ∉ full)
    (hnodup : xs.Nodup) (hheld : held'.Nodup) (hmem : ∀ y ∈ held', put' y)
    (hplace : ∀ y, put' y → y ∈ held' ∨ L ≤ held'.length) :
    Explored offers entry L put' held' (full ++ xs) where
  entry_put := (hput entry).2 (Or.inl h.entry_put)
  held_nodup := hheld
  held_put := hmem
  full_nodup := nodup_append'.2 ⟨h.full_nodup, hnodup, fun x hx hx' => (hxs x hx').2 hx⟩
  full_put x hx := by
    rcases mem_append.1 hx with hx | hx
    · exact (hput x).2 (Or.inl (h.full_put x hx))
    · exact (hput x).2 (Or.inl (hxs x hx).1)
  closed x hx y hxy := by
    rcases mem_append.1 hx with hx | hx
    · exact (hput y).2 (Or.inl (h.closed x hx y hxy))
    · exact (hput y).2 (Or.inr ⟨x, hx, hxy⟩)
  reached y hy := by
    rcases (hput y).1 hy with hy | ⟨x, hx, hxy⟩
    · exact h.reached y hy
    · exact (h.reached x (hxs x hx).1).tail hxy
  held_or_full := hplace

/-- When the list has not been full, and all of it has been expanded, what can be reached is in it. -/
theorem Explored.mem_held (h : Explored offers entry L put held full) (hheld : ∀ x ∈ held, x ∈ full)
    (hlt : held.length < L) {x : α} (hx : Relation.ReflTransGen offers entry x) : x ∈ held := by
  have hmem : ∀ y, put y → y ∈ held := fun y hy => (h.held_or_full y hy).resolve_right (by omega)
  induction hx with
  | refl => exact hmem entry h.entry_put
  | tail _ hxy ih => exact hmem _ (h.closed _ (hheld _ ih) _ hxy)

theorem Explored.mem_full (h : Explored offers entry L put held full) (hheld : ∀ x ∈ held, x ∈ full)
    (hlt : full.length < L) {x : α} (hx : Relation.ReflTransGen offers entry x) : x ∈ full := by
  have hroom : held.length < L := by
    have hle := (subperm_of_subset h.held_nodup hheld).length_le
    omega
  exact hheld x (h.mem_held hheld hroom hx)

/-- There are `k` nodes that can be reached. -/
def Reaches (offers : α → α → Prop) (entry : α) (k : ℕ) : Prop :=
  ∃ l : List α, l.Nodup ∧ l.length = k ∧ ∀ x ∈ l, Relation.ReflTransGen offers entry x

/-- When every candidate has been expanded, as many nodes have been as were asked for, if there are
so many. -/
theorem Explored.le_length_iff (h : Explored offers entry L put held full)
    (hheld : ∀ x ∈ held, x ∈ full) {k : ℕ} (hk : k ≤ L) :
    k ≤ full.length ↔ Reaches offers entry k := by
  constructor
  · intro hle
    refine ⟨full.take k, h.full_nodup.sublist (take_sublist k full), ?_, fun x hx => ?_⟩
    · rw [List.length_take]
      exact Nat.min_eq_left hle
    · exact h.reached x (h.full_put x (mem_of_mem_take hx))
  · rintro ⟨l, hnodup, rfl, hl⟩
    by_contra hlt
    have hsub : ∀ x ∈ l, x ∈ full := fun x hx => h.mem_full hheld (by omega) (hl x hx)
    exact hlt (subperm_of_subset hnodup hsub).length_le

/-- When every candidate has been expanded, the list holds as many nodes as it has places, if so many
can be reached. -/
theorem Explored.le_length_held_iff (h : Explored offers entry L put held full)
    (hheld : ∀ x ∈ held, x ∈ full) {k : ℕ} (hk : k ≤ L) :
    k ≤ held.length ↔ Reaches offers entry k := by
  constructor
  · intro hle
    refine ⟨held.take k, h.held_nodup.sublist (take_sublist k held), ?_, fun x hx => ?_⟩
    · rw [List.length_take]
      exact Nat.min_eq_left hle
    · exact h.reached x (h.held_put x (mem_of_mem_take hx))
  · rintro ⟨l, hnodup, rfl, hl⟩
    by_contra hlt
    have hsub : ∀ x ∈ l, x ∈ held := fun x hx => h.mem_held hheld (by omega) (hl x hx)
    exact hlt (subperm_of_subset hnodup hsub).length_le

end DiskANNEval.Lib
