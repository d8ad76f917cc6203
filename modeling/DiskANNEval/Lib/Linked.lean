import Mathlib.Logic.Function.Basic
import Mathlib.Data.List.Basic
import Mathlib.Data.List.Nodup

/-!
# Lib.Linked — singly linked lists in an array

`Linked next i l`: starting at the cell `i` and following `next` one visits the cells `l`, in this
order, and ends.  `hookAfter next i j` puts the cell `j` into the list behind `i`.
-/

namespace DiskANNEval.Lib

open Function

variable {α : Type*}

inductive Linked (next : α → Option α) : α → List α → Prop
  | last {i : α} (h : next i = none) : Linked next i [i]
  | cons {i j : α} {l : List α} (h : next i = some j) (hl : Linked next j l) : Linked next i (i :: l)

variable {next next' : α → Option α} {i j : α} {l : List α}

theorem Linked.exists_cons (h : Linked next i l) : ∃ l', l = i :: l' := by
  cases h with
  | last => exact ⟨[], rfl⟩
  | cons _ _ => exact ⟨_, rfl⟩

theorem Linked.mem (h : Linked next i l) : i ∈ l := by
  obtain ⟨l', rfl⟩ := h.exists_cons
  exact List.mem_cons_self

theorem Linked.congr (h : Linked next i l) (heq : ∀ x ∈ l, next' x = next x) : Linked next' i l := by
  induction h with
  | last h => exact .last ((heq _ List.mem_cons_self).trans h)
  | cons h _ ih =>
    exact .cons ((heq _ List.mem_cons_self).trans h) (ih fun x hx => heq x (List.mem_cons_of_mem _ hx))

variable [DecidableEq α]

/-- Cell `j` goes behind `i`. -/
def hookAfter (next : α → Option α) (i j : α) : α → Option α :=
  Function.update (Function.update next j (next i)) i (some j)

theorem hookAfter_of_ne {x : α} (hi : x ≠ i) (hj : x ≠ j) : hookAfter next i j x = next x := by
  rw [hookAfter, update_of_ne hi, update_of_ne hj]

theorem Linked.hook (h : Linked next i (i :: l)) (hnodup : (i :: l).Nodup) (hj : j ∉ i :: l) :
    Linked (hookAfter next i j) i (i :: j :: l) := by
  obtain ⟨hi, -⟩ := List.nodup_cons.1 hnodup
  have hji : j ≠ i := fun he => hj (he ▸ List.mem_cons_self)
  have hnext : hookAfter next i j j = next i := by
    rw [hookAfter, update_of_ne hji, update_self]
  refine .cons (update_self ..) ?_
  cases h with
  | last hlast => exact .last (hnext.trans hlast)
  | cons hcons hl =>
    refine .cons (hnext.trans hcons) (hl.congr fun x hx => hookAfter_of_ne ?_ ?_)
    · exact ne_of_mem_of_not_mem hx hi
    · exact ne_of_mem_of_not_mem (List.mem_cons_of_mem _ hx) hj

theorem Linked.hook_other {k : α} (h : Linked next k l) (hi : i ∉ l) (hj : j ∉ l) :
    Linked (hookAfter next i j) k l :=
  h.congr fun _ hx => hookAfter_of_ne (ne_of_mem_of_not_mem hx hi) (ne_of_mem_of_not_mem hx hj)

end DiskANNEval.Lib
