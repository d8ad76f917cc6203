import Mathlib

/-!
# Neighbor — `Neighbor` and `NeighborPriorityQueue`

The candidate list of a graph search.  Distances are `float`s: `FloatOps` lists the operations the
index does on them, and no law is assumed of them, so that everything below also holds in the
presence of `NaN` and of rounding.
-/

namespace DiskANNEval.AiSAQ

open List

/-- The operations on `float` that the index uses, its constants, and the rounding to an integer
in `(uint64_t)(GRAPH_SLACK_FACTOR * range)`. -/
structure FloatOps (D : Type) where
  lt : D → D → Bool
  le : D → D → Bool
  eq : D → D → Bool
  add : D → D → D
  mul : D → D → D
  div : D → D → D
  neg : D → D
  max : D → D → D
  /-- `0`, `1`, `0.01f`, `1.2f` and `numeric_limits<float>::max()` -/
  zero : D
  one : D
  eps : D
  alphaStep : D
  maxValue : D
  slackDegree : ℕ → ℕ

structure Neighbor (D : Type) where
  id : ℕ
  distance : D
  expanded : Bool

variable {D : Type}

/-- `Neighbor(id, distance)` -/
def Neighbor.new (id : ℕ) (distance : D) : Neighbor D := ⟨id, distance, false⟩

/-- `operator<` -/
def Neighbor.lt (fl : FloatOps D) (a b : Neighbor D) : Bool :=
  fl.lt a.distance b.distance || (fl.eq a.distance b.distance && decide (a.id < b.id))

/-- `std::sort(pool.begin(), pool.end())` -/
def sortPool (fl : FloatOps D) (pool : List (Neighbor D)) : List (Neighbor D) :=
  pool.insertionSort fun a b => b.lt fl a = false

@[simp] theorem mem_sortPool (fl : FloatOps D) (pool : List (Neighbor D)) (x : Neighbor D) :
    x ∈ sortPool fl pool ↔ x ∈ pool :=
  (List.perm_insertionSort _ pool).mem_iff

/-- The ids of a pool all lie in `S`. -/
def IdsIn (S : ℕ → Prop) (pool : List (Neighbor D)) : Prop := ∀ x ∈ pool, S x.id

theorem IdsIn.sortPool {S : ℕ → Prop} {pool : List (Neighbor D)} (h : IdsIn S pool)
    (fl : FloatOps D) : IdsIn S (sortPool fl pool) :=
  fun x hx => h x ((mem_sortPool fl pool x).mp hx)

theorem of_getElem?_takeWhile {α : Type} {p : α → Bool} {l : List α} {j : ℕ} {y : α}
    (hj : j < (l.takeWhile p).length) (h : l[j]? = some y) : p y = true := by
  rw [prefix_iff_getElem?.1 (List.takeWhile_prefix p) j hj] at h
  cases h
  exact mem_takeWhile_imp (getElem_mem hj)

theorem not_of_getElem?_takeWhile {α : Type} {p : α → Bool} {l : List α} {y : α}
    (h : l[(l.takeWhile p).length]? = some y) : p y = false := by
  induction l with
  | nil => cases h
  | cons a l ih =>
    cases ha : p a with
    | true =>
      rw [takeWhile_cons_of_pos ha] at h
      exact ih h
    | false =>
      rw [takeWhile_cons_of_neg (by simp [ha])] at h
      cases h
      exact ha

/-! ## `NeighborPriorityQueue` -/

/-- `data` is the first `_size` cells of `_data`. -/
structure NeighborPriorityQueue (D : Type) where
  capacity : ℕ
  cur : ℕ
  data : List (Neighbor D)

namespace NeighborPriorityQueue

/-- The binary search of `insert` in `[lo, hi)`: the index for `nbr`, or `none` when the search
meets its id.  `hi - lo` halves, so fuel `hi - lo` is enough. -/
def findIndex (fl : FloatOps D) (data : List (Neighbor D)) (nbr : Neighbor D) :
    ℕ → ℕ → ℕ → Option ℕ
  | 0, lo, _ => some lo
  | fuel + 1, lo, hi =>
    if lo < hi then
      let mid := (lo + hi) / 2
      match data[mid]? with
      | none => some lo
      | some m =>
        if nbr.lt fl m then findIndex fl data nbr fuel lo mid
        else if m.id = nbr.id then none
        else findIndex fl data nbr fuel (mid + 1) hi
    else some lo

/-- The queue is full and its last element is closer than `nbr`. -/
def rejects (fl : FloatOps D) (q : NeighborPriorityQueue D) (nbr : Neighbor D) : Bool :=
  q.data.length == q.capacity && (q.data.getLast?.any fun last => last.lt fl nbr)

def insert (fl : FloatOps D) (q : NeighborPriorityQueue D) (nbr : Neighbor D) :
    NeighborPriorityQueue D :=
  if q.rejects fl nbr then q
  else
    match findIndex fl q.data nbr q.data.length 0 q.data.length with
    | none => q
    | some lo =>
      { q with
        data := (q.data.take lo ++ .new nbr.id nbr.distance :: q.data.drop lo).take q.capacity
        cur := if lo < q.cur then lo else q.cur }

/-- `closest_unexpanded`: marks the element at `_cur` and moves `_cur` to the next unmarked one.
`none` when there is no unexpanded element (`has_unexpanded_node`). -/
def closestUnexpanded (q : NeighborPriorityQueue D) : Option (Neighbor D × NeighborPriorityQueue D) :=
  match q.data[q.cur]? with
  | none => none
  | some nbr =>
    let data := q.data.set q.cur { nbr with expanded := true }
    let cur := q.cur + ((data.drop q.cur).takeWhile (·.expanded)).length
    some (nbr, { q with data, cur })

theorem IdsIn.insert {S : ℕ → Prop} {q : NeighborPriorityQueue D} (h : IdsIn S q.data)
    (fl : FloatOps D) {nbr : Neighbor D} (hn : S nbr.id) : IdsIn S (q.insert fl nbr).data := by
  unfold NeighborPriorityQueue.insert
  split
  · exact h
  · split
    · exact h
    · rename_i lo _
      intro x hx
      rcases mem_append.mp (mem_of_mem_take hx) with hx | hx
      · exact h x (mem_of_mem_take hx)
      · rcases mem_cons.mp hx with rfl | hx
        · exact hn
        · exact h x (mem_of_mem_drop hx)

theorem IdsIn.closestUnexpanded {S : ℕ → Prop} {q q' : NeighborPriorityQueue D} {nbr : Neighbor D}
    (h : IdsIn S q.data) (hc : q.closestUnexpanded = some (nbr, q')) :
    S nbr.id ∧ IdsIn S q'.data := by
  unfold NeighborPriorityQueue.closestUnexpanded at hc
  split at hc
  · simp at hc
  · rename_i x hx
    simp only [Option.some.injEq, Prod.mk.injEq] at hc
    obtain ⟨rfl, rfl⟩ := hc
    have hmem := h x (mem_of_getElem? hx)
    refine ⟨hmem, fun y hy => ?_⟩
    rcases mem_or_eq_of_mem_set hy with hy | rfl
    · exact h y hy
    · exact hmem

end NeighborPriorityQueue

end DiskANNEval.AiSAQ
