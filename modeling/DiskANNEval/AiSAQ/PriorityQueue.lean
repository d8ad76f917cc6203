import DiskANNEval.AiSAQ.Neighbor
import DiskANNEval.Lib.Best

/-!
# PriorityQueue — all calls of `NeighborPriorityQueue`

`NeighborPriorityQueue` of `AiSAQ.Neighbor` is what a search over the graph sees of the queue.  Here is
the whole array with its `_capacity + 1` cells, so that also the calls that leave the first `_size`
cells are covered: the shift by `memmove` of a full queue, and `closest_unexpanded` of a queue in
which all elements are expanded.
-/

namespace DiskANNEval.AiSAQ

open Lib

/-- The elements of the queue are the first `size` cells of `data`. -/
structure PriorityQueue (D : Type) where
  size : ℕ
  capacity : ℕ
  cur : ℕ
  data : List (Neighbor D)

variable {D : Type} (fl : FloatOps D)

namespace PriorityQueue

/-- `NeighborPriorityQueue(capacity)`; the cells are value-initialised. -/
def new (capacity : ℕ) : PriorityQueue D :=
  ⟨0, capacity, 0, List.replicate (capacity + 1) ⟨0, fl.zero, false⟩⟩

/-- The elements. -/
def held (q : PriorityQueue D) : List (Neighbor D) := q.data.take q.size

/-- The ids of the elements. -/
def ids (q : PriorityQueue D) : List ℕ := q.held.map (·.id)

/-! ### Insertion -/

/-- The queue is full and its last element is closer than `nbr`. -/
def rejects (q : PriorityQueue D) (nbr : Neighbor D) : Bool :=
  q.size == q.capacity && (q.data[q.size - 1]?.any fun last => last.lt fl nbr)

/-- `memmove(&_data[lo + 1], &_data[lo], (_size - lo) * sizeof(Neighbor))` -/
def shift (q : PriorityQueue D) (lo : ℕ) : List (Neighbor D) :=
  q.data.take (lo + 1) ++ (q.data.drop lo).take (q.size - lo) ++ q.data.drop (q.size + 1)

/-- The new element is put at `lo`. -/
def place (q : PriorityQueue D) (nbr : Neighbor D) (lo : ℕ) : PriorityQueue D where
  data := (if lo < q.capacity then q.shift lo else q.data).set lo (.new nbr.id nbr.distance)
  size := if q.size < q.capacity then q.size + 1 else q.size
  cur := if lo < q.cur then lo else q.cur
  capacity := q.capacity

def insert (q : PriorityQueue D) (nbr : Neighbor D) : PriorityQueue D :=
  if q.rejects fl nbr then q
  else
    match NeighborPriorityQueue.findIndex fl q.data nbr q.size 0 q.size with
    | none => q
    | some lo => q.place nbr lo

/-- The second component is `id` where `rem` is set. -/
def insertWithRemInfo (q : PriorityQueue D) (nbr : Neighbor D) : PriorityQueue D × Option ℕ :=
  if q.rejects fl nbr then (q, some nbr.id)
  else
    match NeighborPriorityQueue.findIndex fl q.data nbr q.size 0 q.size with
    | none => (q, none)
    | some lo =>
      (q.place nbr lo, if q.size = q.capacity then q.data[q.size - 1]?.map (·.id) else none)

/-! ### The unexpanded elements -/

/-- `while (i < _size && _data[i].expanded) i++` -/
def skipExpanded (q : PriorityQueue D) (i : ℕ) : ℕ :=
  i + ((q.held.drop i).takeWhile (·.expanded)).length

/-- `_data[i].expanded = true` -/
def expand (q : PriorityQueue D) (i : ℕ) : PriorityQueue D :=
  { q with data := q.data.modify i fun nbr => { nbr with expanded := true } }

def hasUnexpandedNode (q : PriorityQueue D) : Bool := q.cur < q.size

def closestUnexpanded (q : PriorityQueue D) : PriorityQueue D × Option (Neighbor D) :=
  let q' := q.expand q.cur
  ({ q' with cur := q'.skipExpanded q.cur }, q'.data[q.cur]?)

/-- The second component is `position` and what is returned. -/
def getFirstUnexpandedPosition (q : PriorityQueue D) (expand : Bool) : PriorityQueue D × ℕ × Bool :=
  if q.cur < q.size then (if expand then q.closestUnexpanded.1 else q, q.cur, true)
  else (q, q.cur, false)

/-- `position` is a `size_t`. -/
def nextPosition (q : PriorityQueue D) (position : ℕ) : ℕ :=
  q.skipExpanded ((position + 1) % 2 ^ 64)

def getNextUnexpandedPosition (q : PriorityQueue D) (position : ℕ) (expand : Bool) :
    PriorityQueue D × ℕ × Bool :=
  let position := q.nextPosition position
  if position < q.size then
    (if expand then if position = q.cur then q.closestUnexpanded.1 else q.expand position else q,
      position, true)
  else (q, position, false)

end PriorityQueue

/-! ### Calls -/

inductive QueueCall (D : Type) where
  | insert (nbr : Neighbor D)
  | insertWithRemInfo (nbr : Neighbor D)
  | closestUnexpanded
  | getFirstUnexpandedPosition (expand : Bool)
  | getNextUnexpandedPosition (position : ℕ) (expand : Bool)

/-- The id that a call inserts. -/
def QueueCall.inserted : QueueCall D → List ℕ
  | .insert nbr => [nbr.id]
  | .insertWithRemInfo nbr => [nbr.id]
  | _ => []

/-- The distance that comes with an id is the distance of that id. -/
def QueueCall.Consistent (dist : ℕ → D) : QueueCall D → Prop
  | .insert nbr => nbr.distance = dist nbr.id
  | .insertWithRemInfo nbr => nbr.distance = dist nbr.id
  | _ => True

namespace PriorityQueue

def call (q : PriorityQueue D) : QueueCall D → PriorityQueue D
  | .insert nbr => q.insert fl nbr
  | .insertWithRemInfo nbr => (q.insertWithRemInfo fl nbr).1
  | .closestUnexpanded => q.closestUnexpanded.1
  | .getFirstUnexpandedPosition expand => (q.getFirstUnexpandedPosition expand).1
  | .getNextUnexpandedPosition position expand => (q.getNextUnexpandedPosition position expand).1

def run (q : PriorityQueue D) (calls : List (QueueCall D)) : PriorityQueue D :=
  calls.foldl (call fl) q

/-- The id that `closest_unexpanded` returns, and whether there was an unexpanded element. -/
def handOut (q : PriorityQueue D) : List (Bool × ℕ) :=
  (q.closestUnexpanded.2.map fun nbr => (q.hasUnexpandedNode, nbr.id)).toList

/-- What `closest_unexpanded` returns in a call. -/
def handsOut (q : PriorityQueue D) : QueueCall D → List (Bool × ℕ)
  | .closestUnexpanded => q.handOut
  | .getFirstUnexpandedPosition expand => if q.cur < q.size ∧ expand then q.handOut else []
  | .getNextUnexpandedPosition position expand =>
    if q.nextPosition position < q.size ∧ expand ∧ q.nextPosition position = q.cur then q.handOut
    else []
  | _ => []

def handedOut (q : PriorityQueue D) : List (QueueCall D) → List (Bool × ℕ)
  | [] => []
  | c :: calls => q.handsOut c ++ handedOut (q.call fl c) calls

end PriorityQueue

end DiskANNEval.AiSAQ
