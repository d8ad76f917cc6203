import DiskANNEval.Lib.Transposed
import DiskANNEval.PipeANN.FixedPoint
import DiskANNEval.FreshDiskANN.OccludeList

/-!
# EagerIndex — eager deletions in the index in memory

An `Index` with `support_eager_delete` keeps the starts of the edges to a location in `_in_graph`,
beside the lists of `_final_graph`.  `eager_delete` reads there which lists mention the location, takes
it out of them and, with `delete_mode` 2, gives those that the search meets new neighbours.

Calls come one after the other.  In `link` the threads take the reverse edges of a batch in any
order; this order and that of a `tsl::robin_set` are parameters.  The vectors of the arrays are
functions, of which the first `_max_points + _num_frozen_pts` values count.
-/

namespace DiskANNEval.FreshDiskANN

open Lib Function
open PipeANN (FixedPoint.iterateToFixedPoint)

/-- What is fixed for an index: the arguments of the constructor, `_distance->compare`,
`numeric_limits<float>::max()`, the distance to the mean of some vectors, and the order of a
`tsl::robin_set` and its first element. -/
structure EagerConfig (D V : Type) where
  maxPoints : ℕ
  numFrozenPts : ℕ
  enableTags : Bool
  compare : V → V → D
  compare_comm : ∀ v w, compare v w = compare w v
  zeros : V
  maxDist : D
  centerDist : List V → V → D
  setOrder : List ℕ → List ℕ
  setOrder_perm : ∀ l, (setOrder l).Perm l
  firstSlot : Finset ℕ → ℕ
  firstSlot_mem : ∀ slots, slots.Nonempty → firstSlot slots ∈ slots

/-- `_max_points + _num_frozen_pts` -/
def EagerConfig.total {D V : Type} (c : EagerConfig D V) : ℕ := c.maxPoints + c.numFrozenPts

/-- `Parameters`; `alpha` is a number below the largest one. -/
structure EagerParams (D : Type) where
  pruning : Pruning D
  belowMax : pruning.AlphaBelowMax
  L : ℕ
  L_pos : 0 < L

/-- The parameters of a build: in the first pass of `link` the value of `alpha` is `1`.
`threadOrder` is the order of the reverse edges of a batch, and `rand` the number that chooses the
frozen point. -/
structure EagerBuildParams (D : Type) where
  first : EagerParams D
  last : EagerParams D
  saturateGraph : Bool
  threadOrder : ℕ → ℕ → List (ℕ × ℕ) → List (ℕ × ℕ)
  threadOrder_perm : ∀ rnd sync l, (threadOrder rnd sync l).Perm l
  rand : ℕ

structure EagerIndex (V Tag : Type) where
  data : ℕ → V
  finalGraph : ℕ → List ℕ
  inGraph : ℕ → List ℕ
  nd : ℕ
  ep : ℕ
  saturateGraph : Bool
  tagToLocation : Tag → Option ℕ
  locationToTag : ℕ → Option Tag
  deleteSet : Finset ℕ
  emptySlots : Finset ℕ
  canDelete : Bool
  eagerDone : Bool
  lazyDone : Bool
  dataCompacted : Bool

namespace EagerIndex

variable {D V Tag : Type} (c : EagerConfig D V)

/-- `Index(m, dim, max_points, num_frozen_pts, enable_tags, store_data, true)` -/
def new : EagerIndex V Tag where
  data := fun _ => c.zeros
  finalGraph := fun _ => []
  inGraph := fun _ => []
  nd := 0
  ep := c.maxPoints
  saturateGraph := false
  tagToLocation := fun _ => none
  locationToTag := fun _ => none
  deleteSet := ∅
  emptySlots := ∅
  canDelete := false
  eagerDone := false
  lazyDone := false
  dataCompacted := true

def setNbrs (s : EagerIndex V Tag) (a : ℕ) (nbrs : List ℕ) : EagerIndex V Tag :=
  { s with finalGraph := Function.update s.finalGraph a nbrs }

/-! ### Searching and pruning -/

section Search

variable (p : EagerParams D) (s : EagerIndex V Tag)

/-- What `iterate_to_fixed_point` reads. -/
def searchGraph (query : V) : PipeANN.FixedPoint.Graph D :=
  ⟨s.finalGraph, fun id => c.compare (s.data id) query, c.total, p.L, p.L_pos⟩

/-- `get_expanded_nodes`, whose set is that of the ids; `none`: `exit(-1)`. -/
def getExpandedNodes [LinearOrder D] [Zero D] (nodeId : ℕ) : Option (List (Neighbor D)) :=
  if s.ep < c.total then
    (FixedPoint.iterateToFixedPoint (s.searchGraph c p (s.data nodeId)) c.maxDist s.ep).map
      fun r => r.expanded.map fun n => ⟨n.id, n.distance⟩
  else none

/-- The distance of two locations, as `occlude_list` asks for it. -/
def djk (a b : ℕ) : D := c.compare (s.data b) (s.data a)

def pruneNeighbors (location : ℕ) (pool : List (Neighbor D)) : List ℕ :=
  let pool := p.pruning.sort pool
  let prunedList :=
    ((p.pruning.occludeList (s.djk c) pool).map Neighbor.id).filter fun id => id ≠ location
  if s.saturateGraph then p.pruning.fill (pool.filter fun n => n.id ≠ location) prunedList
  else prunedList

/-- The loop that adds the neighbours to the pool that are not visited yet. -/
def addToPool (node : ℕ) (pool : List (Neighbor D)) (nbrs : List ℕ) : List (Neighbor D) :=
  nbrs.foldl (fun pool id =>
    if id ∈ pool.map Neighbor.id ∨ id = node then pool
    else pool ++ [⟨id, c.compare (s.data node) (s.data id)⟩]) pool

/-- A list that is too long is pruned. -/
def shortened (node : ℕ) (nbrs : List ℕ) : List ℕ :=
  s.pruneNeighbors c p node (s.addToPool c node [] nbrs)

end Search

/-! ### Building -/

section Build

variable [LinearOrder D] [Zero D] (p : EagerParams D) (b : EagerBuildParams D)
  (s : EagerIndex V Tag)

omit [Zero D] in
def calculateEntryPoint : ℕ :=
  let dist := fun i => c.centerDist ((List.range s.nd).map s.data) (s.data i)
  (List.range s.nd).foldl (fun minIdx i => if dist i < dist minIdx then i else minIdx) 0

omit [LinearOrder D] [Zero D] in
def visitOrder : List ℕ :=
  List.range s.nd ++ if 0 < c.numFrozenPts then [c.maxPoints] else []

omit [LinearOrder D] [Zero D] in
def numSyncs : ℕ := max 40 ((s.nd + c.numFrozenPts + 4095) / 4096)

omit [LinearOrder D] [Zero D] in
/-- The nodes of a batch. -/
def batch (syncNum : ℕ) : List ℕ :=
  let roundSize := (s.nd + (s.numSyncs c - 1)) / s.numSyncs c
  ((s.visitOrder c).take (min (s.nd + c.numFrozenPts) ((syncNum + 1) * roundSize))).drop
    (syncNum * roundSize)

/-- A node and its `pruned_list`. -/
def searchNode (node : ℕ) : Option (ℕ × List ℕ) := do
  let pool ← s.getExpandedNodes c p node
  return (node, s.pruneNeighbors c p node (s.addToPool c node pool (s.finalGraph node)))

omit [LinearOrder D] [Zero D] in
/-- The body of the loop of `batch_inter_insert`, with `need_to_sync`. -/
def batchInterInsertAt (x : EagerIndex V Tag × Finset ℕ) (e : ℕ × ℕ) :
    EagerIndex V Tag × Finset ℕ :=
  let (s, needToSync) := x
  let (n, des) := e
  if des = n ∨ n ∈ s.finalGraph des then (s, needToSync)
  else
    (s.setNbrs des (s.finalGraph des ++ [n]),
      if p.pruning.range * 13 / 10 < (s.finalGraph des).length + 1 then insert des needToSync
      else needToSync)

omit [LinearOrder D] [Zero D] in
def shorten (node : ℕ) : EagerIndex V Tag :=
  s.setNbrs node (s.shortened c p node (s.finalGraph node))

/-- One batch: the searches, the lists, the reverse edges and the lists that are too long. -/
def linkBatch (order : List (ℕ × ℕ) → List (ℕ × ℕ)) (x : EagerIndex V Tag × Finset ℕ)
    (nodes : List ℕ) : Option (EagerIndex V Tag × Finset ℕ) := do
  let (s, needToSync) := x
  let lists ← nodes.mapM (s.searchNode c p)
  let s := lists.foldl (fun s l => s.setNbrs l.1 l.2) s
  let edges := lists.flatMap fun l => l.2.map fun des => (l.1, des)
  let (s, needToSync) := (order edges).foldl (batchInterInsertAt p) (s, needToSync)
  let s := ((s.visitOrder c).filter fun node => node ∈ needToSync).foldl (shorten c p) s
  return (s, needToSync \ (s.visitOrder c).toFinset)

/-- One pass over the data. -/
def pass (rndNo : ℕ) : Option (EagerIndex V Tag) :=
  ((List.range (s.numSyncs c)).foldlM
    (fun x syncNum => linkBatch c p (b.threadOrder rndNo syncNum) x (s.batch c syncNum))
    (s, ∅)).map Prod.fst

omit [LinearOrder D] [Zero D] in
/-- The body of the loop of the final cleanup. -/
def cleanup (node : ℕ) : EagerIndex V Tag :=
  if p.pruning.range < (s.finalGraph node).length then s.shorten c p node else s

def link : Option (EagerIndex V Tag) := do
  let s := { s with
    saturateGraph := b.saturateGraph
    ep := if 0 < c.numFrozenPts then c.maxPoints else s.calculateEntryPoint c }
  let s ← s.pass c b.first b 0
  let s ← s.pass c b.last b 1
  return (s.visitOrder c).foldl (cleanup c b.last) s

omit [LinearOrder D] [Zero D] in
def updateInGraph : EagerIndex V Tag :=
  { s with inGraph := startsOf s.finalGraph (List.range c.total) }

omit [LinearOrder D] [Zero D] in
/-- `generate_frozen_point`, which takes the number of `rand()`. -/
def generateFrozenPoint (rand : ℕ) : EagerIndex V Tag :=
  if c.numFrozenPts = 0 then s
  else
    { s with
      data := Function.update s.data c.maxPoints
        (if s.nd = 0 then c.zeros else s.data (rand % s.nd)) }

omit [LinearOrder D] [Zero D] in
/-- The index with the points and the tags of a build. -/
def loaded [DecidableEq Tag] (source : List V) (tags : List Tag) : EagerIndex V Tag :=
  let s := if c.enableTags then
      { s with
        tagToLocation :=
          tags.zipIdx.foldl (fun m x => Function.update m x.1 (some x.2)) s.tagToLocation
        locationToTag :=
          tags.zipIdx.foldl (fun m x => Function.update m x.2 (some x.1)) s.locationToTag }
    else s
  { s with nd := source.length, data := fun i => source.getD i (s.data i) }

/-- `none`: `exit(-2)`, or an `exit(-1)` of a search. -/
def build [DecidableEq Tag] (source : List V) (tags : List Tag) : Option (EagerIndex V Tag) :=
  if c.maxPoints < source.length then none
  else
    (((s.loaded c source tags).generateFrozenPoint c b.rand).link c b).map fun s => s.updateInGraph c

end Build

/-! ### Insertions -/

section Insert

variable (p : EagerParams D) (s : EagerIndex V Tag)

/-- A new edge, in both graphs. -/
def addEdge (a b : ℕ) : EagerIndex V Tag :=
  { s with
    finalGraph := Function.update s.finalGraph a (s.finalGraph a ++ [b])
    inGraph := Function.update s.inGraph b (s.inGraph b ++ [a]) }

/-- The list of `a` is replaced, in both graphs. -/
def relist (a : ℕ) (nbrs : List ℕ) : EagerIndex V Tag :=
  { s with
    finalGraph := Function.update s.finalGraph a nbrs
    inGraph := appendEach (eraseEach s.inGraph a (s.finalGraph a)) a nbrs }

/-- The body of the loop of `inter_insert`. -/
def interInsertAt (n : ℕ) (s : EagerIndex V Tag) (des : ℕ) : EagerIndex V Tag :=
  if n ∈ s.finalGraph des then s
  else if 10 * (s.finalGraph des).length < 13 * p.pruning.range then s.addEdge des n
  else s.relist des (s.shortened c p des (s.finalGraph des ++ [n]))

def interInsert (n : ℕ) (prunedList : List ℕ) : EagerIndex V Tag :=
  prunedList.foldl (interInsertAt c p n) s

/-- The edges of the new point, without the reverse ones: the old list of its location is taken out of
`_in_graph` first. -/
def setEdges (location : ℕ) (prunedList : List ℕ) : EagerIndex V Tag :=
  { s with
    finalGraph := Function.update s.finalGraph location prunedList
    inGraph :=
      appendEach (removeEach s.inGraph location (s.finalGraph location)) location prunedList }

/-- The point at `location` is linked. -/
def linkPoint [LinearOrder D] [Zero D] (location : ℕ) : Option (EagerIndex V Tag) := do
  let pool ← s.getExpandedNodes c p location
  let prunedList :=
    s.pruneNeighbors c p location (pool.eraseP fun n => n.id = location)
  return (s.setEdges location prunedList).interInsert c p location prunedList

/-- The location that `reserve_location` gives. -/
def location : ℕ := if s.dataCompacted then s.nd else c.firstSlot s.emptySlots

/-- `reserve_location` where there is room. -/
def reserveLocation : EagerIndex V Tag :=
  if s.dataCompacted then { s with nd := s.nd + 1 }
  else
    { s with
      nd := s.nd + 1
      emptySlots := s.emptySlots.erase (s.location c)
      deleteSet := s.deleteSet.erase (s.location c) }

/-- The new point before it is linked. -/
def addPoint [DecidableEq Tag] (point : V) (tag : Tag) (location : ℕ) : EagerIndex V Tag :=
  { s with
    tagToLocation := Function.update s.tagToLocation tag (some location)
    locationToTag := Function.update s.locationToTag location (some tag)
    data := Function.update s.data location point }

/-- Without room nothing changes.  `none`: the tag exists, there is no empty slot, or the search
ends the process. -/
def insertPoint [DecidableEq Tag] [LinearOrder D] [Zero D] (point : V) (tag : Tag) :
    Option (EagerIndex V Tag) :=
  if c.enableTags && (s.tagToLocation tag).isSome then none
  else if c.maxPoints ≤ s.nd then some s
  else if !s.dataCompacted ∧ s.emptySlots = ∅ then none
  else ((s.reserveLocation c).addPoint point tag (s.location c)).linkPoint c p (s.location c)

end Insert

/-! ### Deletions -/

section Delete

variable (p : EagerParams D) (s : EagerIndex V Tag)

def enableDelete : EagerIndex V Tag :=
  if s.canDelete || !c.enableTags then s
  else
    let s := if s.dataCompacted then
        { s with emptySlots := s.emptySlots ∪ Finset.Ico s.nd c.maxPoints, dataCompacted := false }
      else s
    ({ s with lazyDone := false, eagerDone := false, canDelete := true } : EagerIndex V Tag).updateInGraph c

/-- The candidates for the new list of `ngh`, with their distances. -/
def expandedNghrs (id ngh : ℕ) : List (Neighbor D) :=
  let candidateSet := c.setOrder (((s.finalGraph id ++ s.finalGraph ngh).filter fun j =>
    j ≠ id ∧ j ≠ ngh ∧ j ∉ s.deleteSet).dedup)
  candidateSet.map fun j => ⟨j, c.compare (s.data ngh) (s.data j)⟩

/-- The body of the loop over the in-neighbours that get new edges. -/
def repair (id : ℕ) (s : EagerIndex V Tag) (ngh : ℕ) : EagerIndex V Tag :=
  if ngh ∈ s.deleteSet then s
  else
    let result := p.pruning.occludeList (s.djk c) (p.pruning.sort (s.expandedNghrs c id ngh))
    let nbrs := (result.map Neighbor.id).filter fun j => j ∉ s.deleteSet
    { s with
      finalGraph := Function.update s.finalGraph ngh nbrs
      inGraph := insertEach (eraseEach s.inGraph ngh (s.finalGraph ngh)) ngh nbrs }

/-- The location loses its tag, and its own edges in `_in_graph`. -/
def dropTag [DecidableEq Tag] (tag : Tag) (id : ℕ) : EagerIndex V Tag :=
  { s with
    locationToTag := Function.update s.locationToTag id none
    tagToLocation := Function.update s.tagToLocation tag none
    deleteSet := insert id s.deleteSet
    emptySlots := insert id s.emptySlots
    inGraph := eraseEach s.inGraph id (s.finalGraph id) }

/-- The in-neighbours to which `delete_mode` 2 gives new edges, in the order of the visited nodes. -/
def intersection [LinearOrder D] [Zero D] (deleteMode : ℤ) (id : ℕ) : Option (List ℕ) :=
  if deleteMode = 2 then
    (s.getExpandedNodes c p id).map fun pool =>
      (c.setOrder (pool.map Neighbor.id)).filter fun node => node ∈ s.inGraph id
  else some []

/-- No in-neighbour mentions the location any more. -/
def removeFromInNbrs (id : ℕ) : EagerIndex V Tag :=
  { s with
    finalGraph := fun i =>
      if i ∈ s.inGraph id then (s.finalGraph i).filter (· ≠ id) else s.finalGraph i }

/-- The lists of the location are emptied, and the location is released. -/
def clearLists (id : ℕ) : EagerIndex V Tag :=
  { s with
    finalGraph := Function.update s.finalGraph id []
    inGraph := Function.update s.inGraph id []
    nd := (s.nd + (2 ^ 64 - 1)) % 2 ^ 64
    eagerDone := true }

/-- The location that `eager_delete` takes from the tag. -/
def deletedLocation (tag : Tag) : Option ℕ :=
  if s.lazyDone && !s.dataCompacted then none else s.tagToLocation tag

/-- Where there is no location to delete nothing changes.  `none`: the search ends the process, or the
location is behind the arrays. -/
def eagerDelete [DecidableEq Tag] [LinearOrder D] [Zero D] (tag : Tag) (deleteMode : ℤ) :
    Option (EagerIndex V Tag) :=
  match s.deletedLocation tag with
  | none => some s
  | some id =>
    if id < c.total then do
      let s := s.dropTag tag id
      let intersection ← s.intersection c p deleteMode id
      return (intersection.foldl (repair c p id) (s.removeFromInNbrs id)).clearLists id
    else none

end Delete

end EagerIndex

end DiskANNEval.FreshDiskANN
