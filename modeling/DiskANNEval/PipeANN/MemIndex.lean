import DiskANNEval.PipeANN.FixedPoint
import DiskANNEval.PipeANN.PruneNeighbors

/-!
# MemIndex — the index in memory

A point gets a free location and is linked into the graph; a tag that is deleted, or inserted again,
leaves its location behind in `_delete_set`, and the location stays in the graph until `consolidate`
moves the tagged locations together.

Calls come one after the other.  `tsl::robin_set` decides which free location is the first, so an
insertion is given one; in `consolidate` the order of the set of neighbours is a parameter.  The
vectors of the arrays are functions, of which the first `max_points()` values count.
-/

namespace DiskANNEval.PipeANN

/-- What is fixed for an index: `distance->compare`, the normalization of its metric (the identity
but for cosine), a vector of zeros, `TagT()`, `numeric_limits<float>::max()`, the distance to the mean
of some vectors, and `max_points() * INDEX_GROWTH_FACTOR`, in `float`. -/
structure MemConfig (D Vec Tag : Type) where
  compare : Vec → Vec → D
  compare_comm : ∀ v w, compare v w = compare w v
  normalize : Vec → Vec
  zeros : Vec
  tagInit : Tag
  maxDist : D
  centerDist : List Vec → Vec → D
  growth : ℕ → ℕ
  lt_growth : ∀ n, 50000 ≤ n → n < growth n
  setOrder : List ℕ → List ℕ
  setOrder_perm : ∀ l, (setOrder l).Perm l

/-- `IndexBuildParameters`; `slack` is `(uint64_t)(SLACK_FACTOR * R)`, and the distances of `pruning`
are those of the index. -/
structure MemParams (D : Type) where
  pruning : Pruning D
  L : ℕ
  L_pos : 0 < L
  slack : ℕ

structure MemIndex (Vec Tag : Type) where
  data : ℕ → Vec
  maxPoints : ℕ
  finalGraph : ℕ → List ℕ
  nd : ℕ
  ep : ℕ
  tagToLocation : Tag → Option ℕ
  locationToTag : ℕ → Option Tag
  deleteSet : Finset ℕ
  emptySlots : Finset ℕ

namespace MemIndex

variable {D Vec Tag : Type} (c : MemConfig D Vec Tag)

/-- `Index(m, dim)` -/
def fresh : MemIndex Vec Tag where
  data := fun _ => c.zeros
  maxPoints := 0
  finalGraph := fun _ => []
  nd := 0
  ep := 0
  tagToLocation := fun _ => none
  locationToTag := fun _ => none
  deleteSet := ∅
  emptySlots := ∅

def setNbrs (s : MemIndex Vec Tag) (id : ℕ) (nbrs : List ℕ) : MemIndex Vec Tag :=
  { s with finalGraph := Function.update s.finalGraph id nbrs }

/-! ### Linking -/

section Link

variable [LinearOrder D] [Zero D] (p : MemParams D) (s : MemIndex Vec Tag)

/-- What `iterate_to_fixed_point` reads. -/
def searchGraph (query : Vec) (Lsize : ℕ) (hL : 0 < Lsize) : FixedPoint.Graph D :=
  ⟨s.finalGraph, fun id => c.compare (s.data id) query, s.maxPoints, Lsize, hL⟩

def getExpandedNodes (nodeId : ℕ) : Option (List (Neighbor D)) :=
  (FixedPoint.iterateToFixedPoint (s.searchGraph c (s.data nodeId) p.L p.L_pos) c.maxDist s.ep).map
    FixedPoint.State.expanded

omit [LinearOrder D] [Zero D] in
/-- `prune_neighbors` with the distances of the index. -/
def pruneNeighbors (pool : List (Neighbor D)) (prunedList : List ℕ) : List ℕ :=
  Pruning.pruneNeighbors
    { p.pruning with dist := fun a b => c.compare (s.data a) (s.data b) } pool prunedList

omit [LinearOrder D] [Zero D] in
/-- A pool of the neighbours of `id`, without itself. -/
def nbrPool (id : ℕ) (nbrs : List ℕ) : List (Neighbor D) :=
  (nbrs.filter (· ≠ id)).map fun nbr => .new nbr (c.compare (s.data id) (s.data nbr)) true

omit [LinearOrder D] [Zero D] in
/-- The body of the loop of `inter_insert`. -/
def interInsertAt (n des : ℕ) : MemIndex Vec Tag :=
  if n ∈ s.finalGraph des then s
  else if (s.finalGraph des).length < p.slack then s.setNbrs des (s.finalGraph des ++ [n])
  else s.setNbrs des (s.pruneNeighbors c p (s.nbrPool c des (s.finalGraph des ++ [n])) [])

omit [LinearOrder D] [Zero D] in
def interInsert (n : ℕ) (prunedList : List ℕ) : MemIndex Vec Tag :=
  prunedList.foldl (fun s des => s.interInsertAt c p n des) s

/-- The search and the edges of one node, in `link` and in `insert_point`. -/
def linkNode (node : ℕ) : Option (MemIndex Vec Tag) := do
  let pool ← s.getExpandedNodes c p node
  let prunedList := s.pruneNeighbors c p (pool.filter fun n => n.id ≠ node) []
  return (s.setNbrs node prunedList).interInsert c p node prunedList

end Link

/-! ### Building -/

section Build

variable [LinearOrder D] [Zero D] (p : MemParams D) (s : MemIndex Vec Tag)

omit [Zero D] in
/-- The nearest of some points to the mean, as `AtomicDistance` keeps it. -/
def nearest (ids : List ℕ) : ℕ × D :=
  let dist := fun i => c.centerDist ((List.range s.nd).map s.data) (s.data i)
  ids.foldl (fun b i => if dist i < b.2 then (i, dist i) else b) (0, c.maxDist)

omit [Zero D] in
/-- The points `65536` in a block, and each `256`th block together. -/
def calculateEntryPoint : ℕ :=
  let block := fun k => s.nearest c ((List.range s.nd).filter fun i => i / 65536 % 256 = k)
  ((List.range 256).foldl
    (fun (b : ℕ × D) k => if (block k).2 < b.2 then block k else b) (0, c.maxDist)).1

omit [LinearOrder D] [Zero D] in
/-- The final cleanup of a list that is too long. -/
def cleanup (node : ℕ) : MemIndex Vec Tag :=
  if p.pruning.R < (s.finalGraph node).length then
    s.setNbrs node (s.pruneNeighbors c p (s.nbrPool c node (s.finalGraph node)) [])
  else s

/-- `order` is the order in which the threads take the nodes. -/
def link (order : List ℕ) : Option (MemIndex Vec Tag) := do
  let s := { s with ep := s.calculateEntryPoint c }
  let s ← order.foldlM (fun s node => s.linkNode c p node) s
  return (List.range s.nd).foldl (fun s node => s.cleanup c p node) s

variable [DecidableEq Tag]

omit [LinearOrder D] [Zero D] in
/-- `_tag_to_location` of the first points. -/
def tagMap (tags : List Tag) : Tag → Option ℕ :=
  tags.zipIdx.foldl (fun m x => Function.update m x.1 (some x.2)) fun _ => none

omit [LinearOrder D] [Zero D] in
/-- The new index before it is linked. -/
def loaded (vecs : List Vec) (tags : List Tag) : MemIndex Vec Tag :=
  { fresh c with
    data := fun i => vecs.getD i c.zeros
    maxPoints := vecs.length
    nd := tags.length
    tagToLocation := tagMap tags
    locationToTag := fun i => tags[i]? }

/-- `build` of a new index from the vectors of a file, the first `tags.length` of which are loaded;
`none`: `crash()`. -/
def build (vecs : List Vec) (normalizeCosine : Bool) (tags : List Tag) (order : List ℕ) :
    Option (MemIndex Vec Tag) :=
  if vecs.length < tags.length then none
  else do
    let s ← MemIndex.link c p
      (loaded c (if normalizeCosine then vecs.map c.normalize else vecs) tags) order
    return { s with emptySlots := s.emptySlots ∪ Finset.Ico s.nd s.maxPoints }

end Build

/-! ### Updates -/

section Update

variable [DecidableEq Tag] (s : MemIndex Vec Tag)

/-- The location of the tag, if it has one, is deleted. -/
def dropTag (tag : Tag) : MemIndex Vec Tag :=
  match s.tagToLocation tag with
  | none => s
  | some location =>
    { s with
      deleteSet := insert location s.deleteSet
      locationToTag := Function.update s.locationToTag location none
      tagToLocation := Function.update s.tagToLocation tag none }

def lazyDelete (tag : Tag) : MemIndex Vec Tag := s.dropTag tag

omit [DecidableEq Tag] in
def resize (newMaxPoints : ℕ) : MemIndex Vec Tag :=
  let newMaxPoints := max newMaxPoints 50000
  { s with
    data := fun i => if i < s.maxPoints then s.data i else c.zeros
    maxPoints := newMaxPoints
    finalGraph := fun i => if i < s.maxPoints then s.finalGraph i else []
    emptySlots := s.emptySlots ∪ Finset.Ico s.nd newMaxPoints }

omit [DecidableEq Tag] in
/-- The loop that waits for a location: with `_nd >= max_points()` there is none. -/
def grow : MemIndex Vec Tag := if s.maxPoints ≤ s.nd then s.resize c (c.growth s.maxPoints) else s

omit [DecidableEq Tag] in
/-- `reserve_location`, where `location` is the first of `_empty_slots`. -/
def reserveLocation (location : ℕ) : MemIndex Vec Tag :=
  { s with
    emptySlots := s.emptySlots.erase location
    deleteSet := s.deleteSet.erase location
    nd := s.nd + 1 }

/-- The new point before it is linked. -/
def addPoint (point : Vec) (tag : Tag) (location : ℕ) : MemIndex Vec Tag :=
  { s with
    tagToLocation := Function.update s.tagToLocation tag (some location)
    locationToTag := Function.update s.locationToTag location (some tag)
    data := Function.update s.data location (c.normalize point) }

/-- `none`: the location is not free, or `crash()`. -/
def insertPoint [LinearOrder D] [Zero D] (p : MemParams D) (point : Vec) (tag : Tag)
    (location : ℕ) : Option (MemIndex Vec Tag) :=
  let s := (s.dropTag tag).grow c
  if location ∈ s.emptySlots then
    ((s.reserveLocation location).addPoint c point tag location).linkNode c p location
  else none

end Update

/-! ### Consolidation -/

section Consolidate

variable (s : MemIndex Vec Tag)

/-- The tagged locations before `i`. -/
def newId (i : ℕ) : ℕ := Nat.count (fun j => (s.locationToTag j).isSome = true) i

/-- `id_map`, without `kInvalidID`. -/
def idMap (i : ℕ) : Option ℕ :=
  if i < s.maxPoints ∧ (s.locationToTag i).isSome = true then some (s.newId i) else none

def newNd : ℕ := s.newId s.maxPoints

/-- `new_nbrs_set`, in its order. -/
def nbrSet (id : ℕ) : List ℕ :=
  c.setOrder ((s.finalGraph id).flatMap fun nbr =>
    if (s.idMap nbr).isSome then [nbr]
    else (s.finalGraph nbr).filter fun n => (s.idMap n).isSome ∧ n ≠ id).dedup

/-- `kInvalidID` -/
def invalidId : ℕ := 2 ^ 32 - 1

/-- The new list of a tagged location. -/
def newNbrs (p : MemParams D) (id : ℕ) : List ℕ :=
  let nbrs := s.nbrSet c id
  let nbrs := if p.pruning.R < nbrs.length then
      s.pruneNeighbors c p (nbrs.map fun nbr => .new nbr (c.compare (s.data id) (s.data nbr)) true) nbrs
    else nbrs
  nbrs.map fun nbr => (s.idMap nbr).getD invalidId

/-- The body of the loop that moves the elements at the tagged locations together. -/
def moveElement {α : Type} (a : ℕ → α) (oldId : ℕ) : ℕ → α :=
  match s.idMap oldId with
  | some newId => if newId = oldId then a else Function.update a newId (a oldId)
  | none => a

def compact {α : Type} (a : ℕ → α) : ℕ → α := (List.range s.maxPoints).foldl s.moveElement a

/-- The lists after they are updated, where they are. -/
def updatedGraph (p : MemParams D) (id : ℕ) : List ℕ :=
  if (s.idMap id).isSome then s.newNbrs c p id else s.finalGraph id

/-- The tag whose pair in `_tag_to_location` has a location with the new id. -/
def newTag [DecidableEq Tag] (newId : ℕ) : Option Tag := do
  let oldLoc ← (List.range s.maxPoints).find? fun oldLoc => s.idMap oldLoc = some newId
  let tag ← s.locationToTag oldLoc
  if s.tagToLocation tag = some oldLoc then some tag else none

/-- The index before the new entry point is searched for. -/
def compacted [DecidableEq Tag] (p : MemParams D) : MemIndex Vec Tag :=
  { s with
    data := s.compact s.data
    finalGraph := fun i => if i < s.newNd then s.compact (s.updatedGraph c p) i else []
    tagToLocation := fun tag => (s.tagToLocation tag).bind s.idMap
    locationToTag := s.newTag
    nd := s.newNd
    deleteSet := ∅
    emptySlots := Finset.Ico s.newNd s.maxPoints }

/-- The ids that `search` writes. -/
def search [LinearOrder D] [Zero D] (query : Vec) (K L : ℕ) (hL : 0 < L) : Option (List ℕ) :=
  (FixedPoint.iterateToFixedPoint (s.searchGraph c (c.normalize query) L hL) c.maxDist s.ep).map
    fun r => ((r.pool.filter fun n => n.id < s.maxPoints).map Neighbor.id).take K

def consolidate [DecidableEq Tag] [LinearOrder D] [Zero D] (p : MemParams D) :
    Option (MemIndex Vec Tag) :=
  if s.deleteSet = ∅ then some s
  else do
    let s' := s.compacted c p
    let indices ← s'.search c (s.data s.ep) 1 10 (by decide)
    return { s' with ep := indices.headD s'.ep }

end Consolidate

end MemIndex

end DiskANNEval.PipeANN
