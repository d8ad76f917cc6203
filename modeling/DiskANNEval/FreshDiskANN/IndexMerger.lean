import DiskANNEval.FreshDiskANN.NodeFile
import DiskANNEval.FreshDiskANN.OccludeList

/-!
# IndexMerger — a merge of memory indices into a disk index

`process_deletes` repairs the lists in place and writes a header for lists of at most `range`.  The
ids of the nodes that are deleted or have no neighbours, and then new ones, are handed out to the
points of the memory indices that are not deleted.  The disk index is reloaded under the new header;
each of these points is searched for, and its edges are kept apart until `process_merges` adds them
to the records.

A node is repaired, and merged, from its own record, so the passes over the file are without the
chunks of `SECTORS_PER_MERGE` sectors; the read offset of `scan_deleted_nodes` stays at the first
chunk.  Ids are natural numbers, since they fit into 32 bits (`ids_fit`).  `none` is an exit, or
something undefined: a division by the `nnodes_per_sector` of the header, an element of an empty
list, or a row behind the end of an array.
-/

namespace DiskANNEval.FreshDiskANN

open Lib

/-- The `ndims * sizeof(T)` bytes of a vector. -/
abbrev Vec := List UInt8

def sectorsPerMerge : ℕ := 65536

def maxPtsPerMemIndex : ℕ := 2 ^ 25

def indexOffset : ℕ := maxPtsPerMemIndex * 4

/-- `ROUND_UP(X, Y)` -/
def roundUp (x y : ℕ) : ℕ := (x / y + if x % y ≠ 0 then 1 else 0) * y

/-- Paths from `entry` along the lists. -/
def Reachable (graph : ℕ → DiskNode) (entry id : ℕ) : Prop :=
  Relation.ReflTransGen (fun a b => b ∈ (graph a).nbrs) entry id

/-- What the constructor has loaded; `degree` is the maximum degree of the file, and a memory index
is its rows with their tags.  `setOrder` is the iteration order of a `robin_set`, `deltaOrder` the
order in which the inserting threads come to a list, and `search` the nodes that
`disk_iterate_to_fixed_point` has expanded, without the excluded ones. -/
structure IndexMerger (D Code Tag : Type) where
  pruning : Pruning D
  coordsLen : ℕ
  degree : ℕ
  disk : ByteFile
  diskNpts : ℕ
  diskTags : ℕ → Tag
  invalidTag : Tag
  initId : ℕ
  pqData : ℕ → Code
  deflateVec : Vec → Code
  pqDist : Code → Code → D
  distCmp : Vec → Vec → D
  mem : List (List (Vec × Tag))
  deletedTags : Finset Tag
  setOrder : List ℕ → List ℕ
  setOrder_perm : ∀ l, (setOrder l).Perm l
  deltaOrder : List ℕ → List ℕ
  deltaOrder_perm : ∀ l, (deltaOrder l).Perm l
  search : (ℕ → DiskNode) → ℕ → Finset ℕ → Vec → List (Neighbor D)
  search_nodup : ∀ g e ex v, ((search g e ex v).map Neighbor.id).Nodup
  search_excluded : ∀ g e ex v, ∀ n ∈ search g e ex v, n.id ∉ ex
  search_reachable : ∀ g e ex v, ∀ n ∈ search g e ex v, Reachable g e n.id
  npts_pos : 0 < diskNpts
  init_lt : initId < 2 ^ 32
  mem_dims : ∀ pts ∈ mem, ∀ p ∈ pts, p.1.length = coordsLen
  mem_small : ∀ pts ∈ mem, pts.length < maxPtsPerMemIndex
  ids_fit : roundUp diskNpts indexOffset + mem.length * indexOffset ≤ 2 ^ 32

/-- What is written: the tags, the header and the records behind it, and the PQ codes. -/
structure Merged (Code Tag : Type) where
  npts : ℕ
  tags : List Tag
  layout : Layout
  medoid : ℕ
  file : ByteFile
  pqData : ℕ → Code

/-- `std::lower_bound` in a sorted list of pairs, and the comparison that follows. -/
def lookupId (pairs : List (ℕ × ℕ)) (id : ℕ) : Option ℕ :=
  match pairs.find? fun p => id ≤ p.1 with
  | some p => if p.1 = id then some p.2 else none
  | none => none

namespace IndexMerger

variable {D Code Tag : Type} [DecidableEq Tag] (m : IndexMerger D Code Tag)

/-- The layout of the input file. -/
def layout : Layout := .ofRange m.coordsLen m.degree

/-- The layout of the header that is written. -/
def outLayout : Layout := .ofRange m.coordsLen m.pruning.range

/-! ### Deletes -/

def diskDeletedIds : Finset ℕ :=
  (Finset.range m.diskNpts).filter fun id => m.diskTags id ∈ m.deletedTags

def diskNode (id : ℕ) : DiskNode := m.layout.readNode m.disk id

/-- The record that `scan_deleted_nodes` takes for that of `id`. -/
def scannedNode (id : ℕ) : DiskNode :=
  m.diskNode (id % (sectorsPerMerge * m.layout.nnodesPerSector))

/-- `disk_deleted_nhoods` -/
def deletedNhood (id : ℕ) : List ℕ :=
  (m.scannedNode id).nbrs.filter fun nbr => nbr ∉ m.diskDeletedIds

/-- `compute_pq_dists` with the codes of the input. -/
def pqDists (src id : ℕ) : D := m.pqDist (m.pqData src) (m.pqData id)

/-- The neighbours, those of the deleted ones in their place, without the deleted. -/
def newEdges (id : ℕ) : List ℕ :=
  (m.setOrder ((m.diskNode id).nbrs.flatMap fun nbr =>
    if nbr ∈ m.diskDeletedIds then m.deletedNhood nbr else [nbr]).dedup).filter
      fun nbr => nbr ∉ m.diskDeletedIds

/-- `consolidate_deletes` and the list that the node has then; `none`: all neighbours of its
neighbours are deleted. -/
def consolidateDeletes (id : ℕ) : Option (List ℕ) :=
  if (m.diskNode id).nbrs = [] ∨ id ∈ m.diskDeletedIds then some []
  else if ∀ nbr ∈ (m.diskNode id).nbrs, nbr ∉ m.diskDeletedIds then some (m.diskNode id).nbrs
  else if m.newEdges id = [] then none
  else
    let candNbrs := m.pruning.sort ((m.newEdges id).map fun nbr => ⟨nbr, m.pqDists id nbr⟩)
    some ((m.pruning.occludeList m.pqDists (candNbrs.take m.pruning.maxc)).map Neighbor.id)

/-- The list of a node after `process_deletes`. -/
def repaired (id : ℕ) : List ℕ := (m.consolidateDeletes id).getD []

/-- The record is written by `consolidate_deletes`. -/
def Touched (id : ℕ) : Prop :=
  (m.diskNode id).nbrs = [] ∨ id ∈ m.diskDeletedIds ∨
    ∃ nbr ∈ (m.diskNode id).nbrs, nbr ∈ m.diskDeletedIds

instance (id : ℕ) : Decidable (m.Touched id) := inferInstanceAs (Decidable (_ ∨ _ ∨ _))

/-- The records that `process_deletes` writes. -/
def consolidatedFile : ByteFile :=
  (List.range m.diskNpts).foldl
    (fun f id => if m.Touched id then m.layout.writeNbrs f id (m.repaired id) else f) m.disk

/-- The start node; `none`: the first of no neighbours. -/
def newMedoid : Option ℕ :=
  if m.initId ∈ m.diskDeletedIds then (m.deletedNhood m.initId).head? else some m.initId

/-! ### Renaming -/

def offsetId (i : ℕ) : ℕ := roundUp m.diskNpts indexOffset + i * indexOffset

/-- The points of a memory index that are not deleted. -/
def survivors (pts : List (Vec × Tag)) : List ℕ :=
  (pts.zipIdx.filter fun x => x.1.2 ∉ m.deletedTags).map Prod.snd

/-- The points to insert: their offset ids, and their places in their indices. -/
def inserts : List (ℕ × ℕ) :=
  m.mem.zipIdx.flatMap fun x => (m.survivors x.1).map fun j => (m.offsetId x.2 + j, j)

/-- `free_ids` after `process_deletes`. -/
def holes : List ℕ :=
  (List.range m.diskNpts).filter fun id => m.repaired id = [] ∨ id ∈ m.diskDeletedIds

def freeIds : List ℕ :=
  m.holes ++ List.range' m.diskNpts (m.inserts.length - m.holes.length)

def renameList : List (ℕ × ℕ) := (m.inserts.map Prod.fst).zip m.freeIds

def inverseList : List (ℕ × ℕ) := m.freeIds.zip (m.inserts.map Prod.fst)

def rename (id : ℕ) : Option ℕ := lookupId m.renameList id

def renameInverse (renamedId : ℕ) : Option ℕ := lookupId m.inverseList renamedId

def renameEdges (ids : List ℕ) : List ℕ := ids.map fun id => (m.rename id).getD id

/-- `get_index_id` -/
def indexId (offsetId : ℕ) : Option ℕ :=
  if offsetId < m.offsetId 0 then none else some ((offsetId - m.offsetId 0) / indexOffset)

/-- The row and the tag of a point of a memory index. -/
def memPoint (offsetId : ℕ) : Option (Vec × Tag) := do
  let indexNo ← m.indexId offsetId
  let pts ← m.mem[indexNo]?
  pts[offsetId - m.offsetId indexNo]?

/-- `get_mem_data` -/
def memData (offsetId : ℕ) : Option Vec := (m.memPoint offsetId).map Prod.fst

/-- The tag that `write_tag_file` writes. -/
def tagOut (id : ℕ) : Tag :=
  let curTag := match m.renameInverse id with
    | none => m.diskTags id
    | some offsetId => ((m.memPoint offsetId).map Prod.snd).getD m.invalidTag
  if curTag ∈ m.deletedTags then m.invalidTag else curTag

/-! ### Inserts -/

/-- The reloaded disk index. -/
def graph (id : ℕ) : DiskNode := m.outLayout.readNode m.consolidatedFile id

/-- The rows behind `_data_load`, which the constructor has left at the last index. -/
def dataLoad : List Vec := (m.mem.getLast?.getD []).map Prod.fst

/-- `insert_mem_vec` up to the pruned list. -/
def newNhood (medoid : ℕ) (vec : Vec) : List ℕ :=
  m.pruning.pruneNeighbors (fun p t => m.distCmp (m.graph t).coords (m.graph p).coords)
    (m.search m.graph medoid m.diskDeletedIds vec)

/-- The list of the `j`th row. -/
def insertNhood (medoid j : ℕ) : List ℕ := ((m.dataLoad[j]?).map (m.newNhood medoid)).getD []

/-- The vector that is inserted under an offset id. -/
def insertVec (offsetId : ℕ) : Option Vec :=
  (m.inserts.find? fun x => x.1 = offsetId).bind fun x => m.dataLoad[x.2]?

/-- The vector that `process_inserts_pq` encodes for an id. -/
def pqVec : ℕ → Option Vec :=
  m.inserts.foldl (fun vecs x => match m.rename x.1 with
    | some id => Function.update vecs id m.dataLoad[x.2]?
    | none => vecs) fun _ => none

/-- The PQ codes after `process_inserts_pq`. -/
def newPqData (id : ℕ) : Code := ((m.pqVec id).map m.deflateVec).getD (m.pqData id)

/-- `get_edge_list` of a point that is inserted. -/
def memDelta (medoid offsetId : ℕ) : List ℕ :=
  m.renameEdges (((m.inserts.find? fun x => x.1 = offsetId).map
    fun x => m.insertNhood medoid x.2).getD [])

/-- `get_edge_list` of a node of the disk index: `inter_insert` has put the points that have it in
their lists. -/
def diskDelta (medoid id : ℕ) : List ℕ :=
  if id < m.diskNpts then
    m.renameEdges (m.deltaOrder (m.inserts.flatMap fun x =>
      ((m.insertNhood medoid x.2).filter (· = id)).map fun _ => x.1))
  else []

/-! ### Merges -/

/-- `prune_neighbors_pq` of a list that is too long. -/
def limited (id : ℕ) (nhood : List ℕ) : List ℕ :=
  let pqDists := fun src id => m.pqDist (m.newPqData src) (m.newPqData id)
  if m.pruning.range < nhood.length then
    m.pruning.pruneNeighbors pqDists (nhood.map fun nbr => ⟨nbr, pqDists id nbr⟩)
  else nhood

/-- The body of the loop of `process_merges`. -/
def mergeNode (medoid : ℕ) (f : ByteFile) (id : ℕ) : Option ByteFile :=
  match m.renameInverse id with
  | some offsetId => do
    let vec ← m.memData offsetId
    let deltas := m.memDelta medoid offsetId
    let f := m.outLayout.writeNbrs (m.outLayout.writeCoords f id vec) id []
    return if deltas = [] then f else m.outLayout.writeNbrs f id (m.limited id deltas)
  | none =>
    let deltas := m.diskDelta medoid id
    if deltas = [] then some f
    else some (m.outLayout.writeNbrs f id (m.limited id ((m.graph id).nbrs ++ deltas)))

/-- `inverse_list.back().first`, and `disk_npts - 1`. -/
def newNpts : Option ℕ := m.inverseList.getLast?.map fun p => max p.1 (m.diskNpts - 1) + 1

/-- No exit, and nothing undefined, before the lists are merged. -/
def Runs : Prop :=
  0 < m.outLayout.nnodesPerSector ∧ (∀ id < m.diskNpts, (m.consolidateDeletes id).isSome) ∧
    ∀ x ∈ m.inserts, x.2 < m.dataLoad.length

instance : Decidable m.Runs := inferInstanceAs (Decidable (_ ∧ _ ∧ _))

def merge : Option (Merged Code Tag) :=
  if m.Runs then do
    let medoid ← m.newMedoid
    let npts ← m.newNpts
    let file ← (List.range npts).foldlM (m.mergeNode medoid) m.consolidatedFile
    return ⟨npts, (List.range npts).map m.tagOut, m.outLayout, medoid, file, m.newPqData⟩
  else none

end IndexMerger

/-! ### Small indices -/

theorem tenths_lt_irrefl (d : ℕ) : decide (d < d) = false := decide_eq_false (lt_irrefl d)

/-- Numbers in tenths. -/
def tenths : PipeANN.Floats ℕ where
  lt a b := a < b
  le a b := a ≤ b
  eq a b := a = b
  mul a b := a * b / 10
  div a b := if b = 0 then 1000 else 10 * a / b
  max := max
  zero := 0
  one := 10
  alphaStep := 12
  almostOne := 9
  maxValue := 1000
  lt_irrefl := tenths_lt_irrefl

def tenthsPruning (range : ℕ) : Pruning ℕ where
  fl := tenths
  range
  maxc := 4
  alpha := 12
  sort := List.insertionSort fun p q => p.distance ≤ q.distance
  sort_perm := List.perm_insertionSort _
  rounds := 2
  rounds_enough := by decide
  not_one_lt_zero := by decide

/-- The sum of the bytes tells two vectors apart. -/
def byteDist (v w : Vec) : ℕ :=
  let sum := fun v : Vec => (v.map UInt8.toNat).sum
  max (sum v) (sum w) - min (sum v) (sum w)

/-- The entry and its neighbours are expanded. -/
def searchEntry (g : ℕ → DiskNode) (e : ℕ) (ex : Finset ℕ) (v : Vec) : List (Neighbor ℕ) :=
  ((e :: (g e).nbrs).dedup.filter fun id => id ∉ ex).map fun id => ⟨id, byteDist v (g id).coords⟩

theorem map_id_searchEntry {g : ℕ → DiskNode} {e : ℕ} {ex : Finset ℕ} {v : Vec} :
    (searchEntry g e ex v).map Neighbor.id =
      (e :: (g e).nbrs).dedup.filter fun id => id ∉ ex := by
  rw [searchEntry, List.map_map]
  exact List.map_id _

/-- The records of the nodes, written one after the other. -/
def nodesFile (l : Layout) (nodes : List DiskNode) : ByteFile :=
  nodes.zipIdx.foldl
    (fun f x => l.writeNbrs (l.writeCoords f x.2 x.1.coords) x.2 x.1.nbrs) fun _ => 0

/-- The sizes are such as the constructor finds them. -/
def SmallOk (coordsLen : ℕ) (nodes : List (DiskNode × ℕ)) (mem : List (List (Vec × ℕ))) : Prop :=
  0 < nodes.length ∧ (∀ pts ∈ mem, ∀ p ∈ pts, p.1.length = coordsLen) ∧
    (∀ pts ∈ mem, pts.length < maxPtsPerMemIndex) ∧
    roundUp nodes.length indexOffset + mem.length * indexOffset ≤ 2 ^ 32

instance (coordsLen : ℕ) (nodes : List (DiskNode × ℕ)) (mem : List (List (Vec × ℕ))) :
    Decidable (SmallOk coordsLen nodes mem) := inferInstanceAs (Decidable (_ ∧ _ ∧ _ ∧ _))

/-- A merge into the index of the nodes, all codes being the vectors themselves. -/
def smallMerger (coordsLen degree range : ℕ) (nodes : List (DiskNode × ℕ))
    (mem : List (List (Vec × ℕ))) (deletedTags : Finset ℕ) (h : SmallOk coordsLen nodes mem) :
    IndexMerger ℕ Vec ℕ where
  pruning := tenthsPruning range
  coordsLen
  degree
  disk := nodesFile (.ofRange coordsLen degree) (nodes.map Prod.fst)
  diskNpts := nodes.length
  diskTags id := (nodes[id]?.map Prod.snd).getD 99
  invalidTag := 99
  initId := 0
  pqData id := (nodes[id]?.map fun n => n.1.coords).getD []
  deflateVec v := v
  pqDist := byteDist
  distCmp := byteDist
  mem
  deletedTags
  setOrder l := l
  setOrder_perm := List.Perm.refl
  deltaOrder l := l
  deltaOrder_perm := List.Perm.refl
  search := searchEntry
  search_nodup g e ex v := by
    rw [map_id_searchEntry]
    exact (List.nodup_dedup _).filter _
  search_excluded g e ex v n hn := by
    have hid := List.mem_map_of_mem (f := Neighbor.id) hn
    rw [map_id_searchEntry] at hid
    exact of_decide_eq_true (List.mem_filter.1 hid).2
  search_reachable g e ex v n hn := by
    have hid := List.mem_map_of_mem (f := Neighbor.id) hn
    rw [map_id_searchEntry] at hid
    obtain h | h := List.mem_cons.1 (List.mem_dedup.1 (List.mem_filter.1 hid).1)
    · rw [h]
      exact .refl
    · exact .single h
  npts_pos := h.1
  init_lt := by decide
  mem_dims := h.2.1
  mem_small := h.2.2.1
  ids_fit := h.2.2.2

end DiskANNEval.FreshDiskANN
