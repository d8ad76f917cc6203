import DiskANNEval.Lib.Bytes
import Mathlib

/-!
# GraphPages — pages of adjacency lists

The partitioner computes how many nodes a graph page has (`capacity`), `relayout` writes the pages, and
`load_mem_graph` and `page_search_dup_graph` read them.  A page of the replica layout starts with a
vector; then come the number of nodes, room for `C` ids, and the lists.
-/

namespace DiskANNEval.Gorgeous

open Lib

/-- `GRAPH_ONLY` and `GRAPH_REPLICA` -/
inductive GraphMode
  | graphOnly
  | graphReplica
  deriving DecidableEq

/-- `index_relayout` and `index_relayout_free_mem` -/
inductive RelayoutTool
  | relayout
  | freeMem

/-- The sizes: those of the index, the lengths of a sector before and after, and `BS`. -/
structure GraphPages where
  dim : ℕ
  dim_pos : 0 < dim
  sizeT : ℕ
  sizeT_pos : 0 < sizeT
  maxDegree : ℕ
  diskannSectorLen : ℕ
  outputSectorLen : ℕ
  output_lt : outputSectorLen < 2 ^ 32
  bs : ℕ
  bs_pos : 0 < bs
  bs_lt : bs < 2 ^ 31

/-- The index, the nodes by their ids, and its first sector as it is copied. -/
structure VamanaGraph (x : GraphPages) where
  numPoints : ℕ
  numPoints_pos : 0 < numPoints
  vector : ℕ → List UInt8
  vector_length : ∀ id, (vector id).length = x.dim * x.sizeT
  nbrs : ℕ → List ℕ
  nbrs_length : ∀ id, (nbrs id).length ≤ x.maxDegree
  degree_lt : x.maxDegree < 2 ^ 32
  nbrs_lt : ∀ id, ∀ n ∈ nbrs id, n < 2 ^ 32
  /-- what a node has behind its neighbours -/
  unused : ℕ → List UInt8
  unused_length : ∀ id, (unused id).length = (x.maxDegree - (nbrs id).length) * 4
  header : List UInt8
  header_length : header.length = x.outputSectorLen

namespace GraphPages

variable (x : GraphPages)

def embNodeLen : ℕ := x.dim * x.sizeT

/-- `graph_node_len`, `max_node_len` without the vector -/
def graphNodeLen : ℕ := 4 + x.maxDegree * 4

/-- The vector in front of a page. -/
def embLen (mode : GraphMode) : ℕ :=
  match mode with
  | .graphOnly => 0
  | .graphReplica => x.embNodeLen

/-- `C`, with `_max_node_len` of the mode; the subtraction is one of `_u64`. -/
def capacity (mode : GraphMode) : ℕ :=
  match mode with
  | .graphOnly => x.outputSectorLen * x.bs / (x.graphNodeLen + 4)
  | .graphReplica =>
    (x.outputSectorLen * x.bs + (2 ^ 64 - x.embNodeLen % 2 ^ 64)) % 2 ^ 64 / (x.graphNodeLen + 4)

/-- Where the lists start. -/
def listsOff (mode : GraphMode) : ℕ := x.embLen mode + 4 + x.capacity mode * 4

/-- The bytes of a page with `C` nodes. -/
def pageLen (mode : GraphMode) : ℕ := x.listsOff mode + x.capacity mode * x.graphNodeLen

/-! ### The tools -/

variable {x} (g : VamanaGraph x) (tool : RelayoutTool) (mode : GraphMode)

/-- The node whose vector is copied to page `i`. -/
def vectorNode (i : ℕ) (layout : List ℕ) : Option ℕ :=
  match tool with
  | .relayout => layout.head?
  | .freeMem => some i

/-- What is copied of a list: `graph_node_len` bytes of the index, or the list only. -/
def graphNode (id : ℕ) : List UInt8 :=
  leBytes 4 (g.nbrs id).length ++ leList 4 (g.nbrs id) ++
    match tool with
    | .relayout => g.unused id
    | .freeMem => []

/-- The vector of a page of the replica layout, in `sector_buf`, which has `DISKANN_SECTOR_LEN` bytes;
`OUTPUT_SECTOR_LEN` of them are cleared. -/
def startPage (i : ℕ) (layout : List ℕ) : Option (List UInt8) :=
  if x.diskannSectorLen < x.outputSectorLen then none
  else
    match mode with
    | .graphOnly => some (List.replicate x.diskannSectorLen 0)
    | .graphReplica => (vectorNode tool i layout).bind fun id =>
      write (List.replicate x.diskannSectorLen 0) 0 (g.vector id)

/-- The check of the number of nodes, and the lists.  `none`: "error layout". -/
def writeLists (layout : List ℕ) (buf : List UInt8) : Option (List UInt8) :=
  if x.capacity mode < layout.length then none
  else writeEach x.graphNodeLen buf (x.listsOff mode) (layout.map (graphNode g tool))

/-- Page `i`.  `none`: the check fails, or something is written outside of `sector_buf`. -/
def writePage (i : ℕ) (layout : List ℕ) : Option (List UInt8) := do
  let buf ← startPage g tool mode i layout
  let buf ← write buf (x.embLen mode) (leBytes 4 layout.length)
  let buf ← write buf (x.embLen mode + 4) (leList 4 layout)
  let buf ← writeLists g tool mode layout buf
  return buf.take x.outputSectorLen

/-- `relayout`, with the partitions of the partition file. -/
def relayout (layouts : List (List ℕ)) : Option (List UInt8) :=
  (layouts.zipIdx.mapM fun p => writePage g tool mode p.2 p.1).map fun pages =>
    g.header ++ pages.flatten

/-! ### Reading -/

/-- The page with a number, for pages of `len` bytes; `none`: the file ends before. -/
def readPage (len : ℕ) (file : List UInt8) (pid : ℕ) : Option (List UInt8) :=
  readSlice file ((pid + 1) * len) len

/-- A list at an address. -/
def nodeNbrs (page : List UInt8) (nodeBuf : ℕ) : List ℕ :=
  (List.range (leNat (slice page nodeBuf 4))).map fun m => leNat (slice page (nodeBuf + 4 + m * 4) 4)

variable (x) in
/-- The loop over `p_layout`: the ids of a page with their lists. -/
def pageNodes (page : List UInt8) : List (ℕ × List ℕ) :=
  (List.range (leNat (slice page (x.embLen mode) 4))).map fun j =>
    (leNat (slice page (x.embLen mode + 4 + j * 4) 4),
      nodeNbrs page (x.listsOff mode + j * x.graphNodeLen))

variable (x) in
/-- `ROUND_UP(dim, 8)` -/
def alignedDim : ℕ := (x.dim + 7) / 8 * 8

variable (x) in
/-- What `dist_cmp->compare` takes as the vector of a page. -/
def comparedCoords (page : List UInt8) : List UInt8 := slice page 0 (x.alignedDim * x.sizeT)

variable (x) in
/-- What the distance should be taken to: behind a vector the query is zero. -/
def alignedVector (vector : List UInt8) : List UInt8 :=
  vector ++ List.replicate (x.alignedDim * x.sizeT - x.embNodeLen) 0

/-! ### `load_mem_graph` -/

/-- Its other arguments: the number of nodes to keep, which is all for a ratio from one on, the
popular nodes, and the order in which the reads complete. -/
structure MemGraphArgs where
  cachesAll : Bool
  nCachedId : ℕ
  tags : List ℕ
  readOrder : ℕ → List ℕ
  readOrder_perm : ∀ n, (readOrder n).Perm (List.range n)

/-- `mem_graph_`, `cached_popular` without `INF`, and `cur_popolar_sid` -/
structure MemGraph where
  lists : List (List ℕ)
  cachedPopular : ℕ → Option ℕ
  curPopularSid : ℕ

namespace MemGraphArgs

variable (a : MemGraphArgs) (numPoints : ℕ)

/-- The size of `mem_graph_`. -/
def size : ℕ := if a.cachesAll then numPoints else a.nCachedId

def nCachePopularId : ℕ := if a.cachesAll then 0 else min a.tags.length a.nCachedId

def maxCachedId : ℕ := a.size numPoints - a.nCachePopularId

/-- A key of `cached_popular`. -/
def isPopular (id : ℕ) : Bool :=
  id ∈ a.tags.take a.nCachePopularId ∧ a.maxCachedId numPoints ≤ id

/-- The list of a node is stored. -/
def store (m : MemGraph) (node : ℕ × List ℕ) : Option MemGraph :=
  if node.1 < a.maxCachedId numPoints then some { m with lists := m.lists.set node.1 node.2 }
  else if a.isPopular numPoints node.1 then
    if m.curPopularSid < m.lists.length then
      some {
        lists := m.lists.set m.curPopularSid node.2
        cachedPopular := Function.update m.cachedPopular node.1 (some m.curPopularSid)
        curPopularSid := m.curPopularSid + 1 }
    else none
  else some m

def nodeInMemPos (m : MemGraph) (id : ℕ) : Option ℕ :=
  if id < a.maxCachedId numPoints then some id else m.cachedPopular id

end MemGraphArgs

variable (x) in
/-- `n_pages` of `load_mem_graph`. -/
def numGraphPages (numPoints : ℕ) : ℕ :=
  (numPoints + x.capacity .graphOnly - 1) / x.capacity .graphOnly

variable (x) in
/-- The pages are those of 4096 bytes. -/
def loadMemGraph (a : MemGraphArgs) (numPoints : ℕ) (file : List UInt8) : Option MemGraph := do
  let pages ← (a.readOrder (x.numGraphPages numPoints)).mapM (readPage 4096 file)
  (pages.flatMap (x.pageNodes .graphOnly)).foldlM (a.store numPoints)
    ⟨List.replicate (a.size numPoints) [], fun _ => none, a.maxCachedId numPoints⟩

/-! ### What the pages are for -/

/-- `page_search_dup_graph` reads for each node its vector and its list, and with it the lists of the
other nodes of its page. -/
def ReplicaAgrees (file : List UInt8) : Prop :=
  ∀ id < g.numPoints, ∃ page, readPage x.outputSectorLen file id = some page ∧
    x.comparedCoords page = x.alignedVector (g.vector id) ∧
    nodeNbrs page (x.listsOff .graphReplica) = g.nbrs id ∧
    ∀ node ∈ (x.pageNodes .graphReplica page).drop 1, node.2 = g.nbrs node.1

/-- `load_mem_graph` keeps for each node its list. -/
def GraphOnlyAgrees (a : MemGraphArgs) (file : List UInt8) : Prop :=
  ∃ m, x.loadMemGraph a g.numPoints file = some m ∧ ∀ id < g.numPoints, ∀ pos,
    a.nodeInMemPos g.numPoints m id = some pos → m.lists[pos]? = some (g.nbrs id)

/-- The partition files that the tool takes. -/
def Accepted (layouts : List (List ℕ)) : Prop :=
  ∀ l ∈ layouts, l.length ≤ x.capacity mode ∧ (mode = .graphReplica → l ≠ []) ∧ ∀ id ∈ l, id < 2 ^ 32

end GraphPages

end DiskANNEval.Gorgeous
