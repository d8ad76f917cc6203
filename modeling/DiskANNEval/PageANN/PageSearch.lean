import DiskANNEval.AiSAQ.Neighbor
import DiskANNEval.Lib.Bytes
import DiskANNEval.Lib.While

/-!
# PageSearch — `page_search` and `linux_page_search`

A query expands pages: it takes the closest unexpanded nodes of the candidate list, and reads their
pages or finds them in the cache.  A page has the vectors of its nodes and the neighbours of them all.
`page_search` takes the exact distances of a page that it has read at once, `linux_page_search` copies
the vectors and takes the distances while the reads of the next round are in flight.

`NeighborPriorityQueue` is the one of `AiSAQ.Neighbor`.  The loops of a search are `Lib.whileM`.
-/

namespace DiskANNEval.PageANN

open AiSAQ Lib

/-- How a position in `_cached_pq_buff` is found from an id: `_nodeID_pqIdx_map`,
`_nodeID_pqIdx_arr`, or the id itself. -/
inductive PqStorage where
  | map (m : List (ℕ × ℕ))
  | array (a : List ℕ)
  | identity

/-- `_nodeID_pqIdx_map[id]` is zero for a key that is not in the map. -/
def PqStorage.index : PqStorage → ℕ → ℕ
  | .map m, id => (m.lookup id).getD 0
  | .array a, id => a[id]?.getD 0
  | .identity, id => id

/-- What `load` reads from the header of an index, with `sizeof(T)` and the number of chunks of the
PQ codes. -/
structure PageParams where
  numPoints : ℕ
  dataDim : ℕ
  sizeT : ℕ
  maxNodeLen : ℕ
  nnodesPerSector : ℕ
  nChunks : ℕ
  maxDegree : ℕ

/-- The fields of `PQFlashIndex` that a search reads.  `create_disk_layout` gives each vector the
`_max_node_len` bytes of a point. -/
structure PageIndex extends PageParams where
  bytes_le : dataDim * sizeT ≤ maxNodeLen
  nnodes_pos : 0 < nnodesPerSector
  /-- the `SECTOR_LEN` bytes at `(pageID + 1) * SECTOR_LEN` -/
  sector : ℕ → List UInt8
  cachedPageIdx : ℕ → Option ℕ
  coordCacheBuf : List UInt8
  nhoodCacheBuf : List ℕ
  cachedPqBuff : List UInt8
  pqStorage : PqStorage
  medoids : List ℕ
  centroidData : List UInt8
  buckets : ℕ → Option (List ℕ)

/-- The arguments of a search.  `exactDist` and `pqDist` are the distances of the query to a vector
and to a PQ code, and `hashes` the set `neighbor_hashes` in the order of its iteration where
`use_hash_routing` is set. -/
structure PageQuery (D : Type) where
  exactDist : List UInt8 → D
  pqDist : List UInt8 → D
  hashes : Option (List ℕ)
  k : ℕ
  L : ℕ
  beamWidth : ℕ

/-- `expandedPages` is in the order of the insertions. -/
structure Searching (D : Type) where
  retset : NeighborPriorityQueue D
  expandedPages : List ℕ
  numIos : ℕ
  fullRetset : List (Neighbor D)

/-- The pages that are expanded in a round. -/
structure Beam (D : Type) where
  retset : NeighborPriorityQueue D
  expandedPages : List ℕ
  cachedNhoods : List (ℕ × ℕ)
  frontier : List ℕ

/-- `last_pages_ids` and `last_pages_buffer` -/
structure LinuxSearching (D : Type) extends Searching D where
  lastPages : List (ℕ × List UInt8)

/-- What a search returns, and what it did to get it. -/
structure PageAnswer (D : Type) where
  expandedPages : List ℕ
  evaluated : List (Neighbor D)
  results : List (ℕ × D)

def maxGraphDegree : ℕ := 896

namespace PageParams

variable (par : PageParams)

def diskBytesPerPoint : ℕ := par.dataDim * par.sizeT

def numPages : ℕ := (par.numPoints + par.nnodesPerSector - 1) / par.nnodesPerSector

def allFullVectorSpace : ℕ := par.nnodesPerSector * par.maxNodeLen

def pageOf (id : ℕ) : ℕ := id / par.nnodesPerSector

/-- The last page can have fewer nodes. -/
def numNodes (pageID : ℕ) : ℕ :=
  if pageID + 1 = par.numPages then
    if par.numPoints % par.nnodesPerSector = 0 then par.nnodesPerSector
    else par.numPoints % par.nnodesPerSector
  else par.nnodesPerSector

/-- `first_node_id + k` -/
def nodeId (pageID k : ℕ) : ℕ := (pageID * par.nnodesPerSector + k) % 2 ^ 32

/-! ### The bytes of a page -/

/-- The vector of node `k`. -/
def nodeCoords (page : List UInt8) (k : ℕ) : List UInt8 :=
  slice page (k * par.maxNodeLen) par.diskBytesPerPoint

def numCachedNbrs (page : List UInt8) : ℕ := leNat (slice page par.allFullVectorSpace 2)

def numUncachedNbrs (page : List UInt8) : ℕ := leNat (slice page (par.allFullVectorSpace + 2) 2)

/-- Neighbour `k` in `page_nbrs_IDs_buf`, the cached ones first. -/
def pageNbr (page : List UInt8) (k : ℕ) : ℕ :=
  leNat (slice page (par.allFullVectorSpace + 2 * 2 + k * 4) 4)

/-- The code of the uncached neighbour `idx` in `page_nbrs_pq_buf`. -/
def pagePq (page : List UInt8) (idx : ℕ) : List UInt8 :=
  slice page
    (par.allFullVectorSpace + 2 * 2 + (par.numCachedNbrs page + par.numUncachedNbrs page) * 4 +
      idx * par.nChunks)
    par.nChunks

/-- The vectors of the nodes.  The counter of the loop is a `uint8_t`: it does not end where a page
has more than 255 nodes. -/
def vectors (pageID : ℕ) (page : List UInt8) : Option (List (List UInt8)) :=
  if par.numNodes pageID < 256 then
    some ((List.range (par.numNodes pageID)).map (par.nodeCoords page))
  else none

def cachedNbrs (page : List UInt8) : List ℕ :=
  (List.range (par.numCachedNbrs page)).map (par.pageNbr page)

def uncachedNbrs (page : List UInt8) : List ℕ :=
  (List.range (par.numUncachedNbrs page)).map fun k => par.pageNbr page (par.numCachedNbrs page + k)

/-- The codes of the uncached neighbours. -/
def uncachedPq (page : List UInt8) : List (List UInt8) :=
  (List.range (par.numUncachedNbrs page)).map (par.pagePq page)

end PageParams

namespace PageIndex

variable {D : Type} (ix : PageIndex) (fl : FloatOps D) (q : PageQuery D)

/-- The code at a position of `_cached_pq_buff`. -/
def cachedPq (pos : ℕ) : List UInt8 := slice ix.cachedPqBuff (pos * ix.nChunks) ix.nChunks

/-! ### Exact distances -/

/-- The loop over the nodes of a page in the cache. -/
def evalCached (pageID idx : ℕ) : List (Neighbor D) :=
  (List.range (ix.numNodes pageID)).map fun k =>
    .new (ix.nodeId pageID k)
      (q.exactDist
        (slice ix.coordCacheBuf ((idx * (ix.nnodesPerSector * ix.dataDim) + k * ix.dataDim) * ix.sizeT)
          ix.diskBytesPerPoint))

/-- The loop over the nodes of a page that was read. -/
def evalNodes (pageID : ℕ) (page : List UInt8) : Option (List (Neighbor D)) :=
  (ix.vectors pageID page).map fun vectors =>
    vectors.zipIdx.map fun v => .new (ix.nodeId pageID v.2) (q.exactDist v.1)

/-! ### Candidates -/

/-- The page of a neighbour is not expanded. -/
def unseen (expandedPages : List ℕ) (id : ℕ) : Bool := ix.pageOf id ∉ expandedPages

/-- The neighbours of a page in the cache, with their codes. -/
def cachedCandidates (expandedPages : List ℕ) (idx : ℕ) : List (ℕ × List UInt8) :=
  let base := idx * (ix.maxDegree + 1)
  let nbrs := (ix.nhoodCacheBuf.drop (base + 1)).take (ix.nhoodCacheBuf[base]?.getD 0)
  (nbrs.filter (ix.unseen expandedPages)).map fun id => (id, ix.cachedPq id)

/-- The neighbours of a page that was read, with their codes: a loop over each of its two lists, as
long as there are fewer than `MAX_GRAPH_DEGREE` candidates. -/
def pageCandidates (expandedPages : List ℕ) (page : List UInt8) : List (ℕ × List UInt8) :=
  let cached := ((ix.cachedNbrs page).filter (ix.unseen expandedPages)).take maxGraphDegree
  let uncached := (((ix.uncachedNbrs page).zip (ix.uncachedPq page)).filter fun nbr =>
    ix.unseen expandedPages nbr.1).take (maxGraphDegree - cached.length)
  cached.map (fun id => (id, ix.cachedPq (ix.pqStorage.index id))) ++ uncached

/-- `pq_dist_lookup`, and the loop of `retset.insert`. -/
def insertAll (retset : NeighborPriorityQueue D) (candidates : List (ℕ × List UInt8)) :
    NeighborPriorityQueue D :=
  candidates.foldl (fun retset c => retset.insert fl (.new c.1 (q.pqDist c.2))) retset

/-! ### Entry points -/

def closeNodes (hashes : List ℕ) : List ℕ :=
  (hashes.flatMap fun hash => (ix.buckets hash).getD []).take maxGraphDegree

/-- The nodes of the page of a medoid, evaluated with `_centroid_data`. -/
def evalMedoid (curM : ℕ) : List (Neighbor D) :=
  (List.range ix.nnodesPerSector).map fun k =>
    .new (ix.nodeId (ix.medoids[curM]?.getD 0) k)
      (q.exactDist
        (slice ix.centroidData
          ((curM * ix.nnodesPerSector * ix.dataDim + k * ix.dataDim) * 4) ix.diskBytesPerPoint))

/-- `best_medoid` and `best_dist` -/
def bestMedoid (nodes : List (Neighbor D)) : Neighbor D :=
  nodes.foldl (fun best nbr => if fl.lt nbr.distance best.distance then nbr else best)
    (.new 0 fl.maxValue)

/-- `none` where the `uint8_t` of the loop over the nodes of a medoid's page does not get to
`_nnodes_per_sector`. -/
def enterMedoids (s : Searching D) : Option (Searching D) :=
  if ix.medoids ≠ [] ∧ 256 ≤ ix.nnodesPerSector then none
  else
    let nodes := (List.range ix.medoids.length).flatMap (ix.evalMedoid q)
    some { s with
      fullRetset := s.fullRetset ++ nodes
      retset := s.retset.insert fl (bestMedoid fl nodes) }

/-- The state before the main loop. -/
def enter : Option (Searching D) :=
  let s : Searching D := ⟨⟨q.L, 0, []⟩, [], 0, []⟩
  match q.hashes with
  | none => ix.enterMedoids fl q s
  | some hashes =>
    let retset := insertAll fl q s.retset
      ((ix.closeNodes hashes).map fun id => (id, ix.cachedPq (ix.pqStorage.index id)))
    if retset.data.isEmpty then ix.enterMedoids fl q s else some { s with retset }

/-! ### The main loop -/

/-- `expandedPages.insert(pageID).second`, and the look-up in the cache. -/
def seePage (b : Beam D) (pageID : ℕ) : Beam D :=
  if pageID ∈ b.expandedPages then b
  else
    let b := { b with expandedPages := b.expandedPages ++ [pageID] }
    match ix.cachedPageIdx pageID with
    | some idx => { b with cachedNhoods := b.cachedNhoods ++ [(pageID, idx)] }
    | none => { b with frontier := b.frontier ++ [pageID] }

/-- The loop that fills the beam.  Each pass expands one element of `retset`, so its size is enough
fuel. -/
def selectBeam : ℕ → Beam D → Beam D
  | 0, b => b
  | fuel + 1, b =>
    if b.cachedNhoods.length + b.frontier.length < q.beamWidth then
      match b.retset.closestUnexpanded with
      | none => b
      | some (nbr, retset) => selectBeam fuel (ix.seePage { b with retset } (ix.pageOf nbr.id))
    else b

def beam (s : Searching D) : Beam D :=
  ix.selectBeam q s.retset.data.length ⟨s.retset, s.expandedPages, [], []⟩

/-- The state after the beam is filled and its reads are counted. -/
def selected (s : Searching D) : Searching D :=
  let b := ix.beam q s
  { s with
    retset := b.retset
    expandedPages := b.expandedPages
    numIos := (s.numIos + b.frontier.length) % 2 ^ 32 }

/-- `retset.has_unexpanded_node() && num_ios < io_limit` -/
def goesOn (ioLimit : ℕ) (s : Searching D) : Bool :=
  decide (s.retset.cur < s.retset.data.length) && decide (s.numIos < ioLimit)

def expandCached (s : Searching D) (nhood : ℕ × ℕ) : Searching D :=
  { s with
    fullRetset := s.fullRetset ++ ix.evalCached q nhood.1 nhood.2
    retset := insertAll fl q s.retset (ix.cachedCandidates s.expandedPages nhood.2) }

/-- The neighbours of a page that was read. -/
def insertNbrs (s : Searching D) (pageID : ℕ) : Searching D :=
  { s with retset := insertAll fl q s.retset (ix.pageCandidates s.expandedPages (ix.sector pageID)) }

/-- The nodes of a page are evaluated. -/
def evaluate (s : Searching D) (pageID : ℕ) (page : List UInt8) : Option (Searching D) :=
  (ix.evalNodes q pageID page).map fun evals => { s with fullRetset := s.fullRetset ++ evals }

/-- `std::sort(full_retset)` and the first `k_search` of it. -/
def answer (s : Searching D) : PageAnswer D where
  expandedPages := s.expandedPages
  evaluated := s.fullRetset
  results := ((sortPool fl s.fullRetset).take q.k).map fun nbr => (nbr.id, nbr.distance)

/-- A page that `page_search` has read. -/
def expandPage (s : Searching D) (pageID : ℕ) : Option (Searching D) :=
  (ix.evaluate q s pageID (ix.sector pageID)).map fun s => ix.insertNbrs fl q s pageID

/-- A pass of the main loop of `page_search`. -/
def round (s : Searching D) : Option (Searching D) :=
  let b := ix.beam q s
  b.frontier.foldlM (ix.expandPage fl q) (b.cachedNhoods.foldl (ix.expandCached fl q) (ix.selected q s))

def pageSearch (ioLimit fuel : ℕ) : Option (PageAnswer D) :=
  (ix.enter fl q).bind fun s =>
    (whileM (goesOn ioLimit) (ix.round fl q) fuel s).map (answer fl q)

/-- The pages of the previous round, or after the main loop those of the last one. -/
def evaluateLast (s : LinuxSearching D) : Option (Searching D) :=
  s.lastPages.foldlM (fun s page => ix.evaluate q s page.1 page.2) s.toSearching

/-- A page that `linux_page_search` has read. -/
def keepPage (s : LinuxSearching D) (pageID : ℕ) : LinuxSearching D where
  toSearching := ix.insertNbrs fl q s.toSearching pageID
  lastPages := s.lastPages ++ [(pageID, slice (ix.sector pageID) 0 ix.allFullVectorSpace)]

/-- A pass of the main loop of `linux_page_search`. -/
def linuxRound (s : LinuxSearching D) : Option (LinuxSearching D) :=
  let b := ix.beam q s.toSearching
  (ix.evaluateLast q { s with toSearching := ix.selected q s.toSearching }).map fun s =>
    b.frontier.foldl (ix.keepPage fl q) ⟨b.cachedNhoods.foldl (ix.expandCached fl q) s, []⟩

def linuxPageSearch (fuel : ℕ) : Option (PageAnswer D) :=
  (ix.enter fl q).bind fun s =>
    (whileM (fun s : LinuxSearching D => goesOn (2 ^ 32 - 1) s.toSearching) (ix.linuxRound fl q) fuel
      ⟨s, []⟩).bind fun s => (ix.evaluateLast q s).map (answer fl q)

end PageIndex

end DiskANNEval.PageANN
