import DiskANNEval.PageANN.PageBudget
import DiskANNEval.PageANN.PageMaps

/-!
# PageLists — the neighbours of a page

`create_disk_layout` collects the neighbours of a page from the lists of its nodes in turn: first up to
the page degree, then as long as the sector has room.  A neighbour whose PQ code is in memory needs
its id only; where there are too few of these, others are added to `cached_PQ_nodes`.

The loops over the rounds are `Lib.whileM`.
-/

namespace DiskANNEval.PageANN

open Lib

/-- The arguments of `create_disk_layout`, with the graph and the pages that `mergeNodesIntoPage` has
made of it. -/
structure PageBuild (D : Type) extends PageBudget where
  merge : MergeNodes D
  merged : MergedPages
  merges : ∃ fuel, merge.mergeNodesIntoPage fuel = some merged
  pageGraphDegree : ℕ
  vector : ℕ → List UInt8
  vector_length : ∀ id, (vector id).length = dimension * typeByte
  pq : ℕ → List UInt8
  pq_length : ∀ id, (pq id).length = pqSize
  medoid : ℕ

/-- The neighbours of a page so far; `inserted` is `alreadyInsertedNodes`. -/
structure PageLists where
  cached : List ℕ
  uncached : List ℕ
  inserted : Finset ℕ

/-- The lists, what the iterators have left of each node's neighbours, and `hasLeftNbrs`. -/
structure ListFilling where
  lists : PageLists
  left : List (List ℕ)
  hasLeftNbrs : Bool

/-- What the two phases of filling differ in: the test for the end and the test for room, with the
numbers of cached and uncached neighbours, and whether an id that is not found ends the function. -/
structure Phase where
  full : ℕ → ℕ → Bool
  room : ℕ → ℕ → Bool → Bool
  checksId : Bool

def PageLists.size (l : PageLists) : ℕ := l.cached.length + l.uncached.length

def Phase.isFull (phase : Phase) (l : PageLists) : Bool := phase.full l.cached.length l.uncached.length

def Phase.hasRoom (phase : Phase) (l : PageLists) (cached : Bool) : Bool :=
  phase.room l.cached.length l.uncached.length cached

/-- A difference of two `size_t`. -/
def sub64 (a b : ℕ) : ℕ := (a % 2 ^ 64 + 2 ^ 64 - b % 2 ^ 64) % 2 ^ 64

namespace PageBuild

variable {D : Type} (b : PageBuild D)

def nnodesPerSector : ℕ := b.merge.nnodesPerSector

/-! ### New ids -/

/-- `allNodesWithinThePage` -/
def pageOf (id : ℕ) : List ℕ := b.merged.mergedNodes[b.merged.nodeToPage id]?.getD []

/-- `new_reordered_node_ID` -/
def newId (id : ℕ) : ℕ :=
  (b.merged.nodeToPage id * b.nnodesPerSector + (b.pageOf id).idxOf id) % 2 ^ 32

/-! ### Rounds -/

/-- Neighbours of one node are passed until one is added; `cachedPq` is `cached_PQ_nodes`. -/
def takeNbr (cachedPq : Finset ℕ) (phase : Phase) : PageLists → List ℕ → Option (PageLists × List ℕ)
  | l, [] => some (l, [])
  | l, id :: ids =>
    if id ∈ l.inserted then takeNbr cachedPq phase l ids
    else if phase.checksId && id ∉ b.pageOf id then none
    else
      let l' := { l with inserted := insert id l.inserted }
      if phase.hasRoom l (b.newId id ∈ cachedPq) then
        if b.newId id ∈ cachedPq then some ({ l' with cached := l.cached ++ [b.newId id] }, ids)
        else some ({ l' with uncached := l.uncached ++ [b.newId id] }, ids)
      else takeNbr cachedPq phase l' ids

/-- The loop over the nodes of the page. -/
def takeRound (cachedPq : Finset ℕ) (phase : Phase) :
    PageLists → List (List ℕ) → Option (PageLists × List (List ℕ))
  | l, [] => some (l, [])
  | l, ids :: left => do
    let (l, ids) ← b.takeNbr cachedPq phase l ids
    if phase.isFull l then return (l, ids :: left)
    let (l, left) ← takeRound cachedPq phase l left
    return (l, ids :: left)

/-- A round that adds nothing is the last. -/
def fillPass (cachedPq : Finset ℕ) (phase : Phase) (s : ListFilling) : Option ListFilling :=
  (b.takeRound cachedPq phase s.lists s.left).map fun x =>
    ⟨x.1, x.2, decide (x.1.size ≠ s.lists.size)⟩

def fill (cachedPq : Finset ℕ) (phase : Phase) (fuel : ℕ) (s : ListFilling) : Option ListFilling :=
  whileM (fun s => !phase.isFull s.lists && s.hasLeftNbrs) (b.fillPass cachedPq phase) fuel s

/-! ### The phases -/

/-- `min_nbrs_to_write` neighbours are collected. -/
def degreePhase : Phase where
  full c u := decide (b.pageGraphDegree ≤ c + u)
  room _ _ _ := true
  checksId := true

/-- `total_space_for_nbrs` -/
def spaceForNbrs : ℕ := sub64 (sub64 sectorLen (b.nnodesPerSector * b.nodeLen)) (2 * 2)

/-- `leftSpareSpace` -/
def spareSpace (c u : ℕ) : ℕ := sub64 (sub64 b.spaceForNbrs (c * 4)) (u * (4 + b.pqSize))

/-- The rest of the sector is filled. -/
def spacePhase : Phase where
  full c u := decide (b.spareSpace c u < 4)
  room c u cached := decide ((if cached then 4 else 4 + b.pqSize) ≤ b.spareSpace c u)
  checksId := false

/-- `target_num_cached_nbr_per_page` -/
def targetCached : ℕ := b.share b.pageGraphDegree

/-- How many uncached neighbours become cached. -/
def numTransfers (l : PageLists) : ℕ := min (b.targetCached - l.cached.length) l.uncached.length

/-- The first uncached neighbours become cached, where there are too few of these. -/
def transfer (l : PageLists) : PageLists where
  cached := l.cached ++ l.uncached.take (b.numTransfers l)
  uncached := l.uncached.drop (b.numTransfers l)
  inserted := l.inserted

/-- `cached_PQ_nodes` after that. -/
def cacheTransfers (cachedPq : Finset ℕ) (l : PageLists) : Finset ℕ :=
  cachedPq ∪ (l.uncached.take (b.numTransfers l)).toFinset

/-- The lists of a page, and `cached_PQ_nodes` after it. -/
def pageLists (fuel : ℕ) (cachedPq : Finset ℕ) (page : List ℕ) : Option (PageLists × Finset ℕ) := do
  let s ← b.fill cachedPq b.degreePhase fuel ⟨⟨[], [], page.toFinset⟩, page.map b.merge.nbrs, true⟩
  let cachedPq := b.cacheTransfers cachedPq s.lists
  let s ← b.fill cachedPq b.spacePhase fuel { s with lists := b.transfer s.lists }
  return (s.lists, cachedPq)

/-- The loop over the pages, as far as it is about the lists. -/
def listPages (fuel : ℕ) : List (List ℕ) → Finset ℕ → Option (List PageLists × Finset ℕ)
  | [], cachedPq => some ([], cachedPq)
  | page :: pages, cachedPq => do
    let (l, cachedPq) ← b.pageLists fuel cachedPq page
    let (ls, cachedPq) ← listPages fuel pages cachedPq
    return (l :: ls, cachedPq)

/-- The lists of the pages, and `cached_PQ_nodes` at the end. -/
def allLists (fuel : ℕ) : Option (List PageLists × Finset ℕ) :=
  b.listPages fuel b.merged.mergedNodes ∅

end PageBuild

end DiskANNEval.PageANN
