import DiskANNEval.Lib.While
import Mathlib

/-!
# MergeNodes — `mergeNodesIntoPage`

A page is filled from a node: the nodes that it reaches in some hops, nearest first, then the least
unmerged ones.  The first candidate that has no room any more is the node of the next page.  The last
page takes what is left, and copies of its first node.

The loops are `Lib.whileM`; `fuel` bounds each of them.  The vectors that are indexed by ids are
functions.
-/

namespace DiskANNEval.PageANN

open Lib

/-- The arguments, with the order of a `tsl::robin_set`, the distances of `computeDist`, and
`std::sort` of the pairs by the distance. -/
structure MergeNodes (D : Type) where
  npts : ℕ
  npts_pos : 0 < npts
  npts_lt : npts < 2 ^ 32
  nnodesPerSector : ℕ
  nnodes_pos : 0 < nnodesPerSector
  R : ℕ
  R_pos : 0 < R
  R_lt : R < 2 ^ 32
  nbrs : ℕ → List ℕ
  nbrs_lt : ∀ id, ∀ n ∈ nbrs id, n < npts
  dist : ℕ → ℕ → D
  setOrder : List ℕ → List ℕ
  setOrder_perm : ∀ l, (setOrder l).Perm l
  sort : List (ℕ × D) → List (ℕ × D)
  sort_perm : ∀ l, (sort l).Perm l

/-- `unmergedBitmap`, `last_unmerged_min` and `unmergedCount` -/
structure Unmerged where
  bitmap : ℕ → Bool
  lastMin : ℕ
  count : ℕ

/-- A page that is being filled: `groupedNodes` and `nodeToPageMap`. -/
structure Grouping where
  unmerged : Unmerged
  grouped : List ℕ
  nodeToPage : ℕ → ℕ

/-- The state between two pages. -/
structure Merging where
  unmerged : Unmerged
  mergedNodes : List (List ℕ)
  nodeToPage : ℕ → ℕ
  currNode : ℕ

/-- What `mergeNodesIntoPage` returns and writes. -/
structure MergedPages where
  mergedNodes : List (List ℕ)
  nodeToPage : ℕ → ℕ
  originalToNew : ℕ → ℕ
  newToOriginal : List ℕ

/-- `std::numeric_limits<uint32_t>::max()` -/
def uint32Max : ℕ := 2 ^ 32 - 1

namespace MergeNodes

variable {D : Type} (m : MergeNodes D)

/-! ### The unmerged nodes -/

def markMerged (u : Unmerged) (id : ℕ) : Unmerged :=
  if u.bitmap id then
    let bitmap := Function.update u.bitmap id false
    { bitmap
      count := u.count - 1
      lastMin :=
        if id = u.lastMin then
          ((List.range' u.lastMin (m.npts - u.lastMin)).find? fun i => bitmap i).getD m.npts
        else u.lastMin }
  else u

/-- A node is put on the page. -/
def addNode (pageCount : ℕ) (g : Grouping) (id : ℕ) : Grouping where
  unmerged := m.markMerged g.unmerged id
  grouped := g.grouped ++ [id]
  nodeToPage := Function.update g.nodeToPage id pageCount

/-! ### Candidates -/

/-- The rounds of the loop that sets the number of hops, for which `R * R` is a `uint32_t`. -/
def numHops (fuel : ℕ) : Option ℕ :=
  (whileM (fun x : ℕ × ℕ => x.1 < 500 && m.npts < 1000000000)
    (fun x => some (x.1 * m.R % 2 ^ 32, x.2 + 1)) fuel (m.R * m.R % 2 ^ 32, 2)).map Prod.snd

/-- The neighbours of the frontier that are not in the candidate set yet, and the set. -/
def hop (x : List ℕ × List ℕ) : List ℕ × List ℕ :=
  x.2.foldl (fun y v => (m.nbrs v).foldl
    (fun y nbr => if nbr ∈ y.1 then y else (y.1 ++ [nbr], y.2 ++ [nbr])) y) (x.1, [])

/-- `candidate_nbr_set`, in the order of the insertions. -/
def candidates (hops currNode : ℕ) : List ℕ := ((m.hop)^[hops] ([], [currNode])).1

/-- The unmerged candidates, nearest first. -/
def nearest (hops currNode : ℕ) (u : Unmerged) : List ℕ :=
  let candidateNbrs := (m.setOrder (m.candidates hops currNode)).filter fun n => u.bitmap n
  (m.sort (candidateNbrs.map fun n => (n, m.dist currNode n))).map Prod.fst

/-! ### Pages -/

/-- The candidates are taken while there is room; the next one is `nextNode`. -/
def takeCandidates (pageCount : ℕ) : List ℕ → Grouping → Grouping × Option ℕ
  | [], g => (g, none)
  | id :: ids, g =>
    if g.grouped.length = m.nnodesPerSector then (g, some id)
    else takeCandidates pageCount ids (m.addNode pageCount g id)

/-- The least unmerged node is put on the page. -/
def addNext (pageCount : ℕ) (g : Grouping) : Grouping :=
  m.addNode pageCount g g.unmerged.lastMin

/-- The last page: what is left, and copies of the first of it. -/
def lastPage (fuel : ℕ) (s : Merging) : Option Merging := do
  let g ← whileM (fun g : Grouping => 0 < g.unmerged.count)
    (fun g => some (m.addNext s.mergedNodes.length g)) fuel ⟨s.unmerged, [], s.nodeToPage⟩
  let padding := List.replicate (m.nnodesPerSector - g.grouped.length) (g.grouped.headD 0)
  return { s with
    unmerged := g.unmerged
    mergedNodes := s.mergedNodes ++ [g.grouped ++ padding]
    nodeToPage := g.nodeToPage }

/-- A page that starts with `currNode`. -/
def fullPage (hops fuel : ℕ) (s : Merging) : Option Merging := do
  let pageCount := s.mergedNodes.length
  let first := m.addNode pageCount ⟨s.unmerged, [], s.nodeToPage⟩ s.currNode
  let (g, nextNode) :=
    m.takeCandidates pageCount (m.nearest hops s.currNode first.unmerged) first
  let g ← whileM (fun g : Grouping => g.grouped.length < m.nnodesPerSector)
    (fun g => some (m.addNext pageCount g)) fuel g
  return {
    unmerged := g.unmerged
    mergedNodes := s.mergedNodes ++ [g.grouped]
    nodeToPage := g.nodeToPage
    currNode := nextNode.getD g.unmerged.lastMin }

/-- The body of the loop over the pages; nothing is left after the last page, where the source has
`break`. -/
def mergePage (hops fuel : ℕ) (s : Merging) : Option Merging :=
  if s.unmerged.count ≤ m.nnodesPerSector then m.lastPage fuel s else m.fullPage hops fuel s

/-- All nodes are unmerged. -/
def start : Merging where
  unmerged := ⟨fun id => id < m.npts, 0, m.npts⟩
  mergedNodes := []
  nodeToPage := fun _ => uint32Max
  currNode := 0

/-! ### The maps of the ids -/

/-- The body of the loop over the merged nodes: an id gets the next new id. -/
def mapId (x : (ℕ → ℕ) × List ℕ) (id : ℕ) : (ℕ → ℕ) × List ℕ :=
  if m.npts ≤ x.2.length then x else (Function.update x.1 id x.2.length, x.2 ++ [id])

def idMaps (mergedNodes : List (List ℕ)) : (ℕ → ℕ) × List ℕ :=
  mergedNodes.flatten.foldl m.mapId (fun _ => uint32Max, [])

def mergeNodesIntoPage (fuel : ℕ) : Option MergedPages := do
  let hops ← m.numHops fuel
  let s ← whileM (fun s : Merging => 0 < s.unmerged.count) (m.mergePage hops fuel) fuel m.start
  let (originalToNew, newToOriginal) := m.idMaps s.mergedNodes
  return ⟨s.mergedNodes, s.nodeToPage, originalToNew, newToOriginal⟩

end MergeNodes

end DiskANNEval.PageANN
