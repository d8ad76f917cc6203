import DiskANNEval.Lib.RingFile
import Mathlib

/-!
# MergeDeletes — `merge_deletes`

The merge goes over the locations twice.  The populate loop hands out new ids to the surviving nodes,
in chunks of `LOC_PER_POPULATE` locations and in any order within a chunk.  The merge loop reads
blocks of `LOC_PER_MERGE` locations, puts the new record of each surviving node into a write
buffer of two blocks at its new id, and writes one block of ids whenever it has put so many records.

A merge is fixed by the index, the deleted tags, the pruning, and the two orders in which the
parallel loops go through the locations.  `none` is an exception (`id_map.find` of an id that is
not there).  The sectors are counted in locations.
-/

namespace DiskANNEval.PipeANN

open Lib

/-- A `DiskNode` of the file. -/
structure DiskNode (T : Type) where
  coords : T
  nbrs : List ℕ

/-- The index before the merge: `none` is `kInvalidID`, and `node` is by location. -/
structure DiskIndex (T Tag : Type) where
  nnodesPerSector : ℕ
  curLoc : ℕ
  loc2id : ℕ → Option ℕ
  id2tag : ℕ → Tag
  node : ℕ → DiskNode T
  loc2id_inj : ∀ loc < curLoc, ∀ loc' < curLoc, ∀ id,
    loc2id loc = some id → loc2id loc' = some id → loc = loc'
  nbrs_located : ∀ loc < curLoc, ∀ id, loc2id loc = some id →
    ∀ nbr ∈ (node loc).nbrs, ∃ loc' < curLoc, loc2id loc' = some nbr

def locPerPopulate : ℕ := 128 * 8

/-- `ROUND_UP(X, Y)` -/
def roundUp (x y : ℕ) : ℕ := (x / y + if x % y ≠ 0 then 1 else 0) * y

def locPerMerge (nnodesPerSector : ℕ) : ℕ :=
  if 0 < nnodesPerSector then roundUp 131072 nnodesPerSector else 131072

def vecInWbuf (nnodesPerSector : ℕ) : ℕ := 2 * locPerMerge nnodesPerSector

/-- The values of `loc_st` in `for (loc_st = 0; loc_st < cur_loc; loc_st += step)`. -/
def locStarts (curLoc step : ℕ) : List ℕ := List.range' 0 ((curLoc + step - 1) / step) step

/-- The locations of `[loc_st, loc_ed)`. -/
def locRange (curLoc step locSt : ℕ) : List ℕ :=
  List.range' locSt (min curLoc (locSt + step) - locSt)

/-- A call of `merge_deletes`.  `setOrder` is the iteration order of an `unordered_set`, and
`populateOrder` and `mergeOrder` are the orders in which the parallel loops go through a range. -/
structure MergeDeletes (T Tag : Type) where
  index : DiskIndex T Tag
  deletedNodesSet : Finset Tag
  nSampledNbrs : ℕ
  R : ℕ
  setOrder : List ℕ → List ℕ
  setOrder_perm : ∀ l, (setOrder l).Perm l
  pruneNeighbors : ℕ → List ℕ → List ℕ
  prune_subset : ∀ id l, ∀ nbr ∈ pruneNeighbors id l, nbr ∈ l
  populateOrder : ℕ → List ℕ
  populate_perm : ∀ locSt,
    (populateOrder locSt).Perm (locRange index.curLoc locPerPopulate locSt)
  mergeOrder : ℕ → List ℕ
  merge_perm : ∀ locSt,
    (mergeOrder locSt).Perm (locRange index.curLoc (locPerMerge index.nnodesPerSector) locSt)

/-- A record of the write buffer and of the file; `src` is the location of the node it was made
from. -/
structure MergedRecord (T : Type) where
  src : ℕ
  node : DiskNode T

/-- What the populate loop fills. -/
structure Populated where
  newNpoints : ℕ
  idMap : ℕ → Option ℕ
  deletedNhoods : ℕ → Option (List ℕ)

/-- The write buffer, the merged file and `wb_id` (the mark), and `n_used_id`. -/
structure Writer (T : Type) where
  rf : RingFile (MergedRecord T)
  nUsedId : ℕ

/-- The merged index. -/
structure Merged (T : Type) where
  newNpoints : ℕ
  idMap : ℕ → Option ℕ
  file : ℕ → Option (MergedRecord T)

/-- `cuckoohash_map::insert`: a key that is there is left alone. -/
def mapInsert {V : Type} (map : ℕ → Option V) (key : ℕ) (v : V) : ℕ → Option V :=
  if (map key).isSome then map else Function.update map key (some v)

namespace MergeDeletes

variable {T Tag : Type} [DecidableEq Tag] (m : MergeDeletes T Tag)

/-! ### The populate loop -/

def isDeleted (id : ℕ) : Prop := m.index.id2tag id ∈ m.deletedNodesSet

instance (id : ℕ) : Decidable (m.isDeleted id) := inferInstanceAs (Decidable (_ ∈ _))

/-- The neighbours of a deleted node that are kept for the nodes that point to it. -/
def sampledNhood (node : DiskNode T) : List ℕ :=
  (node.nbrs.filter fun nbr => ¬ m.isDeleted nbr).take m.nSampledNbrs

def populateLoc (p : Populated) (loc : ℕ) : Populated :=
  match m.index.loc2id loc with
  | none => p
  | some id =>
    if ¬ m.isDeleted id then
      { p with newNpoints := p.newNpoints + 1, idMap := mapInsert p.idMap id p.newNpoints }
    else
      { p with deletedNhoods := mapInsert p.deletedNhoods id (m.sampledNhood (m.index.node loc)) }

def populate : Populated :=
  (locStarts m.index.curLoc locPerPopulate).foldl
    (fun p locSt => (m.populateOrder locSt).foldl m.populateLoc p)
    ⟨0, fun _ => none, fun _ => none⟩

/-! ### The merge loop -/

/-- The neighbours of a surviving node, with those of its deleted neighbours in their place. -/
def mergedNhood (p : Populated) (id : ℕ) (node : DiskNode T) : Option (List ℕ) := do
  let nhoods ← node.nbrs.mapM fun nbr =>
    if m.isDeleted nbr then p.deletedNhoods nbr else some [nbr]
  let nhood := m.setOrder (nhoods.flatten.dedup.erase id)
  return if m.R < nhood.length then m.pruneNeighbors id nhood else nhood

def newRecord (p : Populated) (loc id : ℕ) : Option (MergedRecord T) := do
  let nhood ← m.mergedNhood p id (m.index.node loc)
  let nbrs ← nhood.mapM p.idMap
  return ⟨loc, (m.index.node loc).coords, nbrs⟩

abbrev batch : ℕ := locPerMerge m.index.nnodesPerSector

abbrev wbufLen : ℕ := vecInWbuf m.index.nnodesPerSector

/-- The first location of the sector of `loc`. -/
def sectorSt (loc : ℕ) : ℕ :=
  if 0 < m.index.nnodesPerSector then loc / m.index.nnodesPerSector * m.index.nnodesPerSector
  else loc

/-- The first location after the sector of `loc`. -/
def sectorEd (loc : ℕ) : ℕ :=
  if 0 < m.index.nnodesPerSector then
    (loc / m.index.nnodesPerSector + 1) * m.index.nnodesPerSector
  else loc + 1

/-- `write_back`: the half of the buffer that has the id `wb_id` goes to the sectors of the ids. -/
def writeBack (w : Writer T) : Writer T :=
  let wbId := w.rf.low
  let bufId := wbId % m.wbufLen / m.batch
  let idDelta := min m.batch (w.nUsedId - wbId)
  let st := m.sectorSt wbId
  let ed := m.sectorEd (wbId + idDelta - 1)
  { w with
    rf := { w.rf with
      file := fun loc =>
        if st ≤ loc ∧ loc < ed then w.rf.ring (bufId * m.batch + (loc - st)) else w.rf.file loc
      low := wbId + idDelta } }

def mergeLoc (p : Populated) (w : Writer T) (loc : ℕ) : Option (Writer T) :=
  match m.index.loc2id loc with
  | none => some w
  | some id =>
    if m.isDeleted id then some w
    else do
      let r ← m.newRecord p loc id
      let newId ← p.idMap id
      return ⟨w.rf.put m.wbufLen newId r, w.nUsedId + 1⟩

def mergeBlock (p : Populated) (w : Writer T) (locSt : ℕ) : Option (Writer T) := do
  let w ← (m.mergeOrder locSt).foldlM (m.mergeLoc p) w
  return if m.batch ≤ w.nUsedId - w.rf.low then m.writeBack w else w

theorem locPerMerge_pos (nps : ℕ) : 0 < locPerMerge nps := by
  unfold locPerMerge roundUp
  split_ifs with h h'
  · exact Nat.mul_pos (Nat.succ_pos _) h
  · refine Nat.mul_pos (Nat.div_pos (Nat.le_of_dvd (by decide) ?_) h) h
    exact Nat.dvd_of_mod_eq_zero (not_not.1 h')
  · decide

/-- `while (wb_id < n_used_id) write_back()` -/
def drain (w : Writer T) : Writer T :=
  if w.rf.low < w.nUsedId then drain (m.writeBack w) else w
termination_by w.nUsedId - w.rf.low
decreasing_by
  have := locPerMerge_pos m.index.nnodesPerSector
  simp only [writeBack, batch]
  omega

def run : Option (Merged T) := do
  let p := m.populate
  let w ← (locStarts m.index.curLoc m.batch).foldlM (m.mergeBlock p)
    ⟨⟨fun _ => none, fun _ => none, 0⟩, 0⟩
  return ⟨p.newNpoints, p.idMap, (m.drain w).rf.file⟩

/-! ### What the merge should keep -/

def Survives (loc : ℕ) : Prop := ∃ id, m.index.loc2id loc = some id ∧ ¬ m.isDeleted id

instance : DecidablePred m.Survives := fun loc =>
  match h : m.index.loc2id loc with
  | none => isFalse fun ⟨_, h', _⟩ => by simp [h] at h'
  | some id => decidable_of_iff (¬ m.isDeleted id) (by simp [Survives, h])

/-- The file has the record of each surviving node at the location of its new id, and at no other
location of the index. -/
def RecordsKept (out : Merged T) : Prop :=
  ∀ loc < m.index.curLoc, ∀ id, m.index.loc2id loc = some id → ¬ m.isDeleted id →
    ∃ newId r, out.idMap id = some newId ∧ m.newRecord m.populate loc id = some r ∧
      newId < out.newNpoints ∧ out.file newId = some r ∧
      ∀ k < out.newNpoints, ∀ r', out.file k = some r' → r'.src = loc → k = newId

/-- The surviving locations in the order in which the populate loop gets to them. -/
def handOut : List ℕ :=
  ((locStarts m.index.curLoc locPerPopulate).flatMap m.populateOrder).filter m.Survives

/-- How many ids have been written when the merge loop comes to the block of `loc`. -/
def writtenBefore (loc : ℕ) : ℕ :=
  m.batch * (Nat.count m.Survives (loc / m.batch * m.batch) / m.batch)

/-- The new id of each surviving node is one of those the write buffer holds when the merge loop
puts the node's record. -/
def InWindow : Prop :=
  ∀ loc < m.index.curLoc, m.Survives loc →
    m.writtenBefore loc ≤ m.handOut.idxOf loc ∧
      m.handOut.idxOf loc < m.writtenBefore loc + m.wbufLen

end MergeDeletes

end DiskANNEval.PipeANN
