import DiskANNEval.FreshDiskANN.IndexRows
import DiskANNEval.Lib.Run

/-!
# Shard — a short-term index that is merged into a long-term one

The long-term index is on disk: the files of the index, the vectors with full precision (from which the
disk index is laid out) and the PQ codes in a file of their own.  `merge_shard` loads the index,
deletes, compacts, inserts the points of the short-term index and writes the files; the codes are
written only when there are points to insert.
-/

namespace DiskANNEval.FreshDiskANN

open Lib

/-- `disk_nodes` is the number of points in the header of the disk index. -/
structure Shard (V C Tag : Type) where
  maxPoints : ℕ
  shortTermIndex : Index V Tag
  files : IndexFiles V Tag
  fullPrecision : Option (List V)
  compressed : List C
  diskNodes : ℕ
  ltiNumPoints : ℕ
  ltiLocationToTag : AList fun _ : ℕ => Tag
  active : Bool

/-- The order in which the threads insert the points, taken from a map in its own order. -/
structure InsertOrder (Tag : Type) where
  order : List (Tag × ℕ) → List (Tag × ℕ)
  perm : ∀ l, (order l).Perm l

/-- How `merge_shard` ends: where the disk index could not be loaded it waits for thread data. -/
structure MergeEnd (V C Tag : Type) where
  shard : Shard V C Tag
  deletionSet : List Tag
  returned : Bool

namespace Shard

def shortMaxPoints : ℕ := 1100000

variable {V C Tag : Type} [DecidableEq Tag] (c : ShardConfig V C Tag)

/-- `build`; `none`: there are too many points, or none, so that there is no file with full
precision. -/
def build (maxPoints : ℕ) (source : List (Tag × V)) : Option (Shard V C Tag) := do
  let temp ← Index.build c maxPoints source
  let (temp, files) ← temp.save c ⟨0, none, none⟩
  let fullPrecision ← temp.saveData none
  return {
    maxPoints
    shortTermIndex := Index.new c shortMaxPoints
    files
    fullPrecision
    compressed := fullPrecision.map c.pqCode
    diskNodes := fullPrecision.length
    ltiNumPoints := source.length
    ltiLocationToTag := temp.locationToTag
    active := true }

variable (s : Shard V C Tag)

/-- The test of `insert` and `check_size`; `_max_points - 1000` is in `size_t`. -/
def HasRoom : Prop :=
  s.shortTermIndex.nd + s.ltiNumPoints < (s.maxPoints + 2 ^ 64 - 1000) % 2 ^ 64 ∧
    s.shortTermIndex.nd < s.shortTermIndex.maxPoints

instance : Decidable s.HasRoom := inferInstanceAs (Decidable (_ ∧ _))

/-- The result code of `insert_point` is dropped. -/
def insert (point : V) (tag : Tag) : Option (ℤ × Shard V C Tag) :=
  if !s.active then some (-1, s)
  else if s.HasRoom then
    (s.shortTermIndex.insertPoint c point tag).map fun r => (0, { s with shortTermIndex := r.2 })
  else some (-2, s)

/-! ### Merging -/

/-- The code of a tag at a new location: that of the old long-term index where it has the tag, else
that of the short-term index. -/
def newCode (incr : List C) (incrTagToLoc : AList fun _ : Tag => ℕ) (newLoc : ℕ) (newTag : Tag) : C :=
  let oldTagToLoc := mapOf (s.ltiLocationToTag.entries.map fun e => (e.2, e.1))
  match oldTagToLoc.lookup newTag with
  | some oldLoc => s.compressed.getD oldLoc (c.uninit newLoc)
  | none =>
    match incrTagToLoc.lookup newTag with
    | some incrLoc => incr.getD incrLoc (c.uninit newLoc)
    | none => c.uninit newLoc

/-- The codes of the new locations and that of the frozen point; `none`: `exit(-1)`. -/
def updateCompressedVectors (incr : List C) (incrTagToLoc : AList fun _ : Tag => ℕ)
    (newLocToTag : AList fun _ : ℕ => Tag) : Option (List C) :=
  if s.compressed.length ≠ s.ltiLocationToTag.entries.length + 1 then none
  else some ((List.range newLocToTag.entries.length).map (fun newLoc =>
      s.newCode c incr incrTagToLoc newLoc ((newLocToTag.lookup newLoc).getD c.tagInit)) ++
    s.compressed.drop (s.compressed.length - 1))

/-- The codes are written when the short-term index has points. -/
def writeCodes (incr : List C) (incrTagToLoc : AList fun _ : Tag => ℕ)
    (newLocToTag : AList fun _ : ℕ => Tag) : Option (List C) :=
  if s.shortTermIndex.nd = 0 then some s.compressed
  else s.updateCompressedVectors c incr incrTagToLoc newLocToTag

/-- The deletions from the loaded index, if there are any: `failed_tags` and the index. -/
def deleteTags (deletionSet : List Tag) (temp : Index V Tag) : List Tag × Index V Tag :=
  if deletionSet = [] then ([], temp)
  else
    let r := temp.enableDelete.lazyDelete deletionSet
    (r.1, r.2.disableDelete)

/-- `new_tags` and `new_loc` -/
def newTags (deletionSet : List Tag) (tagToLocShort : AList fun _ : Tag => ℕ) : List (Tag × ℕ) :=
  (tagToLocShort.entries.map fun e => (e.1, e.2)).filter fun e => e.1 ∉ deletionSet

/-- The insertions into the loaded index, if the short-term index has points: `tag_to_loc_short`, the
codes of its points and the index. -/
def insertShort (ord : InsertOrder Tag) (deletionSet : List Tag) (short temp : Index V Tag) :
    Option ((AList fun _ : Tag => ℕ) × List C × Index V Tag) :=
  if short.nd = 0 then some (∅, [], temp)
  else do
    let (retData, tagToLocShort) ← short.extractData
    let temp ← (ord.order (newTags deletionSet tagToLocShort)).foldlM
      (fun temp e => (temp.insertPoint c (retData.getD e.2 c.zeros) e.1).map Prod.snd) temp.compactData
    return (tagToLocShort, retData.map c.pqCode, temp)

/-- The end of `merge_shard`: `_disk_index->load` compares the numbers of points and of codes, and
without it `cache_bfs_levels` waits for thread data that nobody gives it. -/
def loadDiskIndex (deletionSet : List Tag) : MergeEnd V C Tag :=
  if s.diskNodes ≠ s.compressed.length then ⟨{ s with active := false }, deletionSet, false⟩
  else ⟨{ s with shortTermIndex := Index.new c shortMaxPoints }, deletionSet, true⟩

/-- `merge_shard`; `none`: the process ends. -/
def mergeShard (ord : InsertOrder Tag) (deletionSet : List Tag) : Option (MergeEnd V C Tag) :=
  if !s.active then some ⟨s, deletionSet, true⟩
  else do
    let temp ← Index.load c s.maxPoints s.files
    let (failedTags, temp) := deleteTags deletionSet temp
    let (tagToLocShort, incr, temp) ← insertShort c ord deletionSet s.shortTermIndex temp
    let (temp, files) ← temp.save c s.files
    let compressed ← s.writeCodes c incr tagToLocShort temp.locationToTag
    let fullPrecision := temp.saveData s.fullPrecision
    let diskNodes ← fullPrecision.map List.length
    let s := { s with
      files, fullPrecision, compressed, diskNodes
      ltiNumPoints := temp.nd
      ltiLocationToTag := temp.locationToTag }
    return s.loadDiskIndex c (failedTags.filter fun t => !(tagToLocShort.lookup t).isSome)

/-! ### Runs -/

/-- A call of `insert`, or of `merge_shard` with the deletions since the last one. -/
inductive Op (V Tag : Type)
  | insert (point : V) (tag : Tag)
  | merge (ord : InsertOrder Tag) (deletionSet : List Tag)

def step (s : Shard V C Tag) : Op V Tag → Option (Shard V C Tag)
  | .insert point tag => (s.insert c point tag).map Prod.snd
  | .merge ord deletionSet => (s.mergeShard c ord deletionSet).bind fun r =>
      if r.returned then some r.shard else none

/-- Each live location of the long-term index has the code of the vector that the disk index is laid
out with. -/
def CodesMatch : Prop :=
  ∀ l t, s.ltiLocationToTag.lookup l = some t →
    ∃ v, s.fullPrecision.bind (·[l]?) = some v ∧ s.compressed[l]? = some (c.pqCode v)

/-- There are points to insert, or nothing to delete. -/
def HasCodes (deletionSet : List Tag) : Prop :=
  0 < s.shortTermIndex.nd ∨ ∀ e ∈ s.ltiLocationToTag.entries, e.2 ∉ deletionSet

instance (deletionSet : List Tag) : Decidable (s.HasCodes deletionSet) :=
  inferInstanceAs (Decidable (_ ∨ _))

/-- An insertion, or a merge that inserts a point or deletes none from the long-term index. -/
def KeepsCodes (s : Shard V C Tag) : Op V Tag → Prop
  | .insert _ _ => True
  | .merge _ deletionSet => s.HasCodes deletionSet

instance (s : Shard V C Tag) : ∀ op, Decidable (s.KeepsCodes op)
  | .insert _ _ => inferInstanceAs (Decidable True)
  | .merge _ deletionSet => inferInstanceAs (Decidable (s.HasCodes deletionSet))

end Shard

end DiskANNEval.FreshDiskANN
