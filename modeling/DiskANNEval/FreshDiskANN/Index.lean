import DiskANNEval.Lib.Maps

/-!
# Index — tags and vectors of an index in memory

The two maps between tags and locations, the vectors, and what deletions, insertions, `save` and
`load` make of them.  The graph is left out: it decides about no tag and no vector, and where
`compact_data` finds an edge to a location without a tag the process ends.

`_eager_done` is false throughout: `Shard` makes its indexes without `support_eager_delete`.
-/

namespace DiskANNEval.FreshDiskANN

open Lib

/-- What the operations are given: a vector of zeros, `TagT()`, the first of the empty slots, the code
of a vector with the pivots of the shard, and what `new _u8[]` holds. -/
structure ShardConfig (V C Tag : Type) where
  zeros : V
  tagInit : Tag
  firstSlot : Finset ℕ → ℕ
  pqCode : V → C
  uninit : ℕ → C

structure Index (V Tag : Type) where
  nd : ℕ
  maxPoints : ℕ
  data : ℕ → V
  tagToLocation : AList fun _ : Tag => ℕ
  locationToTag : AList fun _ : ℕ => Tag
  deleteSet : Finset ℕ
  emptySlots : Finset ℕ
  canDelete : Bool
  lazyDone : Bool
  dataCompacted : Bool

/-- The files of `save`: the number of nodes in the graph, the vectors and the tags. -/
structure IndexFiles (V Tag : Type) where
  nodes : ℕ
  data : Option (List V)
  tags : Option (List Tag)

namespace Index

variable {V C Tag : Type} [DecidableEq Tag] (c : ShardConfig V C Tag)

/-- `Index(m, dim, max_points, 1, 1, 1, 0)` -/
def new (maxPoints : ℕ) : Index V Tag where
  nd := 0
  maxPoints := maxPoints
  data := fun _ => c.zeros
  tagToLocation := ∅
  locationToTag := ∅
  deleteSet := ∅
  emptySlots := ∅
  canDelete := false
  lazyDone := false
  dataCompacted := true

/-- `build` of a new index; `none`: `exit(-2)`. -/
def build (maxPoints : ℕ) (source : List (Tag × V)) : Option (Index V Tag) :=
  if maxPoints < source.length then none
  else some { new c maxPoints with
    nd := source.length
    data := fun i => (source[i]?.map Prod.snd).getD c.zeros
    tagToLocation := mapOf ((source.map Prod.fst).zipIdx)
    locationToTag := mapOf ((source.map Prod.fst).zipIdx.map Prod.swap) }

variable (s : Index V Tag)

/-! ### Deletions -/

def enableDelete : Index V Tag :=
  if s.canDelete then s
  else
    let s := if s.dataCompacted then
        { s with emptySlots := s.emptySlots ∪ Finset.Ico s.nd s.maxPoints, dataCompacted := false }
      else s
    { s with lazyDone := false, canDelete := true }

/-- The body of the loop of `lazy_delete`, with `failed_tags`. -/
def dropTag (st : List Tag × Index V Tag) (tag : Tag) : List Tag × Index V Tag :=
  match st.2.tagToLocation.lookup tag with
  | none => (st.1 ++ [tag], st.2)
  | some location =>
    (st.1, { st.2 with
      deleteSet := insert location st.2.deleteSet
      locationToTag := st.2.locationToTag.erase location
      tagToLocation := st.2.tagToLocation.erase tag })

/-- `lazy_delete` of a set of tags: `failed_tags` and the index. -/
def lazyDelete (tags : List Tag) : List Tag × Index V Tag :=
  tags.foldl dropTag ([], { s with lazyDone := true })

def consolidateDeletes : Index V Tag :=
  { s with emptySlots := s.emptySlots ∪ s.deleteSet, nd := s.nd - s.deleteSet.card }

/-- `disable_delete` with `consolidate`, whose result code is dropped. -/
def disableDelete : Index V Tag :=
  if !s.canDelete then s
  else if s.tagToLocation.entries.length + s.deleteSet.card ≠ s.nd then s
  else if s.locationToTag.entries.length + s.deleteSet.card ≠ s.nd then s
  else { s.consolidateDeletes with canDelete := false }

def newLocation (l : ℕ) : ℕ :=
  if (s.locationToTag.lookup l).isSome then
    Nat.count (fun l => (s.locationToTag.lookup l).isSome = true) l
  else s.maxPoints

/-- The vectors in the body of the loop of `compact_data`. -/
def moveData (data : ℕ → V) (old : ℕ) : ℕ → V :=
  if s.newLocation old < s.maxPoints ∨ old = s.maxPoints then
    if s.newLocation old ≠ old then Function.update data (s.newLocation old) (data old) else data
  else data

def compactData : Index V Tag :=
  let tagToLocation := mapOf (s.locationToTag.entries.map fun e => (e.2, s.newLocation e.1))
  { s with
    data := (List.range (s.maxPoints + 1)).foldl s.moveData s.data
    tagToLocation
    locationToTag := mapOf (tagToLocation.entries.map fun e => (e.2, e.1))
    deleteSet := ∅
    emptySlots := ∅
    lazyDone := false
    dataCompacted := true }

/-! ### Insertions -/

def reserveLocation : Option (ℕ × Index V Tag) :=
  if s.maxPoints ≤ s.nd then none
  else if s.dataCompacted then some (s.nd, { s with nd := s.nd + 1 })
  else
    let location := c.firstSlot s.emptySlots
    some (location, { s with
      nd := s.nd + 1
      emptySlots := s.emptySlots.erase location
      deleteSet := s.deleteSet.erase location })

/-- The result code and the index; `none`: `exit(-1)`. -/
def insertPoint (point : V) (tag : Tag) : Option (ℤ × Index V Tag) :=
  if (s.tagToLocation.lookup tag).isSome then none
  else
    match s.reserveLocation c with
    | none => some (-2, s)
    | some (location, s) =>
      some (0, { s with
        tagToLocation := s.tagToLocation.insert tag location
        locationToTag := s.locationToTag.insert location tag
        data := Function.update s.data location point })

/-- The vectors and `tag_to_location`; `none` is the result `-1`. -/
def extractData : Option (List V × AList fun _ : Tag => ℕ) :=
  if !s.dataCompacted then none
  else some ((List.range s.nd).map s.data, s.tagToLocation)

/-! ### Files -/

/-- `_location_to_tag[i]`, which enters `TagT()` for a location that has no tag. -/
def enterTag (m : AList fun _ : ℕ => Tag) (i : ℕ) : AList fun _ : ℕ => Tag :=
  if (m.lookup i).isSome then m else m.insert i c.tagInit

/-- What `save` writes over old files: those of the vectors and tags are not written for no points.
The frozen point is at the end of the points while the files are written, and that place is zeroed
afterwards. -/
def writeFiles (files : IndexFiles V Tag) : Index V Tag × IndexFiles V Tag :=
  let data := if s.nd < s.maxPoints then Function.update s.data s.nd c.zeros else s.data
  if s.nd = 0 then ({ s with data }, { files with nodes := 1 })
  else
    let locationToTag := (List.range s.nd).foldl (enterTag c) s.locationToTag
    ({ s with data, locationToTag }, {
      nodes := s.nd + 1
      data := some ((List.range s.nd).map s.data)
      tags := some ((List.range s.nd).map fun i => (locationToTag.lookup i).getD c.tagInit) })

/-- `save`; `none`: deletions are not disabled. -/
def save (files : IndexFiles V Tag) : Option (Index V Tag × IndexFiles V Tag) :=
  if s.lazyDone && !s.dataCompacted then
    let s := s.compactData
    if s.canDelete then none else some (s.writeFiles c files)
  else some (s.writeFiles c files)

/-- `save_data` with the frozen point, over an old file. -/
def saveData (file : Option (List V)) : Option (List V) :=
  if s.nd = 0 then file else some ((List.range (s.nd + 1)).map s.data)

/-- `load` into a new index; the tags are not read where the graph has another number of nodes than
there are vectors.  `none`: a file is missing, or the process ends. -/
def load (maxPoints : ℕ) (files : IndexFiles V Tag) : Option (Index V Tag) :=
  files.data.bind fun data =>
    if maxPoints < data.length then none
    else
      let s := { new c maxPoints with nd := data.length, data := fun i => data.getD i c.zeros }
      if files.nodes ≠ data.length + 1 then some s
      else
        let tags := files.tags.getD []
        if tags.length ≠ data.length then none
        else some { s with
          tagToLocation := mapOf tags.zipIdx
          locationToTag := mapOf (tags.zipIdx.map Prod.swap) }

end Index

end DiskANNEval.FreshDiskANN
