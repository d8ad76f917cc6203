import DiskANNEval.AiSAQ.FilteredSearch
import DiskANNEval.Lib.Swaps

/-!
# FilteredIndex — a dynamic index whose points carry labels

The state of a dynamic `Index` with what `_filtered_index` adds to it, and its operations, each as one
atomic step.  Without `_filtered_index` they are those of `Index` (`insertPoint_unfiltered`).  An
operation is `none` when it does not return or is undefined: besides the reasons of `Index`, an access
to `_location_to_labels` out of its range, such as that to `_location_to_labels[-1]` when a filtered
index is full.
-/

namespace DiskANNEval.AiSAQ

open Lib

structure FilteredIndex (Vec Tag Label : Type) extends Index Vec Tag where
  locationToLabels : List (List Label)
  labels : Finset Label
  labelToStartId : AList (fun _ : Label => ℕ)
  frozenPtsUsed : ℕ
  useUniversalLabel : Bool
  universalLabel : Label

variable {Vec Tag Label D : Type} [DecidableEq Tag] [Zero Tag] [LinearOrder Label]

namespace FilteredIndex

/-- The universal label, when one is in use. -/
def universal (s : FilteredIndex Vec Tag Label) : Option Label :=
  if s.useUniversalLabel then some s.universalLabel else none

/-- `none`: `_location_to_labels` is shorter. -/
def detectCommonFilters (s : FilteredIndex Vec Tag Label) (pointId : ℕ) (searchInvocation : Bool)
    (incomingLabels : List Label) : Option Bool :=
  (s.locationToLabels[pointId]?).map
    (Filtered.commonFilters s.universal searchInvocation incomingLabels)

section Ops

variable (cfg : FilterConfig Vec D)

/-- A new index whose start points have been set, and its universal label, if any. -/
def init (points : ℕ → Vec) (useUniversalLabel : Bool) (universalLabel : Label) :
    FilteredIndex Vec Tag Label where
  toIndex := Index.init cfg.toConfig points
  locationToLabels := if cfg.filteredIndex then List.replicate cfg.totalPoints [] else []
  labels := ∅
  labelToStartId := ∅
  frozenPtsUsed := 0
  useUniversalLabel
  universalLabel

/-! ### `insert_point` -/

/-- The loop over the labels of a point: a new label gets the next frozen point, which gets the vector
of the point.  The message, if any, is that of the exception thrown. -/
def registerLabels (point : Vec) : List Label → FilteredIndex Vec Tag Label →
    Option (Option String × FilteredIndex Vec Tag Label)
  | [], s => some (none, s)
  | label :: rest, s =>
    if label ∈ s.labels then registerLabels point rest s
    else if cfg.numFrozenPts ≤ s.frozenPtsUsed then
      some ("Error: For dynamic filtered index, the number of frozen points should be atleast equal " ++
        "to number of unique labels.", s)
    else
      let fzLocation := cfg.maxPoints + s.frozenPtsUsed
      if fzLocation < s.locationToLabels.length then
        registerLabels point rest { s with
          labels := insert label s.labels
          labelToStartId := s.labelToStartId.insert label fzLocation
          locationToLabels := s.locationToLabels.set fzLocation [label]
          data := Function.update s.data fzLocation (cfg.preprocess point)
          frozenPtsUsed := s.frozenPtsUsed + 1 }
      else none

/-- `_label_to_start_id[x]` for the labels in turn: a label that is not there gets the entry `0`. -/
def startIds : List Label → AList (fun _ : Label => ℕ) → List ℕ × AList (fun _ : Label => ℕ)
  | [], m => ([], m)
  | x :: xs, m =>
    match m.lookup x with
    | some id => (id :: (startIds xs m).1, (startIds xs m).2)
    | none => (0 :: (startIds xs (m.insert x 0)).1, (startIds xs (m.insert x 0)).2)

/-- The graph part of `insert_point`. -/
def linkPoint (location : ℕ) (starts : List ℕ) (fuel : ℕ) (s : FilteredIndex Vec Tag Label) :
    Except Fault Graph :=
  (Filtered.searchForPointAndPrune cfg s.locationToLabels s.universal s.graph s.data s.start location
    starts fuel).bind fun pruned =>
      let neighborLinks :=
        if cfg.concConsolidate then pruned.filter s.locationToTag.contains else pruned
      Filtered.interInsert cfg s.locationToLabels s.data location pruned fuel
        (Function.update s.graph location neighborLinks)

/-- `insert_point` from the check of the tag on. -/
def insertAt (location : ℕ) (point : Vec) (tag : Tag) (fuel : ℕ) (s : FilteredIndex Vec Tag Label) :
    Option (Outcome Tag × FilteredIndex Vec Tag Label) :=
  if (s.tagToLocation.lookup tag).isSome then
    match s.toIndex.releaseLocation location with
    | none => none
    | some (some msg, idx) => some (.threw msg, { s with toIndex := idx })
    | some (none, idx) => some (.code (-1), { s with toIndex := idx })
  else
    let s := { s with toIndex := s.toIndex.setPoint cfg.toConfig location point tag }
    let starts := if cfg.filteredIndex then
      startIds (s.locationToLabels.getD location []) s.labelToStartId else ([], s.labelToStartId)
    let s := { s with labelToStartId := starts.2 }
    match s.linkPoint cfg location starts.1 fuel with
    | .error .stuck => none
    | .error (.threw msg) => some (.threw msg, s)
    | .ok graph => some (.code 0, { s with graph })

/-- The part of `insert_point` under `_filtered_index`, for the location `location`. -/
def insertLabelled (location : ℕ) (point : Vec) (tag : Tag) (labels : List Label) (fuel : ℕ)
    (s : FilteredIndex Vec Tag Label) : Option (Outcome Tag × FilteredIndex Vec Tag Label) :=
  if labels.isEmpty then
    match s.toIndex.releaseLocation location with
    | none => none
    | some (some msg, idx) => some (.threw msg, { s with toIndex := idx })
    | some (none, idx) => some (.code (-1), { s with toIndex := idx })
  else if location < s.locationToLabels.length then
    match registerLabels cfg point labels
        { s with locationToLabels := s.locationToLabels.set location labels } with
    | none => none
    | some (some msg, s) => some (.threw msg, s)
    | some (none, s) => s.insertAt cfg location point tag fuel
  else none

def insertPoint (point : Vec) (tag : Tag) (labels : List Label) (fuel : ℕ)
    (s : FilteredIndex Vec Tag Label) : Option (Outcome Tag × FilteredIndex Vec Tag Label) :=
  if tag = 0 then
    some (.threw "Do not insert point with tag 0. That is reserved for points hidden from the user.",
      s)
  else
    match s.toIndex.reserveLocation cfg.toConfig with
    | none => some (.threw "No values available", s)
    | some (none, idx) =>
      -- a filtered index goes on with the location `-1`
      if cfg.filteredIndex then none else some (.code (-1), { s with toIndex := idx })
    | some (some location, idx) =>
      if cfg.filteredIndex then
        insertLabelled cfg location point tag labels fuel { s with toIndex := idx }
      else insertAt cfg location point tag fuel { s with toIndex := idx }

/-! ### `lazy_delete` -/

def lazyDelete (tag : Tag) (s : FilteredIndex Vec Tag Label) :
    Outcome Tag × FilteredIndex Vec Tag Label :=
  ((s.toIndex.lazyDelete tag).1, { s with toIndex := (s.toIndex.lazyDelete tag).2 })

def lazyDeleteBatch (tags : List Tag) (s : FilteredIndex Vec Tag Label) :
    Outcome Tag × FilteredIndex Vec Tag Label :=
  ((s.toIndex.lazyDeleteBatch tags).1, { s with toIndex := (s.toIndex.lazyDeleteBatch tags).2 })

/-! ### `consolidate_deletes` -/

/-- One slot of the parallel loop. -/
def processSlot (s : FilteredIndex Vec Tag Label) (deleted : List ℕ) (orders : ℕ → SetOrder)
    (p : DeleteParams D) (fuel : ℕ) (st : Graph × ℕ) (loc : ℕ) : Except Fault (Graph × ℕ) :=
  (Filtered.processDelete cfg s.locationToLabels s.data st.1 deleted (orders loc) p fuel loc).map
    fun l => (Function.update st.1 loc l, st.2 + 1)

def processIfUsed (s : FilteredIndex Vec Tag Label) (deleted : List ℕ) (orders : ℕ → SetOrder)
    (p : DeleteParams D) (fuel : ℕ) (st : Graph × ℕ) (loc : ℕ) : Except Fault (Graph × ℕ) :=
  if loc ∈ deleted then .ok st
  else
    match s.emptySlots.isInSet loc with
    | none => .error .stuck
    | some true => .ok st
    | some false => processSlot cfg s deleted orders p fuel st loc

def processDeletes (s : FilteredIndex Vec Tag Label) (deleted : List ℕ) (orders : ℕ → SetOrder)
    (p : DeleteParams D) (fuel : ℕ) : Except Fault (Graph × ℕ) :=
  ((List.range cfg.maxPoints).foldlM (processIfUsed cfg s deleted orders p fuel) (s.graph, 0)).bind
    (cfg.frozen.foldlM (processSlot cfg s deleted orders p fuel))

def consolidateDeletes (p : DeleteParams D) (lockFree : Bool) (order : SetOrder)
    (orders : ℕ → SetOrder) (fuel : ℕ) (s : FilteredIndex Vec Tag Label) :
    Option (Outcome Tag × FilteredIndex Vec Tag Label) :=
  if s.emptySlots.size + s.nd ≠ cfg.maxPoints then
    some (.threw "#empty slots + nd != max points", s)
  else if s.locationToTag.size + s.deleteSet.card ≠ s.nd then
    some (.report ⟨.inconsistentCountError, 0, 0, 0, 0, 0, 0⟩, s)
  else if s.locationToTag.size ≠ s.tagToLocation.entries.length then
    some (.threw "_location_to_tag and _tag_to_location not of same size", s)
  else if !lockFree then some (.report ⟨.lockFail, 0, 0, 0, 0, 0, 0⟩, s)
  else
    let oldDeleteSet := order.order (s.deleteSet.sort (· ≤ ·))
    let s := { s with deleteSet := ∅ }
    if s.start ∈ oldDeleteSet then some (.threw "ERROR: start node has been deleted", s)
    else
      match processDeletes cfg s oldDeleteSet orders p fuel with
      | .error _ => none
      | .ok (graph, numCalls) =>
        match Index.releaseLocations cfg.toConfig oldDeleteSet { s.toIndex with graph } with
        | none => none
        | some (some msg, idx) => some (.threw msg, { s with toIndex := idx })
        | some (none, idx) =>
          some (.report ⟨.success, idx.nd, cfg.maxPoints, idx.emptySlots.size, oldDeleteSet.length,
            idx.deleteSet.card, numCalls⟩, { s with toIndex := idx })

/-! ### `compact_data` -/

/-- The labels in one round of the loop that moves lists and vectors. -/
def compactLabelsAt (s : Index Vec Tag) (labels : List (List Label)) (old : ℕ) :
    Option (List (List Label)) :=
  let new := s.newLocation cfg.toConfig old
  if (new < cfg.maxPoints ∨ cfg.maxPoints ≤ old) ∧ new ≠ old then swapCells labels new old
  else some labels

/-- The moves of the labels, and the loop that clears those of `[_nd, _max_points)`. -/
def compactLabels (s : Index Vec Tag) (labels : List (List Label)) : Option (List (List Label)) :=
  ((List.range cfg.totalPoints).foldlM (compactLabelsAt cfg s) labels).bind fun labels =>
    if s.nd < cfg.maxPoints ∧ labels.length < cfg.maxPoints then none
    else some (labels.mapIdx fun k l => if s.nd ≤ k ∧ k < cfg.maxPoints then [] else l)

def compactData (s : FilteredIndex Vec Tag Label) :
    Option (Outcome Tag × FilteredIndex Vec Tag Label) :=
  if s.dataCompacted then some (.void, s)
  else if 0 < s.deleteSet.card then
    some (.threw ("Can not compact data when index has non-empty _delete_set of size: " ++
      toString s.deleteSet.card), s)
  else if s.start < cfg.maxPoints ∧ ¬ s.Live s.start then
    some (.threw "ERROR: Start node deleted.", s)
  else
    (if cfg.filteredIndex then compactLabels cfg s.toIndex s.locationToLabels
      else some s.locationToLabels).map fun locationToLabels =>
        (.void, { s with toIndex := s.toIndex.compactSlots cfg.toConfig, locationToLabels })

/-! ### Runs -/

inductive Call (Vec Tag Label D : Type)
  | insertPoint (point : Vec) (tag : Tag) (labels : List Label) (fuel : ℕ)
  | lazyDelete (tag : Tag)
  | lazyDeleteBatch (tags : List Tag)
  | consolidateDeletes (p : DeleteParams D) (lockFree : Bool) (order : SetOrder)
      (orders : ℕ → SetOrder) (fuel : ℕ)
  | compactData

/-- The outcome of a call and the index after it. -/
def call (s : FilteredIndex Vec Tag Label) :
    Call Vec Tag Label D → Option (Outcome Tag × FilteredIndex Vec Tag Label)
  | .insertPoint point tag labels fuel => s.insertPoint cfg point tag labels fuel
  | .lazyDelete tag => some (s.lazyDelete tag)
  | .lazyDeleteBatch tags => some (s.lazyDeleteBatch tags)
  | .consolidateDeletes p lockFree order orders fuel =>
    s.consolidateDeletes cfg p lockFree order orders fuel
  | .compactData => s.compactData cfg

def step (s : FilteredIndex Vec Tag Label) (a : Call Vec Tag Label D)
    (s' : FilteredIndex Vec Tag Label) : Prop :=
  ∃ out, s.call cfg a = some (out, s')

/-- The states of an index whose start points have been set. -/
def Reachable : FilteredIndex Vec Tag Label → Prop :=
  Reach (fun s => ∃ points useUniversal universal, s = init cfg points useUniversal universal)
    (step cfg)

end Ops

end FilteredIndex

/-- Capacity `2` and one frozen point, with labels. -/
def labelConfig : FilterConfig ℕ ℕ where
  toConfig := natConfig
  filteredIndex := true
  filterIndexingQueueSize := 4

/-- Capacity `2` and two frozen points, with labels. -/
def twoLabelConfig : FilterConfig ℕ ℕ where
  toConfig := { natConfig with
    numFrozenPts := 2
    numFrozenPts_pos := Nat.two_pos
    totalPoints_lt := by decide }
  filteredIndex := true
  filterIndexingQueueSize := 4

end DiskANNEval.AiSAQ
