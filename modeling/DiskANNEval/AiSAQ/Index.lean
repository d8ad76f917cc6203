import DiskANNEval.Lib.Run
import DiskANNEval.AiSAQ.NaturalNumber
import DiskANNEval.AiSAQ.Search

/-!
# Index — a dynamic, tagged, unfiltered `Index` and its operations

The state of `Index<T, TagT, LabelT>` with `_dynamic_index`, `_enable_tags` and without
`_filtered_index`, and the operations that change it, each as one atomic step.  An operation that
throws leaves what it had written.  An operation is `none` when it does not return: a loop of the
graph search runs out of fuel, or `natural_number_set::is_in_set` is asked past the end of its
bitset, which `boost::dynamic_bitset::test` forbids.
-/

namespace DiskANNEval.AiSAQ

open Lib

structure Index (Vec Tag : Type) where
  nd : ℕ
  start : ℕ
  dataCompacted : Bool
  emptySlots : NaturalNumberSet
  deleteSet : Finset ℕ
  tagToLocation : AList (fun _ : Tag => ℕ)
  locationToTag : NaturalNumberMap Tag
  graph : Graph
  data : DataStore Vec

inductive StatusCode
  | success | fail | lockFail | inconsistentCountError
  deriving DecidableEq

/-- `consolidation_report` without its time. -/
structure ConsolidationReport where
  status : StatusCode
  activePoints : ℕ
  maxPoints : ℕ
  emptySlots : ℕ
  slotsReleased : ℕ
  deleteSetSize : ℕ
  numCallsToProcessDelete : ℕ
  deriving DecidableEq

/-- What an operation hands back. -/
inductive Outcome (Tag : Type)
  | code (c : ℤ)
  | failedTags (tags : List Tag)
  | report (r : ConsolidationReport)
  | void
  | threw (msg : String)

/-- The call has returned nothing, and thrown nothing. -/
def Outcome.isVoid {Tag : Type} : Outcome Tag → Bool
  | .void => true
  | _ => false

theorem Outcome.eq_void_of_isVoid {Tag : Type} {out : Outcome Tag} (h : out.isVoid = true) : out = .void := by
  unfold Outcome.isVoid at h
  split at h
  · rfl
  · cases h

variable {Vec Tag D : Type} [DecidableEq Tag] [Zero Tag]

namespace Index

/-- The slots that hold a tagged point. -/
def Live (s : Index Vec Tag) (k : ℕ) : Prop := s.locationToTag.contains k = true

instance (s : Index Vec Tag) (k : ℕ) : Decidable (s.Live k) :=
  inferInstanceAs (Decidable (_ = true))

/-! ### Construction -/

section Ops

variable (cfg : Config Vec D)

/-- The constructor, with `enable_delete`, on a zeroed data store. -/
def new : Index Vec Tag where
  nd := 0
  start := cfg.maxPoints
  dataCompacted := true
  emptySlots := NaturalNumberSet.empty.insertAll (List.range cfg.maxPoints)
  deleteSet := ∅
  tagToLocation := ∅
  locationToTag := .empty
  graph := fun _ => []
  data := fun _ => cfg.zeroVec

/-- `set_start_points` on an empty index; `points i` is the `i`-th given vector. -/
def setStartPoints (points : ℕ → Vec) (s : Index Vec Tag) : Index Vec Tag :=
  { s with data := cfg.frozen.foldl (fun d k =>
      Function.update d k (cfg.preprocess (points (k - cfg.maxPoints)))) s.data }

def init (points : ℕ → Vec) : Index Vec Tag := (new cfg).setStartPoints cfg points

/-! ### Slots -/

/-- `none`: `pop_any` throws; a location `none` is the returned `-1`. -/
def reserveLocation (s : Index Vec Tag) : Option (Option ℕ × Index Vec Tag) :=
  if cfg.maxPoints ≤ s.nd then some (none, s)
  else if s.dataCompacted && s.emptySlots.isEmpty then some (some s.nd, { s with nd := s.nd + 1 })
  else
    match s.emptySlots.popAny with
    | none => none
    | some (location, emptySlots) =>
      some (some location,
        { s with emptySlots, deleteSet := s.deleteSet.erase location, nd := s.nd + 1 })

/-- The message, if any, is that of the exception thrown. -/
def releaseLocation (location : ℕ) (s : Index Vec Tag) : Option (Option String × Index Vec Tag) :=
  match s.emptySlots.isInSet location with
  | none => none
  | some true => some ("Trying to release location, but location already in empty slots", s)
  | some false => some (none, { s with emptySlots := s.emptySlots.insert location, nd := s.nd - 1 })

def releaseLocations : List ℕ → Index Vec Tag → Option (Option String × Index Vec Tag)
  | [], s =>
    some (if s.emptySlots.size + s.nd ≠ cfg.maxPoints then "#empty slots + nd != max points"
      else none, s)
  | location :: rest, s =>
    match s.releaseLocation location with
    | none => none
    | some (some msg, s) => some (some msg, s)
    | some (none, s) => releaseLocations rest s

/-! ### `insert_point` -/

/-- The tag is entered for the location and the vector written. -/
def setPoint (location : ℕ) (point : Vec) (tag : Tag) (s : Index Vec Tag) : Index Vec Tag :=
  { s with
    tagToLocation := s.tagToLocation.insert tag location
    locationToTag := s.locationToTag.set location tag
    data := Function.update s.data location (cfg.preprocess point) }

/-- The graph part of `insert_point`: the list of the new point, then the links back. -/
def linkPoint (location fuel : ℕ) (s : Index Vec Tag) : Except Fault Graph :=
  (searchForPointAndPrune cfg s.graph s.data s.start location fuel).bind fun pruned =>
    let neighborLinks :=
      if cfg.concConsolidate then pruned.filter s.locationToTag.contains else pruned
    interInsert cfg s.data location pruned fuel (Function.update s.graph location neighborLinks)

def insertPoint (point : Vec) (tag : Tag) (fuel : ℕ) (s : Index Vec Tag) :
    Option (Outcome Tag × Index Vec Tag) :=
  if tag = 0 then
    some (.threw "Do not insert point with tag 0. That is reserved for points hidden from the user.",
      s)
  else
    match s.reserveLocation cfg with
    | none => some (.threw "No values available", s)
    | some (none, s) => some (.code (-1), s)
    | some (some location, s) =>
      if (s.tagToLocation.lookup tag).isSome then
        match s.releaseLocation location with
        | none => none
        | some (some msg, s) => some (.threw msg, s)
        | some (none, s) => some (.code (-1), s)
      else
        let s := s.setPoint cfg location point tag
        match s.linkPoint cfg location fuel with
        | .error .stuck => none
        | .error (.threw msg) => some (.threw msg, s)
        | .ok graph => some (.code 0, { s with graph })

/-! ### `lazy_delete` -/

/-- The point with `tag` at `location` becomes a deleted slot. -/
def deletePoint (tag : Tag) (location : ℕ) (s : Index Vec Tag) : Index Vec Tag :=
  { s with
    deleteSet := insert location s.deleteSet
    locationToTag := s.locationToTag.erase location
    tagToLocation := s.tagToLocation.erase tag }

def lazyDelete (tag : Tag) (s : Index Vec Tag) : Outcome Tag × Index Vec Tag :=
  let s := { s with dataCompacted := false }
  match s.tagToLocation.lookup tag with
  | none => (.code (-1), s)
  | some location => (.code 0, s.deletePoint tag location)

/-- One tag of the batch, on the pair (`failed_tags`, index). -/
def lazyDeleteOne (st : List Tag × Index Vec Tag) (tag : Tag) : List Tag × Index Vec Tag :=
  match st.2.tagToLocation.lookup tag with
  | none => (st.1 ++ [tag], st.2)
  | some location => (st.1, st.2.deletePoint tag location)

/-- The batch version, called with `failed_tags` empty. -/
def lazyDeleteBatch (tags : List Tag) (s : Index Vec Tag) : Outcome Tag × Index Vec Tag :=
  let r := tags.foldl lazyDeleteOne ([], { s with dataCompacted := false })
  (.failedTags r.1, r.2)

/-! ### `consolidate_deletes` -/

/-- One slot of the parallel loop, on the pair (graph, `num_calls_to_process_delete`).  A slot
writes its own list only, and reads only that list and the lists of deleted slots, so the order of
the loop does not matter. -/
def processSlot (s : Index Vec Tag) (deleted : List ℕ) (orders : ℕ → SetOrder) (p : DeleteParams D)
    (fuel : ℕ) (st : Graph × ℕ) (loc : ℕ) : Except Fault (Graph × ℕ) :=
  (processDelete cfg s.data st.1 deleted (orders loc) p fuel loc).map fun l =>
    (Function.update st.1 loc l, st.2 + 1)

/-- A slot below `_max_points` is processed when it is neither deleted nor empty. -/
def processIfUsed (s : Index Vec Tag) (deleted : List ℕ) (orders : ℕ → SetOrder)
    (p : DeleteParams D) (fuel : ℕ) (st : Graph × ℕ) (loc : ℕ) : Except Fault (Graph × ℕ) :=
  if loc ∈ deleted then .ok st
  else
    match s.emptySlots.isInSet loc with
    | none => .error .stuck
    | some true => .ok st
    | some false => processSlot cfg s deleted orders p fuel st loc

def processDeletes (s : Index Vec Tag) (deleted : List ℕ) (orders : ℕ → SetOrder)
    (p : DeleteParams D) (fuel : ℕ) : Except Fault (Graph × ℕ) :=
  ((List.range cfg.maxPoints).foldlM (processIfUsed cfg s deleted orders p fuel) (s.graph, 0)).bind
    (cfg.frozen.foldlM (processSlot cfg s deleted orders p fuel))

/-- `lockFree`: `_consolidate_lock.try_lock()` succeeds; `order`: how `old_delete_set` iterates;
`orders loc`: how `expanded_nodes_set` iterates in `process_delete` of `loc`. -/
def consolidateDeletes (p : DeleteParams D) (lockFree : Bool) (order : SetOrder)
    (orders : ℕ → SetOrder) (fuel : ℕ) (s : Index Vec Tag) :
    Option (Outcome Tag × Index Vec Tag) :=
  if s.emptySlots.size + s.nd ≠ cfg.maxPoints then
    some (.threw "#empty slots + nd != max points", s)
  else if s.locationToTag.size + s.deleteSet.card ≠ s.nd then
    some (.report ⟨.inconsistentCountError, 0, 0, 0, 0, 0, 0⟩, s)
  else if s.locationToTag.size ≠ s.tagToLocation.entries.length then
    some (.threw "_location_to_tag and _tag_to_location not of same size", s)
  else if !lockFree then some (.report ⟨.lockFail, 0, 0, 0, 0, 0, 0⟩, s)
  else
    let oldDeleteSet := order.order (s.deleteSet.sort (· ≤ ·))
    let s := { s with deleteSet := ∅ }
    if s.start ∈ oldDeleteSet then some (.threw "ERROR: start node has been deleted", s)
    else
      match processDeletes cfg s oldDeleteSet orders p fuel with
      | .error _ => none
      | .ok (graph, numCalls) =>
        match releaseLocations cfg oldDeleteSet { s with graph } with
        | none => none
        | some (some msg, s) => some (.threw msg, s)
        | some (none, s) =>
          some (.report ⟨.success, s.nd, cfg.maxPoints, s.emptySlots.size, oldDeleteSet.length,
            s.deleteSet.card, numCalls⟩, s)

/-! ### `compact_data` -/

/-- `new_counter` when the first loop reaches slot `k`: the live slots below it. -/
def liveBelow (s : Index Vec Tag) (k : ℕ) : ℕ := Nat.count s.Live k

/-- `new_location`; a slot that is not live keeps `UINT32_MAX`. -/
def newLocation (s : Index Vec Tag) (k : ℕ) : ℕ :=
  if k < cfg.maxPoints then if s.Live k then s.liveBelow k else 4294967295
  else k

def swapNeighbours (graph : Graph) (a b : ℕ) : Graph :=
  Function.update (Function.update graph a (graph b)) b (graph a)

/-- The list of a slot under the new locations; a neighbour in `empty_locations` is dropped. -/
def renamed (s : Index Vec Tag) (l : List ℕ) : List ℕ :=
  (l.filter fun k => ¬ (k < cfg.maxPoints ∧ ¬ s.Live k)).map (s.newLocation cfg)

/-- One round of the loop that moves lists and vectors. -/
def compactSlot (s : Index Vec Tag) (st : Graph × DataStore Vec) (old : ℕ) :
    Graph × DataStore Vec :=
  let new := s.newLocation cfg old
  if new < cfg.maxPoints ∨ cfg.maxPoints ≤ old then
    let graph := Function.update st.1 old (s.renamed cfg (st.1 old))
    if new ≠ old then (swapNeighbours graph new old, Function.update st.2 new (st.2 old))
    else (graph, st.2)
  else (Function.update st.1 old [], st.2)

/-- `_tag_to_location` rebuilt from `_location_to_tag`. -/
def compactTags (s : Index Vec Tag) : AList (fun _ : Tag => ℕ) :=
  s.locationToTag.keys.foldl (fun m pos =>
    match s.locationToTag.tryGet pos with
    | none => m
    | some tag => m.insert tag (s.newLocation cfg pos)) ∅

/-- The part of `compact_data` after its checks. -/
def compactSlots (s : Index Vec Tag) : Index Vec Tag :=
  let (graph, data) := (List.range cfg.totalPoints).foldl (s.compactSlot cfg) (s.graph, s.data)
  let tagToLocation := s.compactTags cfg
  { s with
    tagToLocation
    locationToTag := tagToLocation.entries.foldl (fun m e => m.set e.2 e.1) .empty
    graph := fun k => if s.nd ≤ k ∧ k < cfg.maxPoints then [] else graph k
    data
    emptySlots := NaturalNumberSet.empty.insertAll (List.range' s.nd (cfg.maxPoints - s.nd))
    dataCompacted := true }

def compactData (s : Index Vec Tag) : Outcome Tag × Index Vec Tag :=
  if s.dataCompacted then (.void, s)
  else if 0 < s.deleteSet.card then
    (.threw ("Can not compact data when index has non-empty _delete_set of size: " ++
      toString s.deleteSet.card), s)
  else if s.start < cfg.maxPoints ∧ ¬ s.Live s.start then (.threw "ERROR: Start node deleted.", s)
  else (.void, s.compactSlots cfg)

/-! ### Runs -/

/-- A call, with what the code does not fix about it. -/
inductive Call (Vec Tag D : Type)
  | insertPoint (point : Vec) (tag : Tag) (fuel : ℕ)
  | lazyDelete (tag : Tag)
  | lazyDeleteBatch (tags : List Tag)
  | consolidateDeletes (p : DeleteParams D) (lockFree : Bool) (order : SetOrder)
      (orders : ℕ → SetOrder) (fuel : ℕ)
  | compactData

/-- The outcome of a call and the index after it. -/
def call (s : Index Vec Tag) : Call Vec Tag D → Option (Outcome Tag × Index Vec Tag)
  | .insertPoint point tag fuel => s.insertPoint cfg point tag fuel
  | .lazyDelete tag => some (s.lazyDelete tag)
  | .lazyDeleteBatch tags => some (s.lazyDeleteBatch tags)
  | .consolidateDeletes p lockFree order orders fuel =>
    s.consolidateDeletes cfg p lockFree order orders fuel
  | .compactData => some (s.compactData cfg)

def step (s : Index Vec Tag) (a : Call Vec Tag D) (s' : Index Vec Tag) : Prop :=
  ∃ out, s.call cfg a = some (out, s')

/-- The states of an index whose start points have been set. -/
def Reachable : Index Vec Tag → Prop :=
  Reach (fun s => ∃ points, s = init cfg points) (step cfg)

end Ops

end Index

/-- Capacity `2`, with numbers as vectors and as distances. -/
def natConfig : Config ℕ ℕ where
  maxPoints := 2
  numFrozenPts := 1
  maxPoints_pos := by decide
  numFrozenPts_pos := by decide
  totalPoints_lt := by decide
  fl := {
    lt := fun a b => decide (a < b), le := fun a b => decide (a ≤ b), eq := fun a b => a == b
    add := (· + ·), mul := (· * ·), div := (· / ·), neg := id, max := max
    zero := 0, one := 1, eps := 0, alphaStep := 2, maxValue := 1000
    slackDegree := fun range => 13 * range / 10 }
  compare a b := max a b - min a b
  preprocess := id
  zeroVec := 0
  metric := .l2
  indexingQueueSize := 4
  indexingRange := 2
  indexingMaxC := 8
  indexingAlpha := 1
  saturateGraph := false
  concConsolidate := false

end DiskANNEval.AiSAQ
