import DiskANNEval.AiSAQ.Invariant

/-!
# Save — `Index::save`, `Index::load` and the files between them

The graph file is a header and one record for each slot (its degree, then its neighbours), read
back until the number of bytes in the header has been seen; the data and the tag file hold the
same slots.  Saving moves the frozen points next to the points at the front, loading moves them
back to the end.
-/

namespace DiskANNEval.AiSAQ

open Lib List

variable {Vec Tag D : Type}

/-! ### `InMemGraphStore::save_graph` and `load_impl` -/

/-- `words`: the `uint32_t`s after the 24 bytes of the header. -/
structure GraphFile where
  indexSize : ℕ
  maxDegree : ℕ
  start : ℕ
  numFrozenPts : ℕ
  words : List ℕ

/-- The records of the lists. -/
def writeLists (lists : List (List ℕ)) : List ℕ := lists.flatMap fun l => l.length :: l

/-- The number of bytes of the records. -/
def listsSize (lists : List (List ℕ)) : ℕ := (lists.map fun l => 4 * (l.length + 1)).sum

def saveGraph (graph : Graph) (numPoints numFrozenPts start : ℕ) : GraphFile :=
  let lists := (List.range numPoints).map graph
  { indexSize := 24 + listsSize lists
    maxDegree := lists.foldl (fun m l => max l.length m) 0
    start, numFrozenPts
    words := writeLists lists }

/-- The loop `while (bytes_read != expected_file_size)`; `none`: the stream ends and throws. -/
def readLists (expected : ℕ) : ℕ → List ℕ → ℕ → Option (List (List ℕ))
  | 0, _, bytesRead => if bytesRead = expected then some [] else none
  | fuel + 1, words, bytesRead =>
    if bytesRead = expected then some []
    else
      match words with
      | [] => none
      | k :: rest =>
        if rest.length < k then none
        else (readLists expected fuel (rest.drop k) (bytesRead + 4 * (k + 1))).map (rest.take k :: ·)

/-- Every record takes at least one word, so the words are fuel enough. -/
def loadGraph (f : GraphFile) : Option (List (List ℕ)) :=
  readLists f.indexSize f.words.length f.words 24

theorem readLists_writeLists (lists : List (List ℕ)) {fuel bytesRead : ℕ}
    (hfuel : lists.length ≤ fuel) :
    readLists (bytesRead + listsSize lists) fuel (writeLists lists) bytesRead = some lists := by
  induction lists generalizing fuel bytesRead with
  | nil => cases fuel <;> simp [readLists, listsSize]
  | cons l lists ih =>
    obtain ⟨fuel, rfl⟩ : ∃ f, fuel = f + 1 := ⟨fuel - 1, by
      rw [length_cons] at hfuel
      omega⟩
    have hsize : listsSize (l :: lists) = 4 * (l.length + 1) + listsSize lists := by
      simp [listsSize]
    have hwords : writeLists (l :: lists) = l.length :: (l ++ writeLists lists) := rfl
    rw [hwords, hsize]
    unfold readLists
    rw [if_neg (by omega)]
    simp only [length_append, drop_left, take_left]
    rw [if_neg (by omega), ← Nat.add_assoc, ih (by simpa using hfuel)]
    rfl

theorem length_le_writeLists (lists : List (List ℕ)) : lists.length ≤ (writeLists lists).length := by
  induction lists with
  | nil => exact Nat.zero_le _
  | cons l lists ih =>
    simp only [writeLists, flatMap_cons, length_append, length_cons] at ih ⊢
    omega

theorem loadGraph_saveGraph (graph : Graph) (numPoints numFrozenPts start : ℕ) :
    loadGraph (saveGraph graph numPoints numFrozenPts start) =
      some ((List.range numPoints).map graph) :=
  readLists_writeLists _ (length_le_writeLists _)

namespace Index

section Ops

variable (cfg : Config Vec D)

/-! ### `reposition_points` -/

/-- `InMemDataStore::move_vectors`: the block is copied, and what it no longer covers cleared. -/
def moveVectors (old new num : ℕ) (data : DataStore Vec) : DataStore Vec :=
  let clearStart := if new < old ∧ old < new + num then new + num else old
  let clearEnd := if ¬ new < old ∧ new < old + num then new else old + num
  fun k =>
    if new ≤ k ∧ k < new + num then data (old + (k - new))
    else if clearStart ≤ k ∧ k < clearEnd then cfg.zeroVec
    else data k

/-- A neighbour after the block has moved; `uint32_t` arithmetic makes the sum exact also when
`new < old`. -/
def shift (old new num loc : ℕ) : ℕ :=
  if old ≤ loc ∧ loc < old + num then loc - old + new else loc

/-- The order of the swaps: overlapping ranges are handled from the side the block moves to. -/
def moveOffsets (old new num : ℕ) : List ℕ :=
  if new < old then List.range num else (List.range num).reverse

/-- Move the points `[old, old + num)` to `[new, new + num)`. -/
def repositionPoints (old new num : ℕ) (s : Index Vec Tag) : Index Vec Tag :=
  if num = 0 ∨ old = new then s
  else
    let graph := fun i =>
      if i < cfg.totalPoints then (s.graph i).map (shift old new num) else s.graph i
    { s with
      graph := (moveOffsets old new num).foldl
        (fun g off => swapNeighbours g (new + off) (old + off)) graph
      data := moveVectors cfg old new num s.data }

def compactFrozenPoint (s : Index Vec Tag) : Index Vec Tag :=
  if s.nd < cfg.maxPoints ∧ 0 < cfg.numFrozenPts then
    { s.repositionPoints cfg cfg.maxPoints s.nd cfg.numFrozenPts with start := s.nd }
  else s

def repositionFrozenPointToEnd (s : Index Vec Tag) : Index Vec Tag :=
  if cfg.numFrozenPts = 0 ∨ s.nd = cfg.maxPoints then s
  else { s.repositionPoints cfg s.nd cfg.maxPoints cfg.numFrozenPts with start := cfg.maxPoints }

/-! ### `save` -/

/-- The four files. -/
structure Saved (Vec Tag : Type) where
  graph : GraphFile
  data : List Vec
  tags : List Tag
  deleteList : Option (List ℕ)

/-- `save_tags`: a slot below `_nd` without tag, and the frozen slots at `_start`, get `0`. -/
def saveTags [Zero Tag] (s : Index Vec Tag) : List Tag :=
  (List.range (s.nd + cfg.numFrozenPts)).map fun i =>
    if s.start ≤ i ∧ i < s.start + cfg.numFrozenPts then 0 else (s.locationToTag.tryGet i).getD 0

/-- `save_graph`, `save_data`, `save_tags` and `save_delete_list`. -/
def savedFiles [Zero Tag] (order : SetOrder) (s : Index Vec Tag) : Saved Vec Tag where
  graph := saveGraph s.graph (s.nd + cfg.numFrozenPts) cfg.numFrozenPts s.start
  data := (List.range (s.nd + cfg.numFrozenPts)).map s.data
  tags := s.saveTags cfg
  deleteList :=
    if s.deleteSet.card = 0 then none else some (order.order (s.deleteSet.sort (· ≤ ·)))

variable [DecidableEq Tag] [Zero Tag]

/-- The outcome, the index afterwards and the files, if they are written. -/
def save (compactBeforeSave : Bool) (order : SetOrder) (s : Index Vec Tag) :
    Outcome Tag × Index Vec Tag × Option (Saved Vec Tag) :=
  if compactBeforeSave then
    match s.compactData cfg with
    | (.threw msg, s) => (.threw msg, s, none)
    | (_, s) =>
      let s := s.compactFrozenPoint cfg
      (.void, s.repositionFrozenPointToEnd cfg, some (s.savedFiles cfg order))
  else if s.dataCompacted then
    (.void, s.repositionFrozenPointToEnd cfg, some (s.savedFiles cfg order))
  else (.threw "Index save for non-compacted index is not yet implemented", s, none)

/-! ### `load` -/

/-- One slot of `load_tags`. -/
def loadTag (deleted : Finset ℕ) (st : AList (fun _ : Tag => ℕ) × NaturalNumberMap Tag)
    (it : ℕ × Tag) : AList (fun _ : Tag => ℕ) × NaturalNumberMap Tag :=
  if it.1 ∈ deleted then st else (st.1.insert it.2 it.1, st.2.set it.1 it.2)

/-- `load_tags`: the tags of the slots that are not frozen. -/
def loadTags (tags : List Tag) (s : Index Vec Tag) :
    AList (fun _ : Tag => ℕ) × NaturalNumberMap Tag :=
  ((List.range (tags.length - cfg.numFrozenPts)).zip tags).foldl (loadTag s.deleteSet)
    (s.tagToLocation, s.locationToTag)

/-- `load` into an index whose capacity is not smaller than the saved one and whose
`_num_frozen_pts` is that of the file; `none` otherwise, where the code goes on to `resize`. -/
def load (f : Saved Vec Tag) (s : Index Vec Tag) : Option (Outcome Tag × Index Vec Tag) :=
  if cfg.totalPoints < f.data.length ∨ f.graph.numFrozenPts ≠ cfg.numFrozenPts then none
  else
    let s := { s with
      emptySlots := .empty
      data := fun k => (f.data[k]?).getD (s.data k)
      deleteSet := s.deleteSet ∪ (f.deleteList.getD []).toFinset }
    let (tagToLocation, locationToTag) := s.loadTags cfg f.tags
    let s := { s with tagToLocation, locationToTag }
    match loadGraph f.graph with
    | none => some (.threw "basic_ios::clear", s)
    | some lists =>
      let s := { s with
        graph := fun k => (lists[k]?).getD (s.graph k)
        start := f.graph.start }
      if f.data.length ≠ lists.length ∨ f.data.length ≠ f.tags.length then
        some (.threw "ERROR: When loading index", s)
      else
        let nd := f.data.length - cfg.numFrozenPts
        let s := { s with
          nd
          emptySlots := NaturalNumberSet.empty.insertAll (List.range' nd (cfg.maxPoints - nd)) }
        some (.void, s.repositionFrozenPointToEnd cfg)

end Ops

end Index

end DiskANNEval.AiSAQ
