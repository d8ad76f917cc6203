import DiskANNEval.AiSAQ.DiskLayout
import DiskANNEval.Lib.While

/-!
# PqCacheLoad — the cache of the PQ vectors

The direct policy copies the first vectors of the file.  The other one walks over the graph level by
level from the medoids, gives each id that it meets the next slot of the buffer until there are no
more, and then reads the vectors.  At each time the map has the ids in the order in which they have
been met (`Slotted`), and a level that is expanded enlarges the set of expanded nodes, so the walk
ends.
-/

namespace DiskANNEval.AiSAQ.PqCacheLoad

open Lib AiSAQ.DiskLayout List Nat

/-- A call of `aisaq_load_pq_cache` on an index of `numPoints` nodes.  `readNodes call` reads a block
in the call with this number, `none` where it fails for a node; `filterMedoids` and `mapOrder` are how
the maps iterate, and `garbage` is what a new buffer holds. -/
structure LoadCall where
  numPoints : ℕ
  nChunks : ℕ
  maxDegree : ℕ
  inlinePqVectors : ℕ
  rearrangedVectors : Bool
  medoids : List ℕ
  filterMedoids : List ℕ
  pqFile : List UInt8
  cacheSizeBytes : ℕ
  policy : ℕ
  readNodes : ℕ → List ℕ → List (Option (List ℕ))
  mapOrder : List (ℕ × ℕ) → List (ℕ × ℕ)
  garbage : ℕ → List UInt8
  numPoints_lt : numPoints < 2 ^ 32
  nChunks_pos : 0 < nChunks
  medoids_lt : ∀ id ∈ medoids ++ filterMedoids, id < numPoints
  read_lt : ∀ call ids, ∀ nbrs, some nbrs ∈ readNodes call ids → ∀ nbr ∈ nbrs, nbr < numPoints
  mapOrder_perm : ∀ map, (mapOrder map).Perm map
  garbage_length : ∀ n, (garbage n).length = n

/-- `AISAQ_SEARCH_PQ_CACHE_MAX_DRAM_GB` in bytes. -/
def maxDramBytes : ℕ := 8 * 2 ^ 30

/-- `AISAQ_SEARCH_PQ_CACHE_MAX_VECTORS_PCNT` -/
def maxVectorsPcnt : ℕ := 100

/-- `AISAQ_SEARCH_PQ_CACHE_DIRECT_THRESHOLD_N` -/
def directThresholdN : ℕ := 10 * 2 ^ 20

/-- `AISAQ_SEARCH_PQ_CACHE_DIRECT_THRESHOLD_PCNT` -/
def directThresholdPcnt : ℕ := 100

def policyDirect : ℕ := 1

def policyAuto : ℕ := 100

/-- What the index has of the cache; the pointers are offsets in the buffer. -/
structure PqCache where
  buf : List UInt8
  map : List (ℕ × ℕ)
  count : ℕ
  direct : Bool

/-- Before a cache is loaded. -/
def PqCache.empty : PqCache := ⟨[], [], 0, true⟩

/-- `aisaq_pq_cache_lookup` -/
def PqCache.lookup (nChunks : ℕ) (c : PqCache) (id : ℕ) : Option ℕ :=
  if c.direct then if id < c.count then some (id * nChunks) else none
  else c.map.lookup id

/-! ### The walk -/

/-- The map, `pq_cache_buf_it`, `pq_cache_vec_count` and `cur_level`. -/
structure Walk where
  map : List (ℕ × ℕ)
  bufIt : ℕ
  vecCount : ℕ
  curLevel : Finset ℕ

/-- `node_set`, and the number of reads that have been issued. -/
structure Levels extends Walk where
  nodeSet : Finset ℕ
  reads : ℕ

namespace LoadCall

variable (a : LoadCall)

/-- `pq_cache_max_vec` -/
def maxVec : ℕ :=
  min (min a.cacheSizeBytes maxDramBytes / a.nChunks) (a.numPoints * maxVectorsPcnt / 100)

def direct : Bool :=
  a.policy = policyDirect ∨ a.policy = policyAuto ∧
    (a.rearrangedVectors ∨ a.maxVec = a.numPoints ∨ directThresholdN < a.maxVec ∨
      a.numPoints * directThresholdPcnt / 100 < a.maxVec)

/-- A slot for an id that has none. -/
def mapVector (s : Walk) (id : ℕ) : Walk :=
  if s.map.lookup id = none then
    { s with
      map := s.map ++ [(id, s.bufIt)]
      bufIt := s.bufIt + a.nChunks
      vecCount := (s.vecCount + 1) % 2 ^ 32 }
  else s

def addMedoid (s : Walk) (id : ℕ) : Walk :=
  if s.vecCount < a.maxVec then
    a.mapVector { s with curLevel := insert id s.curLevel } id
  else s

def addFilterMedoid (s : Walk) (id : ℕ) : Walk :=
  let s := { s with curLevel := insert id s.curLevel }
  if s.vecCount < a.maxVec then a.mapVector s id else s

/-- The loop over the neighbours that are not inline; when the cache is full it stops, and there is no
next level. -/
def mapNbrs : List ℕ → Walk → Walk
  | [], s => s
  | nbr :: nbrs, s =>
    if s.map.lookup nbr = none then
      let s := a.mapVector s nbr
      if s.vecCount = a.maxVec then { s with curLevel := ∅ } else mapNbrs nbrs s
    else mapNbrs nbrs s

/-- A node that has been read. -/
def expandNode (nodeSet : Finset ℕ) (s : Walk) (nbrs : List ℕ) : Walk :=
  let s := if s.vecCount < a.maxVec then a.mapNbrs (nbrs.drop a.inlinePqVectors) s else s
  if s.vecCount < a.maxVec then
    { s with curLevel := s.curLevel ∪ (nbrs.filter (· ∉ nodeSet)).toFinset }
  else s

def blockSize : ℕ := 1024

/-- `nodes_to_read` of a block. -/
def nodesToRead (nodesToExpand : List ℕ) (block : ℕ) : List ℕ :=
  (nodesToExpand.drop (block * blockSize)).take blockSize

def expandBlock (nodeSet : Finset ℕ) (reads : ℕ) (nodesToExpand : List ℕ) (s : Walk) (block : ℕ) :
    Walk :=
  ((a.readNodes (reads + block) (nodesToRead nodesToExpand block)).reduceOption).foldl
    (a.expandNode nodeSet) s

/-- One round of the loop over the levels. -/
def expandLevel (s : Levels) : Levels :=
  let nodesToExpand := (s.curLevel \ s.nodeSet).sort (· ≤ ·)
  let nodeSet := s.nodeSet ∪ s.curLevel
  let nblocks := divRoundUp nodesToExpand.length blockSize
  let walk := (List.range nblocks).foldl (a.expandBlock nodeSet s.reads nodesToExpand)
    { s.toWalk with curLevel := ∅ }
  { walk with nodeSet, reads := s.reads + nblocks }

def medoidLevel : Levels :=
  let walk := a.filterMedoids.foldl a.addFilterMedoid
    (a.medoids.foldl a.addMedoid ⟨[], 0, 0, ∅⟩)
  { walk with nodeSet := ∅, reads := 0 }

def levelsLeft (s : Levels) : Bool := s.vecCount < a.maxVec ∧ s.curLevel ≠ ∅

/-! ### The vectors -/

/-- The direct policy: `tocopy` bytes of the vectors, in parts of 1 MiB. -/
def copyVectors (offset tocopy : ℕ) (buf : List UInt8) : Option (List UInt8) :=
  if 0 < tocopy then
    (readSlice a.pqFile (8 + offset) (min tocopy (2 ^ 20))).bind fun part =>
      (write buf offset part).bind
        (copyVectors (offset + min tocopy (2 ^ 20)) (tocopy - min tocopy (2 ^ 20)))
  else some buf
termination_by tocopy
decreasing_by
  have : 0 < min tocopy (2 ^ 20) := by
    rw [lt_min_iff]
    exact ⟨by assumption, by decide⟩
  omega

/-- The vector of an entry of the map. -/
def readVector (buf : List UInt8) (entry : ℕ × ℕ) : Option (List UInt8) :=
  (readSlice a.pqFile (8 + entry.1 * a.nChunks) a.nChunks).bind (write buf entry.2)

/-- The checks of the file. -/
def checkFile : Except String Unit :=
  match readLe 4 a.pqFile 0, readLe 4 a.pqFile 4 with
  | some npts, some nbytes =>
    if npts ≠ a.numPoints then
      .error "Mismatch in num_points between pq compressed vectors file and base file"
    else if nbytes ≠ a.nChunks then
      .error "Mismatch in pq vector size between pq compressed vectors file and base file"
    else if a.pqFile.length ≠ 8 + nbytes * npts then
      .error "Discrepancy in pq compressed vectors file size "
    else .ok ()
  | _, _ => .error "basic_ios::clear"

/-- The buffer of the map, when the walk has ended. -/
def fillSlots (s : Walk) : Option PqCache :=
  ((a.mapOrder s.map).foldlM a.readVector (a.garbage (a.maxVec * a.nChunks))).map fun buf =>
    { buf, map := s.map, count := a.maxVec, direct := false }

def toExcept (c : Option PqCache) : Except String PqCache :=
  match c with
  | none => .error "basic_ios::clear"
  | some c => .ok c

/-- `aisaq_load_pq_cache`, with at most `fuel` levels; `none`: they are not enough. -/
def load (fuel : ℕ) : Option (Except String PqCache) :=
  if a.maxDegree ≤ a.inlinePqVectors then some (.ok .empty)
  else
    match a.checkFile with
    | .error msg => some (.error msg)
    | .ok () =>
      if a.direct then
        some (toExcept ((a.copyVectors 0 (a.maxVec * a.nChunks)
          (a.garbage (a.maxVec * a.nChunks))).map fun buf =>
            { buf, map := [], count := a.maxVec, direct := true }))
      else
        (whileM a.levelsLeft (fun s => some (a.expandLevel s)) fuel a.medoidLevel).map fun s =>
          toExcept (a.fillSlots s.toWalk)

end LoadCall

/-! ### The slots -/

variable {v id off : ℕ} {ids : List ℕ}

/-- The ids in the order in which they have got their slots. -/
def slots (v : ℕ) (ids : List ℕ) : List (ℕ × ℕ) := ids.zipIdx.map fun p => (p.1, p.2 * v)

theorem slots_concat (v : ℕ) (ids : List ℕ) (id : ℕ) :
    slots v (ids ++ [id]) = slots v ids ++ [(id, ids.length * v)] := by
  rw [slots, zipIdx_append, map_append, zero_add]
  rfl

theorem lookup_slots_eq_none : (slots v ids).lookup id = none ↔ id ∉ ids := by
  induction ids using reverseRecOn with
  | nil => simp [slots]
  | append_singleton ids x ih =>
    rw [slots_concat, lookup_append, Option.or_eq_none_iff, ih]
    by_cases hx : id = x
    · simp [hx]
    · simp [hx, beq_eq_false_iff_ne.2 hx]

theorem lookup_slots (hnd : ids.Nodup) :
    (slots v ids).lookup id = some off ↔ ∃ k : ℕ, ids[k]? = some id ∧ off = k * v := by
  induction ids using reverseRecOn with
  | nil => simp [slots]
  | append_singleton ids x ih =>
    obtain ⟨hids, -, hdisj⟩ := nodup_append.1 hnd
    rw [slots_concat, lookup_append]
    by_cases hmem : id ∈ ids
    · obtain ⟨off', hoff⟩ := Option.ne_none_iff_exists'.1 (mt lookup_slots_eq_none.1 (not_not.2 hmem))
      rw [hoff, Option.some_or, ← hoff, ih hids]
      refine exists_congr fun k => and_congr_left fun _ => ?_
      rcases Nat.lt_or_ge k ids.length with hk | hk
      · rw [getElem?_append_left hk]
      · rw [getElem?_append_right hk, getElem?_eq_none hk]
        refine iff_of_false (by simp) fun h => ?_
        obtain rfl := mem_singleton.1 (mem_of_getElem? h)
        exact hdisj id hmem id mem_cons_self rfl
    · rw [lookup_slots_eq_none.2 hmem, lookup_cons]
      by_cases hx : id = x
      · subst hx
        rw [beq_self_eq_true]
        constructor
        · intro h
          exact ⟨ids.length, getElem?_concat_length, (Option.some.inj h).symm⟩
        · rintro ⟨k, hk, rfl⟩
          rcases Nat.lt_or_ge k ids.length with hlt | hge
          · rw [getElem?_append_left hlt] at hk
            exact absurd (mem_of_getElem? hk) hmem
          · rw [getElem?_append_right hge] at hk
            obtain ⟨hlt, -⟩ := List.getElem?_eq_some_iff.1 hk
            rw [length_singleton] at hlt
            obtain rfl : k = ids.length := by omega
            rfl
      · rw [beq_eq_false_iff_ne.2 hx]
        refine iff_of_false (by simp) ?_
        rintro ⟨k, hk, -⟩
        rcases mem_append.1 (mem_of_getElem? hk) with h | h
        · exact hmem h
        · exact hx (mem_singleton.1 h)

namespace LoadCall

variable {a : LoadCall} {nodeSet : Finset ℕ} {s : Walk}

theorem maxVec_le (a : LoadCall) : a.maxVec ≤ a.numPoints := by
  refine (min_le_right _ _).trans ?_
  rw [maxVectorsPcnt, Nat.mul_div_cancel _ (by decide)]

theorem maxVec_mul_le (a : LoadCall) : a.maxVec * a.nChunks ≤ a.cacheSizeBytes := by
  have hdiv : a.maxVec ≤ min a.cacheSizeBytes maxDramBytes / a.nChunks := min_le_left _ _
  calc a.maxVec * a.nChunks ≤ min a.cacheSizeBytes maxDramBytes / a.nChunks * a.nChunks :=
        mul_le_mul_right _ hdiv
    _ ≤ min a.cacheSizeBytes maxDramBytes := div_mul_le_self _ _
    _ ≤ a.cacheSizeBytes := min_le_left _ _

/-- The map is that of `ids`, and the iterator and the counter are at their end. -/
structure Slotted (a : LoadCall) (ids : List ℕ) (s : Walk) : Prop where
  map_eq : s.map = slots a.nChunks ids
  nodup : ids.Nodup
  lt : ∀ id ∈ ids, id < a.numPoints
  bufIt : s.bufIt = ids.length * a.nChunks
  count : s.vecCount = ids.length
  le : ids.length ≤ a.maxVec

/-- The map is in order, and the next level is new. -/
structure Walked (a : LoadCall) (nodeSet : Finset ℕ) (s : Walk) : Prop where
  slotted : ∃ ids, a.Slotted ids s
  level : ∀ id ∈ s.curLevel, id < a.numPoints ∧ id ∉ nodeSet

theorem Slotted.mapVector {ids : List ℕ} (h : a.Slotted ids s) (hroom : s.vecCount < a.maxVec)
    {id : ℕ} (hid : id < a.numPoints) : ∃ ids', a.Slotted ids' (a.mapVector s id) := by
  unfold LoadCall.mapVector
  split_ifs with hlookup
  · rw [h.map_eq, lookup_slots_eq_none] at hlookup
    rw [h.count] at hroom
    refine ⟨ids ++ [id], ?_, ?_, ?_, ?_, ?_, ?_⟩
    · rw [slots_concat, h.map_eq, h.bufIt]
    · exact h.nodup.append (nodup_singleton id) (disjoint_singleton.2 hlookup)
    · intro i hi
      rcases mem_append.1 hi with hi | hi
      · exact h.lt i hi
      · rwa [mem_singleton.1 hi]
    · show s.bufIt + a.nChunks = _
      rw [h.bufIt, length_append, length_singleton, add_mul, one_mul]
    · show (s.vecCount + 1) % 2 ^ 32 = _
      have := a.maxVec_le
      have := a.numPoints_lt
      rw [h.count, length_append, length_singleton, mod_eq_of_lt (by omega)]
    · rw [length_append]
      exact hroom
  · exact ⟨ids, h⟩

theorem curLevel_mapVector (s : Walk) (id : ℕ) : (a.mapVector s id).curLevel = s.curLevel := by
  unfold LoadCall.mapVector
  split_ifs
  · rfl
  · rfl

theorem Walked.mapVector (h : a.Walked nodeSet s) (hroom : s.vecCount < a.maxVec) {id : ℕ}
    (hid : id < a.numPoints) : a.Walked nodeSet (a.mapVector s id) := by
  obtain ⟨ids, hids⟩ := h.slotted
  refine ⟨hids.mapVector hroom hid, ?_⟩
  rw [curLevel_mapVector]
  exact h.level

theorem Walked.count_le (h : a.Walked nodeSet s) : s.vecCount ≤ a.maxVec := by
  obtain ⟨ids, hids⟩ := h.slotted
  exact hids.count.le.trans hids.le

theorem Walked.withLevel (h : a.Walked nodeSet s) {nodeSet' curLevel : Finset ℕ}
    (hlevel : ∀ id ∈ curLevel, id < a.numPoints ∧ id ∉ nodeSet') :
    a.Walked nodeSet' { s with curLevel } := by
  obtain ⟨ids, hids⟩ := h.slotted
  exact ⟨⟨ids, hids.map_eq, hids.nodup, hids.lt, hids.bufIt, hids.count, hids.le⟩, hlevel⟩

theorem Walked.mapNbrs (h : a.Walked nodeSet s) (hroom : s.vecCount < a.maxVec) {nbrs : List ℕ}
    (hnbrs : ∀ nbr ∈ nbrs, nbr < a.numPoints) : a.Walked nodeSet (a.mapNbrs nbrs s) := by
  induction nbrs generalizing s with
  | nil => exact h
  | cons nbr nbrs ih =>
    rw [forall_mem_cons] at hnbrs
    have h' := h.mapVector hroom hnbrs.1
    rw [LoadCall.mapNbrs]
    dsimp only
    split_ifs with hlookup hfull
    · exact h'.withLevel fun id hid => absurd hid (Finset.notMem_empty id)
    · exact ih h' (lt_of_le_of_ne h'.count_le hfull) hnbrs.2
    · exact ih h hroom hnbrs.2

theorem Walked.expandNode (h : a.Walked nodeSet s) {nbrs : List ℕ}
    (hnbrs : ∀ nbr ∈ nbrs, nbr < a.numPoints) : a.Walked nodeSet (a.expandNode nodeSet s nbrs) := by
  unfold LoadCall.expandNode
  dsimp only
  have h' : a.Walked nodeSet
      (if s.vecCount < a.maxVec then a.mapNbrs (nbrs.drop a.inlinePqVectors) s else s) := by
    split_ifs with hroom
    · exact h.mapNbrs hroom fun nbr hnbr => hnbrs nbr (mem_of_mem_drop hnbr)
    · exact h
  generalize (if s.vecCount < a.maxVec then a.mapNbrs (nbrs.drop a.inlinePqVectors) s else s) = t
    at h' ⊢
  split_ifs
  · refine h'.withLevel fun id hid => ?_
    rcases Finset.mem_union.1 hid with hid | hid
    · exact h'.level id hid
    · obtain ⟨hmem, hnew⟩ := mem_filter.1 (mem_toFinset.1 hid)
      exact ⟨hnbrs id hmem, of_decide_eq_true hnew⟩
  · exact h'

theorem Walked.expandBlock (h : a.Walked nodeSet s) (reads : ℕ) (nodesToExpand : List ℕ)
    (block : ℕ) : a.Walked nodeSet (a.expandBlock nodeSet reads nodesToExpand s block) := by
  refine foldlRecOn _ _ h fun s hs nbrs hnbrs => hs.expandNode fun nbr hnbr => ?_
  exact a.read_lt _ _ nbrs (reduceOption_mem_iff.1 hnbrs) nbr hnbr

/-! ### The levels -/

/-- Between two levels. -/
structure Leveled (a : LoadCall) (s : Levels) : Prop extends Walked a s.nodeSet s.toWalk where
  expanded : s.nodeSet ⊆ Finset.range a.numPoints

theorem leveled_medoidLevel (a : LoadCall) : a.Leveled a.medoidLevel := by
  have hstart : a.Walked ∅ ⟨[], 0, 0, ∅⟩ := by
    refine ⟨⟨[], rfl, nodup_nil, ?_, (zero_mul _).symm, rfl, zero_le _⟩, ?_⟩
    · exact fun _ h => absurd h not_mem_nil
    · exact fun id hid => absurd hid (Finset.notMem_empty id)
  have hinsert : ∀ {s : Walk} {id : ℕ}, a.Walked ∅ s → id < a.numPoints →
      a.Walked ∅ { s with curLevel := insert id s.curLevel } := by
    intro s id h hid
    refine h.withLevel fun i hi => ⟨?_, Finset.notMem_empty i⟩
    rcases Finset.mem_insert.1 hi with rfl | hi
    · exact hid
    · exact (h.level i hi).1
  have hmedoids : a.Walked ∅ (a.medoids.foldl a.addMedoid ⟨[], 0, 0, ∅⟩) := by
    refine foldlRecOn _ _ hstart fun s hs id hid => ?_
    have hlt := a.medoids_lt id (mem_append_left _ hid)
    unfold addMedoid
    split_ifs with hroom
    · exact (hinsert hs hlt).mapVector hroom hlt
    · exact hs
  have hfilter : a.Walked ∅ (a.filterMedoids.foldl a.addFilterMedoid
      (a.medoids.foldl a.addMedoid ⟨[], 0, 0, ∅⟩)) := by
    refine foldlRecOn _ _ hmedoids fun s hs id hid => ?_
    have hlt := a.medoids_lt id (mem_append_right _ hid)
    unfold addFilterMedoid
    dsimp only
    split_ifs with hroom
    · exact (hinsert hs hlt).mapVector hroom hlt
    · exact hinsert hs hlt
  exact ⟨hfilter, Finset.empty_subset _⟩

theorem Leveled.expandLevel {s : Levels} (h : a.Leveled s) (hne : s.curLevel ≠ ∅) :
    a.Leveled (a.expandLevel s) ∧
      a.numPoints - (a.expandLevel s).nodeSet.card < a.numPoints - s.nodeSet.card := by
  have hsub : s.nodeSet ∪ s.curLevel ⊆ Finset.range a.numPoints :=
    Finset.union_subset h.expanded fun id hid => Finset.mem_range.2 (h.level id hid).1
  constructor
  · refine ⟨?_, hsub⟩
    refine foldlRecOn _ _ ?_ fun s hs block _ => hs.expandBlock _ _ _
    exact h.withLevel fun id hid => absurd hid (Finset.notMem_empty id)
  · have hdisj : Disjoint s.nodeSet s.curLevel :=
      Finset.disjoint_right.2 fun id hid => (h.level id hid).2
    have hpos : 0 < s.curLevel.card := Finset.card_pos.2 (Finset.nonempty_iff_ne_empty.2 hne)
    have hle : (s.nodeSet ∪ s.curLevel).card ≤ a.numPoints := by
      simpa using Finset.card_le_card hsub
    have hcard := Finset.card_union_of_disjoint hdisj
    show a.numPoints - (s.nodeSet ∪ s.curLevel).card < _
    omega

theorem exists_levels (a : LoadCall) : ∃ fuel s,
    whileM a.levelsLeft (fun s => some (a.expandLevel s)) fuel a.medoidLevel = some s ∧
      a.Leveled s := by
  obtain ⟨s, hloop, hs, -⟩ := exists_whileM a.levelsLeft (fun s => some (a.expandLevel s)) a.Leveled
    (fun s => a.numPoints - s.nodeSet.card)
    (fun s hs hleft => by
      have hne : s.curLevel ≠ ∅ := (of_decide_eq_true hleft).2
      obtain ⟨hs', hlt⟩ := hs.expandLevel hne
      exact ⟨_, rfl, hs', hlt⟩)
    a.leveled_medoidLevel (le_refl _)
  exact ⟨_, s, hloop, hs⟩

/-! ### The vectors are read -/

/-- The vector of an id in the file. -/
def vector (a : LoadCall) (id : ℕ) : List UInt8 := slice a.pqFile (8 + id * a.nChunks) a.nChunks

/-- The header and the size are those of the index. -/
structure FileMatches (a : LoadCall) : Prop where
  npts : readLe 4 a.pqFile 0 = some a.numPoints
  nbytes : readLe 4 a.pqFile 4 = some a.nChunks
  length_eq : a.pqFile.length = 8 + a.nChunks * a.numPoints

theorem checkFile_eq_ok : a.checkFile = .ok () ↔ a.FileMatches := by
  unfold checkFile
  constructor
  · intro h
    split at h
    · next npts nbytes hnpts hnbytes =>
      split_ifs at h with h₁ h₂ h₃
      rw [not_ne_iff] at h₁ h₂ h₃
      subst h₁ h₂
      exact ⟨hnpts, hnbytes, h₃⟩
    · cases h
  · rintro ⟨hnpts, hnbytes, hlen⟩
    rw [hnpts, hnbytes]
    simp [hlen]

variable {k m : ℕ}

theorem slot_le (v : ℕ) (h : k < m) : k * v + v ≤ m * v := by
  calc k * v + v = (k + 1) * v := by rw [add_mul, one_mul]
    _ ≤ m * v := mul_le_mul_right v h

theorem vector_fits (h : a.FileMatches) {id : ℕ} (hid : id < a.numPoints) :
    8 + id * a.nChunks + a.nChunks ≤ a.pqFile.length := by
  have hle : id * a.nChunks + a.nChunks ≤ a.nChunks * a.numPoints := by
    rw [mul_comm a.nChunks]
    exact slot_le a.nChunks hid
  rw [h.length_eq]
  omega

theorem slot_disjoint {k' : ℕ} (v : ℕ) (hne : k ≠ k') : k * v + v ≤ k' * v ∨ k' * v + v ≤ k * v :=
  (lt_or_gt_of_ne hne).imp (slot_le v) (slot_le v)

variable {buf : List UInt8}

theorem exists_readVector (h : a.FileMatches) {id : ℕ} (hid : id < a.numPoints)
    (hbuf : buf.length = m * a.nChunks) (hk : k < m) :
    ∃ buf', a.readVector buf (id, k * a.nChunks) = some buf' ∧ buf'.length = m * a.nChunks ∧
      slice buf' (k * a.nChunks) a.nChunks = a.vector id ∧
      ∀ k', k' ≠ k →
        slice buf' (k' * a.nChunks) a.nChunks = slice buf (k' * a.nChunks) a.nChunks := by
  have hfits := vector_fits h hid
  have hlen : (a.vector id).length = a.nChunks := length_slice hfits
  have hslot : k * a.nChunks + (a.vector id).length ≤ buf.length := by
    rw [hlen, hbuf]
    exact slot_le a.nChunks hk
  obtain ⟨buf', hwrite⟩ := write_isSome hslot
  refine ⟨buf', ?_, (length_write hwrite).trans hbuf, ?_, ?_⟩
  · rw [readVector, readSlice, if_pos hfits]
    exact hwrite
  · have hsame := slice_write_same hwrite
    rwa [hlen] at hsame
  · intro k' hne
    rcases slot_disjoint a.nChunks hne with hbefore | hafter
    · exact slice_write_before hwrite hbefore
    · exact slice_write_after hwrite (by rwa [hlen])

theorem readVectors_spec (h : a.FileMatches) {es : List (ℕ × ℕ)} (hbuf : buf.length = m * a.nChunks)
    (hes : ∀ e ∈ es, e.1 < a.numPoints ∧ ∃ k < m, e.2 = k * a.nChunks)
    (hnd : (es.map Prod.snd).Nodup) :
    ∃ buf', es.foldlM a.readVector buf = some buf' ∧ buf'.length = m * a.nChunks ∧
      (∀ e ∈ es, slice buf' e.2 a.nChunks = a.vector e.1) ∧
      ∀ k, k * a.nChunks ∉ es.map Prod.snd →
        slice buf' (k * a.nChunks) a.nChunks = slice buf (k * a.nChunks) a.nChunks := by
  induction es generalizing buf with
  | nil => exact ⟨buf, rfl, hbuf, fun _ he => absurd he not_mem_nil, fun _ _ => rfl⟩
  | cons e es ih =>
    rw [forall_mem_cons] at hes
    rw [map_cons, nodup_cons] at hnd
    obtain ⟨id, off⟩ := e
    obtain ⟨⟨hid, k, hk, hoff⟩, hes⟩ := hes
    obtain rfl : off = k * a.nChunks := hoff
    obtain ⟨buf₁, hread, hbuf₁, hvector, hframe₁⟩ := exists_readVector h hid hbuf hk
    obtain ⟨buf', hfold, hbuf', hvectors, hframe⟩ := ih hbuf₁ hes hnd.2
    refine ⟨buf', ?_, hbuf', ?_, ?_⟩
    · rw [foldlM_cons, hread]
      exact hfold
    · intro e he
      rcases mem_cons.1 he with rfl | he
      · exact (hframe k hnd.1).trans hvector
      · exact hvectors e he
    · intro k' hk'
      obtain ⟨hne, hk'⟩ := not_or.1 (mt mem_cons.2 hk')
      rw [hframe k' hk', hframe₁ k' fun heq => hne (by rw [heq])]

theorem exists_copyVectors {offset tocopy : ℕ} (hfile : 8 + offset + tocopy ≤ a.pqFile.length)
    (hbuf : offset + tocopy ≤ buf.length) :
    ∃ buf', a.copyVectors offset tocopy buf = some buf' ∧ buf'.length = buf.length ∧
      slice buf' 0 offset = slice buf 0 offset ∧
      slice buf' offset tocopy = slice a.pqFile (8 + offset) tocopy := by
  induction tocopy using Nat.strong_induction_on generalizing offset buf with
  | _ tocopy ih =>
    rw [copyVectors]
    split_ifs with hpos
    · have hcount : 0 < min tocopy (2 ^ 20) := lt_min hpos (by decide)
      have hle : min tocopy (2 ^ 20) ≤ tocopy := min_le_left _ _
      generalize min tocopy (2 ^ 20) = count at hcount hle
      have hlen : (slice a.pqFile (8 + offset) count).length = count := length_slice (by omega)
      have hroom : offset + (slice a.pqFile (8 + offset) count).length ≤ buf.length := by omega
      obtain ⟨buf₁, hwrite⟩ := write_isSome hroom
      have hbuf₁ := length_write hwrite
      have hfile' : 8 + (offset + count) + (tocopy - count) ≤ a.pqFile.length := by omega
      have hbuf' : offset + count + (tocopy - count) ≤ buf₁.length := by omega
      obtain ⟨buf', hcopy, hlen', hbefore, hcopied⟩ := ih (tocopy - count) (by omega) hfile' hbuf'
      have hpart := slice_write_same hwrite
      rw [hlen] at hpart
      -- what is before the next part does not change any more
      have hkeep : ∀ o l, o + l ≤ offset + count → slice buf' o l = slice buf₁ o l := by
        intro o l hle
        have hsub : slice (slice buf' 0 (offset + count)) o l = slice buf' (0 + o) l :=
          slice_slice hle
        rw [hbefore, slice_slice hle, zero_add] at hsub
        exact hsub.symm
      refine ⟨buf', ?_, hlen'.trans hbuf₁, ?_, ?_⟩
      · rw [readSlice, if_pos (by omega), Option.bind_some, hwrite]
        exact hcopy
      · rw [hkeep 0 offset (by omega)]
        exact slice_write_before hwrite (by omega)
      · have hsplit : tocopy = count + (tocopy - count) := by omega
        rw [hsplit, slice_add, slice_add, hkeep offset count (le_refl _), hpart, hcopied,
          add_assoc]
    · obtain rfl : tocopy = 0 := by omega
      refine ⟨buf, rfl, rfl, rfl, ?_⟩
      rw [slice, slice, take_zero, take_zero]

/-! ### The cache -/

/-- What a lookup gives is the place of the vector, and no two ids share a place. -/
structure Sound (a : LoadCall) (c : PqCache) : Prop where
  cached : ∃ ids : List ℕ, ids.Nodup ∧ ids.length ≤ a.maxVec ∧
    ∀ id, (c.lookup a.nChunks id).isSome ↔ id ∈ ids
  slot : ∀ id off, c.lookup a.nChunks id = some off →
    a.nChunks ∣ off ∧ off + a.nChunks ≤ c.buf.length
  distinct : ∀ id id' off, c.lookup a.nChunks id = some off → c.lookup a.nChunks id' = some off →
    id = id'
  vector : ∀ id off, c.lookup a.nChunks id = some off →
    id < a.numPoints ∧ slice c.buf off a.nChunks = a.vector id

theorem sound_of_ids {c : PqCache} {ids : List ℕ} (hnd : ids.Nodup) (hlen : ids.length ≤ a.maxVec)
    (hids : ∀ id ∈ ids, id < a.numPoints) (hbuf : ids.length * a.nChunks ≤ c.buf.length)
    (hlookup : ∀ id off, c.lookup a.nChunks id = some off ↔
      ∃ k : ℕ, ids[k]? = some id ∧ off = k * a.nChunks)
    (hvector : ∀ (k id : ℕ), ids[k]? = some id →
      slice c.buf (k * a.nChunks) a.nChunks = a.vector id) : a.Sound c := by
  refine ⟨⟨ids, hnd, hlen, fun id => ?_⟩, ?_, ?_, ?_⟩
  · rw [Option.isSome_iff_exists]
    constructor
    · rintro ⟨off, hoff⟩
      obtain ⟨k, hk, -⟩ := (hlookup id off).1 hoff
      exact mem_of_getElem? hk
    · intro hmem
      obtain ⟨k, hk, rfl⟩ := getElem_of_mem hmem
      exact ⟨_, (hlookup _ _).2 ⟨k, getElem?_eq_getElem hk, rfl⟩⟩
  · intro id off hoff
    obtain ⟨k, hk, rfl⟩ := (hlookup id off).1 hoff
    obtain ⟨hlt, -⟩ := List.getElem?_eq_some_iff.1 hk
    exact ⟨dvd_mul_left _ _, (slot_le a.nChunks hlt).trans hbuf⟩
  · intro id id' off hoff hoff'
    obtain ⟨k, hk, rfl⟩ := (hlookup id off).1 hoff
    obtain ⟨k', hk', heq⟩ := (hlookup id' _).1 hoff'
    obtain rfl := eq_of_mul_eq_mul_right a.nChunks_pos heq
    exact Option.some.inj (hk.symm.trans hk')
  · intro id off hoff
    obtain ⟨k, hk, rfl⟩ := (hlookup id off).1 hoff
    exact ⟨hids id (mem_of_getElem? hk), hvector k id hk⟩

theorem sound_empty (a : LoadCall) : a.Sound .empty := by
  refine sound_of_ids nodup_nil (zero_le _) (fun _ h => absurd h not_mem_nil)
    (by simp) ?_ ?_
  · intro id off
    rw [PqCache.lookup, PqCache.empty]
    simp
  · exact fun k id h => absurd h (by simp)

theorem exists_direct (h : a.FileMatches) : ∃ buf,
    a.copyVectors 0 (a.maxVec * a.nChunks) (a.garbage (a.maxVec * a.nChunks)) = some buf ∧
      a.Sound { buf, map := [], count := a.maxVec, direct := true } := by
  have hmax : a.maxVec * a.nChunks ≤ a.nChunks * a.numPoints := by
    rw [mul_comm]
    exact mul_le_mul_left _ a.maxVec_le
  have hgarbage := a.garbage_length (a.maxVec * a.nChunks)
  have hfile : 8 + 0 + a.maxVec * a.nChunks ≤ a.pqFile.length := by
    rw [h.length_eq]
    omega
  have hroom : 0 + a.maxVec * a.nChunks ≤ (a.garbage (a.maxVec * a.nChunks)).length := by
    rw [hgarbage, zero_add]
  obtain ⟨buf, hcopy, hlen, -, hslice⟩ := exists_copyVectors hfile hroom
  refine ⟨buf, hcopy, ?_⟩
  have hget : ∀ k id : ℕ, (List.range a.maxVec)[k]? = some id ↔ id < a.maxVec ∧ k = id := by
    intro k id
    rw [getElem?_eq_some_iff]
    simp only [getElem_range, length_range]
    exact ⟨fun ⟨hk, heq⟩ => ⟨heq ▸ hk, heq⟩, fun ⟨hid, heq⟩ => ⟨heq ▸ hid, heq⟩⟩
  refine sound_of_ids nodup_range length_range.le ?_ ?_ ?_ ?_
  · exact fun id hid => (List.mem_range.1 hid).trans_le a.maxVec_le
  · rw [length_range, hlen, hgarbage]
  · intro id off
    rw [PqCache.lookup, if_pos rfl]
    simp only [hget]
    split_ifs with hid
    · rw [Option.some.injEq]
      exact ⟨fun heq => ⟨id, ⟨hid, rfl⟩, heq.symm⟩, fun ⟨k, ⟨_, hk⟩, heq⟩ => by rw [heq, hk]⟩
    · exact iff_of_false (by simp) fun ⟨k, ⟨h, _⟩, _⟩ => hid h
  · intro k id hk
    obtain ⟨hid, rfl⟩ := (hget k id).1 hk
    have hfits := slot_le a.nChunks hid
    have hsub : slice (slice buf 0 (a.maxVec * a.nChunks)) (k * a.nChunks) a.nChunks =
        slice buf (0 + k * a.nChunks) a.nChunks := slice_slice hfits
    rw [hslice, slice_slice hfits, zero_add] at hsub
    exact hsub.symm

theorem exists_fillSlots (h : a.FileMatches) {ids : List ℕ} (hs : a.Slotted ids s) :
    ∃ c, a.fillSlots s = some c ∧ a.Sound c := by
  have hmem : ∀ id off, (id, off) ∈ a.mapOrder s.map ↔
      ∃ k : ℕ, ids[k]? = some id ∧ off = k * a.nChunks := by
    intro id off
    rw [(a.mapOrder_perm s.map).mem_iff, hs.map_eq, slots, mem_map]
    constructor
    · rintro ⟨⟨id', k⟩, hk, heq⟩
      cases heq
      exact ⟨k, mk_mem_zipIdx_iff_getElem?.1 hk, rfl⟩
    · rintro ⟨k, hk, rfl⟩
      exact ⟨(id, k), mk_mem_zipIdx_iff_getElem?.2 hk, rfl⟩
  have hentries : ∀ e ∈ a.mapOrder s.map,
      e.1 < a.numPoints ∧ ∃ k < a.maxVec, e.2 = k * a.nChunks := by
    rintro ⟨id, off⟩ he
    obtain ⟨k, hk, rfl⟩ := (hmem id off).1 he
    obtain ⟨hlt, -⟩ := List.getElem?_eq_some_iff.1 hk
    exact ⟨hs.lt id (mem_of_getElem? hk), k, hlt.trans_le hs.le, rfl⟩
  have hnd : ((a.mapOrder s.map).map Prod.snd).Nodup := by
    have hoffs : s.map.map Prod.snd = (List.range ids.length).map (· * a.nChunks) := by
      rw [hs.map_eq, slots, map_map, range_eq_range', ← zipIdx_map_snd 0 ids,
        map_map]
      rfl
    rw [((a.mapOrder_perm s.map).map Prod.snd).nodup_iff, hoffs]
    exact nodup_range.map fun k k' heq => eq_of_mul_eq_mul_right a.nChunks_pos heq
  obtain ⟨buf, hfold, hbuf, hvector, -⟩ := readVectors_spec h (a.garbage_length _) hentries hnd
  refine ⟨_, by rw [fillSlots, hfold, Option.map_some], ?_⟩
  refine sound_of_ids hs.nodup hs.le hs.lt ?_ ?_ ?_
  · rw [hbuf]
    exact mul_le_mul_right _ hs.le
  · intro id off
    rw [PqCache.lookup, hs.map_eq]
    exact lookup_slots hs.nodup
  · intro k id hk
    exact hvector (id, k * a.nChunks) ((hmem _ _).2 ⟨k, hk, rfl⟩)

/-- The load returns.  With the file of the index there is a cache, and what a lookup then gives is
the vector of its id; no more vectors are cached than there is room for. -/
theorem load_sound (a : LoadCall) : ∃ fuel r, a.load fuel = some r ∧
    (a.maxDegree ≤ a.inlinePqVectors ∨ a.FileMatches → ∃ c, r = .ok c) ∧
    a.maxVec * a.nChunks ≤ a.cacheSizeBytes ∧ ∀ c, r = .ok c → a.Sound c := by
  have hbytes := a.maxVec_mul_le
  by_cases hinline : a.maxDegree ≤ a.inlinePqVectors
  · refine ⟨0, .ok .empty, by rw [load, if_pos hinline], fun _ => ⟨_, rfl⟩, hbytes, ?_⟩
    rintro c hc
    cases hc
    exact a.sound_empty
  · cases hcheck : a.checkFile with
    | error msg =>
      refine ⟨0, .error msg, by rw [load, if_neg hinline, hcheck], ?_, hbytes, ?_⟩
      · rintro (h | h)
        · exact absurd h hinline
        · rw [checkFile_eq_ok.2 h] at hcheck
          cases hcheck
      · exact fun c hc => by cases hc
    | ok u =>
      have hfile := checkFile_eq_ok.1 hcheck
      by_cases hdirect : a.direct
      · obtain ⟨buf, hcopy, hsound⟩ := exists_direct hfile
        refine ⟨0, .ok ⟨buf, [], a.maxVec, true⟩, ?_, fun _ => ⟨_, rfl⟩, hbytes, ?_⟩
        · rw [load, if_neg hinline, hcheck]
          dsimp only
          rw [if_pos hdirect, hcopy]
          rfl
        · rintro c hc
          cases hc
          exact hsound
      · obtain ⟨fuel, s, hloop, hs⟩ := a.exists_levels
        obtain ⟨ids, hids⟩ := hs.slotted
        obtain ⟨c, hfill, hsound⟩ := exists_fillSlots hfile hids
        refine ⟨fuel, .ok c, ?_, fun _ => ⟨_, rfl⟩, hbytes, ?_⟩
        · rw [load, if_neg hinline, hcheck]
          dsimp only
          rw [if_neg hdirect, hloop, Option.map_some, hfill]
          rfl
        · rintro c' hc
          cases hc
          exact hsound

end LoadCall

end DiskANNEval.AiSAQ.PqCacheLoad
