import DiskANNEval.AiSAQ.DiskNodes
import DiskANNEval.Lib.Positions
import DiskANNEval.Lib.While

/-!
# RearrangeMap — the new ids of the rearranged vectors

A walk over the graph hands out the new ids level by level: the nodes of a level are read in blocks,
sorted, and their neighbours get the next ids in the order of the sorted nodes.  What the walk does
not come to gets the ids that are left.  At each time the map is the numbering of the ids in the
order in which they have got theirs (`Walked`), so at the end it is a permutation, whatever the sorter
and whichever reads fail.
-/

namespace DiskANNEval.AiSAQ.Rearrange

open Lib AiSAQ.DiskLayout List Option

/-- `aisaq_rearrange_sorter` -/
inductive RearrangeSorter
  | nhops
  | random
  | nhopsScore
  | nhopsNnbrs
  | nhopsNnbrsScore
  | nhopsScoreNnbrs
deriving DecidableEq

structure RearrangeNode where
  id : ℕ
  score : ℕ
  nbrs : List ℕ
deriving DecidableEq

def compareByNhopsScore (n1 n2 : RearrangeNode) : Bool := n1.score < n2.score

def compareByNhopsNnbrs (n1 n2 : RearrangeNode) : Bool := n1.nbrs.length < n2.nbrs.length

def compareByNhopsNnbrsScore (n1 n2 : RearrangeNode) : Bool :=
  if n1.nbrs.length ≠ n2.nbrs.length then n1.nbrs.length < n2.nbrs.length else n1.score < n2.score

def compareByNhopsScoreNnbrs (n1 n2 : RearrangeNode) : Bool :=
  if n1.score ≠ n2.score then n1.score < n2.score else n1.nbrs.length < n2.nbrs.length

namespace RearrangeSorter

def compareFunction : RearrangeSorter → Option (RearrangeNode → RearrangeNode → Bool)
  | nhops => none
  | random => none
  | nhopsScore => some compareByNhopsScore
  | nhopsNnbrs => some compareByNhopsNnbrs
  | nhopsNnbrsScore => some compareByNhopsNnbrsScore
  | nhopsScoreNnbrs => some compareByNhopsScoreNnbrs

/-- `__rearrange_sorter_opt_score` -/
def usesScore : RearrangeSorter → Bool
  | nhopsScore => true
  | nhopsNnbrsScore => true
  | nhopsScoreNnbrs => true
  | _ => false

end RearrangeSorter

/-! ### The score of a node -/

/-- `__vectors_per_io_x1`, `_x2` and `_x4` -/
def vectorsPerIo (pqVectorBytes sectors : ℕ) : ℕ := sectorLen * sectors / pqVectorBytes

/-- The last sectors, `last_score` and the score. -/
structure ScoreState where
  last : Option (ℕ × ℕ × ℕ)
  lastScore : ℕ
  score : ℕ

def scoreStep (pqVectorBytes : ℕ) (s : ScoreState) (nbr : ℕ) : ScoreState :=
  let x1 := nbr / vectorsPerIo pqVectorBytes 1
  let x2 := nbr / vectorsPerIo pqVectorBytes 2
  let x4 := nbr / vectorsPerIo pqVectorBytes 4
  let (last, lastScore) :=
    match s.last with
    | none => ((x1, x2, x4), 0)
    | some (l1, l2, l4) =>
      if l1 ≠ x1 ∧ l2 ≠ x2 ∧ l4 ≠ x4 then ((x1, x2, x4), 0)
      else if l1 = x1 then ((l1, l2, l4), s.lastScore + 4)
      else if l2 = x2 then ((l1, l2, l4), s.lastScore + 2)
      else ((l1, l2, l4), s.lastScore + 1)
  { last := some last, lastScore, score := max s.score lastScore }

/-- `none`: a division by zero. -/
def score (pqVectorBytes : ℕ) (nbrs : List ℕ) : Option ℕ :=
  if pqVectorBytes = 0 then none
  else if nbrs ≠ [] ∧ vectorsPerIo pqVectorBytes 1 = 0 then none
  else some (nbrs.foldl (scoreStep pqVectorBytes) ⟨none, 0, 0⟩).score

/-! ### The walk -/

/-- A call of `aisaq_generate_vectors_rearrange_map` on a graph of `numPoints` nodes.
`readNodesNbrs call` reads a block in the call with this number, `none` where it fails for a node;
`setOrder hop` is how the set of the level iterates, and `sortNodes hop` the sort, which need not be
stable, or the shuffle. -/
structure RearrangeCall where
  sorter : RearrangeSorter
  numPoints : ℕ
  pqVectorBytes : ℕ
  maxDegree : ℕ
  medoids : List ℕ
  filterMedoids : List ℕ
  medoids_lt : ∀ id ∈ medoids ++ filterMedoids, id < numPoints
  readNodesNbrs : ℕ → List ℕ → List (Option (List ℕ))
  read_length : ∀ call ids, (readNodesNbrs call ids).length = ids.length
  read_nbrs : ∀ call ids, ∀ nbrs, some nbrs ∈ readNodesNbrs call ids →
    nbrs.length ≤ maxDegree ∧ ∀ nbr ∈ nbrs, nbr < numPoints
  setOrder : ℕ → List ℕ → List ℕ
  setOrder_perm : ∀ hop ids, (setOrder hop ids).Perm ids
  sortNodes : ℕ → List RearrangeNode → List RearrangeNode
  sortNodes_perm : ∀ hop rnodes, (sortNodes hop rnodes).Perm rnodes
  sortNodes_sorted : ∀ compare, sorter.compareFunction = some compare → ∀ hop rnodes,
    (sortNodes hop rnodes).Pairwise fun n1 n2 => compare n1 n2 = false
  sortNodes_nhops : sorter = .nhops → ∀ hop rnodes, sortNodes hop rnodes = rnodes
  pqVectorBytes_pos : 0 < pqVectorBytes
  pqVectorBytes_le : pqVectorBytes ≤ maxPqChunks

/-- `rearranged_vectors_map`, with `none` for `AISAQ_INVALID_VID`, `vid_hover`, and the ids that have
been assigned. -/
structure Assigned where
  map : List (Option ℕ)
  vidHover : ℕ
  ids : List ℕ

/-- A node without a new id gets the next one. -/
def assignId (s : Assigned) (id : ℕ) : Option Assigned :=
  s.map[id]?.map fun old =>
    match old with
    | some _ => s
    | none => ⟨s.map.set id (some s.vidHover), s.vidHover + 1, s.ids ++ [id]⟩

/-- `cur_level` in the order in which it iterates, and the number of reads that have been issued. -/
structure Walk where
  map : List (Option ℕ)
  vidHover : ℕ
  curLevel : List ℕ
  nhops : ℕ
  reads : ℕ

def blockSize : ℕ := 1024

namespace RearrangeCall

variable (a : RearrangeCall)

def rearrangeNode (id : ℕ) (nbrs : List ℕ) : Option RearrangeNode :=
  if a.sorter.usesScore then (score a.pqVectorBytes nbrs).map fun score => ⟨id, score, nbrs⟩
  else some ⟨id, 0, nbrs⟩

/-- `nodes_to_read` of a block of the level. -/
def nodesToRead (curLevel : List ℕ) (block : ℕ) : List ℕ :=
  (curLevel.drop (block * blockSize)).take blockSize

/-- The nodes of a block that could be read. -/
def readBlock (call : ℕ) (nodes : List ℕ) : Option (List RearrangeNode) :=
  ((nodes.zip (a.readNodesNbrs call nodes)).filterMap fun p =>
    p.2.map fun nbrs => (p.1, nbrs)).mapM fun p => a.rearrangeNode p.1 p.2

/-- `rnodes` -/
def readLevel (s : Walk) : Option (List RearrangeNode) :=
  ((List.range (divRoundUp s.curLevel.length blockSize)).mapM fun block =>
    a.readBlock (s.reads + block) (nodesToRead s.curLevel block)).map List.flatten

/-- One round of the loop over the levels. -/
def expandLevel (s : Walk) : Option Walk :=
  (a.readLevel s).bind fun rnodes =>
    (((a.sortNodes s.nhops rnodes).flatMap RearrangeNode.nbrs).foldlM assignId
      ⟨s.map, s.vidHover, []⟩).map fun s' =>
        { map := s'.map
          vidHover := s'.vidHover
          curLevel := a.setOrder s.nhops s'.ids
          nhops := s.nhops + 1
          reads := s.reads + divRoundUp s.curLevel.length blockSize }

/-- The start points have the first ids. -/
def start : Option Walk :=
  let curLevel := a.setOrder 0 (a.medoids ++ a.filterMedoids).dedup
  (curLevel.foldlM assignId ⟨List.replicate a.numPoints none, 0, []⟩).map fun s =>
    { map := s.map, vidHover := s.vidHover, curLevel, nhops := 1, reads := 0 }

/-- What the walk has not come to. -/
def assignRest (s : Walk) : Option (List (Option ℕ)) :=
  if s.vidHover < a.numPoints then
    ((List.range a.numPoints).foldlM assignId ⟨s.map, s.vidHover, []⟩).map Assigned.map
  else some s.map

/-- `aisaq_generate_vectors_rearrange_map` with at most `fuel` levels; the inner `none` is the return
value `-1`. -/
def generateVectorsRearrangeMap (fuel : ℕ) : Option (Option (List (Option ℕ))) :=
  if a.numPoints = 0 ∨ a.medoids = [] then some none
  else
    (a.start.bind fun s =>
      (whileM (fun s : Walk => !s.curLevel.isEmpty) a.expandLevel fuel s).bind a.assignRest).map some

end RearrangeCall

/-! ### The ids that have been handed out -/

variable {n : ℕ}

/-- The ids in the order in which they have got their new ones. -/
structure Walked (n : ℕ) (order : List ℕ) (map : List (Option ℕ)) (vidHover : ℕ) : Prop where
  nodup : order.Nodup
  lt : ∀ id ∈ order, id < n
  map_eq : map = numbering n order
  hover : vidHover = order.length

theorem walked_nil (n : ℕ) : Walked n [] (replicate n none) 0 :=
  ⟨nodup_nil, fun _ h => absurd h not_mem_nil, (numbering_nil n).symm, rfl⟩

variable {order : List ℕ} {map : List (Option ℕ)} {vidHover : ℕ}

theorem assignId_of_mem {ids : List ℕ} {id : ℕ} (h : Walked n order map vidHover)
    (hmem : id ∈ order) : assignId ⟨map, vidHover, ids⟩ id = some ⟨map, vidHover, ids⟩ := by
  unfold assignId
  rw [h.map_eq, getElem?_numbering (h.lt id hmem), if_pos hmem]
  rfl

theorem assignId_of_notMem (ids : List ℕ) {id : ℕ} (h : Walked n order map vidHover) (hid : id < n)
    (hmem : id ∉ order) :
    ∃ map', assignId ⟨map, vidHover, ids⟩ id = some ⟨map', vidHover + 1, ids ++ [id]⟩ ∧
      Walked n (order ++ [id]) map' (vidHover + 1) := by
  refine ⟨numbering n (order ++ [id]), ?_, ?_⟩
  · unfold assignId
    rw [h.map_eq, getElem?_numbering hid, if_neg hmem, h.hover, map_some,
      set_numbering hmem]
  · refine ⟨?_, ?_, rfl, ?_⟩
    · exact h.nodup.append (nodup_singleton id) (disjoint_singleton.2 hmem)
    · intro i hi
      rcases mem_append.1 hi with hi | hi
      · exact h.lt i hi
      · rwa [mem_singleton.1 hi]
    · rw [h.hover, length_append, length_singleton]

theorem assignIds (ids : List ℕ) (h : Walked n order map vidHover) {l : List ℕ}
    (hl : ∀ id ∈ l, id < n) : ∃ map' new, l.foldlM assignId ⟨map, vidHover, ids⟩ =
        some ⟨map', vidHover + new.length, ids ++ new⟩ ∧
      Walked n (order ++ new) map' (vidHover + new.length) ∧
      (∀ id ∈ l, id ∈ order ++ new) ∧ ∀ id ∈ new, id ∈ l := by
  induction l generalizing order ids map vidHover with
  | nil =>
    refine ⟨map, [], ?_, ?_, fun _ h => absurd h not_mem_nil, fun _ h => h⟩
    · rw [append_nil]
      rfl
    · rwa [append_nil]
  | cons id l ih =>
    have hl' : ∀ i ∈ l, i < n := fun i hi => hl i (mem_cons_of_mem id hi)
    rw [foldlM_cons]
    by_cases hmem : id ∈ order
    · obtain ⟨map', new, hfold, hw, hall, hnew⟩ := ih ids h hl'
      rw [assignId_of_mem h hmem]
      refine ⟨map', new, hfold, hw, ?_, fun i hi => mem_cons_of_mem id (hnew i hi)⟩
      intro i hi
      rcases mem_cons.1 hi with rfl | hi
      · exact mem_append_left new hmem
      · exact hall i hi
    · obtain ⟨map₁, hassign, h₁⟩ := assignId_of_notMem ids h (hl id mem_cons_self) hmem
      obtain ⟨map', new, hfold, hw, hall, hnew⟩ := ih (ids ++ [id]) h₁ hl'
      rw [hassign]
      have hcount : vidHover + (id :: new).length = vidHover + 1 + new.length := by
        rw [length_cons]
        omega
      refine ⟨map', id :: new, ?_, ?_, ?_, ?_⟩
      · rw [hcount, append_cons ids id new]
        exact hfold
      · rw [hcount, append_cons order id new]
        exact hw
      · intro i hi
        rcases mem_cons.1 hi with rfl | hi
        · exact mem_append_right order mem_cons_self
        · have := hall i hi
          rwa [append_assoc, singleton_append] at this
      · intro i hi
        rcases mem_cons.1 hi with rfl | hi
        · exact mem_cons_self
        · exact mem_cons_of_mem id (hnew i hi)

theorem Walked.length_le (h : Walked n order map vidHover) : order.length ≤ n := by
  have hsub : order ⊆ List.range n := fun i hi => List.mem_range.2 (h.lt i hi)
  calc order.length ≤ (List.range n).length := (h.nodup.subperm hsub).length_le
    _ = n := length_range

/-! ### What is read -/

theorem vectorsPerIo_pos {pqVectorBytes : ℕ} (hpos : 0 < pqVectorBytes)
    (hle : pqVectorBytes ≤ maxPqChunks) : 0 < vectorsPerIo pqVectorBytes 1 := by
  have hsector : maxPqChunks ≤ sectorLen * 1 := by decide
  exact Nat.div_pos (hle.trans hsector) hpos

namespace RearrangeCall

variable (a : RearrangeCall)

theorem exists_rearrangeNode (id : ℕ) (nbrs : List ℕ) :
    ∃ score, a.rearrangeNode id nbrs = some ⟨id, score, nbrs⟩ := by
  unfold rearrangeNode
  split_ifs with huse
  · have hio := vectorsPerIo_pos a.pqVectorBytes_pos a.pqVectorBytes_le
    rw [score, if_neg a.pqVectorBytes_pos.ne', if_neg fun h => hio.ne' h.2]
    exact ⟨_, rfl⟩
  · exact ⟨0, rfl⟩

/-- A failed read leaves its node out; the neighbours of the others are in the graph. -/
theorem exists_readBlock (call : ℕ) (nodes : List ℕ) :
    ∃ rnodes, a.readBlock call nodes = some rnodes ∧
      ∀ rnode ∈ rnodes, ∀ nbr ∈ rnode.nbrs, nbr < a.numPoints := by
  obtain ⟨rnodes, hread⟩ := exists_mapM
    (l := (nodes.zip (a.readNodesNbrs call nodes)).filterMap
      fun p => p.2.map fun nbrs => (p.1, nbrs))
    fun p _ => (a.exists_rearrangeNode p.1 p.2).imp' _ fun _ h => h
  refine ⟨rnodes, hread, ?_⟩
  intro rnode hmem
  obtain ⟨p, hp, hnode⟩ := exists_of_mem_mapM hread hmem
  obtain ⟨⟨id, read⟩, hzip, hread'⟩ := mem_filterMap.1 hp
  obtain ⟨nbrs, hnbrs, rfl⟩ := map_eq_some_iff.1 hread'
  obtain ⟨score, hscore⟩ := a.exists_rearrangeNode id nbrs
  obtain rfl := Option.some.inj (hscore.symm.trans hnode)
  have hmem' : some nbrs ∈ a.readNodesNbrs call nodes := by
    rw [← hnbrs]
    exact (of_mem_zip hzip).2
  exact (a.read_nbrs call nodes nbrs hmem').2

theorem exists_readLevel (s : Walk) :
    ∃ rnodes, a.readLevel s = some rnodes ∧
      ∀ rnode ∈ rnodes, ∀ nbr ∈ rnode.nbrs, nbr < a.numPoints := by
  obtain ⟨blocks, hread⟩ := exists_mapM
    fun block _ => (a.exists_readBlock (s.reads + block) (nodesToRead s.curLevel block)).imp
      fun _ h => h.1
  refine ⟨blocks.flatten, ?_, ?_⟩
  · unfold readLevel
    rw [hread]
    rfl
  · intro rnode hmem
    obtain ⟨rnodes, hrnodes, hrnode⟩ := mem_flatten.1 hmem
    obtain ⟨block, -, hblock⟩ := exists_of_mem_mapM hread hrnodes
    obtain ⟨rnodes', hblock', hlt⟩ :=
      a.exists_readBlock (s.reads + block) (nodesToRead s.curLevel block)
    obtain rfl := Option.some.inj (hblock.symm.trans hblock')
    exact hlt rnode hrnode

/-! ### The levels -/

theorem exists_start : ∃ s order, a.start = some s ∧ Walked a.numPoints order s.map s.vidHover := by
  have hlt : ∀ id ∈ a.setOrder 0 (a.medoids ++ a.filterMedoids).dedup, id < a.numPoints :=
    fun id hid => a.medoids_lt id (mem_dedup.1 ((a.setOrder_perm 0 _).mem_iff.1 hid))
  obtain ⟨map, order, hassign, hw, -⟩ := assignIds [] (walked_nil a.numPoints) hlt
  rw [Nat.zero_add] at hassign hw
  refine ⟨⟨map, order.length, a.setOrder 0 (a.medoids ++ a.filterMedoids).dedup, 1, 0⟩, order,
    ?_, hw⟩
  unfold start
  dsimp only
  rw [hassign]
  rfl

variable {s : Walk} {order : List ℕ}

/-- A level hands out new ids to what it finds, and what it finds is the next level. -/
theorem exists_expandLevel (h : Walked a.numPoints order s.map s.vidHover) :
    ∃ s' new, a.expandLevel s = some s' ∧ Walked a.numPoints (order ++ new) s'.map s'.vidHover ∧
      s'.curLevel.Perm new := by
  obtain ⟨rnodes, hread, hlt⟩ := a.exists_readLevel s
  have hnbrs : ∀ id ∈ (a.sortNodes s.nhops rnodes).flatMap RearrangeNode.nbrs,
      id < a.numPoints := by
    intro id hid
    obtain ⟨rnode, hrnode, hid⟩ := mem_flatMap.1 hid
    exact hlt rnode ((a.sortNodes_perm s.nhops rnodes).mem_iff.1 hrnode) id hid
  obtain ⟨map, new, hassign, hw, -⟩ := assignIds [] h hnbrs
  refine ⟨⟨map, s.vidHover + new.length, a.setOrder s.nhops new, s.nhops + 1,
    s.reads + divRoundUp s.curLevel.length blockSize⟩, new, ?_, hw, a.setOrder_perm s.nhops new⟩
  unfold expandLevel
  rw [hread, bind_some, hassign]
  rfl

/-- The ids that are left, and one more while there is a level. -/
def measure (s : Walk) : ℕ := a.numPoints - s.vidHover + if s.curLevel = [] then 0 else 1

theorem exists_levels (h : Walked a.numPoints order s.map s.vidHover) :
    ∃ fuel s' order', whileM (fun s : Walk => !s.curLevel.isEmpty) a.expandLevel fuel s = some s' ∧
      Walked a.numPoints order' s'.map s'.vidHover := by
  obtain ⟨s', hloop, ⟨order', hw⟩, -⟩ := exists_whileM (fun s : Walk => !s.curLevel.isEmpty)
    a.expandLevel (fun s => ∃ order, Walked a.numPoints order s.map s.vidHover) a.measure
    (fun s ⟨order, h⟩ hlevel => by
      obtain ⟨s', new, hstep, hw, hperm⟩ := a.exists_expandLevel h
      refine ⟨s', hstep, ⟨_, hw⟩, ?_⟩
      have hne : s.curLevel ≠ [] := by simpa using hlevel
      have hle := hw.length_le
      have hhover := hw.hover
      have hhover₀ := h.hover
      have hlen := hperm.length_eq
      rw [length_append] at hle hhover
      unfold measure
      split_ifs with hnil
      · omega
      · have := length_pos_of_ne_nil hnil
        omega)
    ⟨order, h⟩ (le_refl _)
  exact ⟨_, s', order', hloop, hw⟩

theorem exists_assignRest (h : Walked a.numPoints order s.map s.vidHover) :
    ∃ order', order'.Perm (List.range a.numPoints) ∧
      a.assignRest s = some (numbering a.numPoints order') := by
  unfold assignRest
  split_ifs with hleft
  · have hrange : ∀ id ∈ List.range a.numPoints, id < a.numPoints := fun _ h => List.mem_range.1 h
    obtain ⟨map, new, hassign, hw, hall, -⟩ := assignIds [] h hrange
    rw [hassign, hw.map_eq]
    refine ⟨order ++ new, ?_, rfl⟩
    refine (perm_ext_iff_of_nodup hw.nodup nodup_range).2 fun i => ?_
    exact ⟨fun hi => List.mem_range.2 (hw.lt i hi), hall i⟩
  · have hlen : (List.range a.numPoints).length ≤ order.length := by
      rw [length_range, ← h.hover]
      exact Nat.le_of_not_lt hleft
    have hsub : order ⊆ List.range a.numPoints := fun i hi => List.mem_range.2 (h.lt i hi)
    rw [h.map_eq]
    exact ⟨order, (h.nodup.subperm hsub).perm_of_length_le hlen, rfl⟩

end RearrangeCall

/-! ### The reversed map -/

theorem createReversedVectorsMap_eq {map : List ℕ} (h : map.Perm (List.range n)) :
    createReversedVectorsMap map = some (((List.range n).map map.idxOf).map some) := by
  have hfold : ∀ m : List ℕ, m.Nodup → (∀ id ∈ m, id < n) → m.zipIdx.foldlM
      (fun (reversed : List (Option ℕ)) p => reversed[p.1]?.bind fun old =>
        if old = none then some (reversed.set p.1 (some p.2)) else none)
      (replicate n none) = some (numbering n m) := by
    intro m
    induction m using reverseRecOn with
    | nil =>
      intro _ _
      rw [numbering_nil]
      rfl
    | append_singleton m x ih =>
      intro hnd hlt
      obtain ⟨hm, -, hdisj⟩ := nodup_append.1 hnd
      have hx : x ∉ m := fun hmem => hdisj x hmem x mem_cons_self rfl
      have hxlt : x < n := hlt x (mem_append_right m mem_cons_self)
      rw [zipIdx_append, foldlM_append,
        ih hm fun id hid => hlt id (mem_append_left [x] hid), ← set_numbering hx]
      show ((numbering n m)[x]?.bind _).bind _ = _
      rw [getElem?_numbering hxlt, if_neg hx,
        Nat.zero_add]
      rfl
  have hlen : map.length = n := by rw [h.length_eq, length_range]
  unfold createReversedVectorsMap
  rw [← numbering_of_perm h, hlen]
  exact hfold map (h.nodup_iff.2 nodup_range) fun id hid => List.mem_range.1 (h.mem_iff.1 hid)

/-- The rearrangement returns, and what it returns is a permutation with its inverse.  Without a node
or without a start point it returns its error. -/
theorem generateVectorsRearrangeMap_perm (a : RearrangeCall) :
    (a.numPoints = 0 ∨ a.medoids = []) ∧
        (∀ fuel, a.generateVectorsRearrangeMap fuel = some none) ∨
      0 < a.numPoints ∧ a.medoids ≠ [] ∧ ∃ (fuel : ℕ) (map rev : List ℕ),
        a.generateVectorsRearrangeMap fuel = some (some (map.map some)) ∧
        map.Perm (List.range a.numPoints) ∧
        createReversedVectorsMap map = some (rev.map some) ∧
        rev.Perm (List.range a.numPoints) ∧
        ∀ i old : ℕ, rev[i]? = some old ↔ map[old]? = some i := by
  by_cases hempty : a.numPoints = 0 ∨ a.medoids = []
  · refine Or.inl ⟨hempty, fun fuel => ?_⟩
    rw [RearrangeCall.generateVectorsRearrangeMap, if_pos hempty]
  · obtain ⟨s, order, hstart, hs⟩ := a.exists_start
    obtain ⟨fuel, s', order', hloop, hs'⟩ := a.exists_levels hs
    obtain ⟨order, hperm, hrest⟩ := a.exists_assignRest hs'
    have hmap := map_idxOf_perm hperm
    have hrev := createReversedVectorsMap_eq hmap
    refine Or.inr ⟨Nat.pos_of_ne_zero fun h => hempty (Or.inl h), fun h => hempty (Or.inr h), fuel,
      (List.range a.numPoints).map order.idxOf, _, ?_, hmap, hrev, map_idxOf_perm hmap, ?_⟩
    · rw [RearrangeCall.generateVectorsRearrangeMap, if_neg hempty, hstart, bind_some, hloop,
        bind_some, hrest, map_some, numbering_of_perm hperm]
    · intro i old
      rw [← (createReversedVectorsMap_spec hrev).2 i old, join_eq_some_iff,
        getElem?_map (f := some), map_eq_some_iff]
      simp

end DiskANNEval.AiSAQ.Rearrange
