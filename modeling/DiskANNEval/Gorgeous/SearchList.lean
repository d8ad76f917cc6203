import DiskANNEval.Gorgeous.SectorReads
import DiskANNEval.PipeANN.PipeCands

/-!
# SearchList — the candidates of `page_search` and `page_search_dup_graph`

The list is a part of an array of `l_search + 1` elements; `InsertIntoPool` and `Neighbor` are those of
`PipeANN.Pool` (its `visited` is not used here).
-/

namespace DiskANNEval.Gorgeous

open List

open PipeANN (Neighbor insertIntoPool)
open PipeANN.PipeSearch (Cands)

/-- The pages of the index, and what of it is in memory.  `gpLayout` are the nodes of a page with
vectors and lists, `replica` those whose lists are on the page of a node, itself first. -/
structure DecoIndex where
  medoid : ℕ
  gpLayout : ℕ → List ℕ
  id2page : ℕ → ℕ
  replica : ℕ → List ℕ
  nbrs : ℕ → List ℕ
  nodeInMemPos : ℕ → Option ℕ
  memGraph : ℕ → List ℕ
  hasMemEmb : ℕ → Bool

/-- The arguments of a search whose beam is not refused.  `pqFilter` is the product with
`pq_filter_ratio`, and `embSearch` that with `emb_search_ratio`, rounded. -/
structure SearchParams (D : Type) where
  kSearch : ℕ
  lSearch : ℕ
  lSearch_pos : 0 < lSearch
  beamWidth : ℕ
  beam_le : beamWidth ≤ maxNSectorReads
  ioLimit : ℕ
  pqFilter : D → D
  embSearch : ℕ → ℕ

variable {D κ : Type}

/-- A query: its distances, the result of `search_with_tags`, and the first list, sorted. -/
structure Query (D : Type) [LE D] (ix : DecoIndex) (p : SearchParams D) where
  pqDist : ℕ → D
  exactDist : ℕ → D
  memTags : List ℕ
  first : List (Neighbor D)
  first_perm : first.Perm ((if memTags = [] then [ix.medoid] else memTags.take p.lSearch).map
    fun id => .new id (pqDist id) true)
  first_sorted : first.Pairwise fun a b => a.distance ≤ b.distance

structure SearchList (D : Type) where
  retset : List (Neighbor D)
  curListSize : ℕ
  visited : List ℕ

namespace SearchList

def pool (c : SearchList D) : List (Neighbor D) := c.retset.take c.curListSize

def setPool (c : SearchList D) (pool : List (Neighbor D)) : SearchList D :=
  { c with retset := pool ++ c.retset.drop c.curListSize }

/-- The last candidate has the property. -/
def worst (c : SearchList D) (P : D → Bool) : Bool := c.pool.getLast?.any fun last => P last.distance

variable [LinearOrder D] [Zero D]

/-- `add_to_retset`, and the position of the new candidate. -/
def addToRetset (lSearch id : ℕ) (dist : D) (flag : Bool) (c : SearchList D) :
    SearchList D × Option ℕ :=
  if c.worst (fun last => last ≤ dist) ∧ c.curListSize = lSearch then (c, none)
  else
    let (retset, r) := insertIntoPool c.retset c.curListSize (.new id dist flag)
    ({ c with
      retset
      curListSize := if c.curListSize < lSearch then c.curListSize + 1 else c.curListSize }, some r)

def pushNbr (lSearch : ℕ) (pqDist : ℕ → D) (c : SearchList D) (id : ℕ) : SearchList D :=
  (c.addToRetset lSearch id (pqDist id) true).1

def computeAndPushNbrs (lSearch : ℕ) (pqDist : ℕ → D) (nbrs : List ℕ) (c : SearchList D) :
    SearchList D :=
  let (cand, visited) := Cands.unseen nbrs c.visited
  cand.foldl (pushNbr lSearch pqDist) { c with visited }

/-- `compute_and_add_to_retset` and the sort. -/
def enter {ix : DecoIndex} {p : SearchParams D} (q : Query D ix p) : SearchList D where
  retset := q.first ++ List.replicate (p.lSearch + 1 - q.first.length) default
  curListSize := q.first.length
  visited := q.first.map Neighbor.id

end SearchList

/-! ### The next nodes -/

/-- A node is in memory, and counts for `disk_seen` or `num_seen`, or its page has to be read. -/
inductive Choice (κ : Type)
  | cached (item : κ) (diskSeen : Bool)
  | page (pid : ℕ)

/-- The list without the flags of the nodes picked. -/
structure Picked (D κ : Type) where
  pool : List (Neighbor D)
  pageVisited : List ℕ
  cached : List κ
  frontier : List FrontierNode

/-- The loop over the list; `num` and `disk` are what is left of the beam and of the batch. -/
def pick (choose : ℕ → Choice κ) : ℕ → ℕ → List (Neighbor D) → List ℕ → Picked D κ
  | _, _, [], pageVisited => ⟨[], pageVisited, [], []⟩
  | num, disk, e :: es, pageVisited =>
    if num = 0 ∨ disk = 0 then ⟨e :: es, pageVisited, [], []⟩
    else if e.flag then
      match choose e.id with
      | .cached item diskSeen =>
        let r := pick choose (if diskSeen then num else num - 1) (if diskSeen then disk - 1 else disk)
          es pageVisited
        { r with pool := { e with flag := false } :: r.pool, cached := item :: r.cached }
      | .page pid =>
        if pid ∈ pageVisited then
          let r := pick choose num disk es pageVisited
          { r with pool := { e with flag := false } :: r.pool }
        else
          let r := pick choose (num - 1) disk es (pid :: pageVisited)
          { r with pool := { e with flag := false } :: r.pool, frontier := ⟨e.id, pid⟩ :: r.frontier }
    else
      let r := pick choose num disk es pageVisited
      { r with pool := e :: r.pool }

/-! ### Sizes -/

theorem pick_length_le (choose : ℕ → Choice κ) (num disk : ℕ) (es : List (Neighbor D))
    (pv : List ℕ) : (pick choose num disk es pv).frontier.length +
      (pick choose num disk es pv).cached.length ≤ min es.length (num + disk - 1) := by
  induction es generalizing num disk pv with
  | nil => exact Nat.zero_le _
  | cons e es ih =>
    rw [length_cons, pick]
    split_ifs with hzero hflag
    · exact Nat.zero_le _
    · cases choose e.id with
      | cached item diskSeen =>
        have h := ih (if diskSeen then num else num - 1) (if diskSeen then disk - 1 else disk) pv
        dsimp only
        rw [length_cons]
        split_ifs at h ⊢ <;> omega
      | page pid =>
        dsimp only
        split_ifs with hpv
        · have h := ih num disk pv
          dsimp only
          omega
        · have h := ih (num - 1) disk (pid :: pv)
          dsimp only
          rw [length_cons]
          omega
    · have h := ih num disk pv
      dsimp only
      omega

theorem pick_frontier_le (choose : ℕ → Choice κ) (num disk : ℕ) (es : List (Neighbor D))
    (pv : List ℕ) : (pick choose num disk es pv).frontier.length ≤ num := by
  induction es generalizing num disk pv with
  | nil => exact Nat.zero_le _
  | cons e es ih =>
    rw [pick]
    split_ifs with hzero hflag
    · exact Nat.zero_le _
    · cases choose e.id with
      | cached item diskSeen =>
        have h := ih (if diskSeen then num else num - 1) (if diskSeen then disk - 1 else disk) pv
        dsimp only
        split_ifs at h ⊢ <;> omega
      | page pid =>
        dsimp only
        split_ifs with hpv
        · exact ih num disk pv
        · have h := ih (num - 1) disk (pid :: pv)
          rw [length_cons]
          omega
    · exact ih num disk pv

theorem pick_cached_le {choose : ℕ → Choice κ} (hc : ∀ id item, choose id ≠ .cached item true)
    (num disk : ℕ) (es : List (Neighbor D)) (pv : List ℕ) :
    (pick choose num disk es pv).cached.length ≤ num := by
  induction es generalizing num disk pv with
  | nil => exact Nat.zero_le _
  | cons e es ih =>
    rw [pick]
    split_ifs with hzero hflag
    · exact Nat.zero_le _
    · cases hch : choose e.id with
      | cached item diskSeen =>
        cases diskSeen with
        | true => exact absurd hch (hc _ _)
        | false =>
          have h := ih (num - 1) disk pv
          simp only [Bool.false_eq_true, if_false, length_cons]
          omega
      | page pid =>
        dsimp only
        split_ifs with hpv
        · exact ih num disk pv
        · exact Nat.le_trans (ih (num - 1) disk (pid :: pv)) (Nat.sub_le ..)
    · exact ih num disk pv

namespace SearchList

variable {lSearch : ℕ} {c : SearchList D}

theorem length_pool_le (c : SearchList D) : c.pool.length ≤ c.curListSize := length_take_le ..

variable [LinearOrder D] [Zero D]

theorem addToRetset_le (h : c.curListSize ≤ lSearch) (id : ℕ) (dist : D) (flag : Bool) :
    (c.addToRetset lSearch id dist flag).1.curListSize ≤ lSearch := by
  unfold addToRetset
  generalize insertIntoPool c.retset c.curListSize (.new id dist flag) = r
  split_ifs with hfull hlt
  · exact h
  · exact hlt
  · exact h

theorem computeAndPushNbrs_le (h : c.curListSize ≤ lSearch) (pqDist : ℕ → D) (nbrs : List ℕ) :
    (c.computeAndPushNbrs lSearch pqDist nbrs).curListSize ≤ lSearch := by
  unfold computeAndPushNbrs
  generalize Cands.unseen nbrs c.visited = u
  obtain ⟨cand, visited⟩ := u
  refine foldlRecOn (motive := fun t : SearchList D => t.curListSize ≤ lSearch) cand _ h ?_
  exact fun t ht id _ => addToRetset_le ht id _ _

theorem enter_le {ix : DecoIndex} {p : SearchParams D} (q : Query D ix p) :
    (enter q).curListSize ≤ p.lSearch := by
  show q.first.length ≤ _
  rw [q.first_perm.length_eq, length_map]
  split_ifs
  · exact p.lSearch_pos
  · exact length_take_le ..

end SearchList

end DiskANNEval.Gorgeous
