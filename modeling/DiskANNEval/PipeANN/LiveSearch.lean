import DiskANNEval.Lib.Upto
import DiskANNEval.PipeANN.BeamSearch

/-!
# LiveSearch — a search with deleted nodes

`DynamicSSDIndex::search` has `l_search` grow with the deleted nodes, and leaves them out of what is
returned.  What it is for is a search whose list is as long as it takes to have `search_L` nodes
that are not deleted (`LiveState`): where there is a choice among equal distances, it is free.
-/

namespace DiskANNEval.PipeANN

open Lib BeamSearch

variable {C D : Type}

/-- A call of `search` with `BEAM_SEARCH` and `dyn_search_l`; `isExcluded` is a look for the tag of
an id into the set of deletions. -/
structure DynamicSearch (C D : Type) where
  memTags : List ℕ
  entryPointId : ℕ
  curId : ℕ
  K : ℕ
  searchL : ℕ
  beamWidth : ℕ
  node : ℕ → BeamSearch.DiskNode C
  computeDist : ℕ → D
  compare : C → D
  isExcluded : ℕ → Bool
  searchL_pos : 0 < searchL
  beamWidth_pos : 0 < beamWidth

namespace DynamicSearch

variable (a : DynamicSearch C D)

def search : Search C D where
  memTags := a.memTags
  entryPointId := a.entryPointId
  curId := a.curId
  lSearch := a.searchL
  beamWidth := a.beamWidth
  node := a.node
  computeDist := a.computeDist
  compare := a.compare
  isExcluded := a.isExcluded
  dynSearchL := true
  layout := none
  lSearch_pos := a.searchL_pos
  beamWidth_pos := a.beamWidth_pos

/-- The copy of what has not been deleted, from `pos` on. -/
def copyTags (isExcluded : ℕ → Bool) (K : ℕ) : ℕ → List (Neighbor D) → List (Neighbor D)
  | _, [] => []
  | pos, e :: l =>
    if isExcluded e.id then
      if pos = K then [] else copyTags isExcluded K pos l
    else e :: if pos + 1 = K then [] else copyTags isExcluded K (pos + 1) l

def live (e : Neighbor D) : Bool := !a.isExcluded e.id

variable [LinearOrder D] [Zero D]

/-- What is returned, of the expanded nodes. -/
def returned (fullRetset : List (Neighbor D)) : List (Neighbor D) :=
  copyTags a.isExcluded a.K 0 ((fullRetset.insertionSort Search.le).take a.searchL)

/-! ### The search that is meant -/

structure LiveState (D : Type) where
  pool : List (Neighbor D)
  visited : List ℕ
  beam : List ℕ
  fullRetset : List (Neighbor D)
deriving DecidableEq

/-- The places that keep the order. -/
def places (pool : List (Neighbor D)) (d : D) : List ℕ :=
  (List.range (pool.length + 1)).filter fun p =>
    (pool.take p).all (·.distance ≤ d) && (pool.drop p).all (d ≤ ·.distance)

def livePush (pool : List (Neighbor D)) (nbr p : ℕ) : List (Neighbor D) :=
  upto a.live a.searchL (pool.take p ++ .new nbr (a.computeDist nbr) true :: pool.drop p)

def livePushAll : List (Neighbor D) → List ℕ → List ℕ → List (List (Neighbor D) × List ℕ)
  | pool, visited, [] => [(pool, visited)]
  | pool, visited, nbr :: nbrs =>
    if nbr ∈ visited then livePushAll pool visited nbrs
    else (places pool (a.computeDist nbr)).flatMap fun p =>
      livePushAll (a.livePush pool nbr p) (nbr :: visited) nbrs

/-- The states that may be next; there is none when the search has ended. -/
def liveNext (t : LiveState D) : List (LiveState D) :=
  match t.beam with
  | [] =>
    let (beam, pool) := pickBeam a.beamWidth t.pool
    if beam = [] then [] else [{ t with pool, beam }]
  | id :: beam =>
    (a.livePushAll t.pool t.visited (a.node id).nbrs).map fun c =>
      { pool := c.1
        visited := c.2
        beam
        fullRetset := t.fullRetset ++ [.new id (a.compare (a.node id).coords) true] }

def LiveInit (t : LiveState D) : Prop :=
  t = { pool := a.search.seeds
        visited := a.search.seeds.map Neighbor.id
        beam := []
        fullRetset := [] }

def LiveStep (t : LiveState D) (_ : Unit) (t' : LiveState D) : Prop := t' ∈ a.liveNext t

/-- The nearest ones that have not been deleted. -/
def firstLive (fullRetset : List (Neighbor D)) : List (Neighbor D) :=
  ((fullRetset.insertionSort Search.le).filter a.live).take a.K

/-! ### When nothing is lost -/

/-- The one that falls out of a list that does not grow, or is not put into it. -/
def out (lSearch : ℕ) (c : Cands D) (nbr : ℕ) : ℕ :=
  let last := c.retset.getD (c.curListSize - 1) default
  let dist := a.computeDist nbr
  if last.distance < dist ∨ last.distance = dist ∧ c.curListSize = lSearch then nbr else last.id

/-- When the list does not grow, as many live nodes as it is to have are left. -/
def Room (lSearch : ℕ) (c : Cands D) (nbr : ℕ) : Prop :=
  nbr ∈ c.visited ∨ c.curListSize < lSearch ∨
    a.searchL ≤ ((nbr :: c.pool.map Neighbor.id).erase (a.out lSearch c nbr)).countP
      (!a.isExcluded ·)

def RoomAll (lSearch : ℕ) : Cands D → List ℕ → Prop
  | _, [] => True
  | c, nbr :: nbrs => a.Room lSearch c nbr ∧ RoomAll lSearch (a.search.pushNbr lSearch c nbr) nbrs

/-- A beam is chosen from the nodes up to the last live one that counts; the neighbours of a node
have room; and those that are returned are among the nearest `search_L`. -/
def Keeps (s : State C D) : Prop :=
  match s.beam with
  | [] =>
    if s.k < s.cands.curListSize then
      (pickBeam a.beamWidth (upto a.live a.searchL s.cands.pool)).1 =
        (pickBeam a.beamWidth s.cands.pool).1
    else
      0 < a.K ∧ (a.K ≤ ((s.fullRetset.insertionSort Search.le).take a.searchL).countP a.live ∨
        ∀ e ∈ (s.fullRetset.insertionSort Search.le).drop a.searchL, ¬ a.live e)
  | id :: _ =>
    (∀ nbr ∈ (a.node id).nbrs, nbr ≤ a.curId) ∧ a.RoomAll s.lSearch s.cands (a.node id).nbrs

end DynamicSearch

end DiskANNEval.PipeANN
