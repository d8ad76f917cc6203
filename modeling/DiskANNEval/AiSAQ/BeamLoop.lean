import DiskANNEval.AiSAQ.PriorityQueue
import DiskANNEval.Lib.Run

/-!
# BeamLoop — the loops of `aisaq_cached_beam_search` and `cached_beam_search`

Both expand the closest candidates of the queue until there is none, or the I/O limit is reached.
`aisaq_cached_beam_search` looks for `bv` candidates to expand, and reads up to `beam_width` more
ahead of them; what has been read stays at an offset into the scratch memory of the thread until the
candidate is expanded or leaves the queue.  The PQ codes of the neighbours are those in the record,
in the cache, or read; `cached_beam_search` has them all in memory.
-/

namespace DiskANNEval.AiSAQ

variable {C P D : Type}

/-- A node as it is in a record or in the caches: `nbr m` and `inlinePq m` are the cells that follow
`nnbrs`, and the inline codes, whatever they hold. -/
structure BeamNode (C P : Type) where
  coords : C
  nnbrs : ℕ
  nbr : ℕ → ℕ
  inlinePq : ℕ → P
  rid : ℕ

/-- `record i id` is what `offset_to_node` finds for `id` in the sectors that were read for `i`,
`cache` are `_nhood_cache`, `_coord_cache` and `_aisaq_node_cache`, `pqCache` is
`aisaq_pq_cache_lookup`, and `pqVector` the vector of a PQ read. -/
structure BeamIndex (C P : Type) where
  record : ℕ → ℕ → BeamNode C P
  cache : ℕ → Option (BeamNode C P)
  inlinePqVectors : ℕ
  pqCache : ℕ → Option P
  pqVector : ℕ → P

/-- `entry` is the medoid that has been found, and `entryDist` its distance; `pqDist` is
`pq_dist_lookup` with the tables of the query, `fullDist` the distance to the coordinates that the
index has, and `passes` are the filter and the dummies.  `usesPqDist`: the index has disk PQ codes
that are not longer than the PQ codes. -/
structure BeamQuery (C P D : Type) where
  entry : ℕ
  entryDist : D
  beamWidth : ℕ
  bv : ℕ
  lSearch : ℕ
  ioLimit : ℕ
  pqDist : P → D
  fullDist : C → D
  usesPqDist : Bool
  passes : ℕ → Bool
  lSearch_pos : 0 < lSearch
  lSearch_lt : lSearch < 2 ^ 64
  bv_pos : 0 < bv

/-- An element of `full_retset`. -/
structure Expanded (D : Type) where
  id : ℕ
  distance : D
  rid : ℕ

/-- An element of `np`; `ptr` is the offset into the scratch memory, or none for the cache. -/
structure Placement (D : Type) where
  id : ℕ
  ptr : Option ℕ
  pqDist : D
deriving DecidableEq

/-- What the loop keeps.  `frontier` is `frontier_items`, `pool` is `aisaq_scratch_mem_offset` with
its back first, and `mem` says for which id the sectors at an offset were read last. -/
structure BeamFrame (D : Type) where
  retset : PriorityQueue D
  visited : List ℕ
  fullRetset : List (Expanded D)
  frontier : List (ℕ × ℕ)
  pool : List ℕ
  mem : ℕ → ℕ
  numIos : ℕ
  threw : Bool

namespace BeamLoop

variable (fl : FloatOps D) (ix : BeamIndex C P) (q : BeamQuery C P D)

/-! ### The choice of candidates -/

/-- The variables of the choice; `reqs` are `frontier_read_reqs`, by id and offset. -/
structure Choice (D : Type) where
  retset : PriorityQueue D
  frontier : List (ℕ × ℕ)
  pool : List ℕ
  reqs : List (ℕ × ℕ)
  np : List (Placement D)

def Choice.push (s : Choice D) (id : ℕ) (ptr : Option ℕ) (pqDist : D) : Choice D :=
  if s.np.length < q.bv then { s with np := s.np ++ [⟨id, ptr, pqDist⟩] } else s

/-- The body of the `do` loop; `none`: the exception for a pool without offsets.  The second
component says that the loop is left. -/
def visit (s : Choice D) (n : Neighbor D) : Option (Choice D × Bool) :=
  let leave := fun s : Choice D => s.np.length == q.bv && s.reqs.isEmpty
  if (ix.cache n.id).isSome then
    let s := s.push q n.id none n.distance
    some (s, leave s)
  else
    match s.frontier.lookup n.id with
    | some buf =>
      let s := s.push q n.id (some buf) n.distance
      some (s, s.reqs.length == q.beamWidth || leave s)
    | none =>
      match s.pool with
      | [] => none
      | buf :: pool =>
        let s := { s with
          reqs := s.reqs ++ [(n.id, buf)]
          frontier := (n.id, buf) :: s.frontier
          pool }
        let s := s.push q n.id (some buf) n.distance
        some (s, s.reqs.length == q.beamWidth || leave s)

/-- The `do` loop from a position on; the second component says that it has thrown.  Each turn has a
later position, so fuel for every element is enough. -/
def choose : ℕ → ℕ → Choice D → Choice D × Bool
  | 0, _, s => (s, false)
  | fuel + 1, position, s =>
    match visit ix q s (s.retset.data.getD position ⟨0, fl.zero, false⟩) with
    | none => (s, true)
    | some (s, true) => (s, false)
    | some (s, false) =>
      let next := s.retset.getNextUnexpandedPosition position (decide (s.np.length < q.bv))
      let s := { s with retset := next.1 }
      if next.2.2 then choose fuel next.2.1 s else (s, false)

/-- The choice at the head of the loop. -/
def select (f : BeamFrame D) : Choice D × Bool :=
  let first := f.retset.getFirstUnexpandedPosition true
  let s := { retset := first.1, frontier := f.frontier, pool := f.pool, reqs := [], np := [] }
  if first.2.2 then choose fl ix q f.retset.size first.2.1 s else (s, false)

/-! ### Expansion -/

/-- The node of a placement. -/
def placed (mem : ℕ → ℕ) (p : Placement D) : BeamNode C P :=
  match p.ptr with
  | none => (ix.cache p.id).getD (ix.record p.id p.id)
  | some buf => ix.record (mem buf) p.id

/-- The lists of the neighbours whose codes are to be read, and of those that have a distance. -/
structure Agg (D : Type) where
  visited : List ℕ
  read : List ℕ
  inline : List (ℕ × D)

/-- A neighbour whose code is in the record. -/
def offerInline (node : BeamNode C P) (a : Agg D) (m : ℕ) : Agg D :=
  let idn := node.nbr m
  if idn ∈ a.visited then a
  else
    let a := { a with visited := idn :: a.visited }
    if q.passes idn then { a with inline := a.inline ++ [(idn, q.pqDist (node.inlinePq m))] } else a

/-- A neighbour whose code is in the cache or is read. -/
def offerRest (node : BeamNode C P) (a : Agg D) (m : ℕ) : Agg D :=
  let idn := node.nbr m
  if idn ∈ a.visited then a
  else
    let a := { a with visited := idn :: a.visited }
    if q.passes idn then
      match ix.pqCache idn with
      | some pq => { a with inline := a.inline ++ [(idn, q.pqDist pq)] }
      | none => { a with read := a.read ++ [idn] }
    else a

/-- The inline codes are all gone through, also those behind the neighbours. -/
def offers (node : BeamNode C P) (a : Agg D) : Agg D :=
  (List.range' ix.inlinePqVectors (node.nnbrs - ix.inlinePqVectors)).foldl (offerRest ix q node)
    ((List.range ix.inlinePqVectors).foldl (offerInline q node) a)

/-- The distance that is put into `full_retset`. -/
def expandedDist (node : BeamNode C P) (p : Placement D) : D :=
  if q.usesPqDist then p.pqDist else q.fullDist node.coords

/-- The candidates that are put into the queue, in order. -/
def Agg.candidates (a : Agg D) : List (ℕ × D) :=
  a.read.map (fun idn => (idn, q.pqDist (ix.pqVector idn))) ++ a.inline

/-- `insert_with_rem_info` of the candidates, with the ids that are removed. -/
def insertAll (retset : PriorityQueue D) (freeIds : List ℕ) (l : List (ℕ × D)) :
    PriorityQueue D × List ℕ :=
  l.foldl (fun x c =>
    let r := x.1.insertWithRemInfo fl (.new c.1 c.2)
    (r.1, x.2 ++ r.2.toList)) (retset, freeIds)

/-- The offsets of the ids go back to the pool. -/
def release (freeIds : List ℕ) (frontier : List (ℕ × ℕ)) (pool : List ℕ) :
    List (ℕ × ℕ) × List ℕ :=
  freeIds.foldl (fun x id =>
    match x.1.lookup id with
    | some buf => (x.1.eraseP (·.1 == id), buf :: x.2)
    | none => x) (frontier, pool)

/-- The reads and expansions after a choice. -/
def expand (f : BeamFrame D) (s : Choice D) : BeamFrame D :=
  let mem := s.reqs.foldl (fun mem r => Function.update mem r.2 r.1) f.mem
  let agg := s.np.foldl (fun a p => offers ix q (placed ix mem p) a)
    { visited := f.visited, read := [], inline := [] }
  let expanded := s.np.map fun p =>
    let node := placed ix mem p
    { id := p.id, distance := expandedDist q node p, rid := node.rid }
  let freeIds := (s.np.filter (·.ptr.isSome)).map (·.id)
  let (retset, freeIds) := insertAll fl s.retset freeIds (agg.candidates ix q)
  let (frontier, pool) := release freeIds s.frontier s.pool
  { retset
    visited := agg.visited
    fullRetset := f.fullRetset ++ expanded
    frontier
    pool
    mem
    numIos := f.numIos + s.reqs.length
    threw := false }

/-- A turn of the loop; `none`: the loop has been left. -/
def step (f : BeamFrame D) : Option (BeamFrame D) :=
  if f.threw = false ∧ f.retset.hasUnexpandedNode = true ∧ f.numIos < q.ioLimit then
    let s := select fl ix q f
    if s.2 then
      some { f with retset := s.1.retset, frontier := s.1.frontier, pool := s.1.pool, threw := true }
    else some (expand fl ix q f s.1)
  else none

/-- Before the loop; `pool` and `mem` are what earlier searches have left. -/
def start (pool : List ℕ) (mem : ℕ → ℕ) : BeamFrame D where
  retset := (PriorityQueue.new fl q.lSearch).insert fl (.new q.entry q.entryDist)
  visited := [q.entry]
  fullRetset := []
  frontier := []
  pool
  mem
  numIos := 0
  threw := false

/-- A step of the loop; there is nothing to choose. -/
def Step (f : BeamFrame D) (_ : Unit) (f' : BeamFrame D) : Prop := step fl ix q f = some f'

/-- `pool` is the pool of the thread. -/
def Init (pool : List ℕ) (f : BeamFrame D) : Prop := ∃ mem, f = start fl q pool mem

/-! ### `cached_beam_search` -/

/-- What the loop of `cached_beam_search` keeps. -/
structure CachedFrame (D : Type) where
  retset : PriorityQueue D
  visited : List ℕ
  fullRetset : List (Expanded D)
  numIos : ℕ

/-- `closest_unexpanded` up to `n` times: the ids whose nodes are in the cache, and the others. -/
def closest (n : ℕ) (retset : PriorityQueue D) (cachedNhoods frontier : List ℕ) :
    PriorityQueue D × List ℕ × List ℕ :=
  match n with
  | 0 => (retset, cachedNhoods, frontier)
  | n + 1 =>
    if retset.hasUnexpandedNode then
      match retset.closestUnexpanded with
      | (retset, some nbr) =>
        if (ix.cache nbr.id).isSome then closest n retset (cachedNhoods ++ [nbr.id]) frontier
        else closest n retset cachedNhoods (frontier ++ [nbr.id])
      | (retset, none) => (retset, cachedNhoods, frontier)
    else (retset, cachedNhoods, frontier)

/-- One neighbour of a node. -/
def offerNbr (x : PriorityQueue D × List ℕ) (id : ℕ) : PriorityQueue D × List ℕ :=
  if id ∈ x.2 then x
  else
    (if q.passes id then x.1.insert fl (.new id (q.pqDist (ix.pqVector id))) else x.1, id :: x.2)

/-- The node `id` is expanded; a sector buffer has the record of its own id only. -/
def expandNode (f : CachedFrame D) (id : ℕ) : CachedFrame D :=
  let node := (ix.cache id).getD (ix.record id id)
  let x := ((List.range node.nnbrs).map node.nbr).foldl (offerNbr fl ix q) (f.retset, f.visited)
  { f with
    retset := x.1
    visited := x.2
    fullRetset := f.fullRetset ++ [⟨id, q.fullDist node.coords, node.rid⟩] }

/-- A turn of the loop; `none`: the loop has been left. -/
def cachedStep (f : CachedFrame D) : Option (CachedFrame D) :=
  if f.retset.hasUnexpandedNode = true ∧ f.numIos < q.ioLimit then
    let (retset, cachedNhoods, frontier) := closest ix q.beamWidth f.retset [] []
    some ((cachedNhoods ++ frontier).foldl (expandNode fl ix q)
      { f with retset, numIos := f.numIos + frontier.length })
  else none

def cachedStart : CachedFrame D where
  retset := (PriorityQueue.new fl q.lSearch).insert fl (.new q.entry q.entryDist)
  visited := [q.entry]
  fullRetset := []
  numIos := 0

def CachedInit (f : CachedFrame D) : Prop := f = cachedStart fl q

def CachedStep (f : CachedFrame D) (_ : Unit) (f' : CachedFrame D) : Prop :=
  cachedStep fl ix q f = some f'

/-! A list of three candidates has a size that `lSearch` may have. -/

theorem threeCands_pos : 0 < 3 := by decide

theorem threeCands_lt : 3 < 2 ^ 64 := by decide

end BeamLoop

end DiskANNEval.AiSAQ
