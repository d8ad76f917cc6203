import DiskANNEval.Lib.Run
import DiskANNEval.PipeANN.Pool

/-!
# BeamSearch — `do_beam_search`

A round takes the best candidates that have not been expanded, reads them together, and expands them
one after the other.  A step is the choice of the beam, or the expansion of one node of it; the last
one ends the round.  The insertion of a point has the coordinates of the expanded nodes recorded.
-/

namespace DiskANNEval.PipeANN.BeamSearch

structure DiskNode (C : Type) where
  coords : C
  nbrs : List ℕ

/-- `coord_map` and `coord_buf` are given: the sizes that the guard and the copies use, and that of
the buffer, in bytes. -/
structure CoordLayout where
  paramsL : ℕ
  alignedDim : ℕ
  dataDim : ℕ
  sizeofT : ℕ
  coordBufLen : ℕ

/-- A call of `do_beam_search`.  `memTags` are the `mem_L` tags of the in-memory index, `node id` is
what is read for an id, `computeDist` the distance of `nbr_handler` and `compare` that of
`dist_cmp`; `isExcluded` is a look into `exclude_nodes`. -/
structure Search (C D : Type) where
  memTags : List ℕ
  entryPointId : ℕ
  curId : ℕ
  lSearch : ℕ
  beamWidth : ℕ
  node : ℕ → DiskNode C
  computeDist : ℕ → D
  compare : C → D
  isExcluded : ℕ → Bool
  dynSearchL : Bool
  layout : Option CoordLayout
  lSearch_pos : 0 < lSearch
  beamWidth_pos : 0 < beamWidth

variable {C D : Type}

/-! ### The recorded coordinates -/

/-- Where a pointer into the coordinates leads: `coord_scratch` of the query buffer, or a place of
`coord_buf`. -/
inductive Pointer
  | scratch
  | coordBuf (i : ℕ)
deriving DecidableEq

/-- `coord_scratch`, `coord_buf` by places, `coord_map` and `coord_buf_idx`; `coordWrites` are the
bytes of `coord_buf` that have been written, as offset and length. -/
structure Coords (C : Type) where
  scratch : Option C
  coordBuf : ℕ → Option C
  coordMap : List (ℕ × Pointer)
  coordBufIdx : ℕ
  coordWrites : List (ℕ × ℕ)

def Coords.deref (r : Coords C) : Pointer → Option C
  | .scratch => r.scratch
  | .coordBuf i => r.coordBuf i

/-- `none`: `crash()`. -/
def Coords.record (lay : CoordLayout) (id : ℕ) (coords : C) (r : Coords C) : Option (Coords C) :=
  if lay.paramsL * 10 < r.coordBufIdx then none
  else some { r with
    coordBuf := Function.update r.coordBuf r.coordBufIdx (some coords)
    coordMap :=
      if r.coordMap.lookup id = none then r.coordMap ++ [(id, .scratch)] else r.coordMap
    coordBufIdx := r.coordBufIdx + 1
    coordWrites := r.coordWrites ++
      [(r.coordBufIdx * lay.alignedDim * lay.sizeofT, lay.dataDim * lay.sizeofT)] }

/-! ### The search -/

/-- The array `retset`, of which the first `curListSize` elements are the list, the ids seen, and
the best position of the round. -/
structure Cands (D : Type) where
  retset : List (Neighbor D)
  curListSize : ℕ
  visited : List ℕ
  nk : ℕ

/-- `beam` are the nodes of the round that are still to be expanded. -/
structure State (C D : Type) where
  cands : Cands D
  k : ℕ
  lSearch : ℕ
  beam : List ℕ
  fullRetset : List (Neighbor D)
  coords : Coords C

/-- The list of candidates. -/
def Cands.pool (c : Cands D) : List (Neighbor D) := c.retset.take c.curListSize

/-- The first `n` candidates that have not been expanded are chosen. -/
def pickBeam : ℕ → List (Neighbor D) → List ℕ × List (Neighbor D)
  | 0, l => ([], l)
  | _, [] => ([], [])
  | n + 1, e :: l =>
    if e.flag then
      let (beam, l) := pickBeam n l
      (e.id :: beam, { e with flag := false } :: l)
    else
      let (beam, l) := pickBeam (n + 1) l
      (beam, e :: l)

/-- The position behind the `n`-th node that is not excluded, or the last. -/
def liveLength (isExcluded : ℕ → Bool) : ℕ → List (Neighbor D) → ℕ
  | _, [] => 0
  | n, e :: l =>
    if isExcluded e.id then liveLength isExcluded n l + 1
    else if n = 1 then 0
    else liveLength isExcluded (n - 1) l + 1

/-- The end of a round. -/
def endRound (s : State C D) : State C D :=
  { s with k := if s.cands.nk ≤ s.k then s.cands.nk else s.k + 1 }

namespace Search

variable (q : Search C D)

def selectBeam (s : State C D) : State C D :=
  let (beam, pool) := pickBeam q.beamWidth (s.cands.pool.drop s.k)
  { s with
    cands := { s.cands with
      retset := s.cands.retset.take s.k ++ pool ++ s.cands.retset.drop s.cands.curListSize
      nk := s.cands.curListSize }
    beam }

variable [LinearOrder D] [Zero D]

/-- One neighbour; `retset` grows when it is full. -/
def pushNbr (lSearch : ℕ) (c : Cands D) (nbr : ℕ) : Cands D :=
  if nbr ∈ c.visited then c
  else
    let c := { c with visited := nbr :: c.visited }
    let dist := q.computeDist nbr
    if (c.retset.getD (c.curListSize - 1) default).distance ≤ dist ∧ c.curListSize = lSearch then c
    else
      let (retset, r) := insertIntoPool c.retset c.curListSize (.new nbr dist true)
      let c := { c with retset, nk := min c.nk r }
      if c.curListSize < lSearch then
        let curListSize := c.curListSize + 1
        { c with
          retset := c.retset ++ List.replicate
            (if c.retset.length ≤ curListSize then 2 * curListSize - c.retset.length else 0) default
          curListSize }
      else c

/-- `l_search` grows to have as many nodes that are not excluded. -/
def tuneSearchL (s : State C D) : State C D :=
  if q.dynSearchL then
    { s with lSearch := max q.lSearch (liveLength q.isExcluded q.lSearch s.cands.pool + 1) }
  else s

/-- `none`: `crash()`. -/
def expand (s : State C D) (id : ℕ) : Option (State C D) :=
  let node := q.node id
  let coords := { s.coords with scratch := some node.coords }
  ((q.layout.map fun lay => coords.record lay id node.coords).getD (some coords)).bind fun coords =>
    if node.nbrs.any (q.curId < ·) then none
    else some (q.tuneSearchL { s with
      coords
      fullRetset := s.fullRetset ++ [.new id (q.compare node.coords) true]
      cands := node.nbrs.foldl (q.pushNbr s.lSearch) s.cands })

/-- `none`: the search has ended, or crashes. -/
def step (s : State C D) : Option (State C D) :=
  match s.beam with
  | [] =>
    if s.k < s.cands.curListSize then
      let s := q.selectBeam s
      some (if s.beam = [] then endRound s else s)
    else none
  | id :: beam =>
    (q.expand s id).map fun s =>
      if beam = [] then endRound { s with beam } else { s with beam }

/-- The order of `Neighbor`. -/
def le (a b : Neighbor D) : Prop := a.distance < b.distance ∨ a.distance = b.distance ∧ a.id ≤ b.id

instance : DecidableRel (le (D := D)) := fun _ _ => inferInstanceAs (Decidable (_ ∨ _))

/-- The first candidates: those of the in-memory search, or the entry point. -/
def seeds : List (Neighbor D) :=
  ((if q.memTags = [] then [q.entryPointId] else q.memTags.take q.lSearch).map fun id =>
    .new id (q.computeDist id) true).insertionSort le

/-- `scratch` and `buf` are what the memory has held before. -/
def newState (scratch : Option C) (buf : ℕ → Option C) : State C D where
  cands :=
    { retset := q.seeds ++
        List.replicate (q.memTags.length + 10 * q.lSearch - q.seeds.length) default
      curListSize := q.seeds.length
      visited := q.seeds.map Neighbor.id
      nk := 0 }
  k := 0
  lSearch := q.lSearch
  beam := []
  fullRetset := []
  coords :=
    { scratch
      coordBuf := buf
      coordMap := []
      coordBufIdx := 0
      coordWrites := [] }

def Init (s : State C D) : Prop := ∃ scratch buf, s = q.newState scratch buf

/-- A step of the search; there is nothing to choose. -/
def Step (s : State C D) (_ : Unit) (s' : State C D) : Prop := q.step s = some s'

end Search

end DiskANNEval.PipeANN.BeamSearch
