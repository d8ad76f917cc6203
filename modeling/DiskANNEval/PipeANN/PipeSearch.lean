import DiskANNEval.Lib.Run
import DiskANNEval.PipeANN.Pool

/-!
# PipeSearch — the pipelined search

Reads are issued for the best candidates before the results of earlier ones are in.  A read takes the
next of `MAX_N_SECTOR_READS` sector buffers; `poll_all` takes the finished reads off the front of
`on_flight_ios`, in the order in which they were issued, and records their buffers in `id_buf_map`;
`calc_best_node` expands the best candidate that is in the map.

A step is one read of the first `send_best_read_req`, or one of the three parts of a round of the main
loop, or a round of the loop that drains the reads.  Which reads a poll finds finished, and which
reads the page cache answers at once, is the action.
-/

namespace DiskANNEval.PipeANN.PipeSearch

def maxNSectorReads : ℕ := 128

structure DiskNode (C L : Type) where
  coords : C
  labels : L
  nbrs : List ℕ

/-- `nodeFromPage page loc` is the node that is at the place of `loc` in the bytes of a page. -/
structure SSDIndex (C L : Type) where
  entryPointId : ℕ
  id2loc : ℕ → ℕ
  locSectorNo : ℕ → ℕ
  nodeFromPage : ℕ → ℕ → DiskNode C L

/-- A query with a beam that is not refused.  `mem` are the tags and distances of
`search_with_tags_fast`, `computeDist` the distance of `nbr_handler` and `compare` that of
`dist_cmp`; without a selector all nodes are members. -/
structure Query (C L D : Type) where
  mem : List (ℕ × D)
  lSearch : ℕ
  beamWidth : ℕ
  relaxedMonotonicityL : ℕ
  range : ℕ
  computeDist : ℕ → D
  compare : C → D
  isMember : ℕ → L → Bool
  beam_le : beamWidth ≤ maxNSectorReads

variable {C L D : Type}

/-! ### Reads -/

/-- `io_t`, with the number of its buffer and its request. -/
structure Io (D : Type) where
  nbr : Neighbor D
  pageId : ℕ
  loc : ℕ
  slot : ℕ

/-- A read that the device has not finished. -/
structure Read where
  slot : ℕ
  pageId : ℕ

/-- The node of a finished read: its buffer and its place there. -/
structure BufNode where
  slot : ℕ
  loc : ℕ

/-- `finished` and `sector` are the requests and the pages in the buffers; `locked` and `unlocked`
count the calls of `lock_idx` and `unlock_idx`. -/
structure Ios (D : Type) where
  onFlightIos : List (Io D)
  inFlight : List Read
  finished : ℕ → Bool
  sector : ℕ → ℕ
  sectorIdx : ℕ
  nIos : ℕ
  idBufMap : ℕ → Option BufNode
  locked : ℕ → ℕ
  unlocked : ℕ → ℕ

namespace Ios

/-- A page has arrived in a buffer. -/
def readDone (s : Ios D) (r : Read) : Ios D :=
  { s with
    finished := Function.update s.finished r.slot true
    sector := Function.update s.sector r.slot r.pageId }

/-- `reader->poll_all` finds the reads of the buffers `done` finished. -/
def complete (done : List ℕ) (s : Ios D) : Ios D :=
  (s.inFlight.filter fun r => r.slot ∈ done).foldl readDone
    { s with inFlight := s.inFlight.filter fun r => r.slot ∉ done }

/-- `send_read_req`; `cached`: the page is in the page cache. -/
def sendReadReq (ix : SSDIndex C L) (item : Neighbor D) (cached : Bool) (s : Ios D) : Ios D :=
  let loc := ix.id2loc item.id
  let pid := ix.locSectorNo loc
  let slot := s.sectorIdx
  let s : Ios D := { s with
    locked := Function.update s.locked item.id (s.locked item.id + 1)
    onFlightIos := s.onFlightIos ++ [⟨item, pid, loc, slot⟩]
    sectorIdx := (slot + 1) % maxNSectorReads
    nIos := s.nIos + 1 }
  if cached then s.readDone ⟨slot, pid⟩
  else { s with
    finished := Function.update s.finished slot false
    inFlight := s.inFlight ++ [⟨slot, pid⟩] }

/-- A finished read leaves the queue. -/
def popIo (io : Io D) (rest : List (Io D)) (s : Ios D) : Ios D :=
  { s with
    onFlightIos := rest
    idBufMap :=
      if s.idBufMap io.nbr.id = none then
        Function.update s.idBufMap io.nbr.id (some ⟨io.slot, io.loc⟩)
      else s.idBufMap
    unlocked := Function.update s.unlocked io.nbr.id (s.unlocked io.nbr.id + 1) }

/-- The finished reads at the front of the queue, and how many of them are in the list and not. -/
def popFinished (inList : D → Bool) : List (Io D) → Ios D → ℕ → ℕ → Ios D × ℕ × ℕ
  | [], s, nIn, nOut => (s, nIn, nOut)
  | io :: rest, s, nIn, nOut =>
    if s.finished io.slot then
      if inList io.nbr.distance then popFinished inList rest (s.popIo io rest) (nIn + 1) nOut
      else popFinished inList rest (s.popIo io rest) nIn (nOut + 1)
    else (s, nIn, nOut)

end Ios

/-! ### Candidates -/

/-- The array `retset`, of which the first `curListSize` elements are the list, and the ids seen. -/
structure Cands (D : Type) where
  retset : List (Neighbor D)
  curListSize : ℕ
  visited : List ℕ

namespace Cands

/-- The list of candidates. -/
def pool (c : Cands D) : List (Neighbor D) := c.retset.take c.curListSize

def setPool (c : Cands D) (pool : List (Neighbor D)) : Cands D :=
  { c with retset := pool ++ c.retset.drop c.curListSize }

variable [LinearOrder D] [Zero D]

/-- One neighbour; `retset` grows when it is full. -/
def pushNbr (q : Query C L D) (c : Cands D) (nbrId : ℕ) : Cands D :=
  let nbrDist := q.computeDist nbrId
  if c.pool.getLast?.any (fun last => last.distance ≤ nbrDist) ∧ c.curListSize = q.lSearch then c
  else
    let retset := (insertIntoPool c.retset c.curListSize (.new nbrId nbrDist true)).1
    if c.curListSize < q.lSearch then
      let curListSize := c.curListSize + 1
      { c with
        retset := retset ++ List.replicate
          (if retset.length ≤ curListSize then 2 * curListSize - retset.length else 0) default
        curListSize }
    else { c with retset }

/-- The neighbours that have not been seen, and the ids seen with them. -/
def unseen : List ℕ → List ℕ → List ℕ × List ℕ
  | [], visited => ([], visited)
  | nbr :: nbrs, visited =>
    if nbr ∈ visited then unseen nbrs visited
    else
      let (cand, visited) := unseen nbrs (nbr :: visited)
      (nbr :: cand, visited)

def computeAndPushNbrs (q : Query C L D) (node : DiskNode C L) (c : Cands D) : Cands D :=
  let (cand, visited) := unseen node.nbrs c.visited
  cand.foldl (pushNbr q) { c with visited }

def firstUnvisited (c : Cands D) : Option ℕ := c.pool.findIdx? fun e => !e.visited

end Cands

/-! ### The search -/

/-- `first n`: `n` reads of the first `send_best_read_req` are left. -/
inductive Phase
  | first (n : ℕ)
  | poll
  | send
  | expand
  | drain
  | returned
  deriving DecidableEq

structure State (D : Type) where
  phase : Phase
  ios : Ios D
  cands : Cands D
  fullRetset : List (Neighbor D)
  curBeamWidth : ℕ
  maxMarker : ℕ
  curNIn : ℕ
  curTot : ℕ
  convergeSize : Option ℕ

namespace State

/-- The candidate has been sent, or read. -/
def sent (s : State D) (e : Neighbor D) : Bool := !e.flag || (s.ios.idBufMap e.id).isSome

/-- The candidate has been read, and not expanded. -/
def pending (s : State D) (e : Neighbor D) : Bool := !e.visited && (s.ios.idBufMap e.id).isSome

/-- The best candidate that has not been sent. -/
def nextRead (s : State D) : Option (Neighbor D) := (s.cands.pool.dropWhile s.sent).head?

/-- `send_best_read_req(1)` -/
def sendBestReadReq (ix : SSDIndex C L) (cached : Bool) (s : State D) : State D :=
  let pre := (s.cands.pool.takeWhile s.sent).map fun e => { e with flag := false }
  match s.cands.pool.dropWhile s.sent with
  | [] => { s with cands := s.cands.setPool pre }
  | e :: rest =>
    let item := { e with flag := false }
    { s with
      cands := s.cands.setPool (pre ++ item :: rest)
      ios := s.ios.sendReadReq ix item cached }

/-- The node that is at the place of the record in its buffer. -/
def node (ix : SSDIndex C L) (s : State D) (b : BufNode) : DiskNode C L :=
  ix.nodeFromPage (s.ios.sector b.slot) b.loc

def computeExactDistsAndPush (q : Query C L D) (node : DiskNode C L) (id : ℕ) (s : State D) :
    State D :=
  if q.isMember id node.labels then
    { s with fullRetset := s.fullRetset ++ [.new id (q.compare node.coords) true] }
  else s

variable [LinearOrder D] [Zero D]

/-- `calc_best_node`: the best candidate in the map is expanded; the first candidate that has not been
sent is returned. -/
def calcBestNode (ix : SSDIndex C L) (q : Query C L D) (s : State D) : State D × ℕ :=
  let pool := s.cands.pool
  let s' :=
    match pool.dropWhile fun e => !s.pending e with
    | [] => s
    | e :: rest =>
      match s.ios.idBufMap e.id with
      | none => s
      | some b =>
        let pre := pool.takeWhile fun e => !s.pending e
        let node := s.node ix b
        let cands := s.cands.setPool (pre ++ { e with flag := false, visited := true } :: rest)
        let s := s.computeExactDistsAndPush q node e.id
        { s with cands := cands.computeAndPushNbrs q node }
  (s', (s'.cands.pool.findIdx? fun e => !e.visited && e.flag && (s'.ios.idBufMap e.id).isNone).getD
    s.cands.curListSize)

/-- The beam grows when few of the reads are for candidates that have left the list. -/
def tune (q : Query C L D) (nIn nOut : ℕ) (s : State D) : State D :=
  if 5 ≤ s.maxMarker ∧ 0 < nIn + nOut then
    let curNIn := s.curNIn + nIn
    let curTot := s.curTot + (nIn + nOut)
    { s with
      curNIn
      curTot
      curBeamWidth :=
        if 10 * (curTot - curNIn) ≤ curTot then min q.beamWidth (max (s.curBeamWidth + 1) 4)
        else s.curBeamWidth
      convergeSize :=
        if 0 < q.relaxedMonotonicityL ∧ s.convergeSize = none then some s.fullRetset.length
        else s.convergeSize }
  else s

/-- The poll of the main loop: the queue, and the beam. -/
def pollAll (q : Query C L D) (done : List ℕ) (s : State D) : State D :=
  let inList := fun d => s.cands.pool.getLast?.any fun last => d ≤ last.distance
  let ios := s.ios.complete done
  let (ios, nIn, nOut) := ios.popFinished inList ios.onFlightIos 0 0
  { s with ios }.tune q nIn nOut

/-- Enough results after the search has converged. -/
def relaxedDone (q : Query C L D) (s : State D) : Bool :=
  0 < q.relaxedMonotonicityL && s.convergeSize.any fun n =>
    n + q.relaxedMonotonicityL ≤ s.fullRetset.length

/-- With relaxed monotonicity the reads on flight are drained. -/
def leave (q : Query C L D) (s : State D) : State D :=
  { s with phase := if 0 < q.relaxedMonotonicityL then .drain else .returned }

/-- A candidate that has been read and not expanded is added to the results `t`. -/
def processOne (ix : SSDIndex C L) (q : Query C L D) (s t : State D) (e : Neighbor D) : State D :=
  match s.ios.idBufMap e.id with
  | some b => if e.visited then t else t.computeExactDistsAndPush q (s.node ix b) e.id
  | none => t

/-- After the reads have been drained. -/
def processRest (ix : SSDIndex C L) (q : Query C L D) (s : State D) : State D :=
  let s' := s.cands.pool.foldl (s.processOne ix q) s
  { s' with cands := s.cands.setPool (s.cands.pool.map fun e =>
      { e with visited := e.visited || (s.ios.idBufMap e.id).isSome }) }

/-- The order of `Neighbor`. -/
def le (a b : Neighbor D) : Prop := a.distance < b.distance ∨ a.distance = b.distance ∧ a.id ≤ b.id

instance : DecidableRel (le (D := D)) := fun _ _ => inferInstanceAs (Decidable (_ ∨ _))

/-- After the first reads: the distances of the in-memory search are replaced, and the list is
sorted. -/
def sortRetset (q : Query C L D) (s : State D) : State D :=
  if q.mem = [] then s
  else { s with cands := s.cands.setPool ((s.cands.pool.map fun e =>
    { e with distance := q.computeDist e.id }).insertionSort le) }

end State

/-- What the environment does in a step. -/
structure Act where
  done : List ℕ
  cached : Bool

variable [LinearOrder D] [Zero D]

open State

/-- `none`: the search has returned. -/
def step (ix : SSDIndex C L) (q : Query C L D) (s : State D) (a : Act) : Option (State D) :=
  match s.phase with
  | .first 0 => some { s.sortRetset q with phase := .poll }
  | .first (n + 1) => some { s.sendBestReadReq ix a.cached with phase := .first n }
  | .poll =>
    if s.cands.firstUnvisited = none then some (s.leave q)
    else
      let s := s.pollAll q a.done
      some (if s.relaxedDone q then s.leave q else { s with phase := .send })
  | .send =>
    let s := if s.ios.onFlightIos.length < s.curBeamWidth then s.sendBestReadReq ix a.cached else s
    some { s with phase := .expand }
  | .expand =>
    let (s, marker) := s.calcBestNode ix q
    some { s with maxMarker := max s.maxMarker marker, phase := .poll }
  | .drain =>
    if s.ios.onFlightIos = [] then some { s.processRest ix q with phase := .returned }
    else
      let ios := s.ios.complete a.done
      some { s with ios := (ios.popFinished (fun _ => true) ios.onFlightIos 0 0).1 }
  | .returned => none

/-- The first candidates: those of the in-memory search, or the entry point. -/
def start (ix : SSDIndex C L) (q : Query C L D) : List (ℕ × D) :=
  if q.mem = [] then [(ix.entryPointId, q.computeDist ix.entryPointId)] else q.mem.take q.lSearch

/-- `sector` and `finished` are what the last query has left. -/
def newState (ix : SSDIndex C L) (q : Query C L D) (sector : ℕ → ℕ) (finished : ℕ → Bool) :
    State D where
  phase := .first (min 4 q.beamWidth)
  ios :=
    { onFlightIos := []
      inFlight := []
      finished
      sector
      sectorIdx := 0
      nIos := 0
      idBufMap := fun _ => none
      locked := fun _ => 0
      unlocked := fun _ => 0 }
  cands :=
    { retset := (start ix q).map (fun (id, dist) => .new id dist true) ++
        List.replicate (q.mem.length + q.range + q.lSearch * 10 - (start ix q).length) default
      curListSize := (start ix q).length
      visited := (start ix q).map Prod.fst }
  fullRetset := []
  curBeamWidth := min 4 q.beamWidth
  maxMarker := 0
  curNIn := 0
  curTot := 0
  convergeSize := none

def Init (ix : SSDIndex C L) (q : Query C L D) (s : State D) : Prop :=
  ∃ sector finished, s = newState ix q sector finished

/-- The results: `full_retset` sorted, each id once. -/
def results (k : ℕ) (id2tag : ℕ → ℕ) (s : State D) : List (ℕ × D) :=
  ((s.fullRetset.insertionSort le).destutter fun a b => a.id ≠ b.id).take k |>.map fun e =>
    (id2tag e.id, e.distance)

end DiskANNEval.PipeANN.PipeSearch
