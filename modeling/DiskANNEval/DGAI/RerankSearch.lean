import DiskANNEval.PipeANN.PipeCands

/-!
# RerankSearch — the search of the topology file, and the vectors of its results

The search is the pipelined one of `PipeSearch`, with the pages of a topology file.  A page that has
been asked for is not read again: the request goes into the queue behind the first one for the page,
and to its front if the block cache has the page.  After the loop the queue is emptied, the pages of
the vectors are read in batches, and the blocks of the cache are released.

A step is one read of the first `send_best_read_req`, one of the three parts of a round of the main
loop, or one part of what comes after it.  Which reads have arrived, and what the caches have, is the
action.
-/

namespace DiskANNEval.DGAI.RerankSearch

open PipeANN (Neighbor)
open PipeANN.PipeSearch (Cands DiskNode)

def maxNSectorReads : ℕ := 2048

def kRerankReadBatchSize : ℕ := 32

inductive File
  | disk
  | topo
  | coord
  deriving DecidableEq

structure Page where
  file : File
  no : ℕ
  deriving DecidableEq

/-- `nbrsAt` and `coordsAt` are what is at a place in the bytes of a page.  `id2loc` is `none` for
`kInvalidID`; without their reorderings `loc2phyTopo` and `loc2phyCoord` are the identity. -/
structure SSDIndex (C : Type) where
  medoid : ℕ
  id2tag : ℕ → ℕ
  id2loc : ℕ → Option ℕ
  loc2phyTopo : ℕ → ℕ
  loc2phyCoord : ℕ → ℕ
  locSectorNo : ℕ → ℕ
  locSectorNoTopo : ℕ → ℕ
  locSectorNoCoord : ℕ → ℕ
  nbrsAt : Page → ℕ → List ℕ
  coordsAt : Page → ℕ → C

/-- A query with a beam that is not refused, and the bits of the strategy.  `mem` are the tags and
distances of `search_with_tags_fast`, `pqDist` is the distance of the compressed vectors and
`truncLen` the length that `trunc_len` comes to. -/
structure Query (C D : Type) where
  mem : List (ℕ × D)
  lSearch : ℕ
  beamWidth : ℕ
  dynPipeWidth : Bool
  useRerank : Bool
  useTopoBuffer : Bool
  truncLen : ℕ
  excludeNodes : List ℕ
  pqDist : ℕ → D
  compare : C → D
  beam_le : beamWidth ≤ maxNSectorReads

variable {C D : Type}

theorem zero_le_beam : 0 ≤ PipeANN.PipeSearch.maxNSectorReads := Nat.zero_le _

/-- What the list of candidates needs of a query. -/
def Query.list (q : Query C D) : PipeANN.PipeSearch.Query C Unit D where
  mem := q.mem
  lSearch := q.lSearch
  beamWidth := 0
  relaxedMonotonicityL := 0
  range := 0
  computeDist := q.pqDist
  compare := q.compare
  isMember _ _ := true
  beam_le := zero_le_beam

/-! ### Requests -/

/-- `IORequest`: the page, and the number of the buffer. -/
structure Req where
  pageId : ℕ
  buf : ℕ
  finished : Bool

/-- `rerank_io_t`; `slot` is the number of its request in `reqs`. -/
structure Io (D : Type) where
  nbr : Neighbor D
  pageId : ℕ
  loc : ℕ
  slot : ℕ
  cbIdx : Option ℕ
  rank : ℕ
  timestamp : ℕ
  needUnlock : Bool

/-- The order of the queue. -/
def Io.le (a b : Io D) : Prop := a.rank < b.rank ∨ a.rank = b.rank ∧ a.timestamp ≤ b.timestamp

instance : DecidableRel (Io.le (D := D)) := fun _ _ => inferInstanceAs (Decidable (_ ∨ _))

/-- A read that the device has not finished: the number of its request is that of its buffer. -/
structure Read where
  no : ℕ
  slot : ℕ
  page : Page

/-- The record of a node: its buffer and its place there. -/
structure BufNode where
  buf : ℕ
  loc : ℕ

/-- One more. -/
def bump (f : ℕ → ℕ) (k : ℕ) : ℕ → ℕ := Function.update f k (f k + 1)

/-- `sector` are the pages in the buffers.  The calls of `lock_idx` and `unlock_idx`, those of
`rdlock` and `unlock` of the table of the vectors, and those of `request_block` and
`release_cache_block` are counted. -/
structure Ios (D : Type) where
  onFlightIos : List (Io D)
  inFlight : List Read
  nReads : ℕ
  reqs : ℕ → Req
  sector : ℕ → Page
  sectorIdx : ℕ
  rank : ℕ
  ts : ℕ
  pageBufMap : ℕ → Option ℕ
  pageRankMap : ℕ → ℕ
  idBufMap : ℕ → Option BufNode
  pageRef : List (ℕ × ℕ)
  locked : ℕ → ℕ
  unlocked : ℕ → ℕ
  vecLocked : ℕ → ℕ
  vecUnlocked : ℕ → ℕ
  pinned : ℕ → ℕ
  released : ℕ → ℕ

/-- What a request finds: whether the page cache has the page; the block of `request_block`, and
whether it is filled. -/
structure Found where
  pageCached : Bool
  cbIdx : ℕ
  cbFilled : Bool

namespace Ios

/-- A page has arrived in a buffer. -/
def arrive (s : Ios D) (r : Read) : Ios D :=
  { s with sector := Function.update s.sector r.slot r.page }

/-- The event of the read is seen by `poll_all`. -/
def readDone (s : Ios D) (r : Read) : Ios D :=
  { s.arrive r with
    reqs := Function.update s.reqs r.slot { s.reqs r.slot with finished := true } }

/-- `reader->poll_all` finds the reads with the numbers `done` finished. -/
def complete (done : List ℕ) (s : Ios D) : Ios D :=
  (s.inFlight.filter fun r => r.no ∈ done).foldl readDone
    { s with inFlight := s.inFlight.filter fun r => r.no ∉ done }

/-- The node is locked, the request is written and put into the queue; only a request that is sent
to the reader keeps the lock and takes the next rank.  One that is not finished is read. -/
def request (nbr : Neighbor D) (page : Page) (loc : ℕ) (buf : ℕ) (finished : Bool)
    (cbIdx : Option ℕ) (rank : ℕ) (needUnlock : Bool) (s : Ios D) : Ios D :=
  { s with
    locked := bump s.locked nbr.id
    unlocked := if needUnlock then s.unlocked else bump s.unlocked nbr.id
    reqs := Function.update s.reqs s.sectorIdx ⟨page.no, buf, finished⟩
    inFlight := if finished then s.inFlight else s.inFlight ++ [⟨s.nReads, s.sectorIdx, page⟩]
    nReads := if finished then s.nReads else s.nReads + 1
    onFlightIos := s.onFlightIos.orderedInsert Io.le
      ⟨nbr, page.no, loc, s.sectorIdx, cbIdx, rank, s.ts, needUnlock⟩
    rank := if needUnlock then s.rank + 1 else s.rank
    ts := s.ts + 1
    sectorIdx := (s.sectorIdx + 1) % maxNSectorReads }

/-- `send_read_req`; `none`: the node has no location and the process exits. -/
def sendReadReq (ix : SSDIndex C) (q : Query C D) (item : Neighbor D) (found : Found) (s : Ios D) :
    Option (Ios D) :=
  (ix.id2loc item.id).map fun loc =>
    if q.useRerank then
      let loc := ix.loc2phyTopo loc
      let pid := ix.locSectorNoTopo loc
      match s.pageBufMap pid with
      | some buf => s.request item ⟨.topo, pid⟩ loc buf true none (s.pageRankMap pid) false
      | none =>
        let s : Ios D := { s with
          pageBufMap := Function.update s.pageBufMap pid (some s.sectorIdx)
          pageRankMap := Function.update s.pageRankMap pid s.rank }
        if q.useTopoBuffer then
          let s : Ios D := { s with pinned := bump s.pinned found.cbIdx }
          if found.cbFilled then
            s.request item ⟨.topo, pid⟩ loc s.sectorIdx true (some found.cbIdx) 0 false
          else s.request item ⟨.topo, pid⟩ loc s.sectorIdx false (some found.cbIdx) s.rank true
        else s.request item ⟨.topo, pid⟩ loc s.sectorIdx false none s.rank true
    else
      -- `send_read_no_alloc`: the page cache copies the page, or the page is read
      let pid := ix.locSectorNo loc
      let s : Ios D := if found.pageCached then s.arrive ⟨s.nReads, s.sectorIdx, ⟨.disk, pid⟩⟩ else s
      s.request item ⟨.disk, pid⟩ loc s.sectorIdx found.pageCached none s.rank true

/-- A finished request leaves the queue.  A filled block is copied to the buffer; one that is not is
filled from the buffer.  The block stays pinned, on record in `page_ref`. -/
def popIo (cbFilled : ℕ → Bool) (io : Io D) (rest : List (Io D)) (s : Ios D) : Ios D :=
  let req := s.reqs io.slot
  { s with
    onFlightIos := rest
    sector :=
      if io.cbIdx.any cbFilled then Function.update s.sector req.buf ⟨.topo, req.pageId⟩ else s.sector
    pageRef :=
      match io.cbIdx with
      | some cb => if req.pageId ∈ s.pageRef.map Prod.fst then s.pageRef else s.pageRef ++ [(req.pageId, cb)]
      | none => s.pageRef
    idBufMap :=
      if s.idBufMap io.nbr.id = none then
        Function.update s.idBufMap io.nbr.id (some ⟨req.buf, io.loc⟩)
      else s.idBufMap
    unlocked := if io.needUnlock then bump s.unlocked io.nbr.id else s.unlocked }

/-- The finished requests at the top of the queue, and how many of them are in the list and not. -/
def popFinished (cbFilled : ℕ → Bool) (inList : D → Bool) :
    List (Io D) → Ios D → ℕ → ℕ → Ios D × ℕ × ℕ
  | [], s, nIn, nOut => (s, nIn, nOut)
  | io :: rest, s, nIn, nOut =>
    if (s.reqs io.slot).finished then
      if inList io.nbr.distance then
        popFinished cbFilled inList rest (s.popIo cbFilled io rest) (nIn + 1) nOut
      else popFinished cbFilled inList rest (s.popIo cbFilled io rest) nIn (nOut + 1)
    else (s, nIn, nOut)

/-- A request that is left in the queue when the loop has ended. -/
def releaseIo (s : Ios D) (io : Io D) : Ios D :=
  { s with
    unlocked := bump s.unlocked io.nbr.id
    released :=
      match io.cbIdx with
      | some cb => bump s.released cb
      | none => s.released }

def releaseAll (s : Ios D) : Ios D := s.onFlightIos.foldl releaseIo { s with onFlightIos := [] }

/-- The blocks of `page_ref`. -/
def releaseRefs (s : Ios D) : Ios D :=
  { s with released := (s.pageRef.map Prod.snd).foldl bump s.released }

def lockVecs (ids : List ℕ) (s : Ios D) : Ios D := { s with vecLocked := ids.foldl bump s.vecLocked }

def unlockVecs (ids : List ℕ) (s : Ios D) : Ios D :=
  { s with vecUnlocked := ids.foldl bump s.vecUnlocked }

/-- One read of a batch. -/
def submit (s : Ios D) (req : ℕ × ℕ) : Ios D :=
  { s with
    inFlight := s.inFlight ++ [⟨s.nReads, req.1, ⟨.coord, req.2⟩⟩]
    nReads := s.nReads + 1 }

/-- `read_fd` of a batch: it waits for as many events as it has submitted, of whichever reads. -/
def readBatch (batch : List (ℕ × ℕ)) (done : List ℕ) (s : Ios D) : Option (Ios D) :=
  let s := batch.foldl submit s
  let arrived := s.inFlight.filter fun r => r.no ∈ done
  if arrived.length = batch.length then
    some (arrived.foldl arrive { s with inFlight := s.inFlight.filter fun r => r.no ∉ done })
  else none

end Ios

/-! ### The vectors -/

/-- The pages of the vectors: the buffers of those that are read, the requests for them with their
buffers, and where the vectors will be. -/
structure CoordReads where
  pageBufMap : ℕ → Option ℕ
  sectorIdx : ℕ
  readReqs : List (ℕ × ℕ)
  idxBuf : List BufNode

/-- `none`: the node has no location and the process exits. -/
def CoordReads.add (ix : SSDIndex C) (s : CoordReads) (id : ℕ) : Option CoordReads :=
  (ix.id2loc id).map fun loc =>
    let loc := ix.loc2phyCoord loc
    let pid := ix.locSectorNoCoord loc
    match s.pageBufMap pid with
    | some buf => { s with idxBuf := s.idxBuf ++ [⟨buf, loc⟩] }
    | none =>
      { pageBufMap := Function.update s.pageBufMap pid (some s.sectorIdx)
        sectorIdx := (s.sectorIdx + 1) % maxNSectorReads
        readReqs := s.readReqs ++ [(s.sectorIdx, pid)]
        idxBuf := s.idxBuf ++ [⟨s.sectorIdx, loc⟩] }

/-! ### The search -/

/-- `first n`: `n` reads of the first `send_best_read_req` are left.  `batches`: the requests for the
vectors that are left. -/
inductive Phase
  | first (n : ℕ)
  | poll
  | send
  | expand
  | release
  | rerank
  | batches (readReqs : List (ℕ × ℕ))
  | finish
  | returned
  deriving DecidableEq

structure State (D : Type) where
  phase : Phase
  ios : Ios D
  cands : Cands D
  fullRetset : List (Neighbor D)
  idxBuf : List BufNode
  curBeamWidth : ℕ
  maxMarker : ℕ
  curNIn : ℕ
  curTot : ℕ

namespace State

/-- The candidate has been sent, or read. -/
def sent (s : State D) (e : Neighbor D) : Bool := !e.flag || (s.ios.idBufMap e.id).isSome

/-- The candidate has been read, and not expanded. -/
def pending (s : State D) (e : Neighbor D) : Bool := !e.visited && (s.ios.idBufMap e.id).isSome

/-- The best candidate that has not been sent. -/
def nextRead (s : State D) : Option (Neighbor D) := (s.cands.pool.dropWhile s.sent).head?

/-- `send_best_read_req(1)` -/
def sendBestReadReq (ix : SSDIndex C) (q : Query C D) (found : Found) (s : State D) :
    Option (State D) :=
  let pre := (s.cands.pool.takeWhile s.sent).map fun e => { e with flag := false }
  match s.cands.pool.dropWhile s.sent with
  | [] => some { s with cands := s.cands.setPool pre }
  | e :: rest =>
    let item := { e with flag := false }
    (s.ios.sendReadReq ix q item found).map fun ios =>
      { s with cands := s.cands.setPool (pre ++ item :: rest), ios }

/-- The record in its buffer. -/
def node (ix : SSDIndex C) (s : State D) (b : BufNode) : DiskNode C Unit :=
  ⟨ix.coordsAt (s.ios.sector b.buf) b.loc, (), ix.nbrsAt (s.ios.sector b.buf) b.loc⟩

/-- `compute_exact_dists_and_push`, only without the rerank. -/
def computeExactDistsAndPush (q : Query C D) (node : DiskNode C Unit) (id : ℕ) (s : State D) :
    State D :=
  if q.useRerank then s
  else { s with fullRetset := s.fullRetset ++ [.new id (q.compare node.coords) true] }

/-- After the first reads: the distances of the in-memory search are replaced, and the list is
sorted. -/
def sortRetset [LinearOrder D] [Zero D] (q : Query C D) (s : State D) : State D :=
  if q.mem = [] then s
  else { s with cands := s.cands.setPool ((s.cands.pool.map fun e =>
    { e with distance := q.pqDist e.id }).insertionSort PipeANN.PipeSearch.State.le) }

/-- The beam grows when few of the requests are for candidates that have left the list. -/
def tune (q : Query C D) (nIn nOut : ℕ) (s : State D) : State D :=
  if q.dynPipeWidth ∧ 5 ≤ s.maxMarker ∧ 0 < nIn + nOut then
    let curNIn := s.curNIn + nIn
    let curTot := s.curTot + (nIn + nOut)
    { s with
      curNIn
      curTot
      curBeamWidth :=
        if 10 * (curTot - curNIn) ≤ curTot then min q.beamWidth (max (s.curBeamWidth + 1) 4)
        else s.curBeamWidth }
  else s

variable [LinearOrder D] [Zero D]

/-- `calc_best_node`: the best candidate in the map is expanded; the first candidate that has not been
sent is returned. -/
def calcBestNode (ix : SSDIndex C) (q : Query C D) (s : State D) : State D × ℕ :=
  let pool := s.cands.pool
  let s' :=
    match pool.dropWhile fun e => !s.pending e with
    | [] => s
    | e :: rest =>
      match s.ios.idBufMap e.id with
      | none => s
      | some b =>
        let pre := pool.takeWhile fun e => !s.pending e
        let node := s.node ix b
        let cands := s.cands.setPool (pre ++ { e with flag := false, visited := true } :: rest)
        let s := s.computeExactDistsAndPush q node e.id
        { s with cands := cands.computeAndPushNbrs q.list node }
  (s', (s'.cands.pool.findIdx? fun e => !e.visited && e.flag && (s'.ios.idBufMap e.id).isNone).getD
    s.cands.curListSize)

/-- The poll of the main loop: the queue, and the beam. -/
def pollAll (q : Query C D) (done : List ℕ) (cbFilled : ℕ → Bool) (s : State D) : State D :=
  let inList := fun d => s.cands.pool.getLast?.any fun last => d ≤ last.distance
  let ios := s.ios.complete done
  let (ios, nIn, nOut) := ios.popFinished cbFilled inList ios.onFlightIos 0 0
  { s with ios }.tune q nIn nOut

omit [LinearOrder D] in
/-- `retset` with the length of the rerank, without the excluded nodes. -/
def reranked (ix : SSDIndex C) (q : Query C D) (s : State D) : List (Neighbor D) :=
  let n := min q.truncLen q.lSearch
  let retset := s.cands.retset.take n ++ List.replicate (n - s.cands.retset.length) default
  s.fullRetset ++ retset.filter fun e => ix.id2tag e.id ∉ q.excludeNodes

omit [LinearOrder D] in
/-- The vectors of the results are locked, and the requests for their pages written; the process exits
when an id is there twice or has no location. -/
def startRerank (ix : SSDIndex C) (q : Query C D) (s : State D) : Option (State D) :=
  let full := s.reranked ix q
  let ids := full.map Neighbor.id
  if ids.Nodup then
    (ids.foldlM (CoordReads.add ix) ⟨fun _ => none, s.ios.sectorIdx, [], []⟩).map fun reads =>
      { s with
        ios := { s.ios.lockVecs ids with
          pageBufMap := reads.pageBufMap, sectorIdx := reads.sectorIdx }
        fullRetset := full
        idxBuf := reads.idxBuf
        phase := .batches reads.readReqs }
  else none

omit [LinearOrder D] [Zero D] in
/-- The exact distances, after the vectors are unlocked. -/
def endRerank (ix : SSDIndex C) (q : Query C D) (s : State D) : State D :=
  { s with
    ios := s.ios.unlockVecs (s.fullRetset.map Neighbor.id)
    fullRetset := List.zipWith (fun e (b : BufNode) =>
      { e with distance := q.compare (ix.coordsAt (s.ios.sector b.buf) b.loc) }) s.fullRetset s.idxBuf
    phase := .finish }

end State

/-- What the environment does in a step. -/
structure Act where
  done : List ℕ
  found : Found
  cbFilled : ℕ → Bool

variable [LinearOrder D] [Zero D]

open State

/-- `none`: the search has returned, or the process has exited. -/
def step (ix : SSDIndex C) (q : Query C D) (s : State D) (a : Act) : Option (State D) :=
  match s.phase with
  | .first 0 => some { s.sortRetset q with phase := .poll }
  | .first (n + 1) => (s.sendBestReadReq ix q a.found).map fun s => { s with phase := .first n }
  | .poll =>
    if s.cands.firstUnvisited = none then some { s with phase := .release }
    else some { s.pollAll q a.done a.cbFilled with phase := .send }
  | .send =>
    if s.ios.onFlightIos.length < s.curBeamWidth then
      (s.sendBestReadReq ix q a.found).map fun s => { s with phase := .expand }
    else some { s with phase := .expand }
  | .expand =>
    let (s, marker) := s.calcBestNode ix q
    some { s with maxMarker := max s.maxMarker marker, phase := .poll }
  | .release =>
    some { s with
      ios := s.ios.releaseAll
      phase := if q.useRerank then .rerank else .finish }
  | .rerank => s.startRerank ix q
  | .batches [] => some (s.endRerank ix q)
  | .batches (req :: reqs) =>
    (s.ios.readBatch ((req :: reqs).take kRerankReadBatchSize) a.done).map fun ios =>
      { s with ios, phase := .batches ((req :: reqs).drop kRerankReadBatchSize) }
  | .finish =>
    some { s with
      ios := s.ios.releaseRefs
      fullRetset := s.fullRetset.insertionSort PipeANN.PipeSearch.State.le
      phase := .returned }
  | .returned => none

/-- The first candidates: those of the in-memory search, or the entry point. -/
def start (ix : SSDIndex C) (q : Query C D) : List (ℕ × D) :=
  if q.mem = [] then [(ix.medoid, q.pqDist ix.medoid)] else q.mem.take q.lSearch

/-- The width of the beam before the search has converged. -/
def firstWidth (q : Query C D) : ℕ := if q.dynPipeWidth then 4 else q.beamWidth

/-- `reqs` and `sector` are what the last query has left. -/
def newState (ix : SSDIndex C) (q : Query C D) (reqs : ℕ → Req) (sector : ℕ → Page) : State D where
  phase := .first (firstWidth q)
  ios :=
    { onFlightIos := []
      inFlight := []
      nReads := 0
      reqs
      sector
      sectorIdx := 0
      rank := 0
      ts := 0
      pageBufMap := fun _ => none
      pageRankMap := fun _ => 0
      idBufMap := fun _ => none
      pageRef := []
      locked := fun _ => 0
      unlocked := fun _ => 0
      vecLocked := fun _ => 0
      vecUnlocked := fun _ => 0
      pinned := fun _ => 0
      released := fun _ => 0 }
  cands :=
    { retset := (start ix q).map (fun (id, dist) => .new id dist true) ++
        List.replicate (q.mem.length + q.lSearch * 10 - (start ix q).length) default
      curListSize := (start ix q).length
      visited := (start ix q).map Prod.fst }
  fullRetset := []
  idxBuf := []
  curBeamWidth := firstWidth q
  maxMarker := 0
  curNIn := 0
  curTot := 0

def Init (ix : SSDIndex C) (q : Query C D) (s : State D) : Prop :=
  ∃ reqs sector, s = newState ix q reqs sector

/-- `rerank_search`: the tags and distances, each id once. -/
def results (ix : SSDIndex C) (q : Query C D) (k : ℕ) (s : State D) : List (ℕ × D) :=
  (((s.fullRetset.take q.lSearch).destutter fun a b => a.id ≠ b.id).take k).map fun e =>
    (ix.id2tag e.id, e.distance)

end DiskANNEval.DGAI.RerankSearch
