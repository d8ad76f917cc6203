import DiskANNEval.Lib.RingQueue
import DiskANNEval.Lib.Run
import Mathlib

/-!
# SectorReads — sector buffers, and the two phases of a search

`page_search` and `page_search_dup_graph` read pages into a ring of `MAX_N_SECTOR_READS` buffers.  The
traversal processes one page a round, expands the nodes that are in memory, takes what reads have
finished and, when none is left, sends the next ones; then the vectors of the best candidates are read
in batches.  One thread works on query after query.

What the two functions do with a page and with a candidate is a `Search`.  A step that the code has no
check for is a `Violation`, and ends the run.
-/

namespace DiskANNEval.Gorgeous

open Lib

def maxNSectorReads : ℕ := 1024

/-- `busyBuffer`: a read into a buffer that is in flight, has not been processed or is pointed to;
`pastCandidates`: a write behind what is reserved of `vis_cand`; `readError`: "(bug) read error!". -/
inductive Violation
  | busyBuffer
  | queueFull
  | pastCandidates
  | readError
  deriving DecidableEq

structure FrontierNode where
  id : ℕ
  pid : ℕ
  deriving DecidableEq

/-- A read that the device has not finished. -/
structure Read where
  slot : ℕ
  pid : ℕ

/-- The buffers are their numbers; `sector` is the page that is in a buffer. -/
structure SectorReads where
  sectorIdx : ℕ
  inFlight : List Read
  sector : ℕ → ℕ
  sectorBuffers : RingQueue ℕ
  secBuf2ftr : ℕ → Option FrontierNode
  nIoInQ : ℕ
  nProcInQ : ℕ
  numIos : ℕ

namespace SectorReads

def slots (s : SectorReads) : List ℕ := s.inFlight.map Read.slot

/-- Every page of the traversal is in `sec_buf2ftr` until it has been processed. -/
def busy (s : SectorReads) (slot : ℕ) : Bool := slot ∈ s.slots || (s.secBuf2ftr slot).isSome

/-- A read into the next buffer. -/
def request (pinned : ℕ → Bool) (pid : ℕ) (s : SectorReads) : Except Violation SectorReads :=
  if s.busy s.sectorIdx || pinned s.sectorIdx then .error .busyBuffer
  else .ok { s with
    sectorIdx := (s.sectorIdx + 1) % maxNSectorReads
    inFlight := s.inFlight ++ [⟨s.sectorIdx, pid⟩] }

/-- A read of the traversal. -/
def readNode (pinned : ℕ → Bool) (s : SectorReads) (fn : FrontierNode) :
    Except Violation SectorReads := do
  let s' ← s.request pinned fn.pid
  .ok { s' with
    secBuf2ftr := Function.update s.secBuf2ftr s.sectorIdx (some fn)
    nIoInQ := s.nIoInQ + 1
    numIos := s.numIos + 1 }

/-- The page of a read is in its buffer. -/
def complete (s : SectorReads) (slot : ℕ) : SectorReads :=
  match s.inFlight.find? fun r => r.slot = slot with
  | none => s
  | some r => { s with
    inFlight := s.inFlight.filter fun r => r.slot ≠ slot
    sector := Function.update s.sector slot r.pid }

/-- `get_events`, of the reads that the device has finished; with `wait` for one at least. -/
def getEvents (done : List ℕ) (wait : Bool) (max : ℕ) (s : SectorReads) : List ℕ :=
  let evts := (done.dedup.filter fun slot => slot ∈ s.slots).take max
  if wait && evts.isEmpty then s.slots.take 1 else evts

/-- A buffer goes into the queue. -/
def arrive (s : SectorReads) (slot : ℕ) : Except Violation SectorReads :=
  if s.nProcInQ = maxNSectorReads then .error .queueFull
  else .ok { s.complete slot with
    sectorBuffers := s.sectorBuffers.push maxNSectorReads slot
    nIoInQ := s.nIoInQ - 1
    nProcInQ := s.nProcInQ + 1 }

/-- The queue and the map, after the page of the oldest buffer has been processed. -/
def processed (s : SectorReads) (slot : ℕ) : SectorReads :=
  { s with
    sectorBuffers := (s.sectorBuffers.get maxNSectorReads).2
    secBuf2ftr := Function.update s.secBuf2ftr slot none
    nProcInQ := s.nProcInQ - 1 }

/-- A new query: `reset` of the scratch, and the maps and counters that a query has of its own. -/
def reset (s : SectorReads) : SectorReads :=
  { s with
    sectorIdx := 0
    secBuf2ftr := fun _ => none
    nIoInQ := 0
    nProcInQ := 0
    numIos := 0 }

end SectorReads

/-! ### A search -/

/-- What the next round expands, from memory and from disk. -/
structure Selection (σ κ : Type) where
  mem : σ
  cached : List κ
  frontier : List FrontierNode

/-- How a candidate gets its vector: it is not read, it is in memory, or its page is read. -/
inductive Embedding
  | skip
  | cached (id : ℕ)
  | page (pid : ℕ)

/-- What a search does with its lists and sets (`σ`), its cached nodes (`κ`) and queries (`ρ`).
`process` and `pushPage` also get the page that is in the buffer. -/
structure Search (σ κ ρ : Type) where
  ioLimit : ℕ
  /-- the test of `n_proc_in_q` before reads are sent -/
  mayDispatch : ℕ → Bool
  enter : ρ → σ
  process : FrontierNode → ℕ → ℕ → σ → Except Violation σ
  expandCached : κ → σ → σ
  select : σ → Selection σ κ
  /-- a buffer that a pointer may still be followed into -/
  pinned : σ → ℕ → Bool
  embeddingSearchL : σ → ℕ
  lookUp : ℕ → σ → Embedding
  visitPage : ℕ → σ → σ
  pushCached : ℕ → σ → σ
  pushPage : ℕ → ℕ → σ → σ

/-- The parts of a round, and of a batch of vectors. -/
inductive Phase
  | process
  | expand
  | events
  | dispatch
  | gather
  | collect
  | returned
  deriving DecidableEq

structure State (σ κ : Type) where
  phase : Phase
  reads : SectorReads
  cachedQueue : RingQueue κ
  nCachedInQ : ℕ
  mem : σ
  lIdx : ℕ
  nOps : ℕ
  secBuf2pid : ℕ → Option ℕ

/-- What the device has finished, and the next query. -/
structure Act (ρ : Type) where
  done : List ℕ
  next : ρ

namespace Search

variable {σ κ ρ : Type} (S : Search σ κ ρ)

/-- A page that has been read. -/
def processStep (s : State σ κ) : Except Violation (State σ κ) :=
  if s.reads.nProcInQ = 0 then .ok { s with phase := .expand }
  else
    let slot := (s.reads.sectorBuffers.get maxNSectorReads).1
    match s.reads.secBuf2ftr slot with
    | none => .error .readError
    | some fn => do
      let mem ← S.process fn slot (s.reads.sector slot) s.mem
      .ok { s with phase := .expand, reads := s.reads.processed slot, mem }

/-- The traversal ends. -/
def startEmbedding (s : State σ κ) : State σ κ := { s with phase := .gather, lIdx := 0, nOps := 0 }

/-- A node that is in memory. -/
def expandStep (s : State σ κ) : State σ κ :=
  if s.nCachedInQ = 0 then { s with phase := .events }
  else
    let (item, cachedQueue) := s.cachedQueue.get maxNSectorReads
    { s with cachedQueue, nCachedInQ := s.nCachedInQ - 1, mem := S.expandCached item s.mem }

/-- The finished reads; the last one returned is the first in the queue. -/
def eventsStep (done : List ℕ) (s : State σ κ) : Except Violation (State σ κ) :=
  if s.reads.nIoInQ = 0 then .ok { s with phase := .dispatch }
  else do
    let evts := s.reads.getEvents done (s.reads.nProcInQ = 0) s.reads.nIoInQ
    let reads ← evts.reverse.foldlM SectorReads.arrive s.reads
    .ok { s with phase := .dispatch, reads }

/-- The next reads. -/
def dispatchStep (s : State σ κ) : Except Violation (State σ κ) :=
  if s.reads.nIoInQ = 0 ∧ s.nCachedInQ = 0 ∧ S.mayDispatch s.reads.nProcInQ then
    let next := S.select s.mem
    if maxNSectorReads < next.cached.length then .error .queueFull
    else do
      let reads ← next.frontier.foldlM (SectorReads.readNode (S.pinned s.mem)) s.reads
      let s : State σ κ := { s with
        reads
        cachedQueue := next.cached.foldl (RingQueue.push maxNSectorReads) s.cachedQueue
        nCachedInQ := next.cached.length
        mem := next.mem }
      .ok (if s.reads.nIoInQ = 0 ∧ s.reads.nProcInQ = 0 ∧ s.nCachedInQ = 0 then startEmbedding s
        else { s with phase := .process })
  else .ok { s with phase := .process }

/-- One candidate of a batch, with the ids of the vectors that are in memory. -/
def gatherOne (acc : State σ κ × List ℕ) (i : ℕ) : Except Violation (State σ κ × List ℕ) :=
  let (s, ids) := acc
  match S.lookUp i s.mem with
  | .skip => .ok (s, ids)
  | .cached id => .ok (s, ids ++ [id])
  | .page pid => do
    let reads ← s.reads.request (fun _ => false) pid
    .ok ({ s with
      reads
      mem := S.visitPage pid s.mem
      nOps := s.nOps + 1
      secBuf2pid := Function.update s.secBuf2pid s.reads.sectorIdx (some pid) }, ids)

/-- The positions of a batch. -/
def batch (s : State σ κ) : List ℕ :=
  List.range' s.lIdx (min maxNSectorReads (S.embeddingSearchL s.mem - s.lIdx))

def gatherStep (s : State σ κ) : Except Violation (State σ κ) :=
  if s.lIdx < S.embeddingSearchL s.mem then do
    let (t, ids) ← (S.batch s).foldlM S.gatherOne ({ s with secBuf2pid := fun _ => none }, [])
    .ok { t with
      phase := .collect
      lIdx := s.lIdx + (S.batch s).length
      mem := ids.foldl (fun mem id => S.pushCached id mem) t.mem }
  else .ok { s with phase := .returned }

/-- The page of a vector; a buffer that is not in the map has page 0. -/
def collectOne (s : State σ κ) (slot : ℕ) : State σ κ :=
  let reads := s.reads.complete slot
  { s with
    reads
    nOps := s.nOps - 1
    mem := S.pushPage ((s.secBuf2pid slot).getD 0) (reads.sector slot) s.mem }

def collectStep (done : List ℕ) (s : State σ κ) : State σ κ :=
  if s.nOps = 0 then { s with phase := .gather }
  else (s.reads.getEvents done true s.nOps).foldl S.collectOne s

/-- A query begins; the queues and the reads in flight are what the last one has left. -/
def enterStep (next : ρ) (s : State σ κ) : State σ κ :=
  { s with phase := .process, reads := s.reads.reset, nCachedInQ := 0, mem := S.enter next }

def step (s : State σ κ) (a : Act ρ) : Except Violation (State σ κ) :=
  match s.phase with
  | .process =>
    if s.reads.numIos < S.ioLimit then S.processStep s else .ok (startEmbedding s)
  | .expand => .ok (S.expandStep s)
  | .events => eventsStep a.done s
  | .dispatch => S.dispatchStep s
  | .gather => S.gatherStep s
  | .collect => .ok (S.collectStep a.done s)
  | .returned => .ok (S.enterStep a.next s)

/-- The first query of a thread.  What is in the buffers and in the queues is arbitrary. -/
def Init (s : State σ κ) : Prop :=
  ∃ q sector slotData cachedData, s =
    { phase := .process
      reads :=
        { sectorIdx := 0
          inFlight := []
          sector
          sectorBuffers := ⟨slotData, 0, 0⟩
          secBuf2ftr := fun _ => none
          nIoInQ := 0
          nProcInQ := 0
          numIos := 0 }
      cachedQueue := ⟨cachedData, 0, 0⟩
      nCachedInQ := 0
      mem := S.enter q
      lIdx := 0
      nOps := 0
      secBuf2pid := fun _ => none }

/-- The steps of runs that have not ended with a violation. -/
def next (s : State σ κ) (a : Act ρ) : Option (State σ κ) := (S.step s a).toOption

end Search

end DiskANNEval.Gorgeous
