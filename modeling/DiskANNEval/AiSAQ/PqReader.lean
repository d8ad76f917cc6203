import DiskANNEval.Lib.Linked
import DiskANNEval.Lib.Run
import Mathlib.Data.Nat.Notation

/-!
# PqReader — reading PQ vectors from the disk

A batch of ids is submitted, its completions are collected by one or more waits, and `done` gives
the buffers back.  Ids of one page, or of the same blocks, share a read: one of them is the root,
which holds the I/O, and the others are hooked behind it.  With a page cache, which only a
rearranged file has, the pages that are in the cache are found first and need no read.

The aio and the uring reader differ in how they wait.  A vector of `std::vector` and the array of
completion events are kept with their back in front.
-/

namespace DiskANNEval.AiSAQ.PqReader

open Lib

def sectorSize : ℕ := 512

def sectorLen : ℕ := 4096

/-- A reader that `init_common` has accepted: it divides by the size of a vector and by the number
of vectors of a page, and checks the page size; the block size is the device's, or `4096`. -/
structure Reader where
  rearranged : Bool
  rearrangedPqPageSize : ℕ
  blockSize : ℕ
  pqVectorSize : ℕ
  vector_pos : 0 < pqVectorSize
  block_pos : 0 < blockSize
  sector_dvd_block : sectorSize ∣ blockSize
  page : rearranged = true → sectorLen ∣ rearrangedPqPageSize ∧ pqVectorSize ≤ rearrangedPqPageSize

namespace Reader

variable (r : Reader)

def rearrangedPqVectorsPerPage : ℕ :=
  if r.rearranged then r.rearrangedPqPageSize / r.pqVectorSize else 0

def rearrangedPqSectorsPerPage : ℕ :=
  if r.rearranged then r.rearrangedPqPageSize / sectorSize else 0

def maxIoSizeSectors : ℕ :=
  if r.rearranged then r.rearrangedPqSectorsPerPage else (r.pqVectorSize - 1) / sectorSize + 2

/-- `offset_from_header` and `header_size` -/
def calcPqVectorOffsetBytes (id : ℕ) : ℕ × ℕ :=
  if r.rearranged then
    (id / r.rearrangedPqVectorsPerPage * r.rearrangedPqPageSize +
      id % r.rearrangedPqVectorsPerPage * r.pqVectorSize, sectorLen)
  else (id * r.pqVectorSize, 4 * 2)

/-- The position of a vector in the file. -/
def vectorPos (id : ℕ) : ℕ := (r.calcPqVectorOffsetBytes id).2 + (r.calcPqVectorOffsetBytes id).1

end Reader

structure ReadParams where
  fromSector : ℕ
  toSector : ℕ
  buffOffset : ℕ

def Reader.calcPqVectorReadParams (r : Reader) (id : ℕ) : ReadParams :=
  let (offset, headerSize) := r.calcPqVectorOffsetBytes id
  if r.rearranged then
    let fromSector := headerSize / sectorSize +
      offset / r.rearrangedPqPageSize * r.rearrangedPqSectorsPerPage
    { fromSector
      toSector := fromSector + r.rearrangedPqSectorsPerPage - 1
      buffOffset := offset % r.rearrangedPqPageSize }
  else
    let sectorsPerBlock := r.blockSize / sectorSize
    let fromSector := (headerSize + offset) / r.blockSize * sectorsPerBlock
    { fromSector
      toSector := ((headerSize + offset + r.pqVectorSize - 1) / r.blockSize + 1) * sectorsPerBlock - 1
      buffOffset := headerSize + offset - fromSector * sectorSize }

/-! ### The context -/

/-- `hooked`: `none` for `-1`; `buff` is the number of a data buffer. -/
structure IoData where
  rootIo : Bool
  inPageCache : Bool
  hooked : Option ℕ
  fromSector : ℕ
  toSector : ℕ
  vectorId : ℕ
  vectorIndex : ℕ
  buffOffset : ℕ
  buff : ℕ

/-- A read as it is submitted, in bytes; `data` is the index of its `io_data`. -/
structure Iocb where
  buff : ℕ
  len : ℕ
  offset : ℕ
  data : ℕ
  deriving DecidableEq

structure PageCacheNode where
  pageId : ℕ
  buff : ℕ
  deriving DecidableEq

/-- `inFlight` are the reads that have been submitted and not collected, and `mem` what the data
buffers hold. -/
structure Context (B : Type) where
  maxIos : ℕ
  pageCacheSizeBytes : ℕ
  pendingIoCount : ℕ
  completionEvents : List ℕ
  freeDataBuffers : List ℕ
  cachedDataBuffers : ℕ → Option PageCacheNode
  lruList : List PageCacheNode
  ioData : ℕ → IoData
  ioDataCount : ℕ
  inFlight : List Iocb
  mem : ℕ → ℕ → B

/-- A vector handed back: its index, and the pointer to it. -/
structure Handed where
  index : ℕ
  buff : ℕ
  offset : ℕ
  deriving DecidableEq

variable {B : Type}

namespace Context

def setIo (c : Context B) (i : ℕ) (io : IoData) : Context B :=
  { c with ioData := Function.update c.ioData i io }

/-- The page cache is in use. -/
def caching (c : Context B) : Bool := 0 < c.pageCacheSizeBytes

def addPendingIoCompletionEvent (c : Context B) (completedIndex : ℕ) : Context B :=
  { c with completionEvents := completedIndex :: c.completionEvents }

/-- The buffer, and the context without it. -/
def getFreeDataBuffer (c : Context B) : Option (ℕ × Context B) :=
  match c.freeDataBuffers with
  | buff :: free => some (buff, { c with freeDataBuffers := free })
  | [] =>
    if c.caching then
      match c.lruList with
      | node :: lru => some (node.buff, { c with
          cachedDataBuffers := Function.update c.cachedDataBuffers node.pageId none
          lruList := lru })
      | [] => none
    else none

def handed (c : Context B) (i : ℕ) : Handed :=
  ⟨(c.ioData i).vectorIndex, (c.ioData i).buff, (c.ioData i).buffOffset⟩

end Context

/-! ### `read_pq_vectors_submit` -/

inductive SubmitError
  | tooManyIds
  | assertion
  | noBuffers
  deriving DecidableEq

/-- The variables of the two loops. -/
structure Pass (B : Type) where
  ctx : Context B
  sectorsMap : ℕ → Option ℕ
  readSectorCount : ℕ
  iocbs : List Iocb

def IoData.setParams (r : Reader) (i id : ℕ) (io : IoData) : IoData :=
  let a := r.calcPqVectorReadParams id
  { io with
    fromSector := a.fromSector
    toSector := a.toSector
    buffOffset := a.buffOffset
    vectorId := id
    vectorIndex := i }

def setParams (r : Reader) (i id : ℕ) (p : Pass B) : Except SubmitError (Pass B) :=
  let io := (p.ctx.ioData i).setParams r i id
  let readSectorCount := io.toSector - io.fromSector + 1
  if readSectorCount ≤ r.maxIoSizeSectors then
    .ok { p with ctx := p.ctx.setIo i io, readSectorCount }
  else .error .assertion

/-- The page of a read. -/
def pageId (r : Reader) (io : IoData) : ℕ := io.fromSector / r.rearrangedPqSectorsPerPage

/-- The lookup of an id in the page cache, once its parameters are set. -/
def lookupStep (r : Reader) (i : ℕ) (p : Pass B) : Pass B :=
  let io := p.ctx.ioData i
  match p.ctx.cachedDataBuffers (pageId r io) with
  | some node =>
    let c : Context B := { p.ctx with lruList := p.ctx.lruList.erase node ++ [node] }
    { p with ctx := (c.setIo i { io with
        inPageCache := true
        hooked := none
        rootIo := false
        buff := node.buff }).addPendingIoCompletionEvent io.vectorIndex }
  | none => { p with ctx := p.ctx.setIo i { io with inPageCache := false } }

/-- The items in the cache are handled first. -/
def cachePass (r : Reader) : ℕ → List ℕ → Pass B → Except SubmitError (Pass B)
  | _, [], p => .ok p
  | i, id :: ids, p => (setParams r i id p).bind fun p => cachePass r (i + 1) ids (lookupStep r i p)

/-- Overlapping io: cell `i` is hooked behind the root `j`. -/
def hookIo (c : Context B) (i j : ℕ) : Context B :=
  let io := c.ioData i
  let root := c.ioData j
  (c.setIo i { io with hooked := root.hooked, rootIo := false, buff := root.buff }).setIo j
    { root with hooked := some i }

/-- An id gets a buffer and a read of its own. -/
def newRoot (i : ℕ) (p : Pass B) : Except SubmitError (Pass B) :=
  let io := p.ctx.ioData i
  match p.ctx.getFreeDataBuffer with
  | none => .error .noBuffers
  | some (buff, c) =>
    let c := { c with pendingIoCount := c.pendingIoCount + 1 }
    .ok { p with
      ctx := c.setIo i { io with hooked := none, rootIo := true, buff := buff }
      sectorsMap :=
        if p.sectorsMap io.fromSector = none then
          Function.update p.sectorsMap io.fromSector (some i)
        else p.sectorsMap
      iocbs := p.iocbs ++ [⟨buff, p.readSectorCount * sectorSize, io.fromSector * sectorSize, i⟩] }

/-- The read of an id that is not in the cache. -/
def readStep (i : ℕ) (p : Pass B) : Except SubmitError (Pass B) :=
  let io := p.ctx.ioData i
  match p.sectorsMap io.fromSector with
  | some j =>
    if io.toSector ≤ (p.ctx.ioData j).toSector then .ok { p with ctx := hookIo p.ctx i j }
    else newRoot i p
  | none => newRoot i p

def missStep (r : Reader) (i id : ℕ) (p : Pass B) : Except SubmitError (Pass B) :=
  if p.ctx.caching then
    if (p.ctx.ioData i).inPageCache then .ok p else readStep i p
  else (setParams r i id p).bind (readStep i)

def missPass (r : Reader) : ℕ → List ℕ → Pass B → Except SubmitError (Pass B)
  | _, [], p => .ok p
  | i, id :: ids, p => (missStep r i id p).bind (missPass r (i + 1) ids)

/-- The kernel takes all reads. -/
def submit (r : Reader) (c : Context B) (ids : List ℕ) : Except SubmitError (Context B) :=
  if c.maxIos < ids.length then .error .tooManyIds
  else if c.pendingIoCount ≠ 0 then .error .assertion
  else
    let p : Pass B := ⟨{ c with completionEvents := [] }, fun _ => none, 0, []⟩
    (if c.caching then cachePass r 0 ids p else .ok p).bind fun p =>
      (missPass r 0 ids p).bind fun p =>
        .ok { p.ctx with ioDataCount := ids.length, inFlight := p.iocbs }

/-! ### `read_pq_vectors_wait_completion` -/

/-- The loop along the hooks, from the root that has completed. -/
def walk (c : Context B) (maxEvents : ℕ) :
    ℕ → ℕ → List Handed → List ℕ → Option (List Handed × List ℕ)
  | 0, _, _, _ => none
  | fuel + 1, i, out, events =>
    let io := c.ioData i
    let (out, events) :=
      if out.length < maxEvents then (out ++ [c.handed i], events)
      else (out, io.vectorIndex :: events)
    match io.hooked with
    | none => some (out, events)
    | some j => walk c maxEvents fuel j out events

/-- One completion: the read has filled its buffer. -/
def reap (file : ℕ → B) (maxEvents : ℕ) (cb : Iocb) (c : Context B) (out : List Handed) :
    Option (Context B × List Handed) :=
  if cb ∈ c.inFlight then
    (walk c maxEvents c.ioDataCount cb.data out c.completionEvents).map fun (out, events) =>
      ({ c with
        completionEvents := events
        inFlight := c.inFlight.erase cb
        mem := Function.update c.mem cb.buff fun k =>
          if k < cb.len then file (cb.offset + k) else c.mem cb.buff k }, out)
  else none

def reapAll (file : ℕ → B) (maxEvents : ℕ) :
    List Iocb → Context B → List Handed → Option (Context B × List Handed)
  | [], c, out => some (c, out)
  | cb :: evts, c, out =>
    (reap file maxEvents cb c out).bind fun (c, out) => reapAll file maxEvents evts c out

/-- `evts` are the reads that `io_getevents` returns: at least as many as it is asked for, at most as
many as there is room for. -/
def waitAio (file : ℕ → B) (nrEvents maxEvents : ℕ) (evts : List Iocb) (c : Context B)
    (out : List Handed) : Option (Context B × List Handed) :=
  let room := maxEvents - out.length
  if 0 < room ∧ 0 < c.pendingIoCount then
    let nrEvents := min (min nrEvents room) c.pendingIoCount
    if nrEvents ≤ evts.length ∧ evts.length ≤ room then
      (reapAll file maxEvents evts c out).map fun (c, out) =>
        ({ c with pendingIoCount := c.pendingIoCount - evts.length }, out)
    else none
  else if evts = [] then some (c, out) else none

/-- `evts` are the reads that the calls of `io_uring_wait_cqe` return; `none`: the call waits. -/
def waitUring (file : ℕ → B) (nrEvents maxEvents : ℕ) :
    List Iocb → Context B → List Handed → Option (Context B × List Handed)
  | evts, c, out =>
    if out.length < nrEvents ∧ 0 < c.pendingIoCount then
      match evts with
      | [] => none
      | cb :: evts =>
        (reap file maxEvents cb c out).bind fun (c, out) =>
          waitUring file nrEvents maxEvents evts
            { c with pendingIoCount := c.pendingIoCount - 1 } out
    else if evts = [] then some (c, out) else none

inductive Engine
  | aio
  | uring

/-- The events that are waiting are handed back first. -/
def waitCompletion (engine : Engine) (file : ℕ → B) (nrEvents maxEvents : ℕ) (evts : List Iocb)
    (c : Context B) : Option (Context B × List Handed) :=
  let out := (c.completionEvents.take maxEvents).map c.handed
  let c := { c with completionEvents := c.completionEvents.drop maxEvents }
  if nrEvents ≤ out.length then
    if evts = [] then some (c, out) else none
  else
    match engine with
    | .aio => waitAio file nrEvents maxEvents evts c out
    | .uring => waitUring file nrEvents maxEvents evts c out

/-! ### `read_pq_vectors_done`, `clear_page_cache` and `create_context` -/

def doneStep (r : Reader) (c : Context B) (i : ℕ) : Context B :=
  let io := c.ioData i
  if io.rootIo then
    if c.caching then
      let node : PageCacheNode := ⟨pageId r io, io.buff⟩
      { c with
        lruList := c.lruList ++ [node]
        cachedDataBuffers := Function.update c.cachedDataBuffers node.pageId (some node) }
    else { c with freeDataBuffers := io.buff :: c.freeDataBuffers }
  else c

/-- `none`: the assertion that no I/O is pending fails. -/
def done (r : Reader) (c : Context B) : Option (Context B) :=
  if c.pendingIoCount = 0 then
    some { (List.range c.ioDataCount).foldl (doneStep r) c with ioDataCount := 0 }
  else none

def clearPageCache (c : Context B) : Context B :=
  { c with
    freeDataBuffers := c.lruList.map PageCacheNode.buff ++ c.freeDataBuffers
    lruList := []
    cachedDataBuffers := fun _ => none }

/-- The number of data buffers. -/
def nitems (r : Reader) (maxIos pageCacheSizeBytes : ℕ) : ℕ :=
  maxIos + if 0 < pageCacheSizeBytes then pageCacheSizeBytes / r.rearrangedPqPageSize else 0

/-- `ioData` and `mem` are what the new arrays hold. -/
def createContext (r : Reader) (maxIos pageCacheSizeBytes : ℕ) (ioData : ℕ → IoData)
    (mem : ℕ → ℕ → B) : Context B where
  maxIos := maxIos
  -- the page cache may only be used with a rearranged index
  pageCacheSizeBytes := if r.rearranged then pageCacheSizeBytes else 0
  pendingIoCount := 0
  completionEvents := []
  freeDataBuffers := (List.range (nitems r maxIos (if r.rearranged then pageCacheSizeBytes else 0))).reverse
  cachedDataBuffers := fun _ => none
  lruList := []
  ioData := ioData
  ioDataCount := 0
  inFlight := []
  mem := mem

/-! ### Batches -/

inductive Act
  | submit (ids : List ℕ)
  | wait (nrEvents maxEvents : ℕ) (evts : List Iocb)
  | done
  | clearPageCache

/-- The calls of the search: `done` comes between a batch and the next one.  `none`: an assertion
fails or the call waits; after a list of ids that is too long nothing has changed. -/
def step (r : Reader) (engine : Engine) (file : ℕ → B) (c : Context B) : Act → Option (Context B)
  | .submit ids =>
    if c.ioDataCount = 0 then
      match submit r c ids with
      | .ok c' => some c'
      | .error .tooManyIds => some c
      | .error _ => none
    else none
  | .wait nrEvents maxEvents evts =>
    (waitCompletion engine file nrEvents maxEvents evts c).map Prod.fst
  | .done => done r c
  | .clearPageCache => if c.ioDataCount = 0 then some (clearPageCache c) else none

def Init (r : Reader) (c : Context B) : Prop :=
  ∃ maxIos pageCacheSizeBytes ioData mem, c = createContext r maxIos pageCacheSizeBytes ioData mem

end DiskANNEval.AiSAQ.PqReader
