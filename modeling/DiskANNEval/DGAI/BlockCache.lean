import Mathlib
import DiskANNEval.Lib.Run

/-!
# BlockCache — the clock cache of the topology pages, one shared access at a time

`request_block` pins a cached slot without a lock (load, compare-and-swap, second look at the
slot's id), or takes `hand_mtx` and looks again, fills a free slot, or lets the clock hand find a
slot to evict.  Every read or write of a shared variable is a step of its own, and the threads'
steps interleave in any order.  The critical section of `hand_mtx` has one owner at a time, so its
position is kept with the mutex.

The counters are `atomic_int`s: `wrap32` is their wrap-around.
-/

namespace DiskANNEval.DGAI.BlockCache

open Lib Function

/-- The value an `atomic_int` takes when the exact result is `x`. -/
def wrap32 (x : ℤ) : ℤ := Int.bmod x 4294967296

theorem wrap32_of_lt {x : ℤ} (h0 : -1 ≤ x) (h1 : x < 2147483648) : wrap32 x = x := by
  unfold wrap32 Int.bmod
  simp only
  omega

/-- `cache_status`: -1, 0 and 1. -/
inductive Status
  | invalid
  | allocated
  | finished
  deriving DecidableEq

/-- Where a thread is, outside the critical section of `hand_mtx`. -/
inductive Pc (n : ℕ)
  | idle
  | lookup (blockId : ℤ)
  | loadPin (blockId : ℤ) (cb : Fin n)
  | checkId (blockId : ℤ) (cb : Fin n) (val : ℤ)
  | swapPin (blockId : ℤ) (cb : Fin n) (val : ℤ)
  | recheckId (blockId : ℤ) (cb : Fin n) (val : ℤ)
  | fetchRef (blockId : ℤ) (cb : Fin n)
  -- waiting for `hand_mtx`, or inside its critical section
  | miss (blockId : ℤ)
  | getStatus (blockId : ℤ) (cb : Fin n)
  | getLock (blockId : ℤ) (cb : Fin n)
  | getRecheck (blockId : ℤ) (cb : Fin n)
  | getRead (blockId : ℤ) (cb : Fin n)
  | getFinish (blockId : ℤ) (cb : Fin n)
  | getUnlock (blockId : ℤ) (cb : Fin n)
  deriving DecidableEq

/-- Where the owner of `hand_mtx` is.  The code that fills a slot stands twice in the source, for
a free slot (`fresh`) and for an evicted one. -/
inductive MissPc (n : ℕ)
  | lookup
  | fetchPin (cb : Fin n)
  | fetchRef (cb : Fin n)
  | takeFree
  | scanFree (cb : Fin n)
  | checkPinned (cb : Fin n)
  | dropRef (cb : Fin n)
  | swapEvict (cb : Fin n)
  | erase (cb : Fin n)
  | emplace (fresh : Bool) (cb : Fin n)
  | writeId (fresh : Bool) (cb : Fin n)
  | storePin (fresh : Bool) (cb : Fin n)
  | storeRef (fresh : Bool) (cb : Fin n)
  | storeStatus (fresh : Bool) (cb : Fin n)
  | moveHand (cb : Fin n)
  deriving DecidableEq

/-- `hand_mtx` with its owner, the block the owner asked for and its position. -/
structure Hand (Θ : Type) (n : ℕ) where
  owner : Θ
  blockId : ℤ
  pc : MissPc n

/-- A thread and the requests it has returned from and not released: the block and the slot. -/
structure Thread (n : ℕ) where
  pc : Pc n
  held : List (ℤ × Fin n)

structure State (Θ α : Type) (n : ℕ) where
  cachePhMap : ℤ → Option (Fin n)
  cachedBlockId : Fin n → ℤ
  cachePinnedCount : Fin n → ℤ
  cacheRefCount : Fin n → ℤ
  cacheStatus : Fin n → Status
  cacheBlockVec : Fin n → α
  cacheMtx : Fin n → Option Θ
  numFreeBlocks : ℕ
  clockHand : Fin n
  handMtx : Option (Hand Θ n)
  threads : Θ → Thread n
  exited : Bool

inductive Act (Θ : Type) (n : ℕ)
  | request (t : Θ) (blockId : ℤ)
  | get (t : Θ) (blockId : ℤ) (cb : Fin n)
  | release (t : Θ) (blockId : ℤ) (cb : Fin n)
  | run (t : Θ)

variable {Θ α : Type} [DecidableEq Θ] {n : ℕ}

namespace State

def setThread (s : State Θ α n) (t : Θ) (th : Thread n) : State Θ α n :=
  { s with threads := Function.update s.threads t th }

def setPc (s : State Θ α n) (t : Θ) (pc : Pc n) : State Θ α n :=
  s.setThread t { s.threads t with pc }

/-- `request_block` returns `cb`. -/
def giveOut (s : State Θ α n) (t : Θ) (blockId : ℤ) (cb : Fin n) : State Θ α n :=
  s.setThread t ⟨.idle, (blockId, cb) :: (s.threads t).held⟩

def addPinned (s : State Θ α n) (cb : Fin n) (d : ℤ) : State Θ α n :=
  { s with cachePinnedCount :=
      Function.update s.cachePinnedCount cb (wrap32 (s.cachePinnedCount cb + d)) }

def setPinned (s : State Θ α n) (cb : Fin n) (val : ℤ) : State Θ α n :=
  { s with cachePinnedCount := Function.update s.cachePinnedCount cb val }

def addRef (s : State Θ α n) (cb : Fin n) (d : ℤ) : State Θ α n :=
  { s with cacheRefCount := Function.update s.cacheRefCount cb (wrap32 (s.cacheRefCount cb + d)) }

def setStatus (s : State Θ α n) (cb : Fin n) (st : Status) : State Θ α n :=
  { s with cacheStatus := Function.update s.cacheStatus cb st }

def setHand (s : State Θ α n) (l : Option (Hand Θ n)) : State Θ α n := { s with handMtx := l }

end State

/-- `erase_if(block_id, v.second == cb_idx)`. -/
def eraseIf (m : ℤ → Option (Fin n)) (blockId : ℤ) (cb : Fin n) : ℤ → Option (Fin n) :=
  if m blockId = some cb then Function.update m blockId none else m

/-- `try_emplace_l`: an entry that is there stays. -/
def tryEmplace (m : ℤ → Option (Fin n)) (blockId : ℤ) (cb : Fin n) : ℤ → Option (Fin n) :=
  if m blockId = none then Function.update m blockId (some cb) else m

variable [NeZero n]

/-- One step of the owner `t` of `hand_mtx`. -/
def missStep (s : State Θ α n) (t : Θ) (b : ℤ) : MissPc n → State Θ α n
  | .lookup =>
    match s.cachePhMap b with
    | some cb => s.setHand (some ⟨t, b, .fetchPin cb⟩)
    | none =>
      if 0 < s.numFreeBlocks then s.setHand (some ⟨t, b, .takeFree⟩)
      else s.setHand (some ⟨t, b, .checkPinned s.clockHand⟩)
  | .fetchPin cb => (s.addPinned cb 1).setHand (some ⟨t, b, .fetchRef cb⟩)
  | .fetchRef cb => ((s.addRef cb 1).setHand none).giveOut t b cb
  | .takeFree =>
    { s with numFreeBlocks := s.numFreeBlocks - 1 }.setHand (some ⟨t, b, .scanFree s.clockHand⟩)
  | .scanFree cb =>
    if s.cacheStatus cb = .invalid then s.setHand (some ⟨t, b, .emplace true cb⟩)
    else s.setHand (some ⟨t, b, .scanFree (cb + 1)⟩)
  | .checkPinned cb =>
    if s.cachePinnedCount cb = 0 then s.setHand (some ⟨t, b, .dropRef cb⟩)
    else s.setHand (some ⟨t, b, .checkPinned (cb + 1)⟩)
  | .dropRef cb =>
    if (s.addRef cb (-1)).cacheRefCount cb = 0 then
      (s.addRef cb (-1)).setHand (some ⟨t, b, .swapEvict cb⟩)
    else (s.addRef cb (-1)).setHand (some ⟨t, b, .checkPinned (cb + 1)⟩)
  | .swapEvict cb =>
    if s.cachePinnedCount cb = 0 then (s.setPinned cb (-1)).setHand (some ⟨t, b, .erase cb⟩)
    else s.setHand (some ⟨t, b, .checkPinned (cb + 1)⟩)
  | .erase cb =>
    { s with cachePhMap := eraseIf s.cachePhMap (s.cachedBlockId cb) cb }.setHand
      (some ⟨t, b, .emplace false cb⟩)
  | .emplace fresh cb =>
    { s with cachePhMap := tryEmplace s.cachePhMap b cb }.setHand (some ⟨t, b, .writeId fresh cb⟩)
  | .writeId fresh cb =>
    { s with cachedBlockId := Function.update s.cachedBlockId cb b }.setHand
      (some ⟨t, b, .storePin fresh cb⟩)
  | .storePin fresh cb => (s.setPinned cb 1).setHand (some ⟨t, b, .storeRef fresh cb⟩)
  | .storeRef fresh cb =>
    { s with cacheRefCount := Function.update s.cacheRefCount cb 1 }.setHand
      (some ⟨t, b, .storeStatus fresh cb⟩)
  | .storeStatus _ cb => (s.setStatus cb .allocated).setHand (some ⟨t, b, .moveHand cb⟩)
  | .moveHand cb => ({ s with clockHand := cb + 1 }.setHand none).giveOut t b cb

/-- One step of `t`; `none`: it waits for a mutex, or has nothing to run. -/
def runStep (readBlock : ℤ → α) (s : State Θ α n) (t : Θ) : Option (State Θ α n) :=
  match (s.threads t).pc with
  | .idle => none
  | .lookup b =>
    match s.cachePhMap b with
    | some cb => some (s.setPc t (.loadPin b cb))
    | none => some (s.setPc t (.miss b))
  | .loadPin b cb => some (s.setPc t (.checkId b cb (s.cachePinnedCount cb)))
  | .checkId b cb val =>
    if val = -1 ∨ s.cachedBlockId cb ≠ b then some (s.setPc t (.miss b))
    else some (s.setPc t (.swapPin b cb val))
  | .swapPin b cb val =>
    -- a failed `compare_exchange_strong` leaves the value it found in `val`
    if s.cachePinnedCount cb = val then some ((s.addPinned cb 1).setPc t (.recheckId b cb val))
    else some (s.setPc t (.checkId b cb (s.cachePinnedCount cb)))
  | .recheckId b cb val =>
    if s.cachedBlockId cb = b then some (s.setPc t (.fetchRef b cb))
    else some (s.setPc t (.checkId b cb val))
  | .fetchRef b cb => some ((s.addRef cb 1).giveOut t b cb)
  | .miss b =>
    match s.handMtx with
    | none => some (s.setHand (some ⟨t, b, .lookup⟩))
    | some l => if l.owner = t then some (missStep s t l.blockId l.pc) else none
  | .getStatus b cb =>
    if s.cacheStatus cb = .allocated then some (s.setPc t (.getLock b cb))
    else some (s.setPc t .idle)
  | .getLock b cb =>
    if s.cacheMtx cb = none then
      some ({ s with cacheMtx := Function.update s.cacheMtx cb (some t) }.setPc t
        (.getRecheck b cb))
    else none
  | .getRecheck b cb =>
    if s.cacheStatus cb = .allocated then some (s.setPc t (.getRead b cb))
    else some (s.setPc t (.getUnlock b cb))
  | .getRead b cb =>
    some ({ s with cacheBlockVec := Function.update s.cacheBlockVec cb (readBlock b) }.setPc t
      (.getFinish b cb))
  | .getFinish b cb => some ((s.setStatus cb .finished).setPc t (.getUnlock b cb))
  | .getUnlock _ cb =>
    some ({ s with cacheMtx := Function.update s.cacheMtx cb none }.setPc t .idle)

/-- `release_cache_block`: the process exits when the count was not positive. -/
def releaseCacheBlock (s : State Θ α n) (t : Θ) (b : ℤ) (cb : Fin n) : State Θ α n :=
  { s.addPinned cb (-1) with exited := decide (s.cachePinnedCount cb ≤ 0) }.setThread t
    ⟨.idle, (s.threads t).held.erase (b, cb)⟩

/-- A thread calls the cache with what its earlier requests returned. -/
def step (readBlock : ℤ → α) (s : State Θ α n) (a : Act Θ n) : Option (State Θ α n) :=
  if s.exited then none else
  match a with
  | .request t b => if (s.threads t).pc = .idle then some (s.setPc t (.lookup b)) else none
  | .get t b cb =>
    if (s.threads t).pc = .idle ∧ (b, cb) ∈ (s.threads t).held then
      some (s.setPc t (.getStatus b cb))
    else none
  | .release t b cb =>
    if (s.threads t).pc = .idle ∧ (b, cb) ∈ (s.threads t).held then
      some (releaseCacheBlock s t b cb)
    else none
  | .run t => runStep readBlock s t

/-- The cache after `clear()`. -/
def State.clear (block : Fin n → α) : State Θ α n where
  cachePhMap := fun _ => none
  cachedBlockId := fun _ => -1
  cachePinnedCount := fun _ => 0
  cacheRefCount := fun _ => 0
  cacheStatus := fun _ => .invalid
  cacheBlockVec := block
  cacheMtx := fun _ => none
  numFreeBlocks := n
  clockHand := 0
  handMtx := none
  threads := fun _ => ⟨.idle, []⟩
  exited := false

def Init (s : State Θ α n) : Prop := ∃ block, s = .clear block

end DiskANNEval.DGAI.BlockCache
