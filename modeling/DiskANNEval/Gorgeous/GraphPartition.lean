import Mathlib

/-!
# GraphPartition — `graph_partition` with scale factor 1

The nodes are first packed into partitions one after the other, each with its neighbours (`pack`).
In a round all partitions but the locked ones are cleared and put into the free queue, and the nodes
are placed again by parallel calls of `sync` (`LdgStep`): a node goes to the best partition of its
neighbours that has room, or to one from the queue, and the partition goes (back) into the queue
while it has room.  What a thread does under one mutex, and each read of `id2pid`, is one step.

`INF` in `id2pid` is `none`.
-/

namespace DiskANNEval.Gorgeous

/-- What `graph_partition` reads; `direct_graph` and `reverse_graph` may be cut.  `score` is
`cnt * (1 - s / C)` on floats and `gt` is `>`. -/
structure GraphPartitioner (F : Type) where
  nd : ℕ
  C : ℕ
  C_pos : 0 < C
  fullGraph : ℕ → List ℕ
  directGraph : ℕ → List ℕ
  reverseGraph : ℕ → List ℕ
  fullGraph_lt : ∀ i, ∀ n ∈ fullGraph i, n < nd
  /-- the nodes of `_freq_list`, which has all of them or is empty -/
  freqList : List ℕ
  freq_perm : freqList = [] ∨ freqList.Perm (List.range nd)
  score : ℕ → ℕ → F
  gt : F → F → Bool
  zero : F

/-- The partitions, where `initPack` has got to, and the locked partitions. -/
structure Packing where
  partition : ℕ → List ℕ
  id2pid : ℕ → Option ℕ
  vis : ℕ → Bool
  pid : ℕ
  lockNums : ℤ
  lockPids : ℕ → Bool

/-- Where a call of `sync` is: it counts the partitions of the neighbours, looks at each of them, pops
one from the queue and looks at it, has selected one (from the queue or not), has put the node into
it, or has returned. -/
inductive SyncTask (F : Type) where
  | idle
  | counting (rest : List ℕ) (pcount : List (ℕ × ℕ))
  | looking (rest : List (ℕ × ℕ)) (maxn : F) (res : Option ℕ)
  | popping
  | popped (pid : ℕ)
  | selected (pid : ℕ) (fromQueue : Bool)
  | placed (pid : ℕ) (fromQueue : Bool) (s : ℕ)
  | done

/-- The state within a round. -/
structure LdgState (F : Type) where
  partition : ℕ → List ℕ
  id2pid : ℕ → Option ℕ
  freeQ : List ℕ
  task : ℕ → SyncTask F

/-- A thread goes on with its node. -/
def LdgState.setTask {F : Type} (w : LdgState F) (i : ℕ) (t : SyncTask F) : LdgState F :=
  { w with task := Function.update w.task i t }

/-- `_lock_pids` and `_lock_nodes` -/
structure Locks where
  pids : ℕ → Bool
  nodes : ℕ → Bool

namespace GraphPartitioner

variable {F : Type} (g : GraphPartitioner F)

/-- `ROUND_UP(_nd, C) / C` -/
def partitionNumber : ℕ := (g.nd / g.C + if g.nd % g.C ≠ 0 then 1 else 0) * g.C / g.C

/-! ### The first packing -/

def initStream : List ℕ := if g.freqList = [] then List.range g.nd else g.freqList

/-- A node is put into the partition `pid`; `none` when there is no such partition. -/
def pushNode (s : Packing) (i : ℕ) : Option Packing :=
  if s.pid < g.partitionNumber then
    some { s with
      vis := Function.update s.vis i true
      partition := Function.update s.partition s.pid (s.partition s.pid ++ [i])
      id2pid := Function.update s.id2pid i (some s.pid) }
  else none

/-- The loop over the neighbours of a node. -/
def packNeighbors : List ℕ → Packing → Option Packing
  | [], s => some s
  | n :: rest, s =>
    if s.vis n then packNeighbors rest s
    else if (s.partition s.pid).length = g.C then some { s with pid := s.pid + 1 }
    else (g.pushNode s n).bind (packNeighbors rest)

/-- The partition `pid` is locked while there are nodes to lock. -/
def lockPid (s : Packing) : Packing :=
  if 0 < s.lockNums then { s with lockPids := Function.update s.lockPids s.pid true } else s

/-- The body of the loop over the stream. -/
def packNode (s : Packing) (i : ℕ) : Option Packing :=
  if s.vis i then some { s with lockNums := s.lockNums - 1 }
  else do
    let s := if (s.partition s.pid).length = g.C then { s with pid := s.pid + 1 } else s
    let s ← g.pushNode s i
    let s ← g.packNeighbors (g.fullGraph i) (lockPid s)
    return { s with lockNums := if s.lockNums ≠ 0 then s.lockNums - 1 else s.lockNums }

def pack (lockNums : ℤ) : Option Packing :=
  g.initStream.foldlM g.packNode ⟨fun _ => [], fun _ => none, fun _ => false, 0, lockNums, fun _ => false⟩

/-- `_lock_nodes`: the nodes of the locked partitions up to the first one that is not locked. -/
def lockNodes (s : Packing) (i : ℕ) : Bool :=
  ((List.range g.partitionNumber).takeWhile s.lockPids).any fun p => i ∈ s.partition p

/-! ### A round -/

/-- The beginning of `graph_partition_LDG`, with the free queue in some order. -/
def LdgStart (locks : Locks) (partition : ℕ → List ℕ) (id2pid : ℕ → Option ℕ) (w : LdgState F) : Prop :=
  (w.partition = fun p => if locks.pids p then partition p else []) ∧ w.id2pid = id2pid ∧
    w.freeQ.Perm ((List.range g.partitionNumber).filter fun p => !locks.pids p) ∧
    w.task = fun i => if i < g.nd ∧ locks.nodes i = false then .idle else .done

/-- `pcount[pid] = pcount[pid] + 1` -/
def countPid (pcount : List (ℕ × ℕ)) (pid : ℕ) : List (ℕ × ℕ) :=
  if pcount.any fun c => c.1 = pid then
    pcount.map fun c => if c.1 = pid then (c.1, c.2 + 1) else c
  else pcount ++ [(pid, 1)]

/-- The neighbours that `select_partition` reads. -/
def neighbors (i : ℕ) : List ℕ := g.directGraph i ++ g.reverseGraph i

/-- One step of the call `sync(i)`. -/
inductive LdgStep (w : LdgState F) : ℕ → LdgState F → Prop where
  | call {i} (h : w.task i = .idle) : LdgStep w i (w.setTask i (.counting (g.neighbors i) []))
  | count {i n rest pcount} (h : w.task i = .counting (n :: rest) pcount) :
    LdgStep w i (w.setTask i
      (.counting rest (((w.id2pid n).map (countPid pcount)).getD pcount)))
  | counted {i pcount order} (h : w.task i = .counting [] pcount) (horder : order.Perm pcount) :
    LdgStep w i (w.setTask i (.looking order g.zero none))
  | look {i pid cnt rest maxn res} (h : w.task i = .looking ((pid, cnt) :: rest) maxn res) :
    LdgStep w i (w.setTask i
      (if g.gt (g.score cnt (w.partition pid).length) maxn ∧ (w.partition pid).length < g.C then
        .looking rest (g.score cnt (w.partition pid).length) (some pid)
      else .looking rest maxn res))
  | select {i maxn pid} (h : w.task i = .looking [] maxn (some pid)) :
    LdgStep w i (w.setTask i (.selected pid false))
  | getUnfilled {i maxn} (h : w.task i = .looking [] maxn none) :
    LdgStep w i (w.setTask i .popping)
  | pop {i pid rest} (h : w.task i = .popping) (hq : w.freeQ = pid :: rest) :
    LdgStep w i { w.setTask i (.popped pid) with freeQ := rest }
  | popAgain {i pid} (h : w.task i = .popped pid) (hfull : (w.partition pid).length = g.C) :
    LdgStep w i (w.setTask i .popping)
  | unfilled {i pid} (h : w.task i = .popped pid) (hroom : (w.partition pid).length ≠ g.C) :
    LdgStep w i (w.setTask i (.selected pid true))
  | selectAgain {i pid b} (h : w.task i = .selected pid b) (hfull : (w.partition pid).length = g.C) :
    LdgStep w i (w.setTask i (.counting (g.neighbors i) []))
  | place {i pid b} (h : w.task i = .selected pid b) (hroom : (w.partition pid).length ≠ g.C) :
    LdgStep w i { w.setTask i (.placed pid b ((w.partition pid).length + 1)) with
      partition := Function.update w.partition pid (w.partition pid ++ [i])
      id2pid := Function.update w.id2pid i (some pid) }
  | push {i pid b s} (h : w.task i = .placed pid b s) :
    LdgStep w i { w.setTask i .done with
      freeQ := if s ≠ g.C then w.freeQ ++ [pid] else w.freeQ }

/-- The states of a round that starts with these partitions. -/
inductive LdgReach (locks : Locks) (partition : ℕ → List ℕ) (id2pid : ℕ → Option ℕ) :
    LdgState F → Prop where
  | start {w} (h : g.LdgStart locks partition id2pid w) : LdgReach locks partition id2pid w
  | step {w w' i} (hw : LdgReach locks partition id2pid w) (h : g.LdgStep w i w') :
    LdgReach locks partition id2pid w'

/-- The partitions after some rounds, each of which has ended. -/
inductive Rounds (locks : Locks) (partition : ℕ → List ℕ) (id2pid : ℕ → Option ℕ) :
    ℕ → (ℕ → List ℕ) → (ℕ → Option ℕ) → Prop where
  | zero : Rounds locks partition id2pid 0 partition id2pid
  | succ {k p d w} (hk : Rounds locks partition id2pid k p d) (hw : g.LdgReach locks p d w)
    (hdone : ∀ i, w.task i = .done) : Rounds locks partition id2pid (k + 1) w.partition w.id2pid

end GraphPartitioner

end DiskANNEval.Gorgeous
