import DiskANNEval.Gorgeous.SearchList

/-!
# DupGraphSearch — `page_search_dup_graph`

The page of a node has its vector and list, and the lists of some of its neighbours; these stay in the
buffer, and `loaded` points to them.  A neighbour that is loaded, and near enough, is expanded at once.
-/

namespace DiskANNEval.Gorgeous

open PipeANN (Neighbor)
open PipeANN.PipeSearch (Cands)

variable {D : Type}

/-- A list in buffer `slot`.  No buffer that is pointed to is read into, so the list is what the
pointer shows later, too. -/
structure Loaded where
  id : ℕ
  slot : ℕ
  nbrs : List ℕ

structure DupMem (D : Type) [LE D] (ix : DecoIndex) (p : SearchParams D) where
  query : Query D ix p
  list : SearchList D
  pageVisited : List ℕ
  fullRetset : List (Neighbor D)
  loaded : List Loaded

namespace DupMem

variable [LinearOrder D] [Zero D] {ix : DecoIndex} {p : SearchParams D}

def find (id : ℕ) (mem : DupMem D ix p) : Option Loaded := mem.loaded.find? fun x => x.id = id

/-- `loaded[id]` -/
def loadedNbrs (id : ℕ) (mem : DupMem D ix p) : List ℕ := ((mem.find id).map Loaded.nbrs).getD []

/-- `loaded.insert` -/
def load (mem : DupMem D ix p) (x : Loaded) : DupMem D ix p :=
  if (mem.find x.id).isSome then mem else { mem with loaded := mem.loaded ++ [x] }

/-- The vector of `node` is compared. -/
def computeExactDistsAndPush (node id : ℕ) (mem : DupMem D ix p) : DupMem D ix p :=
  { mem with fullRetset := mem.fullRetset ++ [.new id (mem.query.exactDist node) true] }

/-- One neighbour of the node of a page, with the ids that are expanded at once. -/
def pushNbrTarget (mem : DupMem D ix p) (acc : SearchList D × List ℕ) (id : ℕ) :
    SearchList D × List ℕ :=
  let (list, expandNbIds) := acc
  let dist := mem.query.pqDist id
  let (list, r) := list.addToRetset p.lSearch id dist true
  if list.worst (fun last => dist < p.pqFilter last) && (mem.find id).isSome then
    let retset :=
      match r with
      | some r =>
        if r < list.curListSize then list.retset.modify r fun e => { e with flag := false }
        else list.retset
      | none => list.retset
    ({ list with retset }, expandNbIds ++ [id])
  else (list, expandNbIds)

/-- `compute_and_push_nbrs_target_update` -/
def pushNbrsTargetUpdate (nbrs : List ℕ) (mem : DupMem D ix p) : DupMem D ix p :=
  let (cand, visited) := Cands.unseen nbrs mem.list.visited
  let (list, expandNbIds) := cand.foldl mem.pushNbrTarget ({ mem.list with visited }, [])
  { mem with
    list := expandNbIds.foldl (fun list id =>
      list.computeAndPushNbrs p.lSearch mem.query.pqDist (mem.loadedNbrs id)) list }

def process (fn : FrontierNode) (slot page : ℕ) (mem : DupMem D ix p) :
    Except Violation (DupMem D ix p) :=
  let mem := mem.computeExactDistsAndPush page fn.id
  let others := (ix.replica page).tail.filter fun id => (ix.nodeInMemPos id).isNone
  let mem := others.foldl (fun mem id => mem.load ⟨id, slot, ix.nbrs id⟩) mem
  .ok (mem.pushNbrsTargetUpdate (((ix.replica page).head?.map ix.nbrs).getD []))

def choose (mem : DupMem D ix p) (id : ℕ) : Choice (List ℕ) :=
  match ix.nodeInMemPos id with
  | some pos => .cached (ix.memGraph pos) true
  | none =>
    match mem.find id with
    | some x => .cached x.nbrs false
    | none => .page id

def select (mem : DupMem D ix p) : Selection (DupMem D ix p) (List ℕ) :=
  let r := pick mem.choose p.beamWidth p.beamWidth mem.list.pool mem.pageVisited
  { mem := { mem with list := mem.list.setPool r.pool, pageVisited := r.pageVisited }
    cached := r.cached
    frontier := r.frontier }

/-- A list is looked at if its node is a candidate that has not been expanded, or becomes one. -/
def pinned (mem : DupMem D ix p) (slot : ℕ) : Bool :=
  mem.loaded.any fun x => x.slot = slot &&
    (x.id ∉ mem.list.visited || mem.list.pool.any fun e => e.id = x.id && e.flag)

/-- The candidate at a place of the array. -/
def idAt (i : ℕ) (mem : DupMem D ix p) : ℕ := (mem.list.retset.getD i default).id

def lookUp (i : ℕ) (mem : DupMem D ix p) : Embedding :=
  let pid := mem.idAt i
  if pid ∈ mem.pageVisited then .skip
  else if ix.hasMemEmb pid then .cached pid
  else .page pid

def embeddingSearchL (mem : DupMem D ix p) : ℕ := max (p.embSearch mem.list.curListSize) p.kSearch

end DupMem

variable [LinearOrder D] [Zero D]

open DupMem in
def pageSearchDupGraph (ix : DecoIndex) (p : SearchParams D) :
    Search (DupMem D ix p) (List ℕ) (Query D ix p) where
  ioLimit := p.ioLimit
  mayDispatch nProcInQ := nProcInQ ≤ p.beamWidth / 2
  enter query :=
    { query
      list := .enter query
      pageVisited := []
      fullRetset := []
      loaded := [] }
  process
  expandCached nbrs mem :=
    { mem with list := mem.list.computeAndPushNbrs p.lSearch mem.query.pqDist nbrs }
  select
  pinned
  embeddingSearchL
  lookUp
  visitPage pid mem := { mem with pageVisited := pid :: mem.pageVisited }
  pushCached id mem := mem.computeExactDistsAndPush id id
  pushPage pid page mem := mem.computeExactDistsAndPush page pid

/-! ### Pointers -/

namespace DupMem

variable {ix : DecoIndex} {p : SearchParams D} {P : ℕ → Prop} {mem : DupMem D ix p}

/-- The list has no more than `l_search` candidates, and all pointers lead into buffers in `P`. -/
def Good (P : ℕ → Prop) (mem : DupMem D ix p) : Prop :=
  mem.list.curListSize ≤ p.lSearch ∧ ∀ x ∈ mem.loaded, P x.slot

omit [Zero D] in
theorem Good.load (h : Good P mem) {x : Loaded} (hx : P x.slot) : Good P (mem.load x) := by
  unfold DupMem.load
  split_ifs
  · exact h
  · refine ⟨h.1, fun y hy => ?_⟩
    obtain hy | hy := List.mem_append.1 hy
    · exact h.2 y hy
    · rw [List.mem_singleton.1 hy]
      exact hx

theorem pushNbrTarget_le {acc : SearchList D × List ℕ} (h : acc.1.curListSize ≤ p.lSearch)
    (id : ℕ) : (mem.pushNbrTarget acc id).1.curListSize ≤ p.lSearch := by
  obtain ⟨list, ids⟩ := acc
  have hle := SearchList.addToRetset_le h id (mem.query.pqDist id) true
  unfold pushNbrTarget
  dsimp only at hle ⊢
  generalize list.addToRetset p.lSearch id (mem.query.pqDist id) true = t at hle ⊢
  obtain ⟨list', r⟩ := t
  split_ifs
  · exact hle
  · exact hle

theorem Good.pushNbrsTargetUpdate (h : Good P mem) (nbrs : List ℕ) :
    Good P (mem.pushNbrsTargetUpdate nbrs) := by
  unfold DupMem.pushNbrsTargetUpdate
  generalize Cands.unseen nbrs mem.list.visited = u
  obtain ⟨cand, visited⟩ := u
  dsimp only
  have hfold : (cand.foldl mem.pushNbrTarget ({ mem.list with visited }, [])).1.curListSize ≤
      p.lSearch := by
    refine List.foldlRecOn (motive := fun t : SearchList D × List ℕ =>
      t.1.curListSize ≤ p.lSearch) cand _ h.1 ?_
    exact fun t ht id _ => pushNbrTarget_le ht id
  generalize cand.foldl mem.pushNbrTarget ({ mem.list with visited }, []) = t at hfold ⊢
  obtain ⟨list, expandNbIds⟩ := t
  refine ⟨?_, h.2⟩
  refine List.foldlRecOn (motive := fun t : SearchList D => t.curListSize ≤ p.lSearch)
    expandNbIds _ hfold ?_
  exact fun t ht id _ => SearchList.computeAndPushNbrs_le ht _ _

theorem Good.process {mem' : DupMem D ix p} (h : Good P mem) (fn : FrontierNode) {slot : ℕ}
    (hslot : P slot) (page : ℕ) (hok : mem.process fn slot page = .ok mem') : Good P mem' := by
  cases hok
  refine Good.pushNbrsTargetUpdate ?_ _
  refine List.foldlRecOn (motive := fun t : DupMem D ix p => Good P t) _ _ h ?_
  exact fun t ht id _ => ht.load hslot

omit [Zero D] in
theorem Good.of_pinned (h : Good P mem) {slot : ℕ} (hpin : mem.pinned slot = true) : P slot := by
  obtain ⟨x, hx, hand⟩ := List.any_eq_true.1 hpin
  rw [Bool.and_eq_true, decide_eq_true_iff] at hand
  exact hand.1 ▸ h.2 x hx

end DupMem

end DiskANNEval.Gorgeous
