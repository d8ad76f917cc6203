import DiskANNEval.Gorgeous.SearchList

/-!
# PageSearch — `page_search`

A page has vectors and lists of neighbours.  When a page has been read its other nodes are passed over if
they are not near enough to the last candidate; the rest gets exact distances, and is expanded.  A
vector is read after the traversal if the page has not been.
-/

namespace DiskANNEval.Gorgeous

open PipeANN (Neighbor)

variable {D : Type}

/-- What `vis_cand` has reserved. -/
def visCandReserved : ℕ := 20

/-- `leftOut` are the nodes passed over; the code does not keep them. -/
structure PageMem (D : Type) [LE D] (ix : DecoIndex) (p : SearchParams D) where
  query : Query D ix p
  list : SearchList D
  pageVisited : List ℕ
  exactVisited : List ℕ
  fullRetset : List (Neighbor D)
  leftOut : List ℕ

namespace PageMem

variable [LinearOrder D] [Zero D] {ix : DecoIndex} {p : SearchParams D}

/-- The vector of `node` is compared. -/
def computeExactDistsAndPush (node id : ℕ) (mem : PageMem D ix p) : PageMem D ix p :=
  { mem with
    fullRetset := mem.fullRetset ++ [.new id (mem.query.exactDist node) true]
    exactVisited := id :: mem.exactVisited }

/-- The test for the other nodes of a page. -/
def passesOver (fn : FrontierNode) (id : ℕ) (mem : PageMem D ix p) : Bool :=
  id ≠ fn.id && mem.list.worst fun last => p.pqFilter last ≤ mem.query.pqDist id

/-- A node that is not passed over. -/
def keep (node id : ℕ) (mem : PageMem D ix p) : PageMem D ix p :=
  let list : SearchList D :=
    if id ∈ mem.list.visited then mem.list
    else (SearchList.addToRetset p.lSearch id (mem.query.pqDist id) false
      { mem.list with visited := id :: mem.list.visited }).1
  { mem with list }.computeExactDistsAndPush node id

/-- Node `j` of a page, with the nodes put into `vis_cand`; `page` is in the buffer. -/
def visitNode (fn : FrontierNode) (page : ℕ) (acc : PageMem D ix p × List ℕ) (x : ℕ × ℕ) :
    Except Violation (PageMem D ix p × List ℕ) :=
  let (mem, visCand) := acc
  let (id, j) := x
  if mem.passesOver fn id then .ok ({ mem with leftOut := id :: mem.leftOut }, visCand)
  else if visCand.length = visCandReserved then .error .pastCandidates
  else
    let node := (ix.gpLayout page).getD j 0
    .ok (mem.keep node id, visCand ++ [node])

def expand (nbrs : List ℕ) (mem : PageMem D ix p) : PageMem D ix p :=
  { mem with list := mem.list.computeAndPushNbrs p.lSearch mem.query.pqDist nbrs }

def process (fn : FrontierNode) (_ page : ℕ) (mem : PageMem D ix p) :
    Except Violation (PageMem D ix p) := do
  let (mem, visCand) ← (ix.gpLayout fn.pid).zipIdx.foldlM (visitNode fn page) (mem, [])
  .ok (visCand.foldl (fun mem node => mem.expand (ix.nbrs node)) mem)

def choose (ix : DecoIndex) (id : ℕ) : Choice ℕ :=
  match ix.nodeInMemPos id with
  | some pos => .cached pos false
  | none => .page (ix.id2page id)

def select (mem : PageMem D ix p) : Selection (PageMem D ix p) ℕ :=
  let r := pick (choose ix) p.beamWidth p.beamWidth mem.list.pool mem.pageVisited
  { mem := { mem with list := mem.list.setPool r.pool, pageVisited := r.pageVisited }
    cached := r.cached
    frontier := r.frontier }

/-- The candidate at a place of the array. -/
def idAt (i : ℕ) (mem : PageMem D ix p) : ℕ := (mem.list.retset.getD i default).id

def lookUp (i : ℕ) (mem : PageMem D ix p) : Embedding :=
  let id := mem.idAt i
  if id ∈ mem.exactVisited ∨ ix.id2page id ∈ mem.pageVisited then .skip
  else if ix.hasMemEmb id then .cached id
  else .page (ix.id2page id)

/-- A page read for a vector: all nodes seen get their distances. -/
def pushPage (pid page : ℕ) (mem : PageMem D ix p) : PageMem D ix p :=
  (ix.gpLayout pid).zipIdx.foldl (fun mem (id, j) =>
    if id ∈ mem.list.visited then
      mem.computeExactDistsAndPush ((ix.gpLayout page).getD j 0) id
    else mem) mem

def embeddingSearchL (mem : PageMem D ix p) : ℕ := max (p.embSearch mem.list.curListSize) p.kSearch

end PageMem

variable [LinearOrder D] [Zero D]

open PageMem in
def pageSearch (ix : DecoIndex) (p : SearchParams D) :
    Search (PageMem D ix p) ℕ (Query D ix p) where
  ioLimit := p.ioLimit
  mayDispatch nProcInQ := nProcInQ < p.beamWidth / 2
  enter query :=
    { query
      list := .enter query
      pageVisited := []
      exactVisited := []
      fullRetset := []
      leftOut := [] }
  process
  expandCached pos mem := mem.expand (ix.memGraph pos)
  select
  pinned _ _ := false
  embeddingSearchL
  lookUp
  visitPage pid mem := { mem with pageVisited := pid :: mem.pageVisited }
  pushCached id mem := mem.computeExactDistsAndPush id id
  pushPage

/-! ### A page -/

namespace PageMem

variable {ix : DecoIndex} {p : SearchParams D}

theorem visitNode_cases {fn : FrontierNode} {page : ℕ} {acc acc' : PageMem D ix p × List ℕ}
    {x : ℕ × ℕ} (h : visitNode fn page acc x = .ok acc') :
    acc'.1 = { acc.1 with leftOut := x.1 :: acc.1.leftOut } ∨
      acc'.1 = acc.1.keep ((ix.gpLayout page).getD x.2 0) x.1 := by
  unfold visitNode at h
  dsimp only at h
  split_ifs at h with hpass hfull
  · exact .inl (Except.ok.inj h ▸ rfl)
  · exact .inr (Except.ok.inj h ▸ rfl)

theorem process_induct {fn : FrontierNode} {mem mem' : PageMem D ix p} {slot page : ℕ}
    {P : PageMem D ix p → Prop} (h : mem.process fn slot page = .ok mem')
    (hvisit : ∀ acc, (ix.gpLayout fn.pid).zipIdx.foldlM (visitNode fn page) (mem, []) = .ok acc →
      P acc.1)
    (hexpand : ∀ mem node, P mem → P (mem.expand (ix.nbrs node))) : P mem' := by
  unfold process at h
  cases hfold : (ix.gpLayout fn.pid).zipIdx.foldlM (visitNode fn page) (mem, []) with
  | error v =>
    rw [hfold] at h
    exact nomatch h
  | ok acc =>
    rw [hfold] at h
    have hacc := hvisit acc hfold
    obtain ⟨mem1, visCand⟩ := acc
    cases h
    exact List.foldlRecOn (motive := P) visCand _ hacc fun t ht node _ => hexpand t node ht

end PageMem

end DiskANNEval.Gorgeous
