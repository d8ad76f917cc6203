import DiskANNEval.Gorgeous.SearchBuffers
import DiskANNEval.Gorgeous.SeenList

/-!
# PageSearchComplete — which candidates of `page_search` get an exact distance

A page is read once, and each of its nodes is compared or passed over then.  After the traversal the
vectors of the first candidates are read, unless their page has been; so the candidates that are not
compared are those that were passed over.
-/

namespace DiskANNEval.Gorgeous

open Lib Search List
open PipeANN (Neighbor)

/-- Every point is on its page, once, and all ids are those of points. -/
structure DecoIndex.Laid (ix : DecoIndex) (numPoints : ℕ) : Prop where
  medoid_lt : ix.medoid < numPoints
  nodup : ∀ pid, (ix.gpLayout pid).Nodup
  id2page_eq : ∀ pid, ∀ id ∈ ix.gpLayout pid, ix.id2page id = pid
  gpLayout_lt : ∀ pid, ∀ id ∈ ix.gpLayout pid, id < numPoints
  mem_gpLayout : ∀ id < numPoints, id ∈ ix.gpLayout (ix.id2page id)
  nbrs_lt : ∀ id, ∀ x ∈ ix.nbrs id, x < numPoints
  memGraph_lt : ∀ pos, ∀ x ∈ ix.memGraph pos, x < numPoints

variable {D : Type} [LinearOrder D] [Zero D] {ix : DecoIndex} {p : SearchParams D}

namespace PageMem

variable {mem mem' : PageMem D ix p} {n : ℕ}

/-- The distances computed, and the nodes passed over. -/
structure Results (mem : PageMem D ix p) : Prop where
  compared : ∀ id ∈ mem.exactVisited,
    Neighbor.new id (mem.query.exactDist id) true ∈ mem.fullRetset
  ids : ∀ e ∈ mem.fullRetset, e.id ∈ mem.exactVisited
  apart : ∀ id ∈ mem.leftOut, id ∉ mem.exactVisited

variable {id : ℕ}

omit [Zero D] in
theorem Results.compare (h : mem.Results) (hid : id ∉ mem.leftOut) :
    (mem.computeExactDistsAndPush id id).Results where
  compared x hx := by
    obtain rfl | hx := mem_cons.1 hx
    · exact mem_append_right _ (mem_singleton_self _)
    · exact mem_append_left _ (h.compared x hx)
  ids e he := by
    obtain he | he := mem_append.1 he
    · exact mem_cons_of_mem _ (h.ids e he)
    · rw [mem_singleton.1 he]
      exact mem_cons_self
  apart x hx hmem := by
    obtain rfl | hmem := mem_cons.1 hmem
    · exact hid hx
    · exact h.apart x hx hmem

/-- All ids that have been seen are those of points, if those of the in-memory search are. -/
def InGraph (n : ℕ) (mem : PageMem D ix p) : Prop :=
  (∀ tag ∈ mem.query.memTags, tag < n) → ∀ x ∈ mem.list.visited, x < n

/-! ### A page -/

/-- Some nodes of a page: `ids` have been looked at since `mem`. -/
structure Visited (mem : PageMem D ix p) (ids : List ℕ) (mem' : PageMem D ix p) : Prop where
  seen : mem'.list.Seen p.lSearch
  results : mem'.Results
  query : mem'.query = mem.query
  pages : mem'.pageVisited = mem.pageVisited
  listed : ∀ x ∈ mem'.list.visited, x ∈ mem.list.visited ∨ x ∈ ids
  sorted : ∀ x, x ∈ mem'.exactVisited ∨ x ∈ mem'.leftOut ↔
    (x ∈ mem.exactVisited ∨ x ∈ mem.leftOut) ∨ x ∈ ids

omit [Zero D] in
theorem Visited.passOver {ids : List ℕ} (h : Visited mem ids mem') (hnew : id ∉ mem'.exactVisited) :
    Visited mem (id :: ids) { mem' with leftOut := id :: mem'.leftOut } where
  seen := h.seen
  results :=
    { compared := h.results.compared
      ids := h.results.ids
      apart := fun x hx => by
        obtain rfl | hx := mem_cons.1 hx
        · exact hnew
        · exact h.results.apart x hx }
  query := h.query
  pages := h.pages
  listed x hx := (h.listed x hx).imp_right (mem_cons_of_mem _)
  sorted x := by
    have hx := h.sorted x
    show x ∈ mem'.exactVisited ∨ x ∈ id :: mem'.leftOut ↔ _
    rw [mem_cons, mem_cons]
    tauto

theorem Visited.keep {ids : List ℕ} (h : Visited mem ids mem') (hnew : id ∉ mem'.leftOut) :
    Visited mem (id :: ids) (mem'.keep id id) := by
  set list : SearchList D :=
    if id ∈ mem'.list.visited then mem'.list
    else (SearchList.addToRetset p.lSearch id (mem'.query.pqDist id) false
      { mem'.list with visited := id :: mem'.list.visited }).1 with hlist
  have hseen : list.Seen p.lSearch ∧ ∀ x ∈ list.visited, x ∈ mem'.list.visited ∨ x = id := by
    rw [hlist]
    split_ifs with hmem
    · exact ⟨h.seen, fun x hx => .inl hx⟩
    · have hnot : id ∉ mem'.list.pool.map Neighbor.id := by
        intro hid
        obtain ⟨e, he, heq⟩ := mem_map.1 hid
        exact hmem (heq ▸ h.seen.mem e he)
      obtain ⟨h1, h2, -⟩ := (h.seen.see fun x hx => mem_cons_of_mem id hx).addToRetset hnot
        mem_cons_self (mem'.query.pqDist id) false
      refine ⟨h1, fun x hx => ?_⟩
      rw [h2] at hx
      exact (mem_cons.1 hx).symm
  have hres : ({ mem' with list } : PageMem D ix p).Results :=
    ⟨h.results.compared, h.results.ids, h.results.apart⟩
  refine ⟨hseen.1, hres.compare hnew, h.query, h.pages, fun x hx => ?_, fun x => ?_⟩
  · obtain hx | rfl := hseen.2 x hx
    · exact (h.listed x hx).imp_right (mem_cons_of_mem _)
    · exact .inr mem_cons_self
  · have hx := h.sorted x
    show x ∈ id :: mem'.exactVisited ∨ x ∈ mem'.leftOut ↔ _
    rw [mem_cons, mem_cons]
    tauto

theorem Visited.visitNodes {fn : FrontierNode} {page : ℕ} {ids : List ℕ} {xs : List (ℕ × ℕ)}
    {acc acc' : PageMem D ix p × List ℕ} (h : Visited mem ids acc.1)
    (hnode : ∀ x ∈ xs, (ix.gpLayout page).getD x.2 0 = x.1)
    (hnodup : (xs.map Prod.fst).Nodup)
    (hnew : ∀ x ∈ xs, ¬ (x.1 ∈ acc.1.exactVisited ∨ x.1 ∈ acc.1.leftOut))
    (hok : xs.foldlM (visitNode fn page) acc = .ok acc') :
    ∃ ids', Visited mem ids' acc'.1 ∧ ∀ x, x ∈ ids' ↔ x ∈ ids ∨ x ∈ xs.map Prod.fst := by
  induction xs generalizing acc ids with
  | nil =>
    cases hok
    exact ⟨ids, h, by simp⟩
  | cons x xs ih =>
    rw [foldlM_cons] at hok
    cases hone : visitNode fn page acc x with
    | error v =>
      rw [hone] at hok
      exact nomatch hok
    | ok acc1 =>
      rw [hone] at hok
      obtain ⟨hx, hnodup⟩ := nodup_cons.1 hnodup
      have hnewx := hnew x mem_cons_self
      rw [not_or] at hnewx
      have h1 : Visited mem (x.1 :: ids) acc1.1 := by
        obtain heq | heq := visitNode_cases hone
        · rw [heq]
          exact h.passOver hnewx.1
        · rw [heq, hnode x mem_cons_self]
          exact h.keep hnewx.2
      have hnew1 : ∀ y ∈ xs, ¬ (y.1 ∈ acc1.1.exactVisited ∨ y.1 ∈ acc1.1.leftOut) := by
        intro y hy
        have hne : y.1 ≠ x.1 := fun heq => hx (heq ▸ mem_map_of_mem hy)
        have hold := hnew y (mem_cons_of_mem x hy)
        rw [h.sorted] at hold
        rw [h1.sorted, mem_cons]
        tauto
      obtain ⟨ids', h2, hmem⟩ :=
        ih h1 (fun y hy => hnode y (mem_cons_of_mem x hy)) hnodup hnew1 hok
      refine ⟨ids', h2, fun y => ?_⟩
      rw [hmem, mem_cons, map_cons, mem_cons]
      tauto

/-! ### The traversal -/

/-- The pages `fns` have been read or are in flight, but have not been processed. -/
structure Good (n : ℕ) (fns : List FrontierNode) (mem : PageMem D ix p) : Prop where
  seen : mem.list.Seen p.lSearch
  inGraph : InGraph n mem
  results : mem.Results
  covered : ∀ pid ∈ mem.pageVisited, pid ∈ fns.map FrontierNode.pid ∨
    ∀ id ∈ ix.gpLayout pid, id ∈ mem.exactVisited ∨ id ∈ mem.leftOut
  waiting : ∀ pid ∈ fns.map FrontierNode.pid, pid ∈ mem.pageVisited
  nodup : (fns.map FrontierNode.pid).Nodup
  read : ∀ id, id ∈ mem.exactVisited ∨ id ∈ mem.leftOut →
    ix.id2page id ∈ mem.pageVisited ∧ ix.id2page id ∉ fns.map FrontierNode.pid

variable {fns : List FrontierNode}

theorem Good.expand (h : Good n fns mem) {nbrs : List ℕ} (hlt : ∀ x ∈ nbrs, x < n) :
    Good n fns (mem.expand nbrs) := by
  obtain ⟨hseen, hvis⟩ := h.seen.computeAndPushNbrs mem.query.pqDist nbrs
  refine ⟨hseen, fun htags x hx => ?_, ⟨h.results.compared, h.results.ids, h.results.apart⟩,
    h.covered, h.waiting, h.nodup, h.read⟩
  obtain hx | hx := hvis x hx
  · exact h.inGraph htags x hx
  · exact hlt x hx

theorem Good.process (hix : ix.Laid n) {fn : FrontierNode} (slot : ℕ) (h : Good n (fn :: fns) mem)
    (hok : mem.process fn slot fn.pid = .ok mem') : Good n fns mem' := by
  refine process_induct hok (fun acc hacc => ?_) fun _ node ht => ht.expand (hix.nbrs_lt node)
  have hnodup := h.nodup
  rw [map_cons, nodup_cons] at hnodup
  have hstart : Visited mem [] (mem, ([] : List ℕ)).1 :=
    ⟨h.seen, h.results, rfl, rfl, fun x hx => .inl hx, fun x => by simp⟩
  have hids : (ix.gpLayout fn.pid).zipIdx.map Prod.fst = ix.gpLayout fn.pid :=
    zipIdx_map_fst ..
  have hnode : ∀ x ∈ (ix.gpLayout fn.pid).zipIdx, (ix.gpLayout fn.pid).getD x.2 0 = x.1 := by
    intro x hx
    rw [getD_eq_getElem?_getD, mem_zipIdx_iff_getElem?.1 hx]
    rfl
  have hnew : ∀ x ∈ (ix.gpLayout fn.pid).zipIdx,
      ¬ (x.1 ∈ mem.exactVisited ∨ x.1 ∈ mem.leftOut) := by
    intro x hx hmem
    have hxp : x.1 ∈ ix.gpLayout fn.pid := by
      rw [← hids]
      exact mem_map_of_mem hx
    refine (h.read x.1 hmem).2 ?_
    rw [hix.id2page_eq _ _ hxp]
    exact mem_cons_self
  obtain ⟨ids, hvis, hmem⟩ := hstart.visitNodes hnode
    (by rw [hids]; exact hix.nodup fn.pid) hnew hacc
  have hmem' : ∀ x, x ∈ ids ↔ x ∈ ix.gpLayout fn.pid := by
    intro x
    rw [hmem]
    simp
  refine ⟨hvis.seen, ?_, hvis.results, ?_, ?_, hnodup.2, ?_⟩
  · intro htags x hx
    rw [hvis.query] at htags
    obtain hx | hx := hvis.listed x hx
    · exact h.inGraph htags x hx
    · exact hix.gpLayout_lt _ _ ((hmem' x).1 hx)
  · intro pid hpid
    rw [hvis.pages] at hpid
    by_cases heq : pid = fn.pid
    · subst heq
      refine .inr fun id hid => ?_
      rw [hvis.sorted, hmem']
      exact .inr hid
    · obtain hw | hc := h.covered pid hpid
      · exact .inl ((mem_cons.1 hw).resolve_left heq)
      · refine .inr fun id hid => ?_
        rw [hvis.sorted]
        exact .inl (hc id hid)
  · intro pid hpid
    rw [hvis.pages]
    exact h.waiting pid (mem_cons_of_mem _ hpid)
  · intro id hid
    rw [hvis.sorted, hmem'] at hid
    rw [hvis.pages]
    obtain hid | hid := hid
    · obtain ⟨h1, h2⟩ := h.read id hid
      exact ⟨h1, fun hw => h2 (mem_cons_of_mem _ hw)⟩
    · rw [hix.id2page_eq _ _ hid]
      exact ⟨h.waiting _ mem_cons_self, hnodup.1⟩

omit [Zero D] in
theorem Good.select (h : Good n fns mem) : Good n (fns ++ mem.select.frontier) mem.select.mem := by
  obtain ⟨hids, hpages, hnodup, hfresh⟩ := pick_spec (choose ix) p.beamWidth p.beamWidth
    mem.list.pool mem.pageVisited
  unfold PageMem.select
  generalize pick (choose ix) p.beamWidth p.beamWidth mem.list.pool mem.pageVisited = r
    at hids hpages hnodup hfresh
  have hold : ∀ pid ∈ fns.map FrontierNode.pid, pid ∉ r.frontier.map FrontierNode.pid :=
    fun pid hpid hnew => hfresh pid hnew (h.waiting pid hpid)
  refine ⟨h.seen.setPool hids, h.inGraph,
    ⟨h.results.compared, h.results.ids, h.results.apart⟩, ?_, ?_, ?_, ?_⟩
  · intro pid hpid
    rw [map_append, mem_append]
    obtain hpid | hpid := (hpages pid).1 hpid
    · exact (h.covered pid hpid).imp_left .inl
    · exact .inl (.inr hpid)
  · intro pid hpid
    rw [map_append, mem_append] at hpid
    exact (hpages pid).2 (hpid.imp_left (h.waiting pid))
  · rw [map_append]
    exact h.nodup.append hnodup hold
  · intro id hid
    obtain ⟨h1, h2⟩ := h.read id hid
    refine ⟨(hpages _).2 (.inl h1), ?_⟩
    rw [map_append, mem_append]
    rintro (hw | hw)
    · exact h2 hw
    · exact hfresh _ hw h1

/-! ### The vectors -/

/-- `i` candidates have been looked at; the pages `pids` are being read, and the vectors `ids` are in
memory. -/
structure Fetching (n : ℕ) (pids ids : List ℕ) (i : ℕ) (mem : PageMem D ix p) : Prop where
  seen : mem.list.Seen p.lSearch
  inGraph : InGraph n mem
  results : mem.Results
  covered : ∀ pid ∈ mem.pageVisited, pid ∈ pids ∨
    ∀ id ∈ ix.gpLayout pid, id ∈ mem.list.visited → id ∈ mem.exactVisited ∨ id ∈ mem.leftOut
  out : ∀ id ∈ mem.leftOut, ix.id2page id ∈ mem.pageVisited ∧ ix.id2page id ∉ pids ∧ id ∉ ids
  looked : ∀ j < i, mem.idAt j ∈ mem.exactVisited ∨ mem.idAt j ∈ ids ∨
    ix.id2page (mem.idAt j) ∈ mem.pageVisited

theorem Good.fetching (h : Good n [] mem) : Fetching n [] [] 0 mem where
  seen := h.seen
  inGraph := h.inGraph
  results := h.results
  covered pid hpid := (h.covered pid hpid).imp_right fun hc id hid _ => hc id hid
  out id hid := ⟨(h.read id (.inr hid)).1, not_mem_nil, not_mem_nil⟩
  looked j hj := absurd hj (Nat.not_lt_zero j)

variable {pids ids : List ℕ} {i : ℕ}

theorem Fetching.lookUp (h : Fetching n pids ids i mem) :
    match mem.lookUp i with
    | .skip => Fetching n pids ids (i + 1) mem
    | .cached id => Fetching n pids (ids ++ [id]) (i + 1) mem
    | .page pid => Fetching n (pids ++ [pid]) ids (i + 1)
        { mem with pageVisited := pid :: mem.pageVisited } := by
  unfold PageMem.lookUp
  dsimp only
  split_ifs with hskip hemb
  · refine { h with looked := fun j hj => ?_ }
    obtain hj | rfl := Nat.lt_succ_iff_lt_or_eq.1 hj
    · exact h.looked j hj
    · exact hskip.imp_right .inr
  · rw [not_or] at hskip
    refine { h with out := fun id hid => ?_, looked := fun j hj => ?_ }
    · obtain ⟨h1, h2, h3⟩ := h.out id hid
      refine ⟨h1, h2, fun hmem => ?_⟩
      obtain hmem | hmem := mem_append.1 hmem
      · exact h3 hmem
      · rw [mem_singleton.1 hmem] at h1
        exact hskip.2 h1
    · obtain hj | rfl := Nat.lt_succ_iff_lt_or_eq.1 hj
      · exact (h.looked j hj).imp_right (.imp_left (mem_append_left _))
      · exact .inr (.inl (mem_append_right _ (mem_singleton_self _)))
  · rw [not_or] at hskip
    refine ⟨h.seen, h.inGraph, ⟨h.results.compared, h.results.ids, h.results.apart⟩, ?_, ?_, ?_⟩
    · intro pid hpid
      obtain rfl | hpid := mem_cons.1 hpid
      · exact .inl (mem_append_right _ (mem_singleton_self _))
      · exact (h.covered pid hpid).imp_left (mem_append_left _)
    · intro id hid
      obtain ⟨h1, h2, h3⟩ := h.out id hid
      refine ⟨mem_cons_of_mem _ h1, fun hmem => ?_, h3⟩
      obtain hmem | hmem := mem_append.1 hmem
      · exact h2 hmem
      · rw [mem_singleton.1 hmem] at h1
        exact hskip.2 h1
    · intro j hj
      obtain hj | rfl := Nat.lt_succ_iff_lt_or_eq.1 hj
      · exact (h.looked j hj).imp_right (.imp_right (mem_cons_of_mem _))
      · exact .inr (.inr mem_cons_self)

theorem Fetching.pushCached (h : Fetching n pids (id :: ids) i mem) :
    Fetching n pids ids i (mem.computeExactDistsAndPush id id) where
  seen := h.seen
  inGraph := h.inGraph
  results := h.results.compare fun hid => (h.out id hid).2.2 mem_cons_self
  covered pid hpid := (h.covered pid hpid).imp_right fun hc x hx hv =>
    (hc x hx hv).imp_left (mem_cons_of_mem _)
  out x hx := by
    obtain ⟨h1, h2, h3⟩ := h.out x hx
    exact ⟨h1, h2, fun hmem => h3 (mem_cons_of_mem _ hmem)⟩
  looked j hj := by
    obtain hj | hj | hj := h.looked j hj
    · exact .inl (mem_cons_of_mem _ hj)
    · obtain hj | hj := mem_cons.1 hj
      · exact .inl (mem_cons.2 (.inl hj))
      · exact .inr (.inl hj)
    · exact .inr (.inr hj)

omit [Zero D] in
theorem pushNodes_spec {page : ℕ} {xs : List (ℕ × ℕ)} (h : mem.Results)
    (hnode : ∀ x ∈ xs, (ix.gpLayout page).getD x.2 0 = x.1) (hout : ∀ x ∈ xs, x.1 ∉ mem.leftOut) :
    ∃ full exact, xs.foldl (fun mem (id, j) =>
        if id ∈ mem.list.visited then
          mem.computeExactDistsAndPush ((ix.gpLayout page).getD j 0) id
        else mem) mem = { mem with fullRetset := full, exactVisited := exact } ∧
      ({ mem with fullRetset := full, exactVisited := exact } : PageMem D ix p).Results ∧
      ∀ x, x ∈ exact ↔ x ∈ mem.exactVisited ∨ x ∈ xs.map Prod.fst ∧ x ∈ mem.list.visited := by
  induction xs generalizing mem with
  | nil => exact ⟨_, _, rfl, h, by simp⟩
  | cons x xs ih =>
    obtain ⟨id, j⟩ := x
    have hnode' : ∀ x ∈ xs, (ix.gpLayout page).getD x.2 0 = x.1 :=
      fun x hx => hnode x (mem_cons_of_mem _ hx)
    have hout' : ∀ x ∈ xs, x.1 ∉ mem.leftOut := fun x hx => hout x (mem_cons_of_mem _ hx)
    rw [foldl_cons]
    dsimp only
    split_ifs with hvis
    · have hid : (ix.gpLayout page).getD j 0 = id := hnode (id, j) mem_cons_self
      rw [hid]
      have hone := h.compare (hout (id, j) mem_cons_self)
      obtain ⟨full, exact', heq, hres, hmem⟩ := ih hone hnode' hout'
      refine ⟨full, exact', heq, hres, fun x => ?_⟩
      rw [hmem]
      show x ∈ id :: mem.exactVisited ∨ x ∈ xs.map Prod.fst ∧ x ∈ mem.list.visited ↔ _
      rw [map_cons, mem_cons, mem_cons]
      constructor
      · rintro ((rfl | hx) | hx)
        · exact .inr ⟨.inl rfl, hvis⟩
        · exact .inl hx
        · exact .inr ⟨.inr hx.1, hx.2⟩
      · rintro (hx | ⟨rfl | hx, hv⟩)
        · exact .inl (.inr hx)
        · exact .inl (.inl rfl)
        · exact .inr ⟨hx, hv⟩
    · obtain ⟨full, exact', heq, hres, hmem⟩ := ih h hnode' hout'
      refine ⟨full, exact', heq, hres, fun x => ?_⟩
      rw [hmem, map_cons, mem_cons]
      constructor
      · rintro (hx | hx)
        · exact .inl hx
        · exact .inr ⟨.inr hx.1, hx.2⟩
      · rintro (hx | ⟨rfl | hx, hv⟩)
        · exact .inl hx
        · exact absurd hv hvis
        · exact .inr ⟨hx, hv⟩

theorem Fetching.pushPage (hix : ix.Laid n) {pid : ℕ} {pids' : List ℕ}
    (h : Fetching n pids ids i mem) (hperm : pids.Perm (pid :: pids')) :
    Fetching n pids' ids i (mem.pushPage pid pid) := by
  have hids : (ix.gpLayout pid).zipIdx.map Prod.fst = ix.gpLayout pid := zipIdx_map_fst ..
  have hnode : ∀ x ∈ (ix.gpLayout pid).zipIdx, (ix.gpLayout pid).getD x.2 0 = x.1 := by
    intro x hx
    rw [getD_eq_getElem?_getD, mem_zipIdx_iff_getElem?.1 hx]
    rfl
  have hpid : pid ∈ pids := hperm.mem_iff.2 mem_cons_self
  have hout : ∀ x ∈ (ix.gpLayout pid).zipIdx, x.1 ∉ mem.leftOut := by
    intro x hx hmem
    have hxp : x.1 ∈ ix.gpLayout pid := by
      rw [← hids]
      exact mem_map_of_mem hx
    refine (h.out x.1 hmem).2.1 ?_
    rw [hix.id2page_eq _ _ hxp]
    exact hpid
  obtain ⟨full, exact', heq, hres, hmem⟩ := pushNodes_spec h.results hnode hout
  unfold PageMem.pushPage
  rw [heq]
  rw [hids] at hmem
  refine ⟨h.seen, h.inGraph, hres, ?_, ?_, ?_⟩
  · intro pid' hpid'
    obtain hw | hc := h.covered pid' hpid'
    · obtain rfl | hw := mem_cons.1 (hperm.mem_iff.1 hw)
      · exact .inr fun id hid hv => .inl ((hmem id).2 (.inr ⟨hid, hv⟩))
      · exact .inl hw
    · exact .inr fun id hid hv => (hc id hid hv).imp_left fun hx => (hmem id).2 (.inl hx)
  · intro id hid
    obtain ⟨h1, h2, h3⟩ := h.out id hid
    exact ⟨h1, fun hw => h2 (hperm.mem_iff.2 (mem_cons_of_mem _ hw)), h3⟩
  · intro j hj
    exact (h.looked j hj).imp_left fun hx => (hmem _).2 (.inl hx)

/-! ### Complete searches -/

/-- The first candidates, up to `embedding_search_L`, are in the list and have their distances. -/
def Complete (mem : PageMem D ix p) : Prop :=
  ∀ i < mem.embeddingSearchL, i < mem.list.curListSize ∧
    Neighbor.new (mem.idAt i) (mem.query.exactDist (mem.idAt i)) true ∈ mem.fullRetset

theorem Fetching.complete_iff (hix : ix.Laid n) (h : Fetching n [] [] i mem)
    (hi : mem.embeddingSearchL ≤ i) (htags : ∀ tag ∈ mem.query.memTags, tag < n) :
    Complete mem ↔ mem.embeddingSearchL ≤ mem.list.curListSize ∧
      ∀ j < mem.embeddingSearchL, mem.idAt j ∉ mem.leftOut := by
  constructor
  · intro hc
    refine ⟨Nat.le_of_not_lt fun hlt => Nat.lt_irrefl _ (hc _ hlt).1, fun j hj hout => ?_⟩
    have hid : mem.idAt j ∈ mem.exactVisited :=
      h.results.ids (.new (mem.idAt j) _ true) (hc j hj).2
    exact h.results.apart _ hout hid
  · rintro ⟨hle, hout⟩ j hj
    have hcur : j < mem.list.curListSize := Nat.lt_of_lt_of_le hj hle
    refine ⟨hcur, h.results.compared _ ?_⟩
    obtain hx | hx | hx := h.looked j (Nat.lt_of_lt_of_le hj hi)
    · exact hx
    · exact absurd hx not_mem_nil
    · have hlen : j < mem.list.retset.length :=
        Nat.lt_trans hcur (Nat.lt_of_le_of_lt h.seen.le h.seen.room)
      have hpool : mem.list.retset.getD j default ∈ mem.list.pool := by
        rw [getD_eq_getElem _ _ hlen]
        exact mem_take_iff_getElem.2 ⟨j, Nat.lt_min.2 ⟨hcur, hlen⟩, rfl⟩
      have hvis : mem.idAt j ∈ mem.list.visited := h.seen.mem _ hpool
      have hpage := hix.mem_gpLayout _ (h.inGraph htags _ hvis)
      obtain hw | hc := h.covered _ hx
      · exact absurd hw not_mem_nil
      · exact (hc _ hpage hvis).resolve_right (hout j hj)

end PageMem

theorem pageSearch_keeps_results {n : ℕ} (hix : ix.Laid n) : (pageSearch ix p).Keeps p.beamWidth
    (fun _ fns mem => PageMem.Good n fns mem) (PageMem.Fetching n) where
  enter _ q := by
    refine ⟨SearchList.seen_enter q, fun htags x hx => ?_, ⟨?_, ?_, ?_⟩, ?_, ?_, nodup_nil, ?_⟩
    · obtain ⟨e, he, rfl⟩ := mem_map.1 hx
      obtain ⟨id, hid, rfl⟩ := mem_map.1 (q.first_perm.mem_iff.1 he)
      split_ifs at hid
      · rw [mem_singleton.1 hid]
        exact hix.medoid_lt
      · exact htags _ (mem_of_mem_take hid)
    all_goals simp [pageSearch]
  mono _ _ _ _ mem h _ hperm := by
    have hpids := hperm.map FrontierNode.pid
    refine ⟨h.seen, h.inGraph, h.results, fun pid hpid => ?_, fun pid hpid => ?_,
      hpids.nodup_iff.1 h.nodup, fun id hid => ?_⟩
    · exact (h.covered pid hpid).imp_left hpids.mem_iff.1
    · exact h.waiting pid (hpids.mem_iff.2 hpid)
    · obtain ⟨h1, h2⟩ := h.read id hid
      exact ⟨h1, fun hw => h2 (hpids.mem_iff.2 hw)⟩
  process _ _ _ slot _ _ h _ hok := h.process hix slot hok
  expandCached _ _ pos _ h := h.expand (hix.memGraph_lt pos)
  select _ _ _ h := h.select
  frontier_le _ _ mem _ := pick_frontier_le (PageMem.choose ix) p.beamWidth p.beamWidth mem.list.pool
    mem.pageVisited
  rest _ _ h := h.fetching
  lookUp _ _ _ _ h := h.lookUp
  pushCached _ _ _ _ _ h := h.pushCached
  pushPage _ _ _ _ _ _ h hperm := h.pushPage hix hperm

/-- After a query that the I/O limit has not cut off, the results are complete if no candidate of the
first `embedding_search_L` has been passed over, and the list has that many. -/
theorem pageSearch_complete_iff {n : ℕ} (hix : ix.Laid n) {s : State (PageMem D ix p) ℕ}
    (hs : Reach (pageSearch ix p).Init
      (guarded (fun s _ => (pageSearch ix p).Clean s) (ofFn (pageSearch ix p).next)) s)
    (hphase : s.phase = .returned) (htags : ∀ tag ∈ s.mem.query.memTags, tag < n) :
    PageMem.Complete s.mem ↔ s.mem.embeddingSearchL ≤ s.mem.list.curListSize ∧
      ∀ i < s.mem.embeddingSearchL, s.mem.idAt i ∉ s.mem.leftOut := by
  have hinv := (pageSearch_keeps_results hix).reach (fun _ _ h => h) hs
  rw [Search.Inv, hphase] at hinv
  obtain ⟨-, -, i, hi, hfetch⟩ := hinv
  exact hfetch.complete_iff hix hi htags

/-! ### Two nodes -/

/-- Node 1 is the neighbour of node 0, on the same page or on the next one. -/
def twoNodes (together : Bool) : DecoIndex where
  medoid := 0
  gpLayout pid :=
    if together then if pid = 0 then [0, 1] else []
    else if pid < 2 then [pid] else []
  id2page id := if together then 0 else id
  replica pid := [pid]
  nbrs id := if id = 0 then [1] else []
  nodeInMemPos _ := none
  memGraph _ := []
  hasMemEmb _ := false

theorem listOfFour_pos : 0 < 4 := Nat.succ_pos 3

theorem beamOfTwo_le : 2 ≤ maxNSectorReads := by decide

def twoParams : SearchParams ℕ where
  kSearch := 1
  lSearch := 4
  lSearch_pos := listOfFour_pos
  beamWidth := 2
  beam_le := beamOfTwo_le
  ioLimit := 10
  pqFilter d := d
  embSearch n := n

theorem twoQuery_perm (together : Bool) : [Neighbor.new 0 5 true].Perm
    ((if ([] : List ℕ) = [] then [(twoNodes together).medoid]
      else ([] : List ℕ).take twoParams.lSearch).map fun id => .new id (5 * (id + 1)) true) :=
  .refl _

theorem twoQuery_sorted : [Neighbor.new 0 5 true].Pairwise fun a b => a.distance ≤ b.distance :=
  pairwise_singleton _ _

/-- A query near node 0. -/
def twoQuery (together : Bool) : Query ℕ (twoNodes together) twoParams where
  pqDist id := 5 * (id + 1)
  exactDist id := 5 * (id + 1)
  memTags := []
  first := [.new 0 5 true]
  first_perm := twoQuery_perm together
  first_sorted := twoQuery_sorted

def twoSearch (together : Bool) : Search (PageMem ℕ (twoNodes together) twoParams) ℕ
    (Query ℕ (twoNodes together) twoParams) := pageSearch _ _

def twoStart (together : Bool) : State (PageMem ℕ (twoNodes together) twoParams) ℕ :=
  firstState (twoSearch together) (twoQuery together) 0

/-- All reads have finished when they are asked for. -/
def twoActs (together : Bool) (steps : ℕ) : List (Act (Query ℕ (twoNodes together) twoParams)) :=
  List.replicate steps ⟨[0, 1], twoQuery together⟩

instance (together : Bool) (s : State (PageMem ℕ (twoNodes together) twoParams) ℕ) :
    Decidable ((twoSearch together).Clean s) := inferInstanceAs (Decidable (_ → _))

/-- What has been found after some steps. -/
structure Found where
  phase : Phase
  full : List ℕ
  embL : ℕ
  cur : ℕ
  leftOut : List ℕ
  second : ℕ
  tags : List ℕ
  deriving DecidableEq

def found {together : Bool} (s : State (PageMem ℕ (twoNodes together) twoParams) ℕ) : Found where
  phase := s.phase
  full := s.mem.fullRetset.map Neighbor.id
  embL := s.mem.embeddingSearchL
  cur := s.mem.list.curListSize
  leftOut := s.mem.leftOut
  second := s.mem.idAt 1
  tags := s.mem.query.memTags

def twoFound (together : Bool) (steps : ℕ) : Option Found :=
  (runsGuarded (fun s _ => (twoSearch together).Clean s) (twoSearch together).next
    (twoStart together) (twoActs together steps)).map found

theorem exists_found {together : Bool} {steps : ℕ} {r : Found}
    (h : twoFound together steps = some r) : ∃ s, Reach (twoSearch together).Init
      (guarded (fun s _ => (twoSearch together).Clean s) (ofFn (twoSearch together).next)) s ∧
      found s = r := by
  obtain ⟨s, hs, heq⟩ := Option.map_eq_some_iff.1 h
  exact ⟨s, reach_of_runsGuarded (firstState_init _ _ _) hs, heq⟩

theorem twoNodes_laid : (twoNodes false).Laid 2 where
  medoid_lt := Nat.two_pos
  nodup pid := by
    show (if pid < 2 then [pid] else []).Nodup
    split_ifs
    · exact nodup_singleton pid
    · exact nodup_nil
  id2page_eq pid id hid := by
    change id ∈ if pid < 2 then [pid] else [] at hid
    split_ifs at hid
    · exact mem_singleton.1 hid
    · exact absurd hid not_mem_nil
  gpLayout_lt pid id hid := by
    change id ∈ if pid < 2 then [pid] else [] at hid
    split_ifs at hid with hlt
    · exact mem_singleton.1 hid ▸ hlt
    · exact absurd hid not_mem_nil
  mem_gpLayout id hid := by
    show id ∈ if id < 2 then [id] else []
    rw [if_pos hid]
    exact mem_singleton_self id
  nbrs_lt id x hx := by
    change x ∈ if id = 0 then [1] else [] at hx
    split_ifs at hx
    · rw [mem_singleton.1 hx]
      exact Nat.one_lt_two
    · exact absurd hx not_mem_nil
  memGraph_lt _ _ hx := absurd hx not_mem_nil

/-- Each node has a page of its own. -/
theorem twoNodes_complete : ∃ s : State (PageMem ℕ (twoNodes false) twoParams) ℕ,
    s.phase = .returned ∧ s.mem.embeddingSearchL = 2 ∧ PageMem.Complete s.mem := by
  have hfound : twoFound false 23 = some ⟨.returned, [0, 1], 2, 2, [], 1, []⟩ := by decide +kernel
  obtain ⟨s, hs, heq⟩ := exists_found hfound
  have hphase : s.phase = .returned := congrArg Found.phase heq
  have hemb : s.mem.embeddingSearchL = 2 := congrArg Found.embL heq
  have hcur : s.mem.list.curListSize = 2 := congrArg Found.cur heq
  have hout : s.mem.leftOut = [] := congrArg Found.leftOut heq
  have htags : s.mem.query.memTags = [] := congrArg Found.tags heq
  refine ⟨s, hphase, hemb, (pageSearch_complete_iff twoNodes_laid hs hphase ?_).2 ⟨?_, ?_⟩⟩
  · rw [htags]
    exact fun tag htag => absurd htag List.not_mem_nil
  · rw [hemb, hcur]
  · rw [hout]
    exact fun i _ => List.not_mem_nil

/-- Node 1 is passed over when the page is processed, before it is a candidate. -/
theorem twoNodes_not_complete : ∃ s : State (PageMem ℕ (twoNodes true) twoParams) ℕ,
    Reach (twoSearch true).Init (ofFn (twoSearch true).next) s ∧ s.phase = .returned ∧
      s.mem.embeddingSearchL = 2 ∧ s.mem.list.curListSize = 2 ∧ ¬ PageMem.Complete s.mem := by
  have hfound : twoFound true 15 = some ⟨.returned, [0], 2, 2, [1], 1, []⟩ := by decide +kernel
  obtain ⟨s, hs, heq⟩ := exists_found hfound
  have hfull : s.mem.fullRetset.map Neighbor.id = [0] := congrArg Found.full heq
  have hemb : s.mem.embeddingSearchL = 2 := congrArg Found.embL heq
  have hid : s.mem.idAt 1 = 1 := congrArg Found.second heq
  refine ⟨s, hs.of_guarded, congrArg Found.phase heq, hemb, congrArg Found.cur heq, fun hc => ?_⟩
  obtain ⟨-, hmem⟩ := hc 1 (hemb ▸ Nat.one_lt_two)
  rw [hid] at hmem
  have hone : 1 ∈ s.mem.fullRetset.map Neighbor.id := List.mem_map.2 ⟨_, hmem, rfl⟩
  rw [hfull] at hone
  exact absurd (List.mem_singleton.1 hone) (Nat.succ_ne_zero 0)

end DiskANNEval.Gorgeous
