import DiskANNEval.AiSAQ.BeamOffers
import DiskANNEval.AiSAQ.BeamResult

/-!
# BeamAgree — `aisaq_cached_beam_search` with beam widths of one does what `cached_beam_search` does

A turn of either expands the first candidate of its queue.  The neighbours are put into the queue in
another order, which does not matter when the distances are ordered (`Sorted.ids_eq`); so the frames
after each turn agree.
-/

namespace DiskANNEval.AiSAQ.BeamLoop

open Lib PriorityQueue List Option

variable {C P D : Type} {fl : FloatOps D} {ix : BeamIndex C P} {q : BeamQuery C P D}
  {pool₀ : List ℕ} {f f' : BeamFrame D} {g g' : CachedFrame D}

/-- The distance of an id in the queue. -/
def queueDist (ix : BeamIndex C P) (q : BeamQuery C P D) : ℕ → D :=
  Function.update (fun id => q.pqDist (ix.pqVector id)) q.entry q.entryDist

/-- The queue has the closest of the ids that have been put into it. -/
def Sorted (fl : FloatOps D) (ix : BeamIndex C P) (q : BeamQuery C P D) (visited : List ℕ)
    (retset : PriorityQueue D) : Prop :=
  ∃ ins out, (∀ id, id ∈ ins ↔ Put q visited id) ∧
    Holds fl (queueDist ix q) q.lSearch ins out retset

variable {S : D → Prop} {visited visited' : List ℕ} {retset retset' : PriorityQueue D}

theorem Sorted.ids_eq (h : Sorted fl ix q visited retset) (h' : Sorted fl ix q visited' retset')
    (hfl : fl.OrderedOn S) (hdist : ∀ id, S (queueDist ix q id))
    (hvisited : ∀ id, id ∈ visited ↔ id ∈ visited') : retset.ids = retset'.ids := by
  obtain ⟨ins, out, hins, hholds⟩ := h
  obtain ⟨ins', out', hins', hholds'⟩ := h'
  refine (hholds.best.congr fun id => ?_).unique hholds'.best (before_irrefl hfl hdist)
    (before_trans hfl hdist)
  rw [hins, hins', Put, Put, hvisited]

theorem Sorted.distance (h : Sorted fl ix q visited retset) :
    ∀ n ∈ retset.held, n.distance = queueDist ix q n.id := by
  obtain ⟨ins, out, -, hholds⟩ := h
  exact hholds.distance

theorem Sorted.closestUnexpanded (h : Sorted fl ix q visited retset) (hfl : fl.OrderedOn S)
    (hdist : ∀ id, S (queueDist ix q id)) :
    Sorted fl ix q visited retset.closestUnexpanded.1 := by
  obtain ⟨ins, out, hins, hholds⟩ := h
  exact ⟨ins, _, hins, hholds.handOut (before_irrefl hfl hdist)⟩

theorem Sorted.congr (h : Sorted fl ix q visited retset)
    (hput : ∀ id, Put q visited id ↔ Put q visited' id) : Sorted fl ix q visited' retset := by
  obtain ⟨ins, out, hins, hholds⟩ := h
  exact ⟨ins, out, fun id => (hins id).trans (hput id), hholds⟩

theorem holds_insertAll {dist : ℕ → D} {L : ℕ} {ins out : List ℕ} (hfl : fl.OrderedOn S)
    (hdist : ∀ id, S (dist id)) (hL : 0 < L) (h : Holds fl dist L ins out retset) (free : List ℕ)
    {l : List (ℕ × D)} (hl : ∀ c ∈ l, c.2 = dist c.1) :
    ∃ ins', (∀ id, id ∈ ins' ↔ id ∈ ins ∨ id ∈ l.map Prod.fst) ∧
      Holds fl dist L ins' out (insertAll fl retset free l).1 := by
  induction l generalizing retset free ins with
  | nil =>
    refine ⟨ins, fun id => ?_, h⟩
    exact ⟨Or.inl, fun hor => hor.resolve_right not_mem_nil⟩
  | cons c l ih =>
    rw [forall_mem_cons] at hl
    obtain ⟨ins', hins', h'⟩ := ih
      (h.insertWithRemInfo hfl hdist hL (show (Neighbor.new c.1 c.2).distance = _ from hl.1)).1 _ hl.2
    refine ⟨ins', fun id => ?_, h'⟩
    rw [hins', map_cons, mem_cons, mem_cons]
    tauto

theorem Sorted.insertAll (h : Sorted fl ix q visited retset) (hfl : fl.OrderedOn S)
    (hdist : ∀ id, S (queueDist ix q id)) (free : List ℕ) {l : List (ℕ × D)}
    (hl : ∀ c ∈ l, c.2 = queueDist ix q c.1)
    (hput : ∀ id, Put q visited' id ↔ Put q visited id ∨ id ∈ l.map Prod.fst) :
    Sorted fl ix q visited' (insertAll fl retset free l).1 := by
  obtain ⟨ins, out, hins, hholds⟩ := h
  obtain ⟨ins', hins', hholds'⟩ := holds_insertAll hfl hdist q.lSearch_pos hholds free hl
  refine ⟨ins', out, fun id => ?_, hholds'⟩
  rw [hins', hput, hins]

theorem Sorted.offerNbr (h : Sorted fl ix q visited retset) (hfl : fl.OrderedOn S)
    (hdist : ∀ id, S (queueDist ix q id)) (hentry : q.entry ∈ visited) (id : ℕ) :
    Sorted fl ix q (offerNbr fl ix q (retset, visited) id).2
      (offerNbr fl ix q (retset, visited) id).1 := by
  rw [BeamLoop.offerNbr]
  by_cases hmem : id ∈ visited
  · rw [if_pos hmem]
    exact h
  · rw [if_neg hmem]
    have hne : id ≠ q.entry := fun heq => hmem (heq ▸ hentry)
    by_cases hpass : q.passes id = true
    · simp only [if_pos hpass]
      rw [insert_eq]
      refine h.insertAll hfl hdist [] (l := [(id, q.pqDist (ix.pqVector id))]) (fun c hc => ?_)
        fun i => ?_
      · rw [mem_singleton.1 hc, queueDist, Function.update_of_ne hne]
      · rw [map_singleton, mem_singleton, Put, mem_cons]
        constructor
        · rintro ⟨rfl | hi, hor⟩
          · exact Or.inr rfl
          · exact Or.inl ⟨hi, hor⟩
        · rintro (⟨hi, hor⟩ | rfl)
          · exact ⟨Or.inr hi, hor⟩
          · exact ⟨Or.inl rfl, Or.inr hpass⟩
    · simp only [if_neg hpass]
      refine h.congr fun i => ?_
      rw [Put, Put, mem_cons]
      constructor
      · exact fun hi => ⟨Or.inr hi.1, hi.2⟩
      · rintro ⟨rfl | hi, hor⟩
        · exact absurd (hor.resolve_left hne) hpass
        · exact ⟨hi, hor⟩

theorem Sorted.foldl_offerNbr (h : Sorted fl ix q visited retset) (hfl : fl.OrderedOn S)
    (hdist : ∀ id, S (queueDist ix q id)) (hentry : q.entry ∈ visited) (l : List ℕ) :
    Sorted fl ix q (l.foldl (BeamLoop.offerNbr fl ix q) (retset, visited)).2
      (l.foldl (BeamLoop.offerNbr fl ix q) (retset, visited)).1 := by
  induction l generalizing retset visited with
  | nil => exact h
  | cons id l ih =>
    refine ih (h.offerNbr hfl hdist hentry id) ?_
    change q.entry ∈ (BeamLoop.offerNbr fl ix q (retset, visited) id).2
    rw [BeamLoop.offerNbr]
    split_ifs
    · exact hentry
    · exact mem_cons_of_mem _ hentry
    · exact mem_cons_of_mem _ hentry

/-! ### Frames that agree -/

/-- The frames of the two searches between the turns. -/
structure Agrees (fl : FloatOps D) (ix : BeamIndex C P) (q : BeamQuery C P D) (pool₀ : List ℕ)
    (f : BeamFrame D) (g : CachedFrame D) : Prop where
  explores : Explores ix q pool₀ f
  cachedOk : CachedOk ix q [] g
  sorted : Sorted fl ix q f.visited f.retset
  cachedSorted : Sorted fl ix q g.visited g.retset
  visited : ∀ id, id ∈ f.visited ↔ id ∈ g.visited
  fullRetset : f.fullRetset = g.fullRetset
  numIos : f.numIos = g.numIos
  frontier : f.frontier = []
  threw : f.threw = false

theorem Agrees.held_eq (h : Agrees fl ix q pool₀ f g) (hfl : fl.OrderedOn S)
    (hdist : ∀ id, S (queueDist ix q id)) : f.retset.held = g.retset.held := by
  have hids := h.sorted.ids_eq h.cachedSorted hfl hdist h.visited
  have hwaiting : ∀ id ∈ f.retset.ids, f.retset.Waiting id ↔ g.retset.Waiting id := by
    intro id hid
    rw [h.explores.full_waiting id hid, h.cachedOk.queued.waiting id (hids ▸ hid), h.fullRetset]
    rfl
  refine ext_getElem? fun i => ?_
  have hi := congrArg (·[i]?) hids
  simp only [getElem?_ids] at hi
  rcases hn : f.retset.held[i]? with _ | n
  · rw [hn] at hi
    rcases hm : g.retset.held[i]? with _ | m
    · rfl
    · rw [hm] at hi
      cases hi
  · rw [hn] at hi
    rcases hm : g.retset.held[i]? with _ | m
    · rw [hm] at hi
      cases hi
    · rw [hm] at hi
      have hid : n.id = m.id := Option.some.inj hi
      have hnmem := mem_of_getElem? hn
      have hmmem := mem_of_getElem? hm
      have hexpanded : n.expanded = m.expanded := by
        have hw := hwaiting n.id (mem_map_of_mem hnmem)
        have hwn : f.retset.Waiting n.id ↔ n.expanded = false := by
          refine ⟨?_, fun hun => ⟨n, hnmem, rfl, hun⟩⟩
          rintro ⟨n', hn', heq, hun⟩
          rw [← h.explores.shape.eq_of_id hn' hnmem heq]
          exact hun
        have hwm : g.retset.Waiting n.id ↔ m.expanded = false := by
          refine ⟨?_, fun hun => ⟨m, hmmem, hid.symm, hun⟩⟩
          rintro ⟨m', hm', heq, hun⟩
          rw [← h.cachedOk.queued.shape.eq_of_id hm' hmmem (heq.trans hid)]
          exact hun
        rw [hwn, hwm] at hw
        have hnot := not_congr hw
        rwa [Bool.not_eq_false, Bool.not_eq_false, ← Bool.eq_iff_iff] at hnot
      have hdistance : n.distance = m.distance := by
        rw [h.sorted.distance n hnmem, h.cachedSorted.distance m hmmem, hid]
      cases n
      simp only at hid hexpanded hdistance
      rw [hid, hexpanded, hdistance]

theorem Agrees.first (h : Agrees fl ix q pool₀ f g) (hfl : fl.OrderedOn S)
    (hdist : ∀ id, S (queueDist ix q id)) (hlt : f.retset.hasUnexpandedNode = true) :
    g.retset.hasUnexpandedNode = true ∧ f.retset.cur = g.retset.cur := by
  have hheld := h.held_eq hfl hdist
  have hf := h.explores.shape
  have hg := h.cachedOk.queued.shape
  have hlt' : g.retset.hasUnexpandedNode = true := by
    rw [hf.hasUnexpandedNode_iff] at hlt
    rw [hg.hasUnexpandedNode_iff]
    obtain ⟨id, n, hn, hid⟩ := hlt
    exact ⟨id, n, hheld ▸ hn, hid⟩
  refine ⟨hlt', ?_⟩
  -- before the first unexpanded element all are expanded
  have hle : ∀ {a b : PriorityQueue D}, a.Shape → b.Shape → a.held = b.held →
      b.hasUnexpandedNode = true → a.cur ≤ b.cur := by
    intro a b ha hb heq hlt
    by_contra hgt
    have hsize : b.cur < b.size := of_decide_eq_true hlt
    obtain ⟨n, hn⟩ : ∃ n, b.held[b.cur]? = some n :=
      ⟨_, getElem?_eq_getElem (hb.length_held.symm ▸ hsize)⟩
    have hun := hb.unexpanded n hn
    rw [ha.expanded b.cur n (not_le.1 hgt) (heq ▸ hn)] at hun
    cases hun
  exact Nat.le_antisymm (hle hf hg hheld hlt') (hle hg hf hheld.symm hlt)

theorem visit_one (ix : BeamIndex C P) (hbv : q.bv = 1) (hbeam : q.beamWidth = 1)
    (retset : PriorityQueue D) (buf : ℕ) (pool : List ℕ) (n : Neighbor D) :
    ∃ ptr frontier pool' reqs,
      BeamLoop.visit ix q { retset, frontier := [], pool := buf :: pool, reqs := [], np := [] } n =
        some ({ retset, frontier, pool := pool', reqs, np := [⟨n.id, ptr, n.distance⟩] }, true) ∧
      reqs.length = (if (ix.cache n.id).isSome then 0 else 1) ∧
      ∀ x ∈ frontier, x.1 = n.id ∧ ptr.isSome = true := by
  by_cases hcache : (ix.cache n.id).isSome = true
  · refine ⟨none, [], buf :: pool, [], ?_, ?_, fun x hx => absurd hx not_mem_nil⟩
    · rw [BeamLoop.visit, if_pos hcache]
      simp [Choice.push, hbv]
    · rw [if_pos hcache]
      rfl
  · refine ⟨some buf, [(n.id, buf)], pool, [(n.id, buf)], ?_, ?_, fun x hx => ?_⟩
    · rw [BeamLoop.visit, if_neg hcache]
      simp [Choice.push, hbv, hbeam]
    · rw [if_neg hcache]
      rfl
    · rw [mem_singleton.1 hx]
      exact ⟨rfl, rfl⟩

theorem select_one (fl : FloatOps D) (ix : BeamIndex C P) (hbv : q.bv = 1) (hbeam : q.beamWidth = 1)
    (hshape : f.retset.Shape) (hlt : f.retset.hasUnexpandedNode = true) (hfrontier : f.frontier = [])
    (hpool : f.pool ≠ []) {n : Neighbor D} (hn : f.retset.held[f.retset.cur]? = some n) :
    ∃ s ptr, BeamLoop.select fl ix q f = (s, false) ∧ s.retset = f.retset.closestUnexpanded.1 ∧
      s.np = [⟨n.id, ptr, n.distance⟩] ∧
      s.reqs.length = (if (ix.cache n.id).isSome then 0 else 1) ∧
      ∀ x ∈ s.frontier, x.1 = n.id ∧ ptr.isSome = true := by
  have hsize : f.retset.cur < f.retset.size := of_decide_eq_true hlt
  obtain ⟨-, hmarks, -⟩ := hshape.closestUnexpanded hsize
  have hget : f.retset.closestUnexpanded.1.data.getD f.retset.cur ⟨0, fl.zero, false⟩ =
      { n with expanded := true } := by
    rw [getD_eq_getElem?_getD, ← getElem?_held ?_, hmarks.held, hn, map_some, if_pos rfl,
      getD_some]
    exact hsize
  obtain ⟨fuel, hfuel⟩ := Nat.exists_eq_succ_of_ne_zero (Nat.ne_zero_of_lt hsize)
  obtain ⟨buf, pool, hpool⟩ := exists_cons_of_ne_nil hpool
  obtain ⟨ptr, frontier, pool', reqs, hvisit, hreqs, hmem⟩ := visit_one ix hbv hbeam
    f.retset.closestUnexpanded.1 buf pool { n with expanded := true }
  refine ⟨⟨f.retset.closestUnexpanded.1, frontier, pool', reqs, [⟨n.id, ptr, n.distance⟩]⟩, ptr, ?_,
    rfl, rfl, hreqs, hmem⟩
  rw [BeamLoop.select, getFirstUnexpandedPosition, if_pos hsize, hfrontier, hpool, hfuel]
  simp only [if_true]
  rw [BeamLoop.choose, hget, hvisit]

theorem cachedStep_one (fl : FloatOps D) (ix : BeamIndex C P) (hbeam : q.beamWidth = 1)
    (hshape : g.retset.Shape) (hlt : g.retset.hasUnexpandedNode = true) (hios : g.numIos < q.ioLimit)
    {n : Neighbor D} (hn : g.retset.held[g.retset.cur]? = some n) :
    cachedStep fl ix q g = some (BeamLoop.expandNode fl ix q
      { g with
        retset := g.retset.closestUnexpanded.1
        numIos := g.numIos + if (ix.cache n.id).isSome then 0 else 1 } n.id) := by
  obtain ⟨-, -, n', hn', -, heq⟩ := hshape.closestUnexpanded (of_decide_eq_true hlt)
  rw [hn] at hn'
  cases hn'
  have hclosest : BeamLoop.closest ix q.beamWidth g.retset [] [] =
      (g.retset.closestUnexpanded.1, if (ix.cache n.id).isSome then [n.id] else [],
        if (ix.cache n.id).isSome then [] else [n.id]) := by
    rw [hbeam, BeamLoop.closest, if_pos hlt]
    rcases hc : g.retset.closestUnexpanded with ⟨retset, o⟩
    rw [hc] at heq
    subst heq
    dsimp only
    split_ifs
    · rfl
    · rfl
  rw [cachedStep, if_pos ⟨hlt, hios⟩, hclosest]
  split_ifs
  · rfl
  · rfl

theorem cells_eq_cachedNbrs {id : ℕ} (hinline : ix.inlinePqVectors ≤ (ix.node id).nnbrs) :
    cells ix (ix.node id) = cachedNbrs ix id := by
  rw [cells, cachedNbrs, Nat.max_eq_right hinline]

theorem sorted_added (hfl : fl.OrderedOn S) (hdist : ∀ id, S (queueDist ix q id))
    (hown : OwnCodes ix ix.pqVector) {id : ℕ}
    (hinline : ix.inlinePqVectors ≤ (ix.node id).nnbrs) (hentry : q.entry ∈ visited)
    (h : Sorted fl ix q visited retset) (free : List ℕ) :
    Sorted fl ix q (offers ix q (ix.node id) { visited, read := [], inline := [] }).visited
      (insertAll fl retset free (added ix q (ix.node id) visited)).1 := by
  obtain ⟨-, hids⟩ := map_added ix q (ix.node id) visited
  have hvisited := (offered_added ix q (ix.node id) visited).visited
  refine h.insertAll hfl hdist free (fun c hc => ?_) fun i => ?_
  · have hharmless : Harmless ix q (ix.node id) visited := fun m hle hlt =>
      absurd (hle.trans_lt hlt) (not_lt.2 hinline)
    have hne : c.1 ≠ q.entry := fun heq =>
      ((hids c.1).1 (mem_map_of_mem hc)).2.1 (heq ▸ hentry)
    rw [queueDist, Function.update_of_ne hne]
    exact own_added hown.vector hown.cache (hown.inline id) hharmless c hc
  · rw [hids, Put, hvisited]
    constructor
    · rintro ⟨hold | hcell, hor⟩
      · exact Or.inl ⟨hold, hor⟩
      · by_cases hold : i ∈ visited
        · exact Or.inl ⟨hold, hor⟩
        · exact Or.inr ⟨hcell, hold, hor.resolve_left fun heq => hold (heq ▸ hentry)⟩
    · rintro (⟨hold, hor⟩ | ⟨hcell, -, hpass⟩)
      · exact ⟨Or.inl hold, hor⟩
      · exact ⟨Or.inr hcell, Or.inr hpass⟩

/-- What the two searches need to agree: no code is longer than what stands in its place, and there
is an offset. -/
structure Comparison (fl : FloatOps D) (ix : BeamIndex C P) (q : BeamQuery C P D) (pool₀ : List ℕ)
    (S : D → Prop) : Prop where
  bv : q.bv = 1
  beamWidth : q.beamWidth = 1
  usesPqDist : q.usesPqDist = false
  ownCodes : OwnCodes ix ix.pqVector
  inline : ∀ id, ix.inlinePqVectors ≤ (ix.node id).nnbrs
  ordered : fl.OrderedOn S
  distances : ∀ id, S (queueDist ix q id)
  nodup : pool₀.Nodup
  pool : pool₀ ≠ []

theorem Agrees.step (h : Agrees fl ix q pool₀ f g) (hc : Comparison fl ix q pool₀ S)
    (hlt : f.retset.hasUnexpandedNode = true) (hios : f.numIos < q.ioLimit) :
    ∃ f' g', BeamLoop.step fl ix q f = some f' ∧ cachedStep fl ix q g = some g' ∧
      Agrees fl ix q pool₀ f' g' := by
  have hshape := h.explores.shape
  have hheld := h.held_eq hc.ordered hc.distances
  have hentry := h.explores.explored.entry_put.1
  obtain ⟨hlt', hcur⟩ := h.first hc.ordered hc.distances hlt
  obtain ⟨-, -, n, hn, -⟩ := hshape.closestUnexpanded (of_decide_eq_true hlt)
  have hpool : f.pool ≠ [] := by
    intro hnil
    have hperm := h.explores.offsets
    rw [hnil, h.frontier] at hperm
    exact hc.pool (nil_perm.1 hperm)
  obtain ⟨s, ptr, hselect, hretset, hnp, hreqs, hfrontier⟩ :=
    select_one fl ix hc.bv hc.beamWidth hshape hlt h.frontier hpool hn
  have hs := (h.explores.toOk.select fl hlt).2 (by rw [hselect])
  have hstep : BeamLoop.step fl ix q f =
      some (BeamLoop.expand fl ix q f (BeamLoop.select fl ix q f).1) := by
    rw [BeamLoop.step, if_pos ⟨h.threw, hlt, hios⟩, hselect]
    rfl
  rw [hselect] at hs hstep
  have hcstep := cachedStep_one fl ix hc.beamWidth h.cachedOk.queued.shape hlt' (h.numIos ▸ hios)
    (hcur ▸ hheld ▸ hn)
  -- the node that is expanded is the one of its id
  have hp : (⟨n.id, ptr, n.distance⟩ : Placement D) ∈ s.np := by
    rw [hnp]
    exact mem_singleton_self _
  have hnode := placed_eq hc.nodup h.explores.mem hs hp
  have hagg : turnAgg ix q f s =
      offers ix q (ix.node n.id) { visited := f.visited, read := [], inline := [] } := by
    rw [turnAgg, hnp, foldl_cons, foldl_nil, hnode]
  have hexpanded : turnExpanded ix q f s =
      [⟨n.id, q.fullDist (ix.node n.id).coords, (ix.node n.id).rid⟩] := by
    rw [turnExpanded, hnp, map_singleton, hnode, expandedDist, hc.usesPqDist]
    rfl
  have hfill := filled_turn h.explores.toOk hs fl
  have hcells := cells_eq_cachedNbrs (hc.inline n.id)
  refine ⟨_, _, hstep, hcstep, h.explores.expand hc.nodup hs fl, h.cachedOk.step hcstep, ?_, ?_, ?_,
    ?_, ?_, ?_, rfl⟩
  · rw [expand_eq]
    rw [turnInserted, hagg, hretset]
    exact sorted_added hc.ordered hc.distances hc.ownCodes (hc.inline n.id) hentry
      (h.sorted.closestUnexpanded hc.ordered hc.distances) _
  · exact (h.cachedSorted.closestUnexpanded hc.ordered hc.distances).foldl_offerNbr hc.ordered
      hc.distances ((h.visited _).1 hentry) _
  · intro id
    rw [expand_eq]
    rw [hagg, (offered_added ix q (ix.node n.id) f.visited).visited id, hcells, h.visited]
    obtain ⟨n', -, hqueued⟩ := h.cachedOk.queued.closestUnexpanded hlt'
    exact ((hqueued.foldl_offerNbr ((h.visited _).1 hentry) fl ix (cachedNbrs ix n.id)).2 id).symm
  · rw [expand_eq]
    dsimp only
    rw [hexpanded, h.fullRetset]
    rfl
  · rw [expand_eq]
    rw [hreqs, h.numIos]
    rfl
  · rw [expand_eq]
    refine eq_nil_iff_forall_not_mem.2 fun x hx => ?_
    obtain ⟨hx, hfree⟩ := ((release_spec (turnInserted fl ix q f s).2 s.pool hs.keys).2.1 x).1 hx
    obtain ⟨hid, hptr⟩ := hfrontier x hx
    refine hfree (hfill.free _ ?_)
    rw [hnp, hid]
    refine mem_map.2 ⟨_, mem_filter.2 ⟨mem_singleton_self _, hptr⟩, rfl⟩

theorem agrees_start (hc : Comparison fl ix q pool₀ S) (mem : ℕ → ℕ) :
    Agrees fl ix q pool₀ (start fl q pool₀ mem) (cachedStart fl q) := by
  have hsorted : Sorted fl ix q [q.entry]
      ((PriorityQueue.new fl q.lSearch).insert fl (.new q.entry q.entryDist)) := by
    rw [insert_eq]
    have hentry : (Neighbor.new q.entry q.entryDist).distance = queueDist ix q q.entry := by
      rw [queueDist, Function.update_self]
      rfl
    exact ⟨[q.entry], [], fun id => mem_singleton.trans (put_entry q id).symm,
      ((holds_new fl (queueDist ix q) q.lSearch).insertWithRemInfo hc.ordered hc.distances
        q.lSearch_pos hentry).1⟩
  exact ⟨explores_start fl ix q pool₀ mem, cachedOk_of_reach (.start rfl), hsorted, hsorted,
    fun _ => Iff.rfl, rfl, rfl, rfl, rfl⟩

theorem Agrees.step_eq_none_iff (h : Agrees fl ix q pool₀ f g) (hc : Comparison fl ix q pool₀ S) :
    BeamLoop.step fl ix q f = none ↔ cachedStep fl ix q g = none := by
  by_cases hcond : f.retset.hasUnexpandedNode = true ∧ f.numIos < q.ioLimit
  · obtain ⟨f', g', hf, hg, -⟩ := h.step hc hcond.1 hcond.2
    rw [hf, hg]
    simp
  · have hcond' : ¬ (g.retset.hasUnexpandedNode = true ∧ g.numIos < q.ioLimit) := by
      rintro ⟨hlt, hios⟩
      refine hcond ⟨?_, h.numIos ▸ hios⟩
      rw [h.cachedOk.queued.shape.hasUnexpandedNode_iff] at hlt
      rw [h.explores.shape.hasUnexpandedNode_iff]
      obtain ⟨id, n, hn, hid⟩ := hlt
      exact ⟨id, n, (h.held_eq hc.ordered hc.distances).symm ▸ hn, hid⟩
    rw [BeamLoop.step, if_neg fun hf => hcond hf.2, cachedStep, if_neg hcond']
    simp

/-- A search with beam widths of one reaches, turn by turn, what the other reaches. -/
theorem agrees_of_reach (hc : Comparison fl ix q pool₀ S)
    (h : Reach (Init fl q pool₀) (Step fl ix q) f) :
    ∃ g, Reach (CachedInit fl q) (CachedStep fl ix q) g ∧ Agrees fl ix q pool₀ f g := by
  refine h.simulate ?_ ?_
  · rintro f ⟨mem, rfl⟩
    exact ⟨cachedStart fl q, rfl, agrees_start hc mem⟩
  · intro f _ f' g _ hagrees hstep
    have hcond : f.retset.hasUnexpandedNode = true ∧ f.numIos < q.ioLimit := by
      by_contra hcond
      rw [Step, BeamLoop.step, if_neg fun hf => hcond hf.2] at hstep
      cases hstep
    obtain ⟨f'', g', hf, hg, hagrees'⟩ := hagrees.step hc hcond.1 hcond.2
    rw [Step, hf] at hstep
    cases hstep
    exact Or.inr ⟨(), g', hg, hagrees'⟩

theorem agrees_of_cachedReach (hc : Comparison fl ix q pool₀ S)
    (h : Reach (CachedInit fl q) (CachedStep fl ix q) g) :
    ∃ f, Reach (Init fl q pool₀) (Step fl ix q) f ∧ Agrees fl ix q pool₀ f g := by
  refine h.simulate (R := fun g f => Agrees fl ix q pool₀ f g) ?_ ?_
  · rintro g rfl
    exact ⟨_, ⟨id, rfl⟩, agrees_start hc id⟩
  · intro g _ g' f _ hagrees hstep
    have hcond : f.retset.hasUnexpandedNode = true ∧ f.numIos < q.ioLimit := by
      by_contra hcond
      have hnone : BeamLoop.step fl ix q f = none := by
        rw [BeamLoop.step, if_neg fun hf => hcond hf.2]
      rw [CachedStep, (hagrees.step_eq_none_iff hc).1 hnone] at hstep
      cases hstep
    obtain ⟨f', g'', hf, hg, hagrees'⟩ := hagrees.step hc hcond.1 hcond.2
    rw [CachedStep, hg] at hstep
    cases hstep
    exact Or.inr ⟨(), f', hf, hagrees'⟩

theorem comparison_twoComponents : Comparison natConfig.fl twoComponents fromZero [0, 1]
    fun _ => True where
  bv := rfl
  beamWidth := rfl
  usesPqDist := rfl
  ownCodes := ⟨fun _ m hm => absurd hm (Nat.not_lt_zero m), fun _ _ h => (by cases h), fun _ => rfl⟩
  inline _ := Nat.zero_le _
  ordered := orderedOn_natConfig
  distances _ := trivial
  nodup := by decide
  pool := by decide

/-- The search of an index whose disk PQ codes are not longer than the PQ codes. -/
def withDiskPq : BeamQuery ℕ ℕ ℕ :=
  { fromZero with
    entryDist := 7
    usesPqDist := true }

/-- Distances that may be `NaN`. -/
def nanOps : FloatOps (Option ℕ) where
  lt a b := (a.bind fun x => b.map fun y => decide (x < y)).getD false
  le a b := (a.bind fun x => b.map fun y => decide (x ≤ y)).getD false
  eq a b := (a.bind fun x => b.map fun y => x == y).getD false
  add a b := a.bind fun x => b.map (x + ·)
  mul a b := a.bind fun x => b.map (x * ·)
  div a b := a.bind fun x => b.map (x / ·)
  neg := id
  max a _ := a
  zero := some 0
  one := some 1
  eps := some 0
  alphaStep := some 2
  maxValue := some 1000
  slackDegree range := range

/-- The neighbours of `0` are `1`, `2` and `3`; the code of `1` is in the cache. -/
def threeNeighbours : BeamIndex ℕ ℕ where
  record _ id := ⟨id, if id = 0 then 3 else 0, fun m => m + 1, fun _ => 0, id⟩
  cache _ := none
  inlinePqVectors := 0
  pqCache id := if id = 1 then some 1 else none
  pqVector := id

theorem nanQuery_lSearch_pos : 0 < 4 := by decide

theorem nanQuery_lSearch_lt : 4 < 2 ^ 64 := by decide

/-- The PQ distance of `2` is `NaN`. -/
def nanQuery : BeamQuery ℕ ℕ (Option ℕ) where
  entry := 0
  entryDist := some 0
  beamWidth := 1
  bv := 1
  lSearch := 4
  ioLimit := 100
  pqDist p := if p = 2 then none else if p = 1 then some 5 else some 1
  fullDist := some
  usesPqDist := false
  passes _ := true
  lSearch_pos := nanQuery_lSearch_pos
  lSearch_lt := nanQuery_lSearch_lt
  bv_pos := Nat.one_pos

end DiskANNEval.AiSAQ.BeamLoop
