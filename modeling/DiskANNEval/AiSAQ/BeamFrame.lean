import DiskANNEval.AiSAQ.BeamLoop
import DiskANNEval.AiSAQ.QueueShape

/-!
# BeamFrame — what a turn of `aisaq_cached_beam_search` keeps

An offset of the scratch memory is in the pool or belongs to an id of `frontier_items`, and these
are ids that wait in the queue (`Ok.step`).  A turn expands the candidates that it has marked, and
offers their neighbours, each of which is new.
-/

namespace DiskANNEval.AiSAQ.BeamLoop

open Lib PriorityQueue List

variable {C P D : Type} {fl : FloatOps D} {ix : BeamIndex C P} {q : BeamQuery C P D}
  {pool₀ : List ℕ}

/-! ### The choice -/

/-- In a turn that began with the frame `f`, when the ids `marked` have been marked. -/
structure Choosing (ix : BeamIndex C P) (q : BeamQuery C P D) (pool₀ : List ℕ) (f : BeamFrame D)
    (marked : List ℕ) (s : Choice D) : Prop where
  shape : s.retset.Shape
  ids : s.retset.ids = f.retset.ids
  capacity : s.retset.capacity = f.retset.capacity
  distance : ∀ n ∈ s.retset.held, ∃ m ∈ f.retset.held, m.id = n.id ∧ m.distance = n.distance
  waiting : ∀ id, s.retset.Waiting id ↔ f.retset.Waiting id ∧ id ∉ marked
  np : ∀ p ∈ s.np, f.retset.Waiting p.id ∧
    ∃ n ∈ f.retset.held, n.id = p.id ∧ n.distance = p.pqDist
  np_nodup : (s.np.map (·.id)).Nodup
  np_length : s.np.length ≤ q.bv
  ptr : ∀ p ∈ s.np, (p.ptr = none → (ix.cache p.id).isSome = true) ∧
    ∀ buf, p.ptr = some buf → (p.id, buf) ∈ s.frontier
  frontier : ∀ x ∈ s.frontier, f.retset.Waiting x.1
  uncached : ∀ x ∈ s.frontier, (ix.cache x.1).isSome = false
  keys : (s.frontier.map Prod.fst).Nodup
  offsets : (s.pool ++ s.frontier.map Prod.snd).Perm pool₀
  reqs : ∀ x ∈ s.frontier, x ∈ f.frontier ∨ x ∈ s.reqs
  reqs_mem : ∀ x ∈ s.reqs, x ∈ s.frontier

variable {f f' : BeamFrame D} {s s' : Choice D} {marked : List ℕ} {n : Neighbor D}

/-- The candidate that a position leads to: it waits, and has been marked if it is to be expanded.
-/
structure Found (q : BeamQuery C P D) (f : BeamFrame D) (s : Choice D) (n : Neighbor D) : Prop where
  mem : n ∈ s.retset.held
  waiting : f.retset.Waiting n.id
  new : n.id ∉ s.np.map (·.id)

/-- The ids that have been marked when a candidate has been found. -/
def marks (q : BeamQuery C P D) (s : Choice D) (n : Neighbor D) : List ℕ :=
  s.np.map (·.id) ++ if s.np.length < q.bv then [n.id] else []

theorem Choosing.push (h : Choosing ix q pool₀ f (marks q s n) s) (hn : Found q f s n)
    {ptr : Option ℕ} (hnone : ptr = none → (ix.cache n.id).isSome = true)
    (hsome : ∀ buf, ptr = some buf → (n.id, buf) ∈ s.frontier) :
    Choosing ix q pool₀ f ((s.push q n.id ptr n.distance).np.map (·.id))
      (s.push q n.id ptr n.distance) := by
  rw [Choice.push]
  have hw := h.waiting
  rw [marks] at hw
  by_cases hlt : s.np.length < q.bv
  · rw [if_pos hlt] at hw ⊢
    have hids : (s.np ++ [(⟨n.id, ptr, n.distance⟩ : Placement D)]).map (·.id) =
        s.np.map (·.id) ++ [n.id] := by
      rw [map_append, map_singleton]
    refine { h with
      waiting := ?_
      np := ?_
      np_nodup := ?_
      np_length := ?_
      ptr := ?_ }
    · rw [hids]
      exact hw
    · intro p hp
      rcases mem_append.1 hp with hp | hp
      · exact h.np p hp
      · rw [mem_singleton.1 hp]
        exact ⟨hn.waiting, h.distance n hn.mem⟩
    · rw [hids]
      exact nodup_append'.2 ⟨h.np_nodup, nodup_singleton _,
        fun i hi hi' => hn.new (mem_singleton.1 hi' ▸ hi)⟩
    · change (s.np ++ _).length ≤ q.bv
      rw [length_append]
      exact hlt
    · intro p hp
      rcases mem_append.1 hp with hp | hp
      · exact h.ptr p hp
      · rw [mem_singleton.1 hp]
        exact ⟨hnone, hsome⟩
  · rw [if_neg hlt, append_nil] at hw
    rw [if_neg hlt]
    exact { h with waiting := hw }

theorem Choosing.read (h : Choosing ix q pool₀ f marked s) {id buf : ℕ} {pool : List ℕ}
    (hwaiting : f.retset.Waiting id) (hcache : (ix.cache id).isSome = false)
    (hnew : s.frontier.lookup id = none) (hpool : s.pool = buf :: pool) :
    Choosing ix q pool₀ f marked
      { s with
        reqs := s.reqs ++ [(id, buf)]
        frontier := (id, buf) :: s.frontier
        pool } := by
  refine { h with
    ptr := ?_
    frontier := ?_
    uncached := ?_
    keys := ?_
    offsets := ?_
    reqs := ?_
    reqs_mem := ?_ }
  · intro p hp
    exact ⟨(h.ptr p hp).1, fun buf' hbuf => mem_cons_of_mem _ ((h.ptr p hp).2 buf' hbuf)⟩
  · intro x hx
    rcases mem_cons.1 hx with rfl | hx
    · exact hwaiting
    · exact h.frontier x hx
  · intro x hx
    rcases mem_cons.1 hx with rfl | hx
    · exact hcache
    · exact h.uncached x hx
  · refine nodup_cons.2 ⟨fun hmem => ?_, h.keys⟩
    obtain ⟨x, hx, rfl⟩ := mem_map.1 hmem
    exact absurd (lookup_eq_none_iff.1 hnew x hx) (by simp)
  · have hperm := h.offsets
    rw [hpool] at hperm
    exact perm_middle.trans hperm
  · intro x hx
    rcases mem_cons.1 hx with rfl | hx
    · exact Or.inr (mem_append_right _ (mem_singleton_self _))
    · exact (h.reqs x hx).imp_right (mem_append_left _)
  · intro x hx
    rcases mem_append.1 hx with hx | hx
    · exact mem_cons_of_mem _ (h.reqs_mem x hx)
    · rw [mem_singleton.1 hx]
      exact mem_cons_self

theorem Choosing.visit (h : Choosing ix q pool₀ f (marks q s n) s) (hn : Found q f s n) {b : Bool}
    (hvisit : BeamLoop.visit ix q s n = some (s', b)) :
    Choosing ix q pool₀ f (s'.np.map (·.id)) s' := by
  rw [BeamLoop.visit] at hvisit
  by_cases hcache : (ix.cache n.id).isSome = true
  · rw [if_pos hcache] at hvisit
    obtain ⟨rfl, -⟩ := Prod.mk.inj (Option.some.inj hvisit)
    exact h.push hn (fun _ => hcache) fun buf hbuf => absurd hbuf (by simp)
  · rw [if_neg hcache] at hvisit
    rcases hlookup : s.frontier.lookup n.id with _ | buf
    · rw [hlookup] at hvisit
      rcases hpool : s.pool with _ | ⟨buf, pool⟩
      · rw [hpool] at hvisit
        cases hvisit
      · rw [hpool] at hvisit
        obtain ⟨rfl, -⟩ := Prod.mk.inj (Option.some.inj hvisit)
        have hread := h.read hn.waiting (Bool.eq_false_of_not_eq_true hcache) hlookup hpool
        refine Choosing.push (s := { s with
          reqs := s.reqs ++ [(n.id, buf)]
          frontier := (n.id, buf) :: s.frontier
          pool }) hread ⟨hn.mem, hn.waiting, hn.new⟩ (fun hnone => ?_) ?_
        · cases hnone
        · rintro _ ⟨⟩
          exact mem_cons_self
    · rw [hlookup] at hvisit
      obtain ⟨rfl, -⟩ := Prod.mk.inj (Option.some.inj hvisit)
      refine h.push hn (fun hnone => absurd hnone (by simp)) ?_
      rintro _ ⟨⟩
      obtain ⟨l, l', heq, -⟩ := lookup_eq_some_iff.1 hlookup
      rw [heq]
      exact mem_append_right _ mem_cons_self

theorem Choosing.next (h : Choosing ix q pool₀ f (s.np.map (·.id)) s) (fl : FloatOps D)
    (position : ℕ) :
    let next := s.retset.getNextUnexpandedPosition position (decide (s.np.length < q.bv))
    (next.2.2 = false → Choosing ix q pool₀ f (s.np.map (·.id)) { s with retset := next.1 }) ∧
      (next.2.2 = true → ∃ n, next.1.data.getD next.2.1 ⟨0, fl.zero, false⟩ = n ∧
        Choosing ix q pool₀ f (marks q { s with retset := next.1 } n) { s with retset := next.1 } ∧
        Found q f { s with retset := next.1 } n) := by
  intro next
  obtain ⟨hshape, hfound, hmarks⟩ :=
    h.shape.getNextUnexpandedPosition position (decide (s.np.length < q.bv))
  change if next.2.2 = true ∧ _ then s.retset.Marks next.1 next.2.1 else next.1 = s.retset at hmarks
  constructor
  · intro hfalse
    rw [if_neg (by simp [hfalse])] at hmarks
    rw [hmarks]
    exact h
  · intro htrue
    obtain ⟨n, hn, hun⟩ := hfound htrue
    have hwait : s.retset.Waiting n.id := ⟨n, mem_of_getElem? hn, rfl, hun⟩
    obtain ⟨hwaiting, hnew⟩ := (h.waiting n.id).1 hwait
    by_cases hlt : s.np.length < q.bv
    · rw [if_pos ⟨htrue, decide_eq_true hlt⟩] at hmarks
      have hget : next.1.held[next.2.1]? = some { n with expanded := true } := by
        rw [hmarks.held, hn, Option.map_some, if_pos rfl]
      refine ⟨{ n with expanded := true }, ?_, ?_, mem_of_getElem? hget, hwaiting, hnew⟩
      · rw [getD_eq_getElem?_getD, ← getElem?_held ?_, hget, Option.getD_some]
        rw [← hshape.length_held]
        exact (List.getElem?_eq_some_iff.1 hget).1
      · refine { h with
          shape := hshape
          ids := hmarks.ids.trans h.ids
          capacity := hmarks.capacity.trans h.capacity
          distance := ?_
          waiting := ?_ }
        · intro m hm
          obtain ⟨i, hi⟩ := mem_iff_getElem?.1 hm
          rw [hmarks.held] at hi
          obtain ⟨m', hm', rfl⟩ := Option.map_eq_some_iff.1 hi
          obtain ⟨m'', hmem, hid, hdist⟩ := h.distance m' (mem_of_getElem? hm')
          refine ⟨m'', hmem, ?_⟩
          split_ifs
          · exact ⟨hid, hdist⟩
          · exact ⟨hid, hdist⟩
        · intro id
          rw [hmarks.waiting_iff h.shape hn, h.waiting, marks, if_pos hlt, mem_append,
            mem_singleton, not_or, and_assoc]
    · rw [if_neg (by simp [hlt])] at hmarks
      rw [hmarks]
      refine ⟨n, ?_, ?_, mem_of_getElem? hn, hwaiting, hnew⟩
      · rw [getD_eq_getElem?_getD, ← getElem?_held ?_, hn, Option.getD_some]
        rw [← h.shape.length_held]
        exact (List.getElem?_eq_some_iff.1 hn).1
      · rw [marks, if_neg hlt, append_nil]
        exact h

theorem Choosing.choose {fuel position : ℕ} (hcap : f.retset.capacity < 2 ^ 64)
    (hpos : position < f.retset.ids.length) (hfuel : f.retset.ids.length ≤ position + fuel)
    (hn : s.retset.data.getD position ⟨0, fl.zero, false⟩ = n)
    (h : Choosing ix q pool₀ f (marks q s n) s) (hfound : Found q f s n) :
    (∃ marked, Choosing ix q pool₀ f marked (BeamLoop.choose fl ix q fuel position s).1) ∧
      ((BeamLoop.choose fl ix q fuel position s).2 = false →
        Choosing ix q pool₀ f ((BeamLoop.choose fl ix q fuel position s).1.np.map (·.id))
          (BeamLoop.choose fl ix q fuel position s).1) := by
  induction fuel generalizing position s n with
  | zero => omega
  | succ fuel ih =>
    rw [BeamLoop.choose, hn]
    rcases hvisit : BeamLoop.visit ix q s n with _ | ⟨t, b⟩
    · exact ⟨⟨_, h⟩, fun hfalse => absurd hfalse (by simp)⟩
    have ht := h.visit hfound hvisit
    cases b with
    | true => exact ⟨⟨_, ht⟩, fun _ => ht⟩
    | false =>
      obtain ⟨hfalse, htrue⟩ := ht.next fl position
      simp only
      by_cases hnext : (t.retset.getNextUnexpandedPosition position
          (decide (t.np.length < q.bv))).2.2 = true
      · rw [if_pos hnext]
        obtain ⟨m, hm, hmarks, hfound'⟩ := htrue hnext
        have hlen := ht.shape.length_ids
        have hsize := ht.shape.size
        rw [ht.ids] at hlen
        rw [ht.capacity] at hsize
        have hlater := lt_nextPosition t.retset (by omega : position + 1 < 2 ^ 64)
        obtain ⟨heq, hlt⟩ := getNextUnexpandedPosition_position t.retset position
          (decide (t.np.length < q.bv))
        have hlt := hlt hnext
        exact ih (by omega) (by omega) hm hmarks hfound'
      · rw [if_neg hnext]
        have hfalse := hfalse (Bool.eq_false_of_not_eq_true hnext)
        exact ⟨⟨_, hfalse⟩, fun _ => hfalse⟩

/-! ### The frame -/

/-- Between the turns: what is read ahead waits in the queue, an offset is in the pool or in
`frontier_items`, and the visited elements of the queue that do not wait have been expanded. -/
structure Ok (ix : BeamIndex C P) (q : BeamQuery C P D) (pool₀ : List ℕ) (f : BeamFrame D) :
    Prop where
  shape : f.retset.Shape
  capacity : f.retset.capacity = q.lSearch
  visited : ∀ id ∈ f.retset.ids, id ∈ f.visited
  frontier : ∀ x ∈ f.frontier, f.retset.Waiting x.1
  uncached : ∀ x ∈ f.frontier, (ix.cache x.1).isSome = false
  keys : (f.frontier.map Prod.fst).Nodup
  offsets : (f.pool ++ f.frontier.map Prod.snd).Perm pool₀
  full_nodup : (f.fullRetset.map (·.id)).Nodup
  full_visited : ∀ id ∈ f.fullRetset.map (·.id), id ∈ f.visited
  full_waiting : ∀ id ∈ f.retset.ids, f.retset.Waiting id ↔ id ∉ f.fullRetset.map (·.id)

theorem Ok.choosing (h : Ok ix q pool₀ f) {retset : PriorityQueue D} (hshape : retset.Shape)
    (hids : retset.ids = f.retset.ids) (hcap : retset.capacity = f.retset.capacity)
    (hdist : ∀ n ∈ retset.held, ∃ m ∈ f.retset.held, m.id = n.id ∧ m.distance = n.distance)
    (hwait : ∀ id, retset.Waiting id ↔ f.retset.Waiting id ∧ id ∉ marked) :
    Choosing ix q pool₀ f marked
      { retset, frontier := f.frontier, pool := f.pool, reqs := [], np := [] } where
  shape := hshape
  ids := hids
  capacity := hcap
  distance := hdist
  waiting := hwait
  np _ hp := absurd hp not_mem_nil
  np_nodup := nodup_nil
  np_length := Nat.zero_le _
  ptr _ hp := absurd hp not_mem_nil
  frontier := h.frontier
  uncached := h.uncached
  keys := h.keys
  offsets := h.offsets
  reqs _ hx := Or.inl hx
  reqs_mem _ hx := absurd hx not_mem_nil

theorem Ok.select (h : Ok ix q pool₀ f) (fl : FloatOps D) (hlt : f.retset.hasUnexpandedNode = true) :
    (∃ marked, Choosing ix q pool₀ f marked (BeamLoop.select fl ix q f).1) ∧
      ((BeamLoop.select fl ix q f).2 = false →
        Choosing ix q pool₀ f ((BeamLoop.select fl ix q f).1.np.map (·.id))
          (BeamLoop.select fl ix q f).1) := by
  have hlt : f.retset.cur < f.retset.size := of_decide_eq_true hlt
  obtain ⟨hshape, hmarks, n, hn, hun, -⟩ := h.shape.closestUnexpanded hlt
  have hwait : f.retset.Waiting n.id := ⟨n, mem_of_getElem? hn, rfl, hun⟩
  have hget : f.retset.closestUnexpanded.1.held[f.retset.cur]? = some { n with expanded := true } := by
    rw [hmarks.held, hn, Option.map_some, if_pos rfl]
  have hlen := h.shape.length_ids
  rw [BeamLoop.select, getFirstUnexpandedPosition, if_pos hlt]
  simp only [if_true]
  refine Choosing.choose (n := { n with expanded := true }) ?_ (by omega) (by omega) ?_ ?_ ?_
  · rw [h.capacity]
    exact q.lSearch_lt
  · change f.retset.closestUnexpanded.1.data.getD _ _ = _
    rw [getD_eq_getElem?_getD, ← getElem?_held ?_, hget, Option.getD_some]
    exact hlt
  · refine h.choosing hshape hmarks.ids hmarks.capacity ?_ fun id => ?_
    · intro m hm
      obtain ⟨i, hi⟩ := mem_iff_getElem?.1 hm
      rw [hmarks.held] at hi
      obtain ⟨m', hm', rfl⟩ := Option.map_eq_some_iff.1 hi
      refine ⟨m', mem_of_getElem? hm', ?_⟩
      split_ifs
      · exact ⟨rfl, rfl⟩
      · exact ⟨rfl, rfl⟩
    · have hbv : ([] : List (Placement D)).length < q.bv := q.bv_pos
      rw [hmarks.waiting_iff h.shape hn, marks, if_pos hbv, map_nil, nil_append,
        mem_singleton]
  · exact ⟨mem_of_getElem? hget, hwait, not_mem_nil⟩

/-! ### The neighbours that are offered -/

/-- The ids that are to be put into the queue. -/
def Agg.ids (a : Agg D) : List ℕ := a.read ++ a.inline.map Prod.fst

/-- The ids of the cells that are gone through. -/
def cells (ix : BeamIndex C P) (node : BeamNode C P) : List ℕ :=
  (List.range (max ix.inlinePqVectors node.nnbrs)).map node.nbr

/-- After the ids `gone`, with what had been visited before. -/
structure Offered (q : BeamQuery C P D) (visited₀ gone : List ℕ) (a : Agg D) : Prop where
  nodup : a.ids.Nodup
  ids : ∀ id, id ∈ a.ids ↔ id ∈ gone ∧ id ∉ visited₀ ∧ q.passes id = true
  visited : ∀ id, id ∈ a.visited ↔ id ∈ visited₀ ∨ id ∈ gone

variable {visited₀ gone : List ℕ} {a a' : Agg D}

theorem Offered.add (h : Offered q visited₀ gone a) (id : ℕ)
    (hvisited : a'.visited = if id ∈ a.visited then a.visited else id :: a.visited)
    (hids : a'.ids.Perm (if id ∉ a.visited ∧ q.passes id = true then id :: a.ids else a.ids)) :
    Offered q visited₀ (gone ++ [id]) a' := by
  refine ⟨?_, fun i => ?_, fun i => ?_⟩
  · rw [hids.nodup_iff]
    split_ifs with hnew
    · refine nodup_cons.2 ⟨fun hmem => hnew.1 ?_, h.nodup⟩
      exact (h.visited id).2 (Or.inr ((h.ids id).1 hmem).1)
    · exact h.nodup
  · rw [hids.mem_iff, mem_append, mem_singleton]
    have hi := h.ids i
    have hv := h.visited id
    split_ifs with hnew
    · rw [mem_cons, hi]
      constructor
      · rintro (rfl | hi)
        · exact ⟨Or.inr rfl, fun hmem => hnew.1 (hv.2 (Or.inl hmem)), hnew.2⟩
        · exact ⟨Or.inl hi.1, hi.2⟩
      · rintro ⟨hgone | rfl, hi⟩
        · exact Or.inr ⟨hgone, hi⟩
        · exact Or.inl rfl
    · rw [hi]
      constructor
      · exact fun hi => ⟨Or.inl hi.1, hi.2⟩
      · rintro ⟨hgone | rfl, hi⟩
        · exact ⟨hgone, hi⟩
        · have hmem : i ∈ a.visited := by
            by_contra hnot
            exact hnew ⟨hnot, hi.2⟩
          exact ⟨(hv.1 hmem).resolve_left hi.1, hi⟩
  · have hv := h.visited i
    rw [hvisited, mem_append, mem_singleton]
    split_ifs with hmem
    · rw [hv]
      constructor
      · exact fun hi => hi.imp_right Or.inl
      · rintro (hi | hi | rfl)
        · exact Or.inl hi
        · exact Or.inr hi
        · exact hv.1 hmem
    · rw [mem_cons]
      tauto

theorem Offered.offerInline (h : Offered q visited₀ gone a) (node : BeamNode C P) (m : ℕ) :
    Offered q visited₀ (gone ++ [node.nbr m]) (offerInline q node a m) := by
  rw [BeamLoop.offerInline]
  by_cases hmem : node.nbr m ∈ a.visited
  · rw [if_pos hmem]
    refine h.add (node.nbr m) (if_pos hmem).symm ?_
    rw [if_neg fun hnew => hnew.1 hmem]
  · rw [if_neg hmem]
    by_cases hpass : q.passes (node.nbr m) = true
    · rw [if_pos hpass]
      refine h.add (node.nbr m) (if_neg hmem).symm ?_
      rw [if_pos ⟨hmem, hpass⟩, Agg.ids, map_append, ← append_assoc]
      exact perm_append_singleton _ _
    · rw [if_neg hpass]
      refine h.add (node.nbr m) (if_neg hmem).symm ?_
      rw [if_neg fun hnew => hpass hnew.2]
      exact Perm.refl _

theorem Offered.offerRest (h : Offered q visited₀ gone a) (node : BeamNode C P) (m : ℕ) :
    Offered q visited₀ (gone ++ [node.nbr m]) (offerRest ix q node a m) := by
  rw [BeamLoop.offerRest]
  by_cases hmem : node.nbr m ∈ a.visited
  · rw [if_pos hmem]
    refine h.add (node.nbr m) (if_pos hmem).symm ?_
    rw [if_neg fun hnew => hnew.1 hmem]
  · rw [if_neg hmem]
    by_cases hpass : q.passes (node.nbr m) = true
    · rw [if_pos hpass]
      rcases ix.pqCache (node.nbr m) with _ | pq
      · refine h.add (node.nbr m) (if_neg hmem).symm ?_
        rw [if_pos ⟨hmem, hpass⟩, Agg.ids, append_assoc]
        exact perm_middle
      · refine h.add (node.nbr m) (if_neg hmem).symm ?_
        rw [if_pos ⟨hmem, hpass⟩, Agg.ids, map_append, ← append_assoc]
        exact perm_append_singleton _ _
    · rw [if_neg hpass]
      refine h.add (node.nbr m) (if_neg hmem).symm ?_
      rw [if_neg fun hnew => hpass hnew.2]
      exact Perm.refl _

theorem Offered.foldl_cells {offer : Agg D → ℕ → Agg D} {nbr : ℕ → ℕ}
    (hoffer : ∀ gone a m, Offered q visited₀ gone a →
      Offered q visited₀ (gone ++ [nbr m]) (offer a m))
    (h : Offered q visited₀ gone a) (ms : List ℕ) :
    Offered q visited₀ (gone ++ ms.map nbr) (ms.foldl offer a) := by
  induction ms generalizing gone a with
  | nil =>
    rw [map_nil, append_nil]
    exact h
  | cons m ms ih =>
    rw [map_cons, append_cons]
    exact ih (hoffer _ _ m h)

theorem Offered.offers (h : Offered q visited₀ gone a) (node : BeamNode C P) :
    Offered q visited₀ (gone ++ cells ix node) (offers ix q node a) := by
  have hcells : cells ix node = (List.range ix.inlinePqVectors).map node.nbr ++
      (range' ix.inlinePqVectors (node.nnbrs - ix.inlinePqVectors)).map node.nbr := by
    rw [cells, ← map_append, range_eq_range', range_eq_range']
    have happend := range'_append_1 (s := 0) (m := ix.inlinePqVectors)
      (n := node.nnbrs - ix.inlinePqVectors)
    rw [Nat.zero_add] at happend
    rw [happend]
    congr 2
    omega
  rw [hcells, ← append_assoc]
  exact Offered.foldl_cells (fun _ _ m h => h.offerRest node m)
    (h.foldl_cells (fun _ _ m h => h.offerInline node m) _) _

theorem Offered.foldl (node : Placement D → BeamNode C P) (np : List (Placement D))
    (h : Offered q visited₀ gone a) :
    Offered q visited₀ (gone ++ np.flatMap fun p => cells ix (node p))
      (np.foldl (fun a p => BeamLoop.offers ix q (node p) a) a) := by
  induction np generalizing gone a with
  | nil =>
    rw [flatMap_nil, append_nil]
    exact h
  | cons p np ih =>
    rw [flatMap_cons, ← append_assoc]
    exact ih (h.offers (node p))

theorem Agg.map_candidates (ix : BeamIndex C P) (q : BeamQuery C P D) (a : Agg D) :
    (a.candidates ix q).map Prod.fst = a.ids := by
  rw [Agg.candidates, map_append, map_map]
  congr 1
  exact map_id _

/-! ### Insertion and release -/

/-- After the insertion of new ids `ids`, with what was to be freed before and what is. -/
structure Filled (ids : List ℕ) (free : List ℕ) (retset : PriorityQueue D) (free' : List ℕ)
    (retset' : PriorityQueue D) : Prop where
  shape : retset'.Shape
  capacity : retset'.capacity = retset.capacity
  mem : ∀ id ∈ retset'.ids, id ∈ retset.ids ∨ id ∈ ids
  free : ∀ id ∈ free, id ∈ free'
  lost : ∀ id ∈ retset.ids, id ∉ retset'.ids → id ∈ free'
  full : ∀ id, id ∈ retset.ids ∨ id ∈ ids → id ∉ retset'.ids → retset'.size = retset'.capacity
  size : retset.size = retset.capacity → retset'.size = retset'.capacity
  waiting : ∀ id ∈ retset'.ids, retset'.Waiting id ↔ id ∈ ids ∨ retset.Waiting id

theorem filled_insertAll (fl : FloatOps D) {retset : PriorityQueue D} (hshape : retset.Shape)
    (free : List ℕ) {l : List (ℕ × D)} (hnodup : (l.map Prod.fst).Nodup)
    (hnew : ∀ id ∈ l.map Prod.fst, id ∉ retset.ids) :
    Filled (l.map Prod.fst) free retset (insertAll fl retset free l).2
      (insertAll fl retset free l).1 := by
  induction l generalizing retset free with
  | nil =>
    refine ⟨hshape, rfl, fun id hid => Or.inl hid, fun id hid => hid,
      fun id hid hnot => absurd hid hnot, ?_, id, ?_⟩
    · rintro id (hid | hid) hnot
      · exact absurd hid hnot
      · exact absurd hid not_mem_nil
    · exact fun id _ => ⟨Or.inr, fun h => h.resolve_left not_mem_nil⟩
  | cons c l ih =>
    rw [map_cons, nodup_cons] at hnodup
    rw [map_cons, forall_mem_cons] at hnew
    have hnot : (Neighbor.new c.1 c.2).id ∉ retset.ids := hnew.1
    obtain ⟨lo, hi⟩ := hshape.insertWithRemInfo fl hnot
    have hshape' := hshape.inserted hi hnew.1
    have hwait := hi.waiting_iff hshape hnew.1
    have hrest := ih hshape' (free ++ (retset.insertWithRemInfo fl (.new c.1 c.2)).2.toList)
      hnodup.2 fun id hid hmem => ?_
    · change Filled (c.1 :: l.map Prod.fst) free retset (insertAll fl _ _ l).2 (insertAll fl _ _ l).1
      generalize retset.insertWithRemInfo fl (.new c.1 c.2) = r₁ at hi hshape' hrest hwait
      refine ⟨hrest.shape, hrest.capacity.trans hi.capacity, fun id hid => ?_, fun id hid => ?_,
        fun id hid hnot => ?_, fun id hid hnot => ?_, fun hfull => ?_, fun id hid => ?_⟩
      · rcases hrest.mem id hid with hid | hid
        · rcases hi.mem_ids hid with rfl | hid
          · exact Or.inr mem_cons_self
          · exact Or.inl hid
        · exact Or.inr (mem_cons_of_mem _ hid)
      · exact hrest.free id (mem_append_left _ hid)
      · by_cases hmid : id ∈ r₁.1.ids
        · exact hrest.lost id hmid hnot
        · refine hrest.free id (mem_append_right _ ?_)
          rw [hi.lost id hid hmid]
          exact mem_singleton_self _
      · by_cases hmid : id ∈ r₁.1.ids ∨ id ∈ l.map Prod.fst
        · exact hrest.full id hmid hnot
        · obtain ⟨hnotmid, hnotl⟩ := not_or.1 hmid
          refine hrest.size (hi.full hshape ?_ hnotmid)
          rcases hid with hid | hid
          · exact Or.inr hid
          · exact Or.inl ((mem_cons.1 hid).resolve_right hnotl)
      · refine hrest.size ?_
        rw [hi.capacity, hi.size]
        omega
      · rw [hrest.waiting id hid, hwait, mem_cons]
        constructor
        · rintro (hl | ⟨-, heq | hold⟩)
          · exact Or.inl (Or.inr hl)
          · exact Or.inl (Or.inl heq)
          · exact Or.inr hold
        · rintro ((heq | hl) | hold)
          · by_cases hl : id ∈ l.map Prod.fst
            · exact Or.inl hl
            · exact Or.inr ⟨(hrest.mem id hid).resolve_right hl, Or.inl heq⟩
          · exact Or.inl hl
          · by_cases hl : id ∈ l.map Prod.fst
            · exact Or.inl hl
            · exact Or.inr ⟨(hrest.mem id hid).resolve_right hl, Or.inr hold⟩
    · rcases hi.mem_ids hmem with heq | hmem
      · exact hnodup.1 ((show id = c.1 from heq) ▸ hid)
      · exact hnew.2 id hid hmem

theorem release_spec (free : List ℕ) {frontier : List (ℕ × ℕ)} (pool : List ℕ)
    (hkeys : (frontier.map Prod.fst).Nodup) :
    (release free frontier pool).1.Sublist frontier ∧
      (∀ x, x ∈ (release free frontier pool).1 ↔ x ∈ frontier ∧ x.1 ∉ free) ∧
      ((release free frontier pool).2 ++ (release free frontier pool).1.map Prod.snd).Perm
        (pool ++ frontier.map Prod.snd) := by
  induction free generalizing frontier pool with
  | nil => exact ⟨Sublist.refl _, fun x => by simp [release], Perm.refl _⟩
  | cons id free ih =>
    rw [release, foldl_cons]
    rcases hlookup : frontier.lookup id with _ | buf
    · obtain ⟨hsub, hmem, hperm⟩ := ih pool hkeys
      refine ⟨hsub, fun x => ?_, hperm⟩
      have hx := hmem x
      rw [release] at hx
      rw [hx, mem_cons, not_or]
      refine and_congr_right fun hin => ⟨fun h => ⟨fun heq => ?_, h⟩, fun h => h.2⟩
      have hne := lookup_eq_none_iff.1 hlookup x hin
      rw [heq] at hne
      simp at hne
    · obtain ⟨l, l', rfl, hl⟩ := lookup_eq_some_iff.1 hlookup
      have herase : (l ++ (id, buf) :: l').eraseP (·.1 == id) = l ++ l' := by
        rw [eraseP_append_right _ (fun x hx => ?_), eraseP_cons_of_pos (by simp)]
        have hne := hl x hx
        simp only [bne_iff_ne] at hne
        simp [Ne.symm hne]
      have hkeys' : ((l ++ l').map Prod.fst).Nodup :=
        hkeys.sublist ((Sublist.append_left (sublist_cons_self _ _) _).map _)
      obtain ⟨hsub, hmem, hperm⟩ := ih (buf :: pool) hkeys'
      rw [release] at hsub hmem hperm
      simp only [herase]
      refine ⟨hsub.trans (Sublist.append_left (sublist_cons_self _ _) _), fun x => ?_, ?_⟩
      · rw [hmem x, mem_cons, not_or, mem_append, mem_append, mem_cons]
        have hid : id ∉ (l ++ l').map Prod.fst := by
          rw [map_append] at hkeys
          have hcons := (perm_middle.nodup_iff).1 hkeys
          rw [map_append]
          exact (nodup_cons.1 hcons).1
        constructor
        · rintro ⟨hx, hfree⟩
          refine ⟨hx.imp_right Or.inr, fun heq => hid ?_, hfree⟩
          rw [← heq]
          exact mem_map_of_mem (mem_append.2 hx)
        · rintro ⟨hx | rfl | hx, hne, hfree⟩
          · exact ⟨Or.inl hx, hfree⟩
          · exact absurd rfl hne
          · exact ⟨Or.inr hx, hfree⟩
      · refine hperm.trans ?_
        rw [map_append, map_append,
          ← append_assoc, ← append_assoc]
        exact perm_middle.symm

/-! ### A turn -/

/-- What the sectors hold after the reads. -/
def turnMem (f : BeamFrame D) (s : Choice D) : ℕ → ℕ :=
  s.reqs.foldl (fun mem r => Function.update mem r.2 r.1) f.mem

/-- The variables after the loop over the placements. -/
def turnAgg (ix : BeamIndex C P) (q : BeamQuery C P D) (f : BeamFrame D) (s : Choice D) : Agg D :=
  s.np.foldl (fun a p => offers ix q (placed ix (turnMem f s) p) a)
    { visited := f.visited, read := [], inline := [] }

/-- The elements that come to `full_retset`. -/
def turnExpanded (ix : BeamIndex C P) (q : BeamQuery C P D) (f : BeamFrame D) (s : Choice D) :
    List (Expanded D) :=
  s.np.map fun p =>
    { id := p.id
      distance := expandedDist q (placed ix (turnMem f s) p) p
      rid := (placed ix (turnMem f s) p).rid }

/-- The queue and the ids to be freed after the insertions. -/
def turnInserted (fl : FloatOps D) (ix : BeamIndex C P) (q : BeamQuery C P D) (f : BeamFrame D)
    (s : Choice D) : PriorityQueue D × List ℕ :=
  insertAll fl s.retset ((s.np.filter (·.ptr.isSome)).map (·.id)) ((turnAgg ix q f s).candidates ix q)

theorem expand_eq (fl : FloatOps D) (ix : BeamIndex C P) (q : BeamQuery C P D) (f : BeamFrame D)
    (s : Choice D) : BeamLoop.expand fl ix q f s =
      { retset := (turnInserted fl ix q f s).1
        visited := (turnAgg ix q f s).visited
        fullRetset := f.fullRetset ++ turnExpanded ix q f s
        frontier := (release (turnInserted fl ix q f s).2 s.frontier s.pool).1
        pool := (release (turnInserted fl ix q f s).2 s.frontier s.pool).2
        mem := turnMem f s
        numIos := f.numIos + s.reqs.length
        threw := false } := rfl

theorem map_turnExpanded (ix : BeamIndex C P) (q : BeamQuery C P D) (f : BeamFrame D)
    (s : Choice D) : (turnExpanded ix q f s).map (·.id) = s.np.map (·.id) := by
  rw [turnExpanded, map_map]
  rfl

/-- The ids of the cells that a turn goes through. -/
def turnCells (ix : BeamIndex C P) (f : BeamFrame D) (s : Choice D) : List ℕ :=
  s.np.flatMap fun p => cells ix (placed ix (turnMem f s) p)

theorem offered_turn (ix : BeamIndex C P) (q : BeamQuery C P D) (f : BeamFrame D) (s : Choice D) :
    Offered q f.visited (turnCells ix f s) (turnAgg ix q f s) := by
  have hstart : Offered q f.visited [] ({ visited := f.visited, read := [], inline := [] } : Agg D) :=
    ⟨nodup_nil, by simp [Agg.ids], by simp⟩
  exact hstart.foldl _ s.np

variable (h : Ok ix q pool₀ f) (hs : Choosing ix q pool₀ f (s.np.map (·.id)) s)

include h hs

theorem filled_turn (fl : FloatOps D) :
    Filled (turnAgg ix q f s).ids ((s.np.filter (·.ptr.isSome)).map (·.id)) s.retset
      (turnInserted fl ix q f s).2 (turnInserted fl ix q f s).1 := by
  have hoff := offered_turn ix q f s
  rw [← Agg.map_candidates ix q]
  refine filled_insertAll fl hs.shape _ ?_ fun id hid hmem => ?_
  · rw [Agg.map_candidates]
    exact hoff.nodup
  · rw [Agg.map_candidates] at hid
    rw [hs.ids] at hmem
    exact ((hoff.ids id).1 hid).2.1 (h.visited id hmem)

theorem np_mem {id : ℕ} (hid : id ∈ s.np.map (·.id)) :
    id ∈ f.retset.ids ∧ id ∈ f.visited ∧ id ∉ f.fullRetset.map (·.id) := by
  obtain ⟨p, hp, rfl⟩ := mem_map.1 hid
  have hwait := (hs.np p hp).1
  exact ⟨hwait.mem_ids, h.visited _ hwait.mem_ids, (h.full_waiting _ hwait.mem_ids).1 hwait⟩

theorem Ok.expand (fl : FloatOps D) : Ok ix q pool₀ (BeamLoop.expand fl ix q f s) := by
  have hoff := offered_turn ix q f s
  have hfill := filled_turn h hs fl
  rw [expand_eq]
  generalize turnInserted fl ix q f s = r at hfill
  generalize turnAgg ix q f s = agg at hoff hfill
  obtain ⟨hsub, hrelease, hperm⟩ := release_spec r.2 s.pool hs.keys
  have hfull : (f.fullRetset ++ turnExpanded ix q f s).map (·.id) =
      f.fullRetset.map (·.id) ++ s.np.map (·.id) := by
    rw [map_append, map_turnExpanded]
  have hnew : ∀ id ∈ agg.ids, id ∉ f.visited := fun id hid => ((hoff.ids id).1 hid).2.1
  refine ⟨hfill.shape, ?_, fun id hid => ?_, fun x hx => ?_, fun x hx => ?_, ?_, ?_, ?_, ?_, ?_⟩
  · exact hfill.capacity.trans (hs.capacity.trans h.capacity)
  · rcases hfill.mem id hid with hid | hid
    · rw [hs.ids] at hid
      exact (hoff.visited id).2 (Or.inl (h.visited id hid))
    · exact (hoff.visited id).2 (Or.inr ((hoff.ids id).1 hid).1)
  · -- it was not expanded, and is in the queue still
    obtain ⟨hx, hfree⟩ := (hrelease x).1 hx
    have hwait := hs.frontier x hx
    have hids : x.1 ∈ s.retset.ids := hs.ids ▸ hwait.mem_ids
    have hin : x.1 ∈ r.1.ids := by
      by_contra hnot
      exact hfree (hfill.lost _ hids hnot)
    refine (hfill.waiting _ hin).2 (Or.inr ((hs.waiting _).2 ⟨hwait, fun hnp => hfree ?_⟩))
    obtain ⟨p, hp, hid⟩ := mem_map.1 hnp
    refine hfill.free _ (mem_map.2 ⟨p, mem_filter.2 ⟨hp, ?_⟩, hid⟩)
    rcases hptr : p.ptr with _ | buf
    · have hcached := (hs.ptr p hp).1 hptr
      rw [show p.id = x.1 from hid, hs.uncached x hx] at hcached
      cases hcached
    · rfl
  · exact hs.uncached x (hsub.subset hx)
  · exact hs.keys.sublist (hsub.map _)
  · exact hperm.trans hs.offsets
  · rw [hfull]
    exact nodup_append'.2 ⟨h.full_nodup, hs.np_nodup,
      fun id hid hnp => (np_mem h hs hnp).2.2 hid⟩
  · intro id hid
    rw [hfull] at hid
    rcases mem_append.1 hid with hid | hid
    · exact (hoff.visited id).2 (Or.inl (h.full_visited id hid))
    · exact (hoff.visited id).2 (Or.inl (np_mem h hs hid).2.1)
  · intro id hid
    rw [hfull, hfill.waiting id hid, mem_append, not_or, hs.waiting]
    by_cases hagg : id ∈ agg.ids
    · have hnot := hnew id hagg
      exact ⟨fun _ => ⟨fun hm => hnot (h.full_visited id hm), fun hm => hnot (np_mem h hs hm).2.1⟩,
        fun _ => Or.inl hagg⟩
    · have hold := (hfill.mem id hid).resolve_right hagg
      rw [hs.ids] at hold
      rw [h.full_waiting id hold]
      exact ⟨fun hor => hor.resolve_left hagg, Or.inr⟩

omit h hs

/-- A frame that is reached: the exception leaves the offsets where they are. -/
def Inv (ix : BeamIndex C P) (q : BeamQuery C P D) (pool₀ : List ℕ) (f : BeamFrame D) : Prop :=
  (f.pool ++ f.frontier.map Prod.snd).Perm pool₀ ∧ (f.threw = false → Ok ix q pool₀ f)

theorem ok_start (fl : FloatOps D) (ix : BeamIndex C P) (q : BeamQuery C P D) (pool₀ : List ℕ)
    (mem : ℕ → ℕ) : Ok ix q pool₀ (start fl q pool₀ mem) := by
  have hnew : (PriorityQueue.new fl q.lSearch).Shape := shape_new fl q.lSearch_pos
  have hnot : (Neighbor.new q.entry q.entryDist).id ∉ (PriorityQueue.new fl q.lSearch).ids :=
    not_mem_nil
  obtain ⟨lo, hi⟩ := hnew.insertWithRemInfo fl hnot
  rw [← insert_eq] at hi
  have hids : ∀ id, id ∈ ((PriorityQueue.new fl q.lSearch).insert fl
      (.new q.entry q.entryDist)).ids → id = q.entry := by
    intro id hid
    exact (hi.mem_ids hid).resolve_right not_mem_nil
  refine ⟨hnew.inserted hi hnot, hi.capacity, fun id hid => ?_, fun x hx => ?_, fun x hx => ?_,
    nodup_nil, ?_, nodup_nil, fun id hid => ?_, fun id hid => ?_⟩
  · rw [hids id hid]
    exact mem_singleton_self _
  · exact absurd hx not_mem_nil
  · exact absurd hx not_mem_nil
  · change (pool₀ ++ []).Perm pool₀
    rw [append_nil]
  · exact absurd hid not_mem_nil
  · refine ⟨fun _ => not_mem_nil, fun _ => ?_⟩
    exact (hi.waiting_iff hnew hnot id).2 ⟨hid, Or.inl (hids id hid)⟩

theorem step_cases (hstep : BeamLoop.step fl ix q f = some f') :
    (f.threw = false ∧ f.retset.hasUnexpandedNode = true ∧ (BeamLoop.select fl ix q f).2 = true ∧
      f' = { f with
        retset := (BeamLoop.select fl ix q f).1.retset
        frontier := (BeamLoop.select fl ix q f).1.frontier
        pool := (BeamLoop.select fl ix q f).1.pool
        threw := true }) ∨
    (f.threw = false ∧ f.retset.hasUnexpandedNode = true ∧ (BeamLoop.select fl ix q f).2 = false ∧
      f' = BeamLoop.expand fl ix q f (BeamLoop.select fl ix q f).1) := by
  rw [BeamLoop.step] at hstep
  by_cases hcond : f.threw = false ∧ f.retset.hasUnexpandedNode = true ∧ f.numIos < q.ioLimit
  · rw [if_pos hcond] at hstep
    by_cases hthrew : (BeamLoop.select fl ix q f).2 = true
    · rw [if_pos hthrew] at hstep
      exact Or.inl ⟨hcond.1, hcond.2.1, hthrew, (Option.some.inj hstep).symm⟩
    · rw [if_neg hthrew] at hstep
      exact Or.inr ⟨hcond.1, hcond.2.1, Bool.eq_false_of_not_eq_true hthrew,
        (Option.some.inj hstep).symm⟩
  · rw [if_neg hcond] at hstep
    cases hstep

theorem Inv.step (h : Inv ix q pool₀ f) (hstep : BeamLoop.step fl ix q f = some f') :
    Inv ix q pool₀ f' := by
  rcases step_cases hstep with ⟨hthrew, hlt, hsel, rfl⟩ | ⟨hthrew, hlt, hsel, rfl⟩
  · obtain ⟨⟨marked, hs⟩, -⟩ := (h.2 hthrew).select fl hlt
    exact ⟨hs.offsets, fun hfalse => absurd hfalse (by simp)⟩
  · have hok := (h.2 hthrew).expand (((h.2 hthrew).select fl hlt).2 hsel) fl
    exact ⟨hok.offsets, fun _ => hok⟩

theorem inv_of_reach (h : Reach (Init fl q pool₀) (Step fl ix q) f) : Inv ix q pool₀ f := by
  refine h.invariant ?_ fun f _ f' h hstep => h.step hstep
  rintro f ⟨mem, rfl⟩
  have hok := ok_start fl ix q pool₀ mem
  exact ⟨hok.offsets, fun _ => hok⟩

/-- The frame after at most `n` turns. -/
def afterTurns (fl : FloatOps D) (ix : BeamIndex C P) (q : BeamQuery C P D) :
    ℕ → BeamFrame D → BeamFrame D
  | 0, f => f
  | n + 1, f =>
    match BeamLoop.step fl ix q f with
    | none => f
    | some f => afterTurns fl ix q n f

theorem reach_afterTurns (n : ℕ) {f : BeamFrame D} (h : Reach (Init fl q pool₀) (Step fl ix q) f) :
    Reach (Init fl q pool₀) (Step fl ix q) (afterTurns fl ix q n f) := by
  induction n generalizing f with
  | zero => exact h
  | succ n ih =>
    rw [afterTurns]
    rcases hstep : BeamLoop.step fl ix q f with _ | f'
    · exact h
    · exact ih (.next (a := ()) h hstep)

end DiskANNEval.AiSAQ.BeamLoop
