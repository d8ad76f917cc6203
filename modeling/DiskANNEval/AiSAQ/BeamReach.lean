import DiskANNEval.AiSAQ.BeamFrame
import DiskANNEval.Lib.Exploration

/-!
# BeamReach — which nodes the two searches expand

The node of an id is the one in the cache, or the record of the id in the sectors that were read for
it; an offset belongs to one id, so it has not been overwritten.  Expanding a node offers the ids of
its cells that pass, and an id that has been offered is in the queue, unless the queue is full
(`Explores.expand`, `CachedOk.step`).
-/

namespace DiskANNEval.AiSAQ

variable {C P D : Type}

/-- The node of an id. -/
def BeamIndex.node (ix : BeamIndex C P) (id : ℕ) : BeamNode C P :=
  (ix.cache id).getD (ix.record id id)

namespace BeamLoop

open Lib PriorityQueue List

variable {fl : FloatOps D} {ix : BeamIndex C P} {q : BeamQuery C P D} {pool₀ : List ℕ}

/-- The ids whose distances the expansion of `id` may put into the queue, when the ids in the cells
of a node are `nbrs`. -/
def Offers (q : BeamQuery C P D) (nbrs : ℕ → List ℕ) (id id' : ℕ) : Prop :=
  id' ∈ nbrs id ∧ q.passes id' = true

/-- The ids that have been put into the queue, when `visited` have been visited. -/
def Put (q : BeamQuery C P D) (visited : List ℕ) (id : ℕ) : Prop :=
  id ∈ visited ∧ (id = q.entry ∨ q.passes id = true)

/-- The cells of `id` in `aisaq_cached_beam_search`. -/
def aisaqNbrs (ix : BeamIndex C P) (id : ℕ) : List ℕ := cells ix (ix.node id)

/-- The cells of `id` in `cached_beam_search`. -/
def cachedNbrs (ix : BeamIndex C P) (id : ℕ) : List ℕ :=
  (List.range (ix.node id).nnbrs).map (ix.node id).nbr

theorem put_iff {visited visited' : List ℕ} {nbrs : ℕ → List ℕ} {xs : List ℕ}
    (hentry : q.entry ∈ visited)
    (hvisited : ∀ id, id ∈ visited' ↔ id ∈ visited ∨ ∃ x ∈ xs, id ∈ nbrs x) (id : ℕ) :
    Put q visited' id ↔ Put q visited id ∨ ∃ x ∈ xs, Offers q nbrs x id := by
  rw [Put, hvisited]
  constructor
  · rintro ⟨hid | ⟨x, hx, hmem⟩, hor⟩
    · exact Or.inl ⟨hid, hor⟩
    · rcases hor with rfl | hpass
      · exact Or.inl ⟨hentry, Or.inl rfl⟩
      · exact Or.inr ⟨x, hx, hmem, hpass⟩
  · rintro (⟨hid, hor⟩ | ⟨x, hx, hmem, hpass⟩)
    · exact ⟨Or.inl hid, hor⟩
    · exact ⟨Or.inr ⟨x, hx, hmem⟩, Or.inr hpass⟩

/-! ### `aisaq_cached_beam_search` -/

variable {f f' : BeamFrame D} {s : Choice D}

variable {id : ℕ}

/-- What has been read into an offset last, when the reads of an offset are for one id. -/
theorem foldl_update_eq (reqs : List (ℕ × ℕ)) (mem : ℕ → ℕ) {buf : ℕ}
    (hreqs : ∀ r ∈ reqs, r.2 = buf → r.1 = id) (h : mem buf = id ∨ ∃ r ∈ reqs, r.2 = buf) :
    reqs.foldl (fun mem r => Function.update mem r.2 r.1) mem buf = id := by
  induction reqs generalizing mem with
  | nil =>
    rcases h with h | ⟨r, hr, -⟩
    · exact h
    · exact absurd hr not_mem_nil
  | cons r reqs ih =>
    rw [foldl_cons]
    refine ih _ (fun r' hr' => hreqs r' (mem_cons_of_mem _ hr')) ?_
    by_cases hbuf : r.2 = buf
    · left
      rw [← hbuf, Function.update_self]
      exact hreqs r mem_cons_self hbuf
    · rcases h with h | ⟨r', hr', hbuf'⟩
      · left
        rw [Function.update_of_ne (Ne.symm hbuf), h]
      · rcases mem_cons.1 hr' with rfl | hr'
        · exact absurd hbuf' hbuf
        · exact Or.inr ⟨r', hr', hbuf'⟩

/-- The elements of `full_retset` are of the nodes of their ids. -/
def OfNodes (ix : BeamIndex C P) (q : BeamQuery C P D) (usesPqDist : Bool)
    (fullRetset : List (Expanded D)) : Prop :=
  ∀ e ∈ fullRetset, e.rid = (ix.node e.id).rid ∧
    (usesPqDist = false → e.distance = q.fullDist (ix.node e.id).coords)

/-- Between the turns: an offset holds the sectors of its id, and what has been visited and passes
has been put into the queue. -/
structure Explores (ix : BeamIndex C P) (q : BeamQuery C P D) (pool₀ : List ℕ) (f : BeamFrame D) :
    Prop extends Ok ix q pool₀ f where
  mem : ∀ x ∈ f.frontier, f.mem x.2 = x.1
  explored : Explored (Offers q (aisaqNbrs ix)) q.entry q.lSearch (Put q f.visited) f.retset.ids
    (f.fullRetset.map (·.id))
  ofNodes : OfNodes ix q q.usesPqDist f.fullRetset

theorem turnMem_eq (hpool : pool₀.Nodup) (hmem : ∀ x ∈ f.frontier, f.mem x.2 = x.1) {marked : List ℕ}
    (hs : Choosing ix q pool₀ f marked s) {x : ℕ × ℕ} (hx : x ∈ s.frontier) :
    turnMem f s x.2 = x.1 := by
  have hnodup : (s.frontier.map Prod.snd).Nodup :=
    (nodup_append'.1 (hs.offsets.nodup_iff.2 hpool)).2.1
  refine foldl_update_eq s.reqs f.mem (fun r hr hbuf => ?_) ?_
  · rw [inj_on_of_nodup_map hnodup (hs.reqs_mem r hr) hx hbuf]
  · rcases hs.reqs x hx with hold | hnew
    · exact Or.inl (hmem x hold)
    · exact Or.inr ⟨x, hnew, rfl⟩

theorem placed_eq (hpool : pool₀.Nodup) (hmem : ∀ x ∈ f.frontier, f.mem x.2 = x.1)
    {marked : List ℕ} (hs : Choosing ix q pool₀ f marked s) {p : Placement D} (hp : p ∈ s.np) :
    BeamLoop.placed ix (turnMem f s) p = ix.node p.id := by
  rw [BeamLoop.placed, BeamIndex.node]
  rcases hptr : p.ptr with _ | buf
  · rfl
  · have hx := (hs.ptr p hp).2 buf hptr
    have hnone := Option.isSome_eq_false_iff.1 (hs.uncached _ hx)
    rw [Option.isNone_iff_eq_none.1 hnone]
    exact congrArg (fun i => ix.record i p.id) (turnMem_eq hpool hmem hs hx)

theorem Explores.expand (h : Explores ix q pool₀ f) (hpool : pool₀.Nodup)
    (hs : Choosing ix q pool₀ f (s.np.map (·.id)) s) (fl : FloatOps D) :
    Explores ix q pool₀ (BeamLoop.expand fl ix q f s) := by
  have hok := h.toOk.expand hs fl
  have hoff := offered_turn ix q f s
  have hfill := filled_turn h.toOk hs fl
  obtain ⟨hsub, -, -⟩ := release_spec (turnInserted fl ix q f s).2 s.pool hs.keys
  have hcap : (turnInserted fl ix q f s).1.capacity = q.lSearch :=
    hfill.capacity.trans (hs.capacity.trans h.capacity)
  have hlen := hfill.shape.length_ids
  refine ⟨hok, fun x hx => ?_, ?_, fun e he => ?_⟩
  · exact turnMem_eq hpool h.mem hs (hsub.subset hx)
  · rw [expand_eq, map_append, map_turnExpanded]
    refine h.explored.expand (s.np.map (·.id)) (put_iff h.explored.entry_put.1 fun id => ?_)
      (fun id hid => ?_) hs.np_nodup hfill.shape.nodup (fun id hid => ?_) fun id hput => ?_
    · rw [hoff.visited id]
      refine or_congr_right ?_
      rw [turnCells, mem_flatMap]
      constructor
      · rintro ⟨p, hp, hid⟩
        rw [placed_eq hpool h.mem hs hp] at hid
        exact ⟨p.id, mem_map_of_mem hp, hid⟩
      · rintro ⟨i, hi, hid⟩
        obtain ⟨p, hp, rfl⟩ := mem_map.1 hi
        refine ⟨p, hp, ?_⟩
        rw [placed_eq hpool h.mem hs hp]
        exact hid
    · obtain ⟨hids, -, hfull⟩ := np_mem h.toOk hs hid
      exact ⟨h.explored.held_put id hids, hfull⟩
    · rcases hfill.mem id hid with hid | hid
      · have hput := h.explored.held_put id (hs.ids ▸ hid)
        exact ⟨(hoff.visited id).2 (Or.inl hput.1), hput.2⟩
      · obtain ⟨hgone, -, hpass⟩ := (hoff.ids id).1 hid
        exact ⟨(hoff.visited id).2 (Or.inr hgone), Or.inr hpass⟩
    · -- an id that is not in the queue has found it full
      refine or_iff_not_imp_left.2 fun hnot => ?_
      rw [hlen, ← hcap]
      refine ge_of_eq ?_
      obtain ⟨hid, hor⟩ := hput
      by_cases hvisited : id ∈ f.visited
      · rcases h.explored.held_or_full id ⟨hvisited, hor⟩ with hheld | hle
        · exact hfill.full id (Or.inl (hs.ids.symm ▸ hheld)) hnot
        · refine hfill.size ?_
          have hsize := hs.shape.size
          rw [← hs.ids, hs.shape.length_ids] at hle
          rw [hs.capacity, h.capacity] at hsize ⊢
          omega
      · have hpass : q.passes id = true := by
          refine hor.resolve_left fun heq => hvisited ?_
          rw [heq]
          exact h.explored.entry_put.1
        have hgone := ((hoff.visited id).1 hid).resolve_left hvisited
        exact hfill.full id (Or.inr ((hoff.ids id).2 ⟨hgone, hvisited, hpass⟩)) hnot
  · rw [expand_eq] at he
    rcases mem_append.1 he with he | he
    · exact h.ofNodes e he
    · obtain ⟨p, hp, rfl⟩ := mem_map.1 he
      rw [placed_eq hpool h.mem hs hp]
      refine ⟨rfl, fun hpq => ?_⟩
      rw [expandedDist, hpq]
      rfl

theorem put_entry (q : BeamQuery C P D) (id : ℕ) : Put q [q.entry] id ↔ id = q.entry := by
  rw [Put, mem_singleton]
  exact ⟨fun h => h.1, fun h => ⟨h, Or.inl h⟩⟩

theorem ids_start (fl : FloatOps D) (q : BeamQuery C P D) :
    ((PriorityQueue.new fl q.lSearch).insert fl (.new q.entry q.entryDist)).ids = [q.entry] := by
  have hnew : (PriorityQueue.new fl q.lSearch).Shape := shape_new fl q.lSearch_pos
  have hnot : (Neighbor.new q.entry q.entryDist).id ∉ (PriorityQueue.new fl q.lSearch).ids :=
    not_mem_nil
  obtain ⟨lo, hi⟩ := hnew.insertWithRemInfo fl hnot
  rw [← insert_eq] at hi
  obtain rfl : lo = 0 := Nat.le_zero.1 hi.le
  rw [PriorityQueue.ids, hi.held, map_take]
  exact take_of_length_le q.lSearch_pos

theorem explores_start (fl : FloatOps D) (ix : BeamIndex C P) (q : BeamQuery C P D)
    (pool₀ : List ℕ) (mem : ℕ → ℕ) : Explores ix q pool₀ (start fl q pool₀ mem) := by
  refine ⟨ok_start fl ix q pool₀ mem, fun x hx => absurd hx not_mem_nil, ?_,
    fun e he => absurd he not_mem_nil⟩
  change Explored _ _ _ (Put q [q.entry]) (PriorityQueue.insert _ _ _).ids []
  rw [ids_start]
  exact .start _ _ _ (put_entry q)

theorem explores_of_reach (hpool : pool₀.Nodup) (h : Reach (Init fl q pool₀) (Step fl ix q) f)
    (hthrew : f.threw = false) : Explores ix q pool₀ f := by
  have hall : f.threw = false → Explores ix q pool₀ f := by
    refine h.invariant (P := fun f => f.threw = false → Explores ix q pool₀ f) ?_ ?_
    · rintro f ⟨mem, rfl⟩ -
      exact explores_start fl ix q pool₀ mem
    · intro f _ f' ih hstep hthrew'
      rcases step_cases hstep with ⟨-, -, -, rfl⟩ | ⟨hthrew, hlt, hsel, rfl⟩
      · cases hthrew'
      · have hexp := ih hthrew
        exact hexp.expand hpool ((hexp.toOk.select fl hlt).2 hsel) fl
  exact hall hthrew

theorem Ok.mem_full (h : Ok ix q pool₀ f) (hend : f.retset.hasUnexpandedNode = false) :
    ∀ id ∈ f.retset.ids, id ∈ f.fullRetset.map (·.id) := by
  intro id hid
  by_contra hnot
  have hlt := h.shape.hasUnexpandedNode_iff.2 ⟨id, (h.full_waiting id hid).2 hnot⟩
  rw [hend] at hlt
  cases hlt

/-! ### `cached_beam_search` -/

/-- The queue when the ids `done` have been marked. -/
structure Queued (q : BeamQuery C P D) (done : List ℕ) (retset : PriorityQueue D)
    (visited : List ℕ) : Prop where
  shape : retset.Shape
  capacity : retset.capacity = q.lSearch
  put : ∀ id ∈ retset.ids, Put q visited id
  held : ∀ id, Put q visited id → id ∈ retset.ids ∨ q.lSearch ≤ retset.ids.length
  done_put : ∀ id ∈ done, Put q visited id
  done_nodup : done.Nodup
  waiting : ∀ id ∈ retset.ids, retset.Waiting id ↔ id ∉ done

variable {retset : PriorityQueue D} {visited visited' done : List ℕ} {g g' : CachedFrame D}

theorem Put.mono (h : Put q visited id) (hsub : ∀ i ∈ visited, i ∈ visited') : Put q visited' id :=
  ⟨hsub id h.1, h.2⟩

theorem Queued.insert (h : Queued q done retset visited) (fl : FloatOps D) (hnew : id ∉ visited)
    (hpass : q.passes id = true) (dist : D) :
    Queued q done (retset.insert fl (.new id dist)) (id :: visited) := by
  have hnot : (Neighbor.new id dist).id ∉ retset.ids := fun hmem => hnew (h.put id hmem).1
  obtain ⟨lo, hi⟩ := h.shape.insertWithRemInfo fl hnot
  rw [← insert_eq] at hi
  have hshape := h.shape.inserted hi hnot
  have hsub : ∀ i ∈ visited, i ∈ id :: visited := fun i hmem => mem_cons_of_mem _ hmem
  refine ⟨hshape, hi.capacity.trans h.capacity, fun i hmem => ?_, fun i hput => ?_,
    fun i hmem => (h.done_put i hmem).mono hsub, h.done_nodup, fun i hmem => ?_⟩
  · rcases hi.mem_ids hmem with rfl | hmem
    · exact ⟨mem_cons_self, Or.inr hpass⟩
    · exact (h.put i hmem).mono hsub
  · -- an id that is not in the queue has found it full
    refine or_iff_not_imp_left.2 fun hout => ?_
    rw [hshape.length_ids, ← h.capacity, ← hi.capacity]
    refine ge_of_eq ?_
    rcases mem_cons.1 hput.1 with rfl | hmem
    · exact hi.full h.shape (Or.inl rfl) hout
    · rcases h.held i ⟨hmem, hput.2⟩ with hheld | hle
      · exact hi.full h.shape (Or.inr hheld) hout
      · rw [h.shape.length_ids] at hle
        have hcap := h.capacity
        rw [hi.size, hi.capacity]
        omega
  · rw [hi.waiting_iff h.shape hnot i]
    constructor
    · rintro ⟨-, rfl | hwait⟩ hdone
      · exact hnew (h.done_put _ hdone).1
      · exact (h.waiting i hwait.mem_ids).1 hwait hdone
    · intro hdone
      refine ⟨hmem, (hi.mem_ids hmem).imp_right fun hold => (h.waiting i hold).2 hdone⟩

theorem Queued.skip (h : Queued q done retset visited) (hentry : q.entry ∈ visited)
    (hnew : id ∉ visited) (hpass : ¬ q.passes id = true) :
    Queued q done retset (id :: visited) := by
  have hsub : ∀ i ∈ visited, i ∈ id :: visited := fun i hmem => mem_cons_of_mem _ hmem
  refine { h with
    put := fun i hmem => (h.put i hmem).mono hsub
    held := fun i hput => h.held i ⟨?_, hput.2⟩
    done_put := fun i hmem => (h.done_put i hmem).mono hsub }
  refine (mem_cons.1 hput.1).resolve_left fun heq => ?_
  subst heq
  rcases hput.2 with rfl | hp
  · exact hnew hentry
  · exact hpass hp

theorem Queued.offerNbr (h : Queued q done retset visited) (hentry : q.entry ∈ visited)
    (fl : FloatOps D) (ix : BeamIndex C P) (id : ℕ) :
    Queued q done (offerNbr fl ix q (retset, visited) id).1 (offerNbr fl ix q (retset, visited) id).2 ∧
      ∀ i, i ∈ (offerNbr fl ix q (retset, visited) id).2 ↔ i ∈ visited ∨ i = id := by
  rw [BeamLoop.offerNbr]
  by_cases hmem : id ∈ visited
  · rw [if_pos hmem]
    refine ⟨h, fun i => ⟨Or.inl, ?_⟩⟩
    rintro (hi | rfl)
    · exact hi
    · exact hmem
  · rw [if_neg hmem]
    refine ⟨?_, fun i => mem_cons.trans or_comm⟩
    by_cases hpass : q.passes id = true
    · simp only [if_pos hpass]
      exact h.insert fl hmem hpass _
    · simp only [if_neg hpass]
      exact h.skip hentry hmem hpass

theorem Queued.foldl_offerNbr (h : Queued q done retset visited) (hentry : q.entry ∈ visited)
    (fl : FloatOps D) (ix : BeamIndex C P) (l : List ℕ) :
    Queued q done (l.foldl (BeamLoop.offerNbr fl ix q) (retset, visited)).1
        (l.foldl (BeamLoop.offerNbr fl ix q) (retset, visited)).2 ∧
      ∀ i, i ∈ (l.foldl (BeamLoop.offerNbr fl ix q) (retset, visited)).2 ↔ i ∈ visited ∨ i ∈ l := by
  induction l generalizing retset visited with
  | nil => exact ⟨h, fun i => ⟨Or.inl, fun hor => hor.resolve_right not_mem_nil⟩⟩
  | cons id l ih =>
    obtain ⟨hid, hmem⟩ := h.offerNbr hentry fl ix id
    obtain ⟨hl, hmem'⟩ := ih hid ((hmem _).2 (Or.inl hentry))
    refine ⟨hl, fun i => ?_⟩
    rw [foldl_cons, hmem', hmem, mem_cons, or_assoc]

theorem Queued.closestUnexpanded (h : Queued q done retset visited)
    (hlt : retset.hasUnexpandedNode = true) :
    ∃ n, retset.closestUnexpanded.2 = some n ∧
      Queued q (n.id :: done) retset.closestUnexpanded.1 visited := by
  obtain ⟨hshape, hmarks, n, hn, hun, heq⟩ := h.shape.closestUnexpanded (of_decide_eq_true hlt)
  have hwait : retset.Waiting n.id := ⟨n, mem_of_getElem? hn, rfl, hun⟩
  refine ⟨_, heq, hshape, hmarks.capacity.trans h.capacity, ?_, ?_, ?_, ?_, fun i hi => ?_⟩
  · rw [hmarks.ids]
    exact h.put
  · rw [hmarks.ids]
    exact h.held
  · exact forall_mem_cons.2 ⟨h.put _ hwait.mem_ids, h.done_put⟩
  · exact nodup_cons.2 ⟨(h.waiting _ hwait.mem_ids).1 hwait, h.done_nodup⟩
  · rw [hmarks.ids] at hi
    rw [hmarks.waiting_iff h.shape hn, h.waiting i hi, mem_cons, not_or, and_comm]

theorem Queued.congr (h : Queued q done retset visited) {done' : List ℕ} (hperm : done.Perm done') :
    Queued q done' retset visited :=
  { h with
    done_put := fun i hi => h.done_put i (hperm.mem_iff.2 hi)
    done_nodup := hperm.nodup_iff.1 h.done_nodup
    waiting := fun i hi => (h.waiting i hi).trans (not_congr hperm.mem_iff) }

theorem Queued.closest (ix : BeamIndex C P) (n : ℕ) (cachedNhoods frontier : List ℕ)
    (h : Queued q (cachedNhoods ++ frontier ++ done) retset visited) :
    Queued q ((BeamLoop.closest ix n retset cachedNhoods frontier).2.1 ++
        (BeamLoop.closest ix n retset cachedNhoods frontier).2.2 ++ done)
      (BeamLoop.closest ix n retset cachedNhoods frontier).1 visited := by
  induction n generalizing retset cachedNhoods frontier with
  | zero => exact h
  | succ n ih =>
    rw [BeamLoop.closest]
    by_cases hlt : retset.hasUnexpandedNode = true
    · rw [if_pos hlt]
      obtain ⟨nbr, heq, hnext⟩ := h.closestUnexpanded hlt
      rcases hclosest : retset.closestUnexpanded with ⟨retset', o⟩
      rw [hclosest] at heq hnext
      subst heq
      dsimp only
      split_ifs with hcache
      · refine ih _ _ (hnext.congr ?_)
        rw [append_assoc, append_assoc, append_assoc]
        exact perm_middle.symm
      · refine ih _ _ (hnext.congr ?_)
        rw [← append_assoc, append_assoc _ [nbr.id]]
        exact perm_middle.symm
    · rw [if_neg hlt]
      exact h

/-- In a turn of the loop, when the ids `pending` have been marked and not expanded. -/
structure CachedOk (ix : BeamIndex C P) (q : BeamQuery C P D) (pending : List ℕ)
    (g : CachedFrame D) : Prop where
  queued : Queued q (pending ++ g.fullRetset.map (·.id)) g.retset g.visited
  explored : Explored (Offers q (cachedNbrs ix)) q.entry q.lSearch (Put q g.visited) g.retset.ids
    (g.fullRetset.map (·.id))
  ofNodes : OfNodes ix q false g.fullRetset

theorem CachedOk.expandNode {pending : List ℕ} (h : CachedOk ix q (id :: pending) g)
    (fl : FloatOps D) : CachedOk ix q pending (BeamLoop.expandNode fl ix q g id) := by
  obtain ⟨hqueued, hvisited⟩ := h.queued.foldl_offerNbr h.explored.entry_put.1 fl ix (cachedNbrs ix id)
  have hnodup := h.queued.done_nodup
  rw [cons_append, nodup_cons, mem_append, not_or] at hnodup
  have hfull : (BeamLoop.expandNode fl ix q g id).fullRetset.map (·.id) =
      g.fullRetset.map (·.id) ++ [id] := map_append
  refine ⟨?_, ?_, fun e he => ?_⟩
  · rw [hfull]
    refine hqueued.congr ?_
    rw [← append_assoc]
    exact (perm_append_singleton _ _).symm
  · rw [hfull]
    refine h.explored.expand [id] (put_iff h.explored.entry_put.1 fun i => ?_) ?_
      (nodup_singleton id) hqueued.shape.nodup hqueued.put hqueued.held
    · simp only [mem_singleton, exists_eq_left]
      exact hvisited i
    · intro x hx
      rw [mem_singleton.1 hx]
      exact ⟨h.queued.done_put id mem_cons_self, hnodup.1.2⟩
  · rcases mem_append.1 he with he | he
    · exact h.ofNodes e he
    · rw [mem_singleton.1 he]
      exact ⟨rfl, fun _ => rfl⟩

theorem CachedOk.foldl_expandNode {pending : List ℕ} (h : CachedOk ix q pending g)
    (fl : FloatOps D) : CachedOk ix q [] (pending.foldl (BeamLoop.expandNode fl ix q) g) := by
  induction pending generalizing g with
  | nil => exact h
  | cons id pending ih => exact ih (h.expandNode fl)

theorem CachedOk.step (h : CachedOk ix q [] g) (hstep : cachedStep fl ix q g = some g') :
    CachedOk ix q [] g' := by
  rw [cachedStep] at hstep
  split_ifs at hstep
  have hclosest := Queued.closest ix q.beamWidth [] [] h.queued
  have hexplored := h.explored.congr hclosest.shape.nodup hclosest.put hclosest.held
  rw [← Option.some.inj hstep]
  generalize BeamLoop.closest ix q.beamWidth g.retset [] [] = r at hclosest hexplored
  have hok : CachedOk ix q (r.2.1 ++ r.2.2)
      { g with
        retset := r.1
        numIos := g.numIos + r.2.2.length } := ⟨hclosest, hexplored, h.ofNodes⟩
  exact hok.foldl_expandNode fl

theorem cachedOk_of_reach (h : Reach (CachedInit fl q) (CachedStep fl ix q) g) :
    CachedOk ix q [] g := by
  refine h.invariant ?_ fun g _ g' ih hstep => ih.step hstep
  rintro g rfl
  have hok := ok_start fl ix q [] id
  have hids := ids_start fl q
  have hput : ∀ id, id ∈ [q.entry] ↔ Put q [q.entry] id := fun id =>
    mem_singleton.trans (put_entry q id).symm
  refine ⟨⟨hok.shape, hok.capacity, fun id hid => ?_, fun id hid => ?_, fun id hid => ?_,
    nodup_nil, fun id hid => ?_⟩, ?_, fun e he => absurd he not_mem_nil⟩
  · exact (hput id).1 (hids ▸ hid)
  · refine Or.inl ?_
    change id ∈ (PriorityQueue.insert _ _ _).ids
    rw [hids]
    exact (hput id).2 hid
  · exact absurd hid not_mem_nil
  · exact hok.full_waiting id hid
  · change Explored _ _ _ (Put q [q.entry]) (PriorityQueue.insert _ _ _).ids []
    rw [hids]
    exact .start _ _ _ (put_entry q)

theorem CachedOk.mem_full (h : CachedOk ix q [] g) (hend : g.retset.hasUnexpandedNode = false) :
    ∀ id ∈ g.retset.ids, id ∈ g.fullRetset.map (·.id) := by
  intro id hid
  by_contra hnot
  have hlt := h.queued.shape.hasUnexpandedNode_iff.2 ⟨id, (h.queued.waiting id hid).2 hnot⟩
  rw [hend] at hlt
  cases hlt

end BeamLoop

end DiskANNEval.AiSAQ
