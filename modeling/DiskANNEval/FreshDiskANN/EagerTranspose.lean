import DiskANNEval.FreshDiskANN.EagerIndex
import DiskANNEval.FreshDiskANN.IndexMerger

/-!
# EagerTranspose — `_in_graph` over whole runs

Each change of a list in `_final_graph` is made in `_in_graph` too, so each edge is in both graphs as
often (`Lib.Mirrored`).  No list mentions an eagerly deleted location (`Avoids`) as long as no search
starts at one, since what a search meets lies behind the entry.  `eager_delete` leaves `_ep` where it
is: a point that is inserted after its location is deleted gets an edge to it.
-/

namespace DiskANNEval.FreshDiskANN

open Lib List Option Function

namespace EagerIndex

variable {D V Tag : Type} {c : EagerConfig D V} {p : EagerParams D} {s s' : EagerIndex V Tag}
  {E : Finset ℕ}

/-! ### Lists that avoid some locations -/

/-- No list mentions a location of `E`. -/
def Avoids (c : EagerConfig D V) (E : Finset ℕ) (g : ℕ → List ℕ) : Prop :=
  ∀ a < c.total, ∀ d ∈ g a, d ∉ E

variable {a node n id : ℕ} {nbrs : List ℕ}

theorem Avoids.update {g : ℕ → List ℕ} (h : Avoids c E g) (hn : a < c.total → ∀ d ∈ nbrs, d ∉ E) :
    Avoids c E (Function.update g a nbrs) := by
  intro i hi
  by_cases hia : i = a
  · subst hia
    rw [update_self]
    exact hn hi
  · rw [update_of_ne hia]
    exact h i hi

theorem Avoids.mono {E' : Finset ℕ} {g : ℕ → List ℕ} (h : Avoids c E g) (hE : E' ⊆ E) :
    Avoids c E' g :=
  fun a ha d hd hd' => h a ha d hd (hE hd')

variable {pool : List (Neighbor D)}

theorem mem_addToPool (h : n ∈ (s.addToPool c node pool nbrs).map Neighbor.id) :
    n ∈ pool.map Neighbor.id ∨ n ∈ nbrs := by
  induction nbrs generalizing pool with
  | nil => exact .inl h
  | cons id nbrs ih =>
    obtain h | h := ih h
    · dsimp only at h
      split_ifs at h
      · exact .inl h
      · rw [map_append] at h
        obtain h | h := mem_append.1 h
        · exact .inl h
        · exact .inr (mem_cons.2 (.inl (mem_singleton.1 h)))
    · exact .inr (mem_cons_of_mem id h)

theorem mem_pruneNeighbors {location : ℕ} (h : n ∈ s.pruneNeighbors c p location pool) :
    n ∈ pool.map Neighbor.id ∧ n ≠ location := by
  have hperm := (p.pruning.sort_perm pool).map Neighbor.id
  have hkept : ∀ n ∈ ((p.pruning.occludeList (s.djk c) (p.pruning.sort pool)).map
      Neighbor.id).filter fun id => id ≠ location, n ∈ pool.map Neighbor.id ∧ n ≠ location := by
    intro n hn
    obtain ⟨hn, hne⟩ := mem_filter.1 hn
    obtain ⟨x, hx, rfl⟩ := mem_map.1 hn
    refine ⟨hperm.mem_iff.1 (mem_map_of_mem (Pruning.occludeList_subset hx)), ?_⟩
    exact of_decide_eq_true hne
  rw [pruneNeighbors] at h
  split_ifs at h
  · obtain h | h := Pruning.mem_fill h
    · exact hkept n h
    · obtain ⟨x, hx, rfl⟩ := mem_map.1 h
      obtain ⟨hx, hne⟩ := mem_filter.1 hx
      exact ⟨hperm.mem_iff.1 (mem_map_of_mem hx), of_decide_eq_true hne⟩
  · exact hkept n h

theorem mem_shortened (h : n ∈ s.shortened c p node nbrs) : n ∈ nbrs :=
  (mem_addToPool (mem_pruneNeighbors h).1).resolve_left not_mem_nil

theorem Avoids.expanded [LinearOrder D] [Zero D] (h : Avoids c E s.finalGraph) (hep : s.ep ∉ E)
    (hs : s.getExpandedNodes c p node = some pool) : ∀ n ∈ pool.map Neighbor.id, n ∉ E := by
  rw [getExpandedNodes] at hs
  split_ifs at hs with htotal
  obtain ⟨r, hr, rfl⟩ := map_eq_some_iff.1 hs
  have hok := PipeANN.FixedPoint.ok_of_iterateToFixedPoint (P := fun n => n < c.total ∧ n ∉ E)
    ⟨htotal, hep⟩ (fun id hid n hn hlt => ⟨hlt, h id hid.1 n hn⟩) hr
  intro n hn
  obtain ⟨x, hx, rfl⟩ := mem_map.1 hn
  obtain ⟨e, he, rfl⟩ := mem_map.1 hx
  exact (hok.expanded e he).1.2

/-! ### Building -/

section Build

variable [LinearOrder D] [Zero D] {b : EagerBuildParams D}

/-- What holds while the lists of a build are made. -/
structure Linking (c : EagerConfig D V) (E : Finset ℕ) (nd : ℕ) (s : EagerIndex V Tag) : Prop where
  avoids : Avoids c E s.finalGraph
  ep : 0 < nd ∨ 0 < c.numFrozenPts → s.ep ∉ E
  nd : s.nd = nd

variable {nd : ℕ}

omit [LinearOrder D] [Zero D] in
theorem Linking.setNbrs (h : Linking c E nd s) {a : ℕ} {nbrs : List ℕ}
    (hn : a < c.total → ∀ d ∈ nbrs, d ∉ E) : Linking c E nd (s.setNbrs a nbrs) :=
  ⟨h.avoids.update hn, h.ep, h.nd⟩

theorem Linking.searchNode (h : Linking c E nd s) (hsome : 0 < nd ∨ 0 < c.numFrozenPts) {node : ℕ}
    (hnode : node < c.total) {l : ℕ × List ℕ} (hl : s.searchNode c p node = some l) :
    l.1 = node ∧ ∀ d ∈ l.2, d ∉ E := by
  obtain ⟨pool, hpool, hl⟩ := bind_eq_some_iff.1 hl
  cases hl
  refine ⟨rfl, fun d hd => ?_⟩
  obtain hd | hd := mem_addToPool (mem_pruneNeighbors hd).1
  · exact h.avoids.expanded (h.ep hsome) hpool d hd
  · exact h.avoids node hnode d hd

section

omit [LinearOrder D] [Zero D]

theorem Linking.batchInterInsertAt {x : EagerIndex V Tag × Finset ℕ} (h : Linking c E nd x.1)
    {e : ℕ × ℕ} (hn : e.1 ∉ E) : Linking c E nd (EagerIndex.batchInterInsertAt p x e).1 := by
  rw [EagerIndex.batchInterInsertAt]
  split_ifs
  · exact h
  all_goals
    apply h.setNbrs
    intro hdes d hd
    obtain hd | hd := mem_append.1 hd
    · exact h.avoids e.2 hdes d hd
    · rwa [mem_singleton.1 hd]

theorem Linking.shorten (h : Linking c E nd s) (node : ℕ) : Linking c E nd (s.shorten c p node) :=
  h.setNbrs fun hnode d hd => h.avoids node hnode d (mem_shortened hd)

theorem Linking.cleanup (h : Linking c E nd s) (node : ℕ) : Linking c E nd (s.cleanup c p node) := by
  rw [EagerIndex.cleanup]
  split_ifs
  · exact h.shorten node
  · exact h

end

theorem Linking.linkBatch {x x' : EagerIndex V Tag × Finset ℕ} (h : Linking c E nd x.1)
    {order : List (ℕ × ℕ) → List (ℕ × ℕ)} (horder : ∀ l, (order l).Perm l) {nodes : List ℕ}
    (hnodes : ∀ node ∈ nodes, (0 < nd ∨ 0 < c.numFrozenPts) ∧ node < c.total ∧ node ∉ E)
    (hx : EagerIndex.linkBatch c p order x nodes = some x') : Linking c E nd x'.1 := by
  obtain ⟨lists, hlists, hx⟩ := bind_eq_some_iff.1 hx
  cases hx
  have hall : ∀ l ∈ lists, l.1 ∉ E ∧ ∀ d ∈ l.2, d ∉ E := by
    intro l hl
    obtain ⟨node, hnode, hf⟩ := exists_of_mem_mapM hlists hl
    obtain ⟨hsome, hlt, hnot⟩ := hnodes node hnode
    obtain ⟨heq, hd⟩ := h.searchNode hsome hlt hf
    exact ⟨heq ▸ hnot, hd⟩
  have hset : Linking c E nd (lists.foldl (fun s l => s.setNbrs l.1 l.2) x.1) :=
    foldlRecOn lists _ h fun s hs l hl => hs.setNbrs fun _ => (hall l hl).2
  have hedges : ∀ e ∈ order (lists.flatMap fun l => l.2.map fun des => (l.1, des)), e.1 ∉ E := by
    intro e he
    obtain ⟨l, hl, he⟩ := mem_flatMap.1 ((horder _).mem_iff.1 he)
    obtain ⟨des, -, rfl⟩ := mem_map.1 he
    exact (hall l hl).1
  have hinter := foldlRecOn (motive := fun x => Linking c E nd x.1)
    (order (lists.flatMap fun l => l.2.map fun des => (l.1, des)))
    (EagerIndex.batchInterInsertAt p) (b := (_, x.2)) hset
    fun x hx e he => hx.batchInterInsertAt (hedges e he)
  exact foldlRecOn (motive := Linking c E nd) _ (EagerIndex.shorten c p) hinter
    fun s hs node _ => hs.shorten node

omit [LinearOrder D] [Zero D] in
theorem mem_visitOrder {node : ℕ} (h : node ∈ s.visitOrder c) :
    node < s.nd ∨ node = c.maxPoints ∧ 0 < c.numFrozenPts := by
  obtain h | h := mem_append.1 h
  · exact .inl (List.mem_range.1 h)
  · split_ifs at h with hf
    · exact .inr ⟨mem_singleton.1 h, hf⟩
    · exact absurd h not_mem_nil

theorem Linking.pass (h : Linking c E nd s) {rndNo : ℕ}
    (hnodes : ∀ node ∈ s.visitOrder c,
      (0 < nd ∨ 0 < c.numFrozenPts) ∧ node < c.total ∧ node ∉ E)
    (hs : s.pass c p b rndNo = some s') : Linking c E nd s' := by
  obtain ⟨x, hx, rfl⟩ := map_eq_some_iff.1 hs
  refine foldlM_keeps (P := fun x : EagerIndex V Tag × Finset ℕ => Linking c E nd x.1) h ?_ hx
  intro x hx syncNum _ x' hx'
  refine hx.linkBatch (b.threadOrder_perm rndNo syncNum) (fun node hnode => hnodes node ?_) hx'
  exact mem_of_mem_take (mem_of_mem_drop hnode)

omit [Zero D] in
theorem calculateEntryPoint_lt (hnd : 0 < s.nd) : s.calculateEntryPoint c < s.nd := by
  refine foldlRecOn (motive := fun i => i < s.nd) _ _ hnd fun i hi j hj => ?_
  split_ifs
  · exact List.mem_range.1 hj
  · exact hi

theorem avoids_link (h : Avoids c E s.finalGraph) (hnd : s.nd ≤ c.maxPoints)
    (hE : ∀ node < c.total, node < s.nd ∨ c.maxPoints ≤ node → node ∉ E)
    (hs : s.link c b = some s') :
    Avoids c E s'.finalGraph := by
  obtain ⟨s₁, h₁, hs⟩ := bind_eq_some_iff.1 hs
  obtain ⟨s₂, h₂, hs⟩ := bind_eq_some_iff.1 hs
  cases hs
  have htotal : c.total = c.maxPoints + c.numFrozenPts := rfl
  have hnodes : ∀ r : EagerIndex V Tag, r.nd = s.nd → ∀ node ∈ r.visitOrder c,
      (0 < s.nd ∨ 0 < c.numFrozenPts) ∧ node < c.total ∧ node ∉ E := by
    intro r hr node hnode
    obtain hlt | ⟨rfl, hf⟩ := mem_visitOrder hnode
    · rw [hr] at hlt
      exact ⟨.inl (by omega), by omega, hE node (by omega) (.inl hlt)⟩
    · exact ⟨.inr hf, by omega, hE _ (by omega) (.inr le_rfl)⟩
  have h0 : Linking c E s.nd { s with
      saturateGraph := b.saturateGraph
      ep := if 0 < c.numFrozenPts then c.maxPoints else s.calculateEntryPoint c } := by
    refine ⟨h, fun hsome => ?_, rfl⟩
    dsimp only
    split_ifs with hf
    · exact hE _ (by omega) (.inr le_rfl)
    · have hlt := calculateEntryPoint_lt (c := c) (hsome.resolve_right hf)
      exact hE _ (by omega) (.inl hlt)
  have hp₁ := h0.pass (hnodes _ rfl) h₁
  have hp₂ := hp₁.pass (hnodes s₁ hp₁.nd) h₂
  exact (foldlRecOn (motive := Linking c E s.nd) _ (EagerIndex.cleanup c b.last) hp₂
    fun s hs node _ => hs.cleanup node).avoids

end Build

/-! ### Both graphs -/

/-- Each edge is in both graphs as often, and no list mentions a location of `E`. -/
structure Ok (c : EagerConfig D V) (E : Finset ℕ) (s : EagerIndex V Tag) : Prop where
  mirrored : ∀ x < c.total, ∀ y, Mirrored s.finalGraph s.inGraph x y
  avoids : Avoids c E s.finalGraph

theorem Ok.updateInGraph (h : Avoids c E s.finalGraph) : Ok c E (s.updateInGraph c) where
  mirrored _ hx _ := mirrored_startsOf nodup_range (List.mem_range.2 hx)
  avoids := h

theorem Ok.addEdge (h : Ok c E s) (a : ℕ) {b : ℕ} (hb : b ∉ E) : Ok c E (s.addEdge a b) where
  mirrored x hx y := (h.mirrored x hx y).push
  avoids := by
    apply h.avoids.update
    intro ha d hd
    obtain hd | hd := mem_append.1 hd
    · exact h.avoids a ha d hd
    · rwa [mem_singleton.1 hd]

theorem Ok.relist (h : Ok c E s) (hn : a < c.total → ∀ d ∈ nbrs, d ∉ E) :
    Ok c E (s.relist a nbrs) where
  mirrored x hx y := (h.mirrored x hx y).relist
  avoids := h.avoids.update hn

theorem Ok.setEdges (h : Ok c E s) (hn : ∀ d ∈ nbrs, d ∉ E) : Ok c E (s.setEdges a nbrs) where
  mirrored x hx y := (h.mirrored x hx y).relist_remove
  avoids := h.avoids.update fun _ => hn

/-! ### Insertions -/

theorem Ok.interInsertAt (h : Ok c E s) (hn : n ∉ E) (des : ℕ) :
    Ok c E (interInsertAt c p n s des) := by
  rw [EagerIndex.interInsertAt]
  split_ifs
  · exact h
  · exact h.addEdge des hn
  · apply h.relist
    intro hdes d hd
    obtain hd | hd := mem_append.1 (mem_shortened hd)
    · exact h.avoids des hdes d hd
    · rwa [mem_singleton.1 hd]

theorem Ok.interInsert (h : Ok c E s) (hn : n ∉ E) (prunedList : List ℕ) :
    Ok c E (s.interInsert c p n prunedList) :=
  foldlRecOn prunedList _ h fun _ hs des _ => hs.interInsertAt hn des

theorem Ok.linkPoint [LinearOrder D] [Zero D] (h : Ok c E s) (hep : s.ep ∉ E) {location : ℕ}
    (hl : location ∉ E) (hs : s.linkPoint c p location = some s') : Ok c E s' := by
  obtain ⟨pool, hpool, hs⟩ := bind_eq_some_iff.1 hs
  cases hs
  refine (h.setEdges fun d hd => ?_).interInsert hl _
  have hsub : pool.eraseP (fun n => n.id = location) ⊆ pool := eraseP_sublist.subset
  exact h.avoids.expanded hep hpool d (map_subset _ hsub (mem_pruneNeighbors hd).1)

variable [DecidableEq Tag]

/-- The locations that an insertion hands out. -/
def handedOut (c : EagerConfig D V) (s : EagerIndex V Tag) : Finset ℕ :=
  if c.maxPoints ≤ s.nd then ∅ else {s.location c}

variable {tag : Tag}

theorem Ok.insertPoint [LinearOrder D] [Zero D] (h : Ok c E s) {point : V}
    (hep : s.ep ∈ E → s.ep ∈ s.handedOut c) (hs : s.insertPoint c p point tag = some s') :
    Ok c (E \ s.handedOut c) s' := by
  have hE : Ok c (E \ s.handedOut c) s := ⟨h.mirrored, h.avoids.mono Finset.sdiff_subset⟩
  have hep' : s.ep ∉ E \ s.handedOut c := fun hm =>
    (Finset.mem_sdiff.1 hm).2 (hep (Finset.mem_sdiff.1 hm).1)
  rw [EagerIndex.insertPoint] at hs
  split_ifs at hs with _ hroom _
  · exact Option.some.inj hs ▸ hE
  · have hl : s.location c ∉ E \ s.handedOut c := by
      rw [handedOut, if_neg hroom]
      simp
    have hgraph : Ok c (E \ s.handedOut c)
        ((s.reserveLocation c).addPoint point tag (s.location c)) ∧
        ((s.reserveLocation c).addPoint point tag (s.location c)).ep = s.ep := by
      rw [reserveLocation]
      split_ifs
      · exact ⟨⟨hE.mirrored, hE.avoids⟩, rfl⟩
      · exact ⟨⟨hE.mirrored, hE.avoids⟩, rfl⟩
    exact hgraph.1.linkPoint (hgraph.2 ▸ hep') hl hs

/-! ### Deletions -/

omit [DecidableEq Tag] in
theorem expanded_lt [LinearOrder D] [Zero D] (hs : s.getExpandedNodes c p node = some pool) :
    ∀ n ∈ pool.map Neighbor.id, n < c.total := by
  rw [getExpandedNodes] at hs
  split_ifs at hs with htotal
  obtain ⟨r, hr, rfl⟩ := map_eq_some_iff.1 hs
  have hok := PipeANN.FixedPoint.ok_of_iterateToFixedPoint (P := fun n => n < c.total)
    htotal (fun _ _ _ _ hlt => hlt) hr
  intro n hn
  obtain ⟨x, hx, rfl⟩ := mem_map.1 hn
  obtain ⟨e, he, rfl⟩ := mem_map.1 hx
  exact (hok.expanded e he).1

/-- What holds while `id` is deleted: no other list mentions it. -/
structure Deleting (c : EagerConfig D V) (E : Finset ℕ) (id : ℕ) (s : EagerIndex V Tag) : Prop where
  dropped : ∀ x < c.total, ∀ y, Dropped s.finalGraph s.inGraph id x y
  avoids : Avoids c E s.finalGraph

section

omit [DecidableEq Tag]

theorem map_id_expandedNghrs (id ngh : ℕ) :
    (s.expandedNghrs c id ngh).map Neighbor.id =
      c.setOrder (((s.finalGraph id ++ s.finalGraph ngh).filter fun j =>
        j ≠ id ∧ j ≠ ngh ∧ j ∉ s.deleteSet).dedup) := by
  rw [expandedNghrs, List.map_map]
  exact map_id _

theorem nodup_expandedNghrs (id ngh : ℕ) :
    ((s.expandedNghrs c id ngh).map Neighbor.id).Nodup := by
  rw [map_id_expandedNghrs, (c.setOrder_perm _).nodup_iff]
  exact nodup_dedup _

theorem mem_expandedNghrs {ngh j : ℕ} (h : j ∈ (s.expandedNghrs c id ngh).map Neighbor.id) :
    (j ∈ s.finalGraph id ∨ j ∈ s.finalGraph ngh) ∧ j ≠ id := by
  rw [map_id_expandedNghrs, (c.setOrder_perm _).mem_iff, mem_dedup] at h
  obtain ⟨hj, hne⟩ := mem_filter.1 h
  exact ⟨mem_append.1 hj, (of_decide_eq_true hne).1⟩

theorem Deleting.repair (h : Deleting c E id s) (hid : id < c.total) {ngh : ℕ} (hne : ngh ≠ id)
    (hngh : ngh < c.total) : Deleting c E id (repair c p id s ngh) := by
  rw [EagerIndex.repair]
  split_ifs
  · exact h
  set result := p.pruning.occludeList (s.djk c) (p.pruning.sort (s.expandedNghrs c id ngh))
  set nbrs := (result.map Neighbor.id).filter fun j => j ∉ s.deleteSet
  have hperm := (p.pruning.sort_perm (s.expandedNghrs c id ngh)).map Neighbor.id
  have hnodup : nbrs.Nodup := by
    apply Nodup.filter
    apply Pruning.nodup_occludeList p.belowMax
    exact hperm.nodup_iff.2 (nodup_expandedNghrs id ngh)
  have hmem : ∀ d ∈ nbrs, (d ∈ s.finalGraph id ∨ d ∈ s.finalGraph ngh) ∧ d ≠ id := by
    intro d hd
    obtain ⟨x, hx, rfl⟩ := mem_map.1 (mem_filter.1 hd).1
    refine mem_expandedNghrs (hperm.mem_iff.1 ?_)
    exact mem_map_of_mem (Pruning.occludeList_subset hx)
  -- the old edges of `ngh` are gone, so each new one is put into `_in_graph`
  have hnew : ∀ d ∈ nbrs, ngh ∉ eraseEach s.inGraph ngh (s.finalGraph ngh) d := by
    intro d hd
    rw [← count_eq_zero, count_eraseEach, if_pos rfl,
      (h.dropped ngh hngh d).mirrored hne (hmem d hd).2]
    exact Nat.sub_self _
  have happend := insertEach_eq_appendEach hnodup hnew
  refine ⟨fun x hx y => ?_, h.avoids.update fun _ d hd => ?_⟩
  · show Dropped (Function.update s.finalGraph ngh nbrs)
      (insertEach (eraseEach s.inGraph ngh (s.finalGraph ngh)) ngh nbrs) id x y
    rw [happend]
    exact (h.dropped x hx y).relist hne fun hd => (hmem id hd).2 rfl
  · obtain hd | hd := (hmem d hd).1
    · exact h.avoids id hid d hd
    · exact h.avoids ngh hngh d hd

end

theorem Ok.removeFromInNbrs (h : Ok c E s) (hid : id < c.total) :
    Deleting c E id ((s.dropTag tag id).removeFromInNbrs id) where
  dropped x hx y := Mirrored.dropped (h.mirrored x hx) (h.mirrored id hid y)
  avoids a ha d hd := by
    have hd' : d ∈ if a ∈ (s.dropTag tag id).inGraph id then (s.finalGraph a).filter (· ≠ id)
        else s.finalGraph a := hd
    split_ifs at hd'
    · exact h.avoids a ha d (mem_filter.1 hd').1
    · exact h.avoids a ha d hd'

omit [DecidableEq Tag] in
theorem Deleting.clearLists (h : Deleting c E id s) : Ok c (insert id E) (s.clearLists id) where
  mirrored x hx y := (h.dropped x hx y).clear
  avoids a ha d hd := by
    have hd' : d ∈ Function.update s.finalGraph id [] a := hd
    by_cases haid : a = id
    · rw [haid, update_self] at hd'
      exact absurd hd' not_mem_nil
    · rw [update_of_ne haid] at hd'
      rw [Finset.mem_insert, not_or]
      refine ⟨?_, h.avoids a ha d hd'⟩
      rintro rfl
      exact count_eq_zero.1 ((h.dropped a ha d).out_count haid) hd'

theorem Ok.mem_intersection [LinearOrder D] [Zero D] (h : Ok c E s) {deleteMode : ℤ}
    (hid : id < c.total) {nodes : List ℕ}
    (hs : (s.dropTag tag id).intersection c p deleteMode id = some nodes) :
    ∀ ngh ∈ nodes, ngh ≠ id ∧ ngh < c.total := by
  rw [intersection] at hs
  split_ifs at hs
  · obtain ⟨pool, hpool, rfl⟩ := map_eq_some_iff.1 hs
    intro ngh hngh
    obtain ⟨hvisited, hin⟩ := mem_filter.1 hngh
    refine ⟨?_, expanded_lt hpool ngh ((c.setOrder_perm _).mem_iff.1 hvisited)⟩
    rintro rfl
    have h0 : (eraseEach s.inGraph ngh (s.finalGraph ngh) ngh).count ngh = 0 := by
      rw [count_eraseEach, if_pos rfl, h.mirrored ngh hid]
      exact Nat.sub_self _
    exact count_eq_zero.1 h0 (of_decide_eq_true hin)
  · cases hs
    exact fun _ hngh => absurd hngh not_mem_nil

theorem Ok.eagerDelete [LinearOrder D] [Zero D] (h : Ok c E s) {deleteMode : ℤ}
    (hs : s.eagerDelete c p tag deleteMode = some s') :
    Ok c (E ∪ (s.deletedLocation tag).toFinset) s' := by
  rw [EagerIndex.eagerDelete] at hs
  cases hloc : s.deletedLocation tag with
  | none =>
    rw [hloc] at hs
    cases hs
    rw [toFinset_none, Finset.union_empty]
    exact h
  | some id =>
    rw [hloc] at hs
    dsimp only at hs
    split_ifs at hs with hid
    obtain ⟨nodes, hnodes, hs⟩ := bind_eq_some_iff.1 hs
    cases hs
    have hmem := h.mem_intersection hid hnodes
    have hremoved : Deleting c E id ((s.dropTag tag id).removeFromInNbrs id) :=
      h.removeFromInNbrs hid
    have hrepaired := foldlRecOn (motive := Deleting c E id) nodes (EagerIndex.repair c p id)
      hremoved
      fun s hs ngh hngh => hs.repair hid (hmem ngh hngh).1 (hmem ngh hngh).2
    rw [toFinset_some, Finset.union_singleton]
    exact hrepaired.clearLists

/-! ### Building and enabling -/

theorem Ok.build [LinearOrder D] [Zero D] {b : EagerBuildParams D} (h : Ok c E s) {source : List V}
    {tags : List Tag} (hE : ∀ d ∈ E, source.length ≤ d ∧ d < c.maxPoints)
    (hs : s.build c b source tags = some s') : Ok c E s' := by
  rw [EagerIndex.build] at hs
  split_ifs at hs with hlen
  obtain ⟨s₁, hlink, rfl⟩ := map_eq_some_iff.1 hs
  have hnd : ((s.loaded c source tags).generateFrozenPoint c b.rand).nd = source.length ∧
      ((s.loaded c source tags).generateFrozenPoint c b.rand).finalGraph = s.finalGraph := by
    rw [generateFrozenPoint, loaded]
    split_ifs
    all_goals exact ⟨rfl, rfl⟩
  refine .updateInGraph (avoids_link ?_ ?_ ?_ hlink)
  · rw [hnd.2]
    exact h.avoids
  · rw [hnd.1]
    exact Nat.le_of_not_lt hlen
  · rw [hnd.1]
    intro node _ hnode hd
    have hout := hE node hd
    omega

omit [DecidableEq Tag] in
theorem Ok.enableDelete (h : Ok c E s) : Ok c E (s.enableDelete c) := by
  rw [EagerIndex.enableDelete]
  split_ifs
  · exact h
  all_goals exact .updateInGraph h.avoids

end EagerIndex

/-! ### Runs -/

open EagerIndex

/-- A call. -/
inductive EagerCall (D V Tag : Type) where
  | build (source : List V) (tags : List Tag) (b : EagerBuildParams D)
  | enableDelete
  | insertPoint (point : V) (tag : Tag) (p : EagerParams D)
  | eagerDelete (tag : Tag) (deleteMode : ℤ) (p : EagerParams D)

/-- An index with its eagerly deleted locations: those that no insertion has handed out again, and
that no build has given a new point. -/
structure EagerState (V Tag : Type) where
  index : EagerIndex V Tag
  erased : Finset ℕ

namespace EagerState

variable {D V Tag : Type} (c : EagerConfig D V)

def step [DecidableEq Tag] [LinearOrder D] [Zero D] (t : EagerState V Tag) :
    EagerCall D V Tag → Option (EagerState V Tag)
  | .build source tags b => (t.index.build c b source tags).map fun s =>
      ⟨s, t.erased.filter fun d => source.length ≤ d ∧ d < c.maxPoints⟩
  | .enableDelete => some ⟨t.index.enableDelete c, t.erased⟩
  | .insertPoint point tag p => (t.index.insertPoint c p point tag).map fun s =>
      ⟨s, t.erased \ t.index.handedOut c⟩
  | .eagerDelete tag deleteMode p => (t.index.eagerDelete c p tag deleteMode).map fun s =>
      ⟨s, t.erased ∪ (t.index.deletedLocation tag).toFinset⟩

/-- A new index. -/
def Init (t : EagerState V Tag) : Prop := t = ⟨EagerIndex.new c, ∅⟩

/-- `_in_graph` is the transpose of `_final_graph`, and no list mentions an eagerly deleted
location. -/
structure Transposed (t : EagerState V Tag) : Prop where
  mirrored : ∀ x < c.total, ∀ y < c.total,
    (t.index.inGraph y).count x = (t.index.finalGraph x).count y
  noMention : ∀ x < c.total, ∀ d ∈ t.erased, d ∉ t.index.finalGraph x

/-- A point is not inserted while the location of the entry point is an eagerly deleted one, unless
this very location is handed out. -/
def EntryKept (t : EagerState V Tag) : EagerCall D V Tag → Prop
  | .insertPoint _ _ _ => t.index.ep ∈ t.erased → t.index.ep ∈ t.index.handedOut c
  | _ => True

variable {c} [DecidableEq Tag] [LinearOrder D] [Zero D] {t t' : EagerState V Tag}

theorem ok_step {a : EagerCall D V Tag} (h : Ok c t.erased t.index) (ha : t.EntryKept c a)
    (hs : t.step c a = some t') : Ok c t'.erased t'.index := by
  cases a with
  | build source tags b =>
    obtain ⟨s, h₁, rfl⟩ := map_eq_some_iff.1 hs
    have hE : Ok c (t.erased.filter fun d => source.length ≤ d ∧ d < c.maxPoints) t.index :=
      ⟨h.mirrored, h.avoids.mono (Finset.filter_subset _ _)⟩
    exact hE.build (fun d hd => (Finset.mem_filter.1 hd).2) h₁
  | enableDelete =>
    cases hs
    exact h.enableDelete
  | insertPoint point tag p =>
    obtain ⟨s, h₁, rfl⟩ := map_eq_some_iff.1 hs
    exact h.insertPoint ha h₁
  | eagerDelete tag deleteMode p =>
    obtain ⟨s, h₁, rfl⟩ := map_eq_some_iff.1 hs
    exact h.eagerDelete h₁

theorem ok_of_reach (h : Reach (Init c) (guarded (EntryKept c) (ofFn (step c))) t) :
    Ok c t.erased t.index := by
  refine h.invariant (P := fun t => Ok c t.erased t.index) ?_ fun t a t' hok hs =>
    ok_step hok hs.1 hs.2
  rintro t rfl
  exact ⟨fun _ _ _ => rfl, fun _ _ d hd => absurd hd not_mem_nil⟩

/-- In every run that keeps the entry. -/
theorem transposed_of_reach (h : Reach (Init c) (guarded (EntryKept c) (ofFn (step c))) t) :
    t.Transposed c where
  mirrored x hx y _ := (ok_of_reach h).mirrored x hx y
  noMention x hx d hd hm := (ok_of_reach h).avoids x hx d hm hd

/-! ### A small index -/

/-- Four locations without a frozen point; the points are numbers. -/
def fourPoints : EagerConfig ℕ ℕ where
  maxPoints := 4
  numFrozenPts := 0
  enableTags := true
  compare v w := 10 * (max v w - min v w)
  compare_comm v w := by rw [max_comm, min_comm]
  zeros := 0
  maxDist := 1000
  centerDist l v := max (v * l.length) l.sum - min (v * l.length) l.sum
  setOrder l := l
  setOrder_perm _ := List.Perm.refl _
  firstSlot slots := if h : slots.Nonempty then slots.min' h else 0
  firstSlot_mem slots h := by
    rw [dif_pos h]
    exact slots.min'_mem h

theorem belowMax_tenthsPruning (range : ℕ) : (tenthsPruning range).AlphaBelowMax := by
  refine ⟨rfl, fun a ha => decide_eq_true ?_⟩
  have hle : a ≤ 12 := of_decide_eq_true ha
  show a < 1000
  omega

def smallParams : EagerParams ℕ where
  pruning := tenthsPruning 3
  belowMax := belowMax_tenthsPruning 3
  L := 4
  L_pos := Nat.succ_pos 3

def smallBuild : EagerBuildParams ℕ where
  first := smallParams
  last := smallParams
  saturateGraph := false
  threadOrder _ _ l := l
  threadOrder_perm _ _ _ := List.Perm.refl _
  rand := 0

instance (t : EagerState ℕ ℕ) : (a : EagerCall ℕ ℕ ℕ) → Decidable (EntryKept fourPoints t a)
  | .build _ _ _ => inferInstanceAs (Decidable True)
  | .enableDelete => inferInstanceAs (Decidable True)
  | .insertPoint _ _ _ => inferInstanceAs (Decidable (_ → _))
  | .eagerDelete _ _ _ => inferInstanceAs (Decidable True)

/-- Points come and go, and the entry point stays. -/
def calmCalls : List (EagerCall ℕ ℕ ℕ) :=
  [.build [0, 1, 2] [1, 2, 3] smallBuild, .enableDelete, .eagerDelete 1 2 smallParams,
    .insertPoint 5 4 smallParams, .insertPoint 6 5 smallParams, .eagerDelete 3 2 smallParams]

theorem transposed_after_calmCalls : ∃ t : EagerState ℕ ℕ,
    t.erased = {2} ∧ t.index.finalGraph 0 = [3, 1] ∧ t.Transposed fourPoints := by
  have hrun : (runsGuarded (EntryKept fourPoints) (step fourPoints) ⟨EagerIndex.new fourPoints, ∅⟩
      calmCalls).map (fun t => (t.erased, t.index.finalGraph 0)) = some ({2}, [3, 1]) := by
    decide +kernel
  obtain ⟨t, ht, hview⟩ := Option.map_eq_some_iff.1 hrun
  injection hview with h₁ h₂
  exact ⟨t, h₁, h₂, transposed_of_reach (reach_of_runsGuarded rfl ht)⟩

/-- The location of the entry point is deleted, and another free location is handed out. -/
def entryLost : List (EagerCall ℕ ℕ ℕ) :=
  [.build [0, 1, 2] [1, 2, 3] smallBuild, .enableDelete, .eagerDelete 1 2 smallParams,
    .eagerDelete 2 2 smallParams, .insertPoint 5 4 smallParams]

theorem deleted_entry_mentioned : ∃ t : EagerState ℕ ℕ,
    Reach (Init fourPoints) (ofFn (step fourPoints)) t ∧ ¬ t.Transposed fourPoints := by
  have hrun : (runs (step fourPoints) ⟨EagerIndex.new fourPoints, ∅⟩ entryLost).map
      (fun t => (t.erased, t.index.finalGraph 0)) = some ({1}, [1]) := by
    decide +kernel
  obtain ⟨t, ht, hview⟩ := Option.map_eq_some_iff.1 hrun
  injection hview with h₁ h₂
  refine ⟨t, reach_of_runs (.start rfl) ht, fun h => h.noMention 0 (by decide) 1 ?_ ?_⟩
  · rw [h₁]
    exact Finset.mem_singleton_self 1
  · rw [h₂]
    exact List.mem_singleton_self 1

end EagerState

end DiskANNEval.FreshDiskANN
