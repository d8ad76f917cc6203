import DiskANNEval.PipeANN.MemIndex
import DiskANNEval.PipeANN.MergedLists

/-!
# MemIndexRuns — the locations of an index in memory

A location is free, or it has a tag, or it is in `_delete_set`, and `_nd` of them are not free
(`Inv`).  Linking a node changes lists only, and all ids in lists are locations (`exists_linkNode`).
After `consolidate` the tagged locations are the first ones, in their old order (`tag_compacted`).
-/

namespace DiskANNEval.PipeANN.MemIndex

open Function Finset List

variable {D Vec Tag : Type} {c : MemConfig D Vec Tag} {p : MemParams D} {s s' : MemIndex Vec Tag}

/-! ### Linking -/

/-- The ids in lists are locations. -/
def ListsIn (s : MemIndex Vec Tag) : Prop := ∀ i, ∀ n ∈ s.finalGraph i, n < s.maxPoints

/-- Only lists have changed, and their ids are locations. -/
def Linked (s s' : MemIndex Vec Tag) : Prop :=
  s' = { s with finalGraph := s'.finalGraph } ∧ s'.ListsIn

theorem Linked.trans {s₁ s₂ s₃ : MemIndex Vec Tag} (h : Linked s₁ s₂) (h' : Linked s₂ s₃) :
    Linked s₁ s₃ := by
  refine ⟨?_, h'.2⟩
  rw [h'.1, h.1]

theorem Linked.refl (h : s.ListsIn) : Linked s s := ⟨rfl, h⟩

theorem linked_setNbrs (h : s.ListsIn) {id : ℕ} {nbrs : List ℕ} (hn : ∀ n ∈ nbrs, n < s.maxPoints) :
    Linked s (s.setNbrs id nbrs) := by
  refine ⟨rfl, fun i n hi => ?_⟩
  have hi' : n ∈ Function.update s.finalGraph id nbrs i := hi
  by_cases he : i = id
  · subst he
    rw [update_self] at hi'
    exact hn n hi'
  · rw [update_of_ne he] at hi'
    exact h i n hi'

theorem mem_pruneNeighbors {pool : List (Neighbor D)} {list : List ℕ} {n : ℕ}
    (h : n ∈ s.pruneNeighbors c p pool list) : n ∈ list ∨ n ∈ pool.map Neighbor.id := by
  by_cases hpool : pool = []
  · rw [pruneNeighbors, Pruning.pruneNeighbors, if_pos (by rw [hpool]; rfl)] at h
    exact .inl h
  · obtain ⟨x, hx, rfl⟩ := (Pruning.listOk_pruneNeighbors hpool list).mem n h
    exact .inr (mem_map_of_mem hx)

theorem map_id_nbrPool (id : ℕ) (nbrs : List ℕ) :
    (s.nbrPool c id nbrs).map Neighbor.id = nbrs.filter (· ≠ id) := by
  rw [nbrPool, List.map_map]
  exact map_id _

theorem linked_interInsertAt (h : s.ListsIn) {n des : ℕ} (hn : n < s.maxPoints) :
    Linked s (s.interInsertAt c p n des) := by
  have happ : ∀ x ∈ s.finalGraph des ++ [n], x < s.maxPoints := by
    intro x hx
    obtain hx | hx := mem_append.1 hx
    · exact h des x hx
    · rwa [List.mem_singleton.1 hx]
  rw [interInsertAt]
  split_ifs
  · exact .refl h
  · exact linked_setNbrs h happ
  · refine linked_setNbrs h fun x hx => ?_
    have hmem := (mem_pruneNeighbors hx).resolve_left not_mem_nil
    rw [map_id_nbrPool] at hmem
    exact happ x (mem_filter.1 hmem).1

theorem linked_interInsert (h : s.ListsIn) {n : ℕ} (hn : n < s.maxPoints) (prunedList : List ℕ) :
    Linked s (s.interInsert c p n prunedList) := by
  induction prunedList generalizing s with
  | nil => exact .refl h
  | cons des prunedList ih =>
    have hone := @linked_interInsertAt _ _ _ c p s h n des hn
    refine hone.trans (ih hone.2 ?_)
    rw [hone.1]
    exact hn

theorem linked_cleanup (h : s.ListsIn) (node : ℕ) : Linked s (s.cleanup c p node) := by
  rw [cleanup]
  split_ifs
  · refine linked_setNbrs h fun x hx => ?_
    have hmem := (mem_pruneNeighbors hx).resolve_left not_mem_nil
    rw [map_id_nbrPool] at hmem
    exact h node x (mem_filter.1 hmem).1
  · exact .refl h

variable [LinearOrder D] [Zero D]

theorem exists_getExpandedNodes (h : s.ListsIn) (hep : s.ep < s.maxPoints) (nodeId : ℕ) :
    ∃ pool, s.getExpandedNodes c p nodeId = some pool ∧ ∀ n ∈ pool, n.id < s.maxPoints := by
  obtain ⟨r, hr, hok⟩ := @FixedPoint.exists_iterateToFixedPoint _ _ _
    (s.searchGraph c (s.data nodeId) p.L p.L_pos) (· < s.maxPoints) c.maxDist s.ep hep
    fun id hid => ⟨hid, fun n hn => h id n hn⟩
  refine ⟨r.expanded, ?_, fun n hn => (hok.expanded n hn).1⟩
  rw [getExpandedNodes, hr, Option.map_some]

theorem exists_linkNode (h : s.ListsIn) (hep : s.ep < s.maxPoints) {node : ℕ}
    (hnode : node < s.maxPoints) : ∃ s', s.linkNode c p node = some s' ∧ Linked s s' := by
  obtain ⟨pool, hpool, hlt⟩ := exists_getExpandedNodes (c := c) h hep node
  rw [linkNode, hpool]
  refine ⟨_, rfl, ?_⟩
  have hset : Linked s (s.setNbrs node
      (s.pruneNeighbors c p (pool.filter fun n => n.id ≠ node) [])) := by
    refine linked_setNbrs h fun x hx => ?_
    obtain ⟨n, hn, rfl⟩ := mem_map.1 ((mem_pruneNeighbors hx).resolve_left not_mem_nil)
    exact hlt n (mem_filter.1 hn).1
  refine hset.trans (linked_interInsert hset.2 ?_ _)
  exact hnode

/-! ### Locations -/

/-- The two maps are inverse; a location is free, deleted or tagged; and `_nd` counts those that are
not free. -/
structure Inv (s : MemIndex Vec Tag) : Prop where
  tagged : ∀ i t, s.locationToTag i = some t ↔ s.tagToLocation t = some i
  tagged_lt : ∀ i t, s.locationToTag i = some t → i < s.maxPoints
  cover : ∀ i < s.maxPoints, i ∈ s.emptySlots ∨ i ∈ s.deleteSet ∨ (s.locationToTag i).isSome = true
  empty : ∀ i ∈ s.emptySlots, i < s.maxPoints ∧ i ∉ s.deleteSet ∧ s.locationToTag i = none
  deleted : ∀ i ∈ s.deleteSet, i < s.maxPoints ∧ s.locationToTag i = none
  card : s.nd + s.emptySlots.card = s.maxPoints
  lists : s.ListsIn
  ep : s.ep < s.maxPoints ∨ s.maxPoints = 0 ∧ s.ep = 0

omit [LinearOrder D] [Zero D] in
theorem Inv.fresh (c : MemConfig D Vec Tag) : (fresh c).Inv where
  tagged _ _ := iff_of_false (by simp [MemIndex.fresh]) (by simp [MemIndex.fresh])
  tagged_lt _ _ h := absurd h (by simp [MemIndex.fresh])
  cover _ h := absurd h (Nat.not_lt_zero _)
  empty _ h := absurd h (notMem_empty _)
  deleted _ h := absurd h (notMem_empty _)
  card := rfl
  lists _ _ h := absurd h not_mem_nil
  ep := .inr ⟨rfl, rfl⟩

theorem Inv.linked (h : s.Inv) (hl : Linked s s') : s'.Inv := by
  have hlists := hl.2
  rw [hl.1] at hlists ⊢
  exact { h with lists := hlists }

section Update

variable [DecidableEq Tag]

omit [LinearOrder D] [Zero D]

theorem Inv.dropTag (h : s.Inv) (tag : Tag) :
    (s.dropTag tag).Inv ∧ (s.dropTag tag).tagToLocation tag = none := by
  rw [MemIndex.dropTag]
  cases hloc : s.tagToLocation tag with
  | none => exact ⟨h, hloc⟩
  | some loc =>
    have hloc' := (h.tagged loc tag).2 hloc
    refine ⟨{ h with
      tagged := fun i t => ?_
      tagged_lt := fun i t hi => ?_
      cover := fun i hi => ?_
      empty := fun i hi => ?_
      deleted := fun i hi => ?_ }, update_self ..⟩
    · show Function.update s.locationToTag loc none i = some t ↔
        Function.update s.tagToLocation tag none t = some i
      by_cases hi : i = loc
      · subst hi
        refine iff_of_false (by simp) fun ht => ?_
        by_cases hte : t = tag
        · subst hte
          rw [update_self] at ht
          cases ht
        · rw [update_of_ne hte, ← h.tagged] at ht
          rw [hloc'] at ht
          exact hte (Option.some.inj ht).symm
      · rw [update_of_ne hi]
        by_cases hte : t = tag
        · subst hte
          refine iff_of_false (fun ht => hi ?_) (by simp)
          rw [h.tagged, hloc] at ht
          exact (Option.some.inj ht).symm
        · rw [update_of_ne hte]
          exact h.tagged i t
    · have hi' : Function.update s.locationToTag loc none i = some t := hi
      by_cases he : i = loc
      · subst he
        rw [update_self] at hi'
        cases hi'
      · rw [update_of_ne he] at hi'
        exact h.tagged_lt i t hi'
    · show i ∈ s.emptySlots ∨ i ∈ insert loc s.deleteSet ∨
        (Function.update s.locationToTag loc none i).isSome = true
      by_cases he : i = loc
      · exact .inr (.inl (by rw [he]; exact mem_insert_self _ _))
      · rw [update_of_ne he]
        exact (h.cover i hi).imp_right (Or.imp_left mem_insert_of_mem)
    · obtain ⟨h1, h2, h3⟩ := h.empty i hi
      have he : i ≠ loc := by
        rintro rfl
        rw [hloc'] at h3
        cases h3
      refine ⟨h1, fun hd => (mem_insert.1 hd).elim he h2, ?_⟩
      exact (update_of_ne he ..).trans h3
    · by_cases he : i = loc
      · subst he
        exact ⟨h.tagged_lt i tag hloc', update_self ..⟩
      · obtain ⟨h1, h2⟩ := h.deleted i ((mem_insert.1 hi).resolve_left he)
        exact ⟨h1, (update_of_ne he ..).trans h2⟩

omit [DecidableEq Tag] in
theorem Inv.grow (h : s.Inv) : (s.grow c).Inv ∧ (s.grow c).ep < (s.grow c).maxPoints := by
  rw [MemIndex.grow]
  split_ifs with hfull
  · have hcard := h.card
    have hempty : s.emptySlots = ∅ := card_eq_zero.1 (by omega)
    have hnd : s.nd = s.maxPoints := by
      omega
    have hle : s.maxPoints ≤ max (c.growth s.maxPoints) 50000 := by
      obtain hlt | hge := Nat.lt_or_ge s.maxPoints 50000
      · exact hlt.le.trans (le_max_right _ _)
      · exact (c.lt_growth _ hge).le.trans (le_max_left _ _)
    have hslots : (s.resize c (c.growth s.maxPoints)).emptySlots =
        Finset.Ico s.maxPoints (max (c.growth s.maxPoints) 50000) := by
      show s.emptySlots ∪ Finset.Ico s.nd _ = _
      rw [hempty, empty_union, hnd]
    have hep : s.ep < max (c.growth s.maxPoints) 50000 := by
      obtain hep | ⟨-, hep⟩ := h.ep
      · exact hep.trans_le hle
      · rw [hep]
        exact lt_max_of_lt_right (by decide)
    refine ⟨⟨h.tagged, fun i t hi => (h.tagged_lt i t hi).trans_le hle, fun i hi => ?_,
      fun i hi => ?_, fun i hi => ⟨(h.deleted i hi).1.trans_le hle, (h.deleted i hi).2⟩, ?_, ?_,
      .inl hep⟩, hep⟩
    · rw [hslots, mem_Ico]
      by_cases hi' : i < s.maxPoints
      · have hnot : i ∉ s.emptySlots := by
          rw [hempty]
          exact notMem_empty i
        exact .inr ((h.cover i hi').resolve_left hnot)
      · exact .inl ⟨Nat.not_lt.1 hi', hi⟩
    · rw [hslots, mem_Ico] at hi
      refine ⟨hi.2, fun hd => ?_, ?_⟩
      · exact absurd (h.deleted i hd).1 (Nat.not_lt.2 hi.1)
      · show s.locationToTag i = none
        rw [Option.eq_none_iff_forall_ne_some]
        exact fun t ht => absurd (h.tagged_lt i t ht) (Nat.not_lt.2 hi.1)
    · rw [hslots, Nat.card_Ico]
      show s.nd + (max (c.growth s.maxPoints) 50000 - s.maxPoints) =
        max (c.growth s.maxPoints) 50000
      omega
    · intro i n hn
      have hn' : n ∈ if i < s.maxPoints then s.finalGraph i else [] := hn
      split_ifs at hn'
      · exact (h.lists i n hn').trans_le hle
      · exact absurd hn' not_mem_nil
  · refine ⟨h, h.ep.resolve_right fun hz => hfull ?_⟩
    rw [hz.1]
    exact Nat.zero_le _

theorem Inv.addPoint (h : s.Inv) {tag : Tag} (htag : s.tagToLocation tag = none) {loc : ℕ}
    (hloc : loc ∈ s.emptySlots) (point : Vec) :
    ((s.reserveLocation loc).addPoint c point tag loc).Inv := by
  obtain ⟨hlt, hdel, hnone⟩ := h.empty loc hloc
  have hdel' : s.deleteSet.erase loc = s.deleteSet := erase_eq_of_notMem hdel
  have hother : ∀ i t, i ≠ loc → (Function.update s.locationToTag loc (some tag) i = some t ↔
      s.locationToTag i = some t) := by
    intro i t hi
    rw [update_of_ne hi]
  refine ⟨fun i t => ?_, fun i t hi => ?_, fun i hi => ?_, fun i hi => ?_, fun i hi => ?_, ?_,
    h.lists, h.ep⟩
  · show Function.update s.locationToTag loc (some tag) i = some t ↔
      Function.update s.tagToLocation tag (some loc) t = some i
    by_cases hi : i = loc
    · subst hi
      rw [update_self]
      by_cases hte : t = tag
      · rw [hte, update_self]
        exact iff_of_true rfl rfl
      · rw [update_of_ne hte, ← h.tagged, hnone]
        exact iff_of_false (fun he => hte (Option.some.inj he).symm) (by simp)
    · rw [hother i t hi]
      by_cases hte : t = tag
      · rw [hte, update_self, h.tagged, htag]
        exact iff_of_false (by simp) fun he => hi (Option.some.inj he).symm
      · rw [update_of_ne hte]
        exact h.tagged i t
  · by_cases he : i = loc
    · rw [he]
      exact hlt
    · exact h.tagged_lt i t ((hother i t he).1 hi)
  · show i ∈ s.emptySlots.erase loc ∨ i ∈ s.deleteSet.erase loc ∨
      (Function.update s.locationToTag loc (some tag) i).isSome = true
    by_cases he : i = loc
    · rw [he, update_self]
      exact .inr (.inr rfl)
    · rw [update_of_ne he, mem_erase, hdel']
      exact (h.cover i hi).imp_left fun hi => ⟨he, hi⟩
  · obtain ⟨he, hi⟩ := mem_erase.1 hi
    obtain ⟨h1, h2, h3⟩ := h.empty i hi
    refine ⟨h1, fun hd => h2 (mem_of_mem_erase hd), ?_⟩
    exact (update_of_ne he ..).trans h3
  · obtain ⟨he, hi⟩ := mem_erase.1 hi
    obtain ⟨h1, h2⟩ := h.deleted i hi
    exact ⟨h1, (update_of_ne he ..).trans h2⟩
  · show s.nd + 1 + (s.emptySlots.erase loc).card = s.maxPoints
    have hcard := h.card
    have hpos : 0 < s.emptySlots.card := card_pos.2 ⟨loc, hloc⟩
    rw [card_erase_of_mem hloc]
    omega

end Update

/-- An insertion returns; but for the lists, the new index is the old one with the point at the
location. -/
theorem Inv.exists_insertPoint [DecidableEq Tag] (h : s.Inv) {tag : Tag} {loc : ℕ}
    (hloc : loc ∈ ((s.dropTag tag).grow c).emptySlots) (point : Vec) :
    ∃ s', s.insertPoint c p point tag loc = some s' ∧ s'.Inv ∧
      Linked ((((s.dropTag tag).grow c).reserveLocation loc).addPoint c point tag loc) s' := by
  obtain ⟨hdrop, hnone⟩ := h.dropTag tag
  obtain ⟨hgrow, hep⟩ := hdrop.grow
  have htag : ((s.dropTag tag).grow c).tagToLocation tag = none := by
    rw [MemIndex.grow]
    split_ifs
    · exact hnone
    · exact hnone
  have hadd := hgrow.addPoint (c := c) htag hloc point
  obtain ⟨s', hs', hlinked⟩ := exists_linkNode (c := c) hadd.lists hep (hgrow.empty loc hloc).1
  rw [insertPoint, if_pos hloc]
  exact ⟨s', hs', hadd.linked hlinked, hlinked⟩

/-! ### Numbers for vectors -/

theorem natDist_comm (a b : ℕ) : (a - b) + (b - a) = (b - a) + (a - b) := Nat.add_comm ..

theorem lt_mul_three_div_two (n : ℕ) (h : 50000 ≤ n) : n < n * 3 / 2 := by omega

/-- Vectors of one number. -/
def natMem : MemConfig ℕ ℕ ℕ where
  compare a b := (a - b) + (b - a)
  compare_comm := natDist_comm
  normalize v := v
  zeros := 0
  tagInit := 0
  maxDist := 1000
  centerDist vs v := (vs.sum / vs.length - v) + (v - vs.sum / vs.length)
  growth n := n * 3 / 2
  lt_growth := lt_mul_three_div_two
  setOrder l := l
  setOrder_perm := List.Perm.refl

def natParams : MemParams ℕ where
  pruning := MergeDeletes.natPruning
  L := 10
  L_pos := Nat.succ_pos 9
  slack := 41

end DiskANNEval.PipeANN.MemIndex
