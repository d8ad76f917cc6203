import DiskANNEval.FreshDiskANN.MergedTags

/-!
# MergedNhoods — the lists of a merged index

From the entry point on, the reloaded lists lead to live nodes of the old index (`reachable_live`), so
the lists of the inserted points name live nodes of the old index, and the edges that are added to the
old lists name inserted points.  The two kinds of ids are apart when no live node is handed out.
`consolidate_deletes` does not look for the node itself behind its deleted neighbours.
-/

namespace DiskANNEval.FreshDiskANN

open Lib List

namespace IndexMerger

variable {D Code Tag : Type} [DecidableEq Tag] {m : IndexMerger D Code Tag} {o id nbr medoid : ℕ}

/-- The lists that `merge` is given: without duplicates and self loops, and at most `range` long. -/
structure GraphOk (m : IndexMerger D Code Tag) : Prop where
  nodup : ∀ id < m.diskNpts, (m.diskNode id).nbrs.Nodup
  self : ∀ id < m.diskNpts, id ∉ (m.diskNode id).nbrs
  length : ∀ id < m.diskNpts, (m.diskNode id).nbrs.length ≤ m.pruning.range

/-- A node with a tag, deleted or not. -/
def Tagged (m : IndexMerger D Code Tag) (id : ℕ) : Prop :=
  id < m.diskNpts ∧ m.diskTags id ≠ m.invalidTag

instance (id : ℕ) : Decidable (m.Tagged id) := inferInstanceAs (Decidable (_ ∧ _))

/-- What the inputs have to be for lists of live nodes: the parameter `alpha` is below the largest
number; the lists, and the entry point, are of nodes with tags; no live node is handed out; the points
to insert have tags; and no live node is in the list of a deleted neighbour. -/
structure Linkable (m : IndexMerger D Code Tag) : Prop where
  alpha : m.pruning.AlphaBelowMax
  lists : ∀ id < m.diskNpts, m.Live id → ∀ nbr ∈ (m.diskNode id).nbrs, m.Tagged nbr
  deletedLists : ∀ id ∈ m.diskDeletedIds, ∀ nbr ∈ (m.scannedNode id).nbrs, m.Tagged nbr
  entry : m.Tagged m.initId
  holes : ∀ id < m.diskNpts, m.Live id → m.IsHole id → m.inserts.length ≤ Nat.count m.IsHole id
  tagged : ∀ i j pts p, m.IsInsert i j pts p → p.2 ≠ m.invalidTag
  twoHop : ∀ id < m.diskNpts, m.Live id → ∀ d ∈ (m.diskNode id).nbrs, d ∈ m.diskDeletedIds →
    id ∉ (m.scannedNode d).nbrs

/-! ### The repaired lists -/

theorem Tagged.live (h : m.Tagged id) (hdel : id ∉ m.diskDeletedIds) : m.Live id := by
  refine ⟨h.2, fun htag => hdel ?_⟩
  exact Finset.mem_filter.2 ⟨Finset.mem_range.2 h.1, htag⟩

theorem Linkable.repaired (h : m.Linkable) (hid : id < m.diskNpts) (hlive : m.Live id)
    (hnbr : nbr ∈ m.repaired id) : nbr < m.diskNpts ∧ m.Live nbr := by
  obtain ⟨-, hdel, hn | ⟨d, -, hd, hn⟩⟩ := mem_repaired hnbr
  · have ht := h.lists id hid hlive nbr hn
    exact ⟨ht.1, ht.live hdel⟩
  · have ht := h.deletedLists d hd nbr hn
    exact ⟨ht.1, ht.live hdel⟩

theorem Linkable.self_repaired (h : m.Linkable) (hg : m.GraphOk) (hid : id < m.diskNpts)
    (hlive : m.Live id) : id ∉ m.repaired id := by
  intro hmem
  obtain ⟨-, -, hn | ⟨d, hd, hdel, hn⟩⟩ := mem_repaired hmem
  · exact hg.self id hid hn
  · exact h.twoHop id hid hlive d hd hdel hn

theorem nodup_newEdges : (m.newEdges id).Nodup :=
  ((m.setOrder_perm _).nodup_iff.2 (nodup_dedup _)).filter _

theorem nodup_repaired (hα : m.pruning.AlphaBelowMax) (hg : m.GraphOk) (hid : id < m.diskNpts) :
    (m.repaired id).Nodup := by
  rw [repaired, consolidateDeletes]
  split_ifs
  · exact nodup_nil
  · exact hg.nodup id hid
  · exact nodup_nil
  · refine Pruning.nodup_occludeList hα ?_
    have hperm := (m.pruning.sort_perm
      ((m.newEdges id).map fun nbr => ⟨nbr, m.pqDists id nbr⟩)).map Neighbor.id
    rw [map_take]
    refine Nodup.sublist (take_sublist _ _) (hperm.nodup_iff.2 ?_)
    rw [map_map]
    exact nodup_newEdges.map fun _ _ he => he

theorem Linkable.newMedoid (h : m.Linkable) (hm : m.newMedoid = some medoid) :
    medoid < m.diskNpts ∧ m.Live medoid := by
  rw [IndexMerger.newMedoid] at hm
  split_ifs at hm with hdel
  · obtain ⟨hn, hlive⟩ := mem_filter.1 (mem_of_mem_head? hm)
    have ht := h.deletedLists m.initId hdel medoid hn
    exact ⟨ht.1, ht.live (by simpa using hlive)⟩
  · cases hm
    exact ⟨h.entry.1, h.entry.live hdel⟩

omit [DecidableEq Tag] in
theorem GraphOk.listsFit (hg : m.GraphOk) : m.ListsFit := hg.length

theorem Linkable.reachable_live (h : m.Linkable)
    (hgraph : ∀ id < m.diskNpts, (m.graph id).nbrs = m.repaired id)
    (hm : medoid < m.diskNpts ∧ m.Live medoid) (hr : Reachable m.graph medoid id) :
    id < m.diskNpts ∧ m.Live id := by
  induction hr with
  | refl => exact hm
  | tail _ hedge ih =>
    rw [hgraph _ ih.1] at hedge
    exact h.repaired ih.1 ih.2 hedge

/-! ### The edges of the inserted points -/

theorem Linkable.not_mem_usedIds (h : m.Linkable)
    (hruns : ∀ id < m.diskNpts, (m.consolidateDeletes id).isSome = true) (hid : id < m.diskNpts)
    (hlive : m.Live id) : id ∉ m.usedIds := by
  rw [mem_usedIds_iff hruns hid]
  exact fun hc => Nat.not_lt.2 (h.holes id hid hlive hc.1) hc.2

theorem nodup_insertNhood (hα : m.pruning.AlphaBelowMax) (medoid j : ℕ) :
    (m.insertNhood medoid j).Nodup := by
  rw [insertNhood]
  cases m.dataLoad[j]? with
  | none => exact nodup_nil
  | some vec => exact Pruning.nodup_pruneNeighbors hα (m.search_nodup _ _ _ _)

theorem renameEdges_eq_self {ids : List ℕ} (h : ∀ id ∈ ids, id < m.diskNpts) :
    m.renameEdges ids = ids := by
  have hid : ∀ id ∈ ids, (m.rename id).getD id = id := by
    intro id hid
    rw [rename_eq_none ((h id hid).trans_le (npts_le_offsetId 0)), Option.getD_none]
  rw [renameEdges, map_congr_left hid]
  exact map_id ids

theorem Linkable.insertNhood (h : m.Linkable)
    (hgraph : ∀ id < m.diskNpts, (m.graph id).nbrs = m.repaired id)
    (hm : medoid < m.diskNpts ∧ m.Live medoid) {j : ℕ} :
    ∀ n ∈ m.insertNhood medoid j, n < m.diskNpts ∧ m.Live n :=
  fun _ hn => h.reachable_live hgraph hm (mem_insertNhood hn).2

theorem Linkable.memDelta (h : m.Linkable)
    (hgraph : ∀ id < m.diskNpts, (m.graph id).nbrs = m.repaired id)
    (hm : medoid < m.diskNpts ∧ m.Live medoid) (o : ℕ) :
    m.memDelta medoid o = [] ∨ ∃ j, m.memDelta medoid o = m.insertNhood medoid j := by
  rw [IndexMerger.memDelta]
  cases m.inserts.find? fun x => x.1 = o with
  | none => exact .inl rfl
  | some x =>
    refine .inr ⟨x.2, renameEdges_eq_self fun n hn => ?_⟩
    exact (h.insertNhood hgraph hm n hn).1

theorem nodup_diskDelta (hα : m.pruning.AlphaBelowMax) (medoid id : ℕ) :
    (m.diskDelta medoid id).Nodup := by
  rw [diskDelta]
  split_ifs
  · have hinserts : ∀ o ∈ m.inserts.flatMap (fun x =>
        ((m.insertNhood medoid x.2).filter (· = id)).map fun _ => x.1), ∃ j, (o, j) ∈ m.inserts := by
      intro o ho
      obtain ⟨x, hx, ho⟩ := mem_flatMap.1 ho
      obtain ⟨-, -, rfl⟩ := mem_map.1 ho
      exact ⟨x.2, hx⟩
    refine Nodup.map_on ?_ ((m.deltaOrder_perm _).nodup_iff.2 ?_)
    · intro o ho o' ho' heq
      rw [(m.deltaOrder_perm _).mem_iff] at ho ho'
      obtain ⟨j, hj⟩ := hinserts o ho
      obtain ⟨j', hj'⟩ := hinserts o' ho'
      obtain ⟨n, hn⟩ := exists_rename hj
      obtain ⟨n', hn'⟩ := exists_rename hj'
      rw [hn, hn', Option.getD_some, Option.getD_some] at heq
      rw [rename_eq_some] at hn hn'
      rw [heq, hn'] at hn
      exact (Option.some.inj hn).symm
    · refine nodup_flatMap.2 ⟨fun x _ => ?_, ?_⟩
      · have hone : ((m.insertNhood medoid x.2).filter (· = id)).length ≤ 1 := by
          rw [← countP_eq_length_filter]
          exact nodup_iff_count_le_one.1 (nodup_insertNhood hα medoid x.2) id
        generalize (m.insertNhood medoid x.2).filter (· = id) = l at hone
        cases l with
        | nil => exact nodup_nil
        | cons n l =>
          obtain rfl : l = [] := eq_nil_of_length_eq_zero (by simpa using hone)
          exact nodup_singleton _
      · refine (pairwise_map.1 pairwise_inserts).imp fun hlt => ?_
        intro o h1 h2
        obtain ⟨-, -, rfl⟩ := mem_map.1 h1
        obtain ⟨-, -, heq⟩ := mem_map.1 h2
        exact absurd heq hlt.ne'
  · exact nodup_nil

theorem nodup_limited (hα : m.pruning.AlphaBelowMax) {nhood : List ℕ} (h : nhood.Nodup) :
    (m.limited id nhood).Nodup := by
  rw [limited]
  split_ifs
  · refine Pruning.nodup_pruneNeighbors hα ?_
    rw [map_map]
    exact h.map fun _ _ he => he
  · exact h

/-! ### The merged lists -/

section Merge

variable {out : Merged Code Tag} (hout : m.merge = some out) (h : m.Linkable)

include hout h

theorem Linkable.old_tag (hid : id < m.diskNpts) (hlive : m.Live id) :
    ∃ t, out.tags[id]? = some t ∧ t ≠ m.invalidTag := by
  obtain ⟨⟨-, hruns, -⟩, -, hnpts, -, htags, -⟩ := merge_eq_some hout
  have hlt : id < out.npts := hid.trans_le (newNpts_eq_some hnpts).2.1
  refine ⟨m.diskTags id, ?_, hlive.1⟩
  rw [htags, getElem?_map, getElem?_range hlt, Option.map_some,
    tagOut_of_not_mem (h.not_mem_usedIds hruns hid hlive), if_neg hlive.2]

theorem Linkable.new_tag (hid : id ∈ m.usedIds) :
    ∃ t, out.tags[id]? = some t ∧ t ≠ m.invalidTag := by
  obtain ⟨-, -, hnpts, -, htags, -⟩ := merge_eq_some hout
  have hlt : id < out.npts := (newNpts_eq_some hnpts).2.2.1 id hid
  obtain ⟨o, ho⟩ := mem_usedIds.1 hid
  obtain ⟨j, hj⟩ := mem_inserts_of_renameInverse ho
  obtain ⟨i, pts, p, hi, hp, hlive, rfl⟩ := mem_inserts.1 hj
  have hins : m.IsInsert i j pts p := ⟨hi, hp, hlive⟩
  refine ⟨p.2, ?_, h.tagged i j pts p hins⟩
  rw [htags, getElem?_map, getElem?_range hlt, Option.map_some,
    tagOut_of_some ho hins.memPoint hlive]

variable (hgraph : ∀ id < m.diskNpts, (m.graph id).nbrs = m.repaired id)

include hgraph

theorem Linkable.new_nhood (hid : id ∈ m.usedIds) : ∃ nbrs : List ℕ, nbrs.Nodup ∧
    (∀ n ∈ nbrs, n < m.diskNpts ∧ m.Live n) ∧
      (out.layout.readNode out.file id).nbrs = m.limited id nbrs := by
  obtain ⟨-, hmedoid, hnpts, -⟩ := merge_eq_some hout
  have hm := h.newMedoid hmedoid
  obtain ⟨o, ho⟩ := mem_usedIds.1 hid
  have hnode := (readNode_merge hout ((newNpts_eq_some hnpts).2.2.1 id hid) fun hnone => by
    rw [ho] at hnone
    cases hnone).1
  rw [mergedNode, ho] at hnode
  obtain ⟨vec, -, hnode⟩ := Option.map_eq_some_iff.1 hnode
  refine ⟨m.memDelta out.medoid o, ?_, ?_, by rw [← hnode]⟩
  · obtain hnil | ⟨j, hj⟩ := h.memDelta hgraph hm o
    · rw [hnil]
      exact nodup_nil
    · rw [hj]
      exact nodup_insertNhood h.alpha out.medoid j
  · obtain hnil | ⟨j, hj⟩ := h.memDelta hgraph hm o
    · rw [hnil]
      exact fun n hn => absurd hn not_mem_nil
    · rw [hj]
      exact h.insertNhood hgraph hm

omit h in
theorem old_nhood (hg : m.GraphOk) (hid : id < m.diskNpts) (hused : id ∉ m.usedIds) :
    (out.layout.readNode out.file id).nbrs = m.repaired id ∨
      (out.layout.readNode out.file id).nbrs =
        m.limited id (m.repaired id ++ m.diskDelta out.medoid id) := by
  obtain ⟨-, -, hnpts, -⟩ := merge_eq_some hout
  have hnode := (readNode_merge hout (hid.trans_le (newNpts_eq_some hnpts).2.1) fun _ => by
    rw [hgraph id hid]
    exact consolidateDeletes_length (hg.length id hid)).1
  rw [mergedNode, renameInverse_eq_none hused] at hnode
  dsimp only at hnode
  rw [← hgraph id hid]
  split_ifs at hnode
  · exact .inl (by rw [← Option.some.inj hnode])
  · exact .inr (by rw [← Option.some.inj hnode])

end Merge

theorem mem_usedIds_of_mem_diskDelta {n : ℕ} (h : n ∈ m.diskDelta medoid id) : n ∈ m.usedIds := by
  obtain ⟨-, o, -, -, hr, -⟩ := mem_diskDelta h
  exact mem_usedIds.2 ⟨o, rename_eq_some.1 hr⟩

end IndexMerger

/-- A list of live nodes, without the node itself and duplicates, and at most `range` long. -/
structure Merged.NhoodOk (out : Merged Code Tag) (invalidTag : Tag) (range id : ℕ) : Prop where
  live : ∀ nbr ∈ (out.layout.readNode out.file id).nbrs, ∃ t, out.tags[nbr]? = some t ∧ t ≠ invalidTag
  self : id ∉ (out.layout.readNode out.file id).nbrs
  nodup : (out.layout.readNode out.file id).nbrs.Nodup
  length : (out.layout.readNode out.file id).nbrs.length ≤ range

namespace IndexMerger

variable {D Code Tag : Type} [DecidableEq Tag]

/-- A merge into a file for lists of `range`: the lists of the nodes that have a tag afterwards are of
such nodes, without the node itself and duplicates, and at most `range` long. -/
theorem merge_nhoodOk (m : IndexMerger D Code Tag) (out : Merged Code Tag)
    (hout : m.merge = some out) (hlayout : m.LayoutsAgree) (hg : m.GraphOk) (h : m.Linkable) :
    ∀ id t, out.tags[id]? = some t → t ≠ m.invalidTag →
      out.NhoodOk m.invalidTag m.pruning.range id := by
  intro id t htag ht
  obtain ⟨⟨-, hruns, -⟩, -, hnpts, -, htags, -⟩ := merge_eq_some hout
  have hgraph : ∀ id < m.diskNpts, (m.graph id).nbrs = m.repaired id := by
    intro id hid
    rw [graph_eq hlayout.1 hlayout.samePlaces hg.listsFit hid]
  rw [htags, List.getElem?_map] at htag
  obtain ⟨id', hid', htag⟩ := Option.map_eq_some_iff.1 htag
  obtain ⟨hlt, he⟩ := List.getElem?_eq_some_iff.1 hid'
  rw [List.getElem_range] at he
  subst he
  rw [List.length_range] at hlt
  by_cases hused : id ∈ m.usedIds
  · obtain ⟨nbrs, hnodup, hold, hread⟩ := h.new_nhood hout hgraph hused
    have hmem : ∀ n ∈ (out.layout.readNode out.file id).nbrs, n < m.diskNpts ∧ m.Live n := by
      intro n hn
      rw [hread] at hn
      exact hold n (mem_limited hn)
    refine ⟨fun n hn => h.old_tag hout (hmem n hn).1 (hmem n hn).2, fun hself => ?_, ?_, ?_⟩
    · exact h.not_mem_usedIds hruns (hmem id hself).1 (hmem id hself).2 hused
    · rw [hread]
      exact nodup_limited h.alpha hnodup
    · rw [hread]
      exact length_limited_le
  · have hid : id < m.diskNpts := ((newNpts_eq_some hnpts).2.2.2 id hlt).resolve_right hused
    have hlive : m.Live id := by
      rw [tagOut_of_not_mem hused] at htag
      split_ifs at htag with hdel
      · exact absurd htag.symm ht
      · exact ⟨by rwa [htag], hdel⟩
    have hrep : ∀ n ∈ m.repaired id, n < m.diskNpts ∧ m.Live n := fun n hn => h.repaired hid hlive hn
    have hnodup := nodup_repaired h.alpha hg hid
    have hself := h.self_repaired hg hid hlive
    obtain hread | hread := old_nhood hout hgraph hg hid hused
    · refine ⟨fun n hn => ?_, ?_, ?_, ?_⟩
      · rw [hread] at hn
        exact h.old_tag hout (hrep n hn).1 (hrep n hn).2
      · rwa [hread]
      · rwa [hread]
      · rw [hread]
        exact consolidateDeletes_length (hg.length id hid)
    · refine ⟨fun n hn => ?_, fun hn => ?_, ?_, ?_⟩
      · rw [hread] at hn
        obtain hn | hn := List.mem_append.1 (mem_limited hn)
        · exact h.old_tag hout (hrep n hn).1 (hrep n hn).2
        · exact h.new_tag hout (mem_usedIds_of_mem_diskDelta hn)
      · rw [hread] at hn
        obtain hn | hn := List.mem_append.1 (mem_limited hn)
        · exact hself hn
        · exact hused (mem_usedIds_of_mem_diskDelta hn)
      · rw [hread]
        refine nodup_limited h.alpha (List.nodup_append'.2 ⟨hnodup, nodup_diskDelta h.alpha _ _, ?_⟩)
        intro n h1 h2
        obtain ⟨hn, hnlive⟩ := hrep n h1
        exact h.not_mem_usedIds hruns hn hnlive (mem_usedIds_of_mem_diskDelta h2)
      · rw [hread]
        exact length_limited_le

def detourDisk : List (DiskNode × ℕ) :=
  [(⟨[1, 0, 0, 0], [1]⟩, 5), (⟨[2, 0, 0, 0], [2]⟩, 6), (⟨[3, 0, 0, 0], [0]⟩, 7)]

def detourMem : List (List (Vec × ℕ)) := [[([4, 0, 0, 0], 8)]]

theorem detour_ok : SmallOk 4 detourDisk detourMem := by decide

/-- A node whose deleted neighbour leads to another one. -/
def detour : IndexMerger ℕ Vec ℕ := smallMerger 4 3 3 detourDisk detourMem {6} detour_ok

theorem detour_graphOk : detour.GraphOk := by
  refine ⟨?_, ?_, ?_⟩
  · decide +kernel
  · decide +kernel
  · decide +kernel

theorem detour_linkable : detour.Linkable := by
  have htagged : ∀ x ∈ detour.memPoints, x.1 ≠ detour.invalidTag := by decide +kernel
  refine ⟨⟨by decide, fun a ha => ?_⟩, ?_, ?_, by decide, ?_, fun i j pts p hp => ?_, ?_⟩
  · have hle : a ≤ 12 := of_decide_eq_true ha
    exact decide_eq_true (hle.trans_lt (by decide))
  · decide +kernel
  · decide +kernel
  · decide +kernel
  · exact htagged p.swap (mem_memPoints.2 ⟨i, j, pts, p, hp, rfl⟩)
  · decide +kernel

theorem merge_nhoodOk_detour : ∃ out, detour.merge = some out ∧
    ∀ id t, out.tags[id]? = some t → t ≠ detour.invalidTag →
      out.NhoodOk detour.invalidTag detour.pruning.range id := by
  have hsome : detour.merge.isSome = true := by decide +kernel
  obtain ⟨out, hout⟩ := Option.isSome_iff_exists.1 hsome
  exact ⟨out, hout, merge_nhoodOk detour out hout ⟨by decide, .inl rfl⟩ detour_graphOk
    detour_linkable⟩

def backEdgeDisk : List (DiskNode × ℕ) :=
  [(⟨[1, 0, 0, 0], [1]⟩, 5), (⟨[2, 0, 0, 0], [0, 2]⟩, 6), (⟨[3, 0, 0, 0], [0]⟩, 7)]

def backEdgeMem : List (List (Vec × ℕ)) := [[([4, 0, 0, 0], 8)]]

theorem backEdge_ok : SmallOk 4 backEdgeDisk backEdgeMem := by decide

/-- A node with a deleted neighbour that points back to it. -/
def backEdge : IndexMerger ℕ Vec ℕ := smallMerger 4 3 3 backEdgeDisk backEdgeMem {6} backEdge_ok

/-- The node gets itself for a neighbour. -/
theorem backEdge_self_loop : backEdge.LayoutsAgree ∧ backEdge.GraphOk ∧ backEdge.Live 0 ∧
    (backEdge.merge.map fun out => (out.layout.readNode out.file 0).nbrs) = some [0, 2, 1] ∧
    ¬ ∀ out, backEdge.merge = some out → ∀ id t, out.tags[id]? = some t → t ≠ backEdge.invalidTag →
      out.NhoodOk backEdge.invalidTag backEdge.pruning.range id := by
  have hnbrs : (backEdge.merge.map fun out => (out.layout.readNode out.file 0).nbrs) =
      some [0, 2, 1] := by
    decide +kernel
  have htags : (backEdge.merge.map Merged.tags) = some [5, 8, 7] := by decide +kernel
  refine ⟨⟨by decide, .inl rfl⟩, ⟨?_, ?_, ?_⟩, by decide, hnbrs, fun hall => ?_⟩
  · decide +kernel
  · decide +kernel
  · decide +kernel
  · obtain ⟨out, hout, hread⟩ := Option.map_eq_some_iff.1 hnbrs
    rw [hout, Option.map_some, Option.some.injEq] at htags
    have hok := hall out hout 0 5 (by rw [htags]; rfl) (by decide)
    refine hok.self ?_
    rw [hread]
    exact List.mem_cons_self

end IndexMerger

end DiskANNEval.FreshDiskANN
