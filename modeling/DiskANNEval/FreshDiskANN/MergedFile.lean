import DiskANNEval.FreshDiskANN.RenameLists

/-!
# MergedFile — the nodes of the files that a merge writes

`process_deletes` writes its lists at the places of the input file.  If these are the places that its
header tells, the reloaded index has the coordinates of the input and the repaired lists
(`graph_eq`).  `process_merges` reads and writes at the places of the header, so each record is what
one step makes of it (`readNode_merge`).
-/

namespace DiskANNEval.FreshDiskANN

open Lib List Option

namespace IndexMerger

variable {D Code Tag : Type} [DecidableEq Tag] {m : IndexMerger D Code Tag}

/-! ### The repaired lists -/

variable {id n o medoid : ℕ}

theorem consolidateDeletes_length (h : (m.diskNode id).nbrs.length ≤ m.pruning.range) :
    (m.repaired id).length ≤ m.pruning.range := by
  rw [repaired, consolidateDeletes]
  split_ifs
  · exact Nat.zero_le _
  · exact h
  · exact Nat.zero_le _
  · rw [getD_some, length_map]
    exact Pruning.length_occludeList_le

theorem mem_newEdges {nbr : ℕ} (h : nbr ∈ m.newEdges id) : nbr ∉ m.diskDeletedIds ∧
    (nbr ∈ (m.diskNode id).nbrs ∨
      ∃ d ∈ (m.diskNode id).nbrs, d ∈ m.diskDeletedIds ∧ nbr ∈ (m.scannedNode d).nbrs) := by
  rw [newEdges, mem_filter, (m.setOrder_perm _).mem_iff, mem_dedup, mem_flatMap] at h
  obtain ⟨⟨d, hd, hn⟩, hdel⟩ := h
  refine ⟨by simpa using hdel, ?_⟩
  split_ifs at hn with hdd
  · exact .inr ⟨d, hd, hdd, (mem_filter.1 hn).1⟩
  · rw [mem_singleton.1 hn]
    exact .inl hd

theorem mem_repaired {nbr : ℕ} (h : nbr ∈ m.repaired id) : id ∉ m.diskDeletedIds ∧
    nbr ∉ m.diskDeletedIds ∧ (nbr ∈ (m.diskNode id).nbrs ∨
      ∃ d ∈ (m.diskNode id).nbrs, d ∈ m.diskDeletedIds ∧ nbr ∈ (m.scannedNode d).nbrs) := by
  rw [repaired, consolidateDeletes] at h
  split_ifs at h with h1 h2 h3
  · exact absurd h not_mem_nil
  · exact ⟨fun hid => h1 (.inr hid), h2 nbr h, .inl h⟩
  · exact absurd h not_mem_nil
  · refine ⟨fun hid => h1 (.inr hid), mem_newEdges ?_⟩
    obtain ⟨p, hp, rfl⟩ := mem_map.1 h
    have hcand := mem_of_mem_take (Pruning.occludeList_subset hp)
    obtain ⟨n, hn, rfl⟩ := mem_map.1 ((m.pruning.sort_perm _).mem_iff.1 hcand)
    exact hn

theorem repaired_lt : ∀ nbr ∈ m.repaired id, nbr < 2 ^ 32 := by
  intro nbr hn
  obtain ⟨-, -, hn | ⟨d, -, -, hn⟩⟩ := mem_repaired hn
  · exact Layout.readNode_nbrs_lt nbr hn
  · exact Layout.readNode_nbrs_lt nbr hn

theorem repaired_of_not_touched (h : ¬ m.Touched id) : m.repaired id = (m.diskNode id).nbrs := by
  obtain ⟨h1, h2⟩ := not_or.1 h
  obtain ⟨h2, h3⟩ := not_or.1 h2
  rw [repaired, consolidateDeletes, if_neg (not_or.2 ⟨h1, h2⟩), if_pos, getD_some]
  exact fun nbr hn hd => h3 ⟨nbr, hn, hd⟩

/-! ### The reloaded index -/

/-- The records of the input file are where the new header says. -/
def SamePlaces (m : IndexMerger D Code Tag) : Prop :=
  ∀ id < m.diskNpts, m.layout.nodeOff id = m.outLayout.nodeOff id

/-- The lists of the file are at most `range` long. -/
def ListsFit (m : IndexMerger D Code Tag) : Prop :=
  ∀ id < m.diskNpts, (m.diskNode id).nbrs.length ≤ m.pruning.range

omit [DecidableEq Tag] in
theorem SamePlaces.diskNode (h : m.SamePlaces) (hid : id < m.diskNpts) :
    m.outLayout.readNode m.disk id = m.diskNode id := by
  have hoff := h id hid
  rw [IndexMerger.diskNode, Layout.readNode, Layout.readNode, Layout.nhoodOff, Layout.nhoodOff, hoff]
  rfl

theorem consolidatedFile_eq (h : m.SamePlaces) : m.consolidatedFile =
    (List.range m.diskNpts).foldl
      (fun f id => if m.Touched id then m.outLayout.writeNbrs f id (m.repaired id) else f) m.disk := by
  refine foldl_ext _ _ _ fun f id hid => ?_
  have hoff := h id (List.mem_range.1 hid)
  rw [Layout.writeNbrs, Layout.nhoodOff, hoff]
  rfl

omit [DecidableEq Tag] in
theorem outLayout_ok (h : 0 < m.outLayout.nnodesPerSector) : m.outLayout.Ok :=
  ⟨h, Nat.div_mul_le_self _ _⟩

omit [DecidableEq Tag] in
theorem record_le (h : 0 < m.outLayout.nnodesPerSector) :
    m.coordsLen + 4 + m.pruning.range * 4 ≤ 4096 := (Nat.div_pos_iff.1 h).2

theorem graph_eq (hok : 0 < m.outLayout.nnodesPerSector) (hplaces : m.SamePlaces)
    (hfit : m.ListsFit) (hid : id < m.diskNpts) :
    m.graph id = ⟨(m.diskNode id).coords, m.repaired id⟩ := by
  have hlen : ∀ id < m.diskNpts, (m.repaired id).length ≤ m.pruning.range :=
    fun id hid => consolidateDeletes_length (hfit id hid)
  have hlen' : ∀ id < m.diskNpts, (m.repaired id).length < 2 ^ 32 := by
    intro id hid
    have h1 := hlen id hid
    have h2 := record_le hok
    omega
  rw [graph, consolidatedFile_eq hplaces,
    Layout.readNode_writeLists (outLayout_ok hok) (fun id hid _ => Layout.room_ofRange.2 (hlen id hid))
      hlen' (fun id _ => repaired_lt), hplaces.diskNode hid]
  · split_ifs with ht
    · rfl
    · rw [repaired_of_not_touched fun htouched => ht ⟨hid, htouched⟩]
  · rw [hplaces.diskNode hid]
    exact Layout.room_ofRange.2 (hfit id hid)

/-! ### The merged records -/

/-- The node that `process_merges` makes of the reloaded one. -/
def mergedNode (m : IndexMerger D Code Tag) (medoid id : ℕ) : Option DiskNode :=
  match m.renameInverse id with
  | some offsetId =>
    (m.memData offsetId).map fun vec => ⟨vec, m.limited id (m.memDelta medoid offsetId)⟩
  | none =>
    let deltas := m.diskDelta medoid id
    if deltas = [] then some (m.graph id)
    else some ⟨(m.graph id).coords, m.limited id ((m.graph id).nbrs ++ deltas)⟩

theorem length_limited_le {nhood : List ℕ} : (m.limited id nhood).length ≤ m.pruning.range := by
  rw [limited]
  split_ifs with h
  · exact Pruning.length_pruneNeighbors_le
  · exact Nat.not_lt.1 h

theorem mem_limited {nhood : List ℕ} (h : n ∈ m.limited id nhood) : n ∈ nhood := by
  rw [limited] at h
  split_ifs at h
  · have hmem := Pruning.mem_pruneNeighbors h
    rw [List.map_map] at hmem
    obtain ⟨n', hn', rfl⟩ := mem_map.1 hmem
    exact hn'
  · exact h

theorem usedIds_lt : ∀ id ∈ m.usedIds, id < 2 ^ 32 := by
  intro id hid
  have hnpts : m.diskNpts ≤ roundUp m.diskNpts indexOffset := le_roundUp _ (by decide)
  have hlen : m.inserts.length ≤ m.mem.length * indexOffset :=
    length_inserts_le_mul.trans (Nat.mul_le_mul_left _ (by decide))
  have hfit := m.ids_fit
  obtain hid | hid := mem_append.1 (mem_of_mem_take hid)
  · have := (mem_holes.1 hid).1
    omega
  · have := mem_range'_1.1 hid
    omega

theorem rename_lt (h : m.rename o = some id) : id < 2 ^ 32 :=
  usedIds_lt id (mem_usedIds.2 ⟨o, rename_eq_some.1 h⟩)

theorem renameEdges_lt {ids : List ℕ} (h : ∀ id ∈ ids, id < 2 ^ 32) :
    ∀ id ∈ m.renameEdges ids, id < 2 ^ 32 := by
  intro id hid
  obtain ⟨id', hid', rfl⟩ := mem_map.1 hid
  cases hr : m.rename id' with
  | none => exact h id' hid'
  | some id => exact rename_lt hr

theorem newMedoid_lt (h : m.newMedoid = some medoid) : medoid < 2 ^ 32 := by
  rw [newMedoid] at h
  split_ifs at h
  · have hmem := mem_of_mem_head? h
    exact Layout.readNode_nbrs_lt _ (mem_filter.1 hmem).1
  · cases h
    exact m.init_lt

theorem mem_newNhood {vec : Vec} (h : n ∈ m.newNhood medoid vec) :
    n ∉ m.diskDeletedIds ∧ Reachable m.graph medoid n := by
  obtain ⟨p, hp, rfl⟩ := mem_map.1 (Pruning.mem_pruneNeighbors h)
  exact ⟨m.search_excluded _ _ _ _ p hp, m.search_reachable _ _ _ _ p hp⟩

theorem mem_insertNhood {j : ℕ} (h : n ∈ m.insertNhood medoid j) :
    n ∉ m.diskDeletedIds ∧ Reachable m.graph medoid n := by
  rw [insertNhood] at h
  cases hrow : m.dataLoad[j]? with
  | none =>
    rw [hrow] at h
    exact absurd h not_mem_nil
  | some vec =>
    rw [hrow] at h
    exact mem_newNhood h

theorem reachable_lt (h : Reachable m.graph medoid id) (hm : medoid < 2 ^ 32) : id < 2 ^ 32 := by
  obtain rfl | ⟨b, -, hb⟩ := h.cases_tail
  · exact hm
  · exact Layout.readNode_nbrs_lt id hb

theorem memDelta_lt (hm : medoid < 2 ^ 32) : ∀ n ∈ m.memDelta medoid o, n < 2 ^ 32 := by
  refine renameEdges_lt fun n hn => ?_
  cases hx : m.inserts.find? fun x => x.1 = o with
  | none =>
    rw [hx] at hn
    exact absurd hn not_mem_nil
  | some x =>
    rw [hx] at hn
    exact reachable_lt (mem_insertNhood hn).2 hm

theorem mem_diskDelta (h : n ∈ m.diskDelta medoid id) : id < m.diskNpts ∧
    ∃ o j, (o, j) ∈ m.inserts ∧ m.rename o = some n ∧ id ∈ m.insertNhood medoid j := by
  rw [diskDelta] at h
  split_ifs at h with hid
  · obtain ⟨o, ho, rfl⟩ := mem_map.1 h
    rw [(m.deltaOrder_perm _).mem_iff, mem_flatMap] at ho
    obtain ⟨x, hx, ho⟩ := ho
    obtain ⟨id', hid', rfl⟩ := mem_map.1 ho
    obtain ⟨hmem, heq⟩ := mem_filter.1 hid'
    obtain ⟨n, hn⟩ := exists_rename hx
    refine ⟨hid, x.1, x.2, hx, ?_, of_decide_eq_true heq ▸ hmem⟩
    rw [hn]
    rfl
  · exact absurd h not_mem_nil

theorem diskDelta_lt : ∀ n ∈ m.diskDelta medoid id, n < 2 ^ 32 := by
  intro n hn
  obtain ⟨-, o, j, -, hr, -⟩ := mem_diskDelta hn
  exact rename_lt hr

omit [DecidableEq Tag] in
theorem length_memData {vec : Vec} (h : m.memData o = some vec) : vec.length = m.coordsLen := by
  obtain ⟨p, hp, rfl⟩ := map_eq_some_iff.1 h
  obtain ⟨i, -, hp⟩ := bind_eq_some_iff.1 hp
  obtain ⟨pts, hpts, hp⟩ := bind_eq_some_iff.1 hp
  exact m.mem_dims pts (mem_of_getElem? hpts) p (mem_of_getElem? hp)

theorem mergeNode_spec (hok : 0 < m.outLayout.nnodesPerSector) (hm : medoid < 2 ^ 32)
    {f f' : ByteFile} (h : m.mergeNode medoid f id = some f') :
    (∀ o, o < m.outLayout.nodeOff id ∨ m.outLayout.nodeOff id + m.outLayout.maxNodeLen ≤ o →
      f' o = f o) ∧
    ((m.renameInverse id = none → m.outLayout.readNode f id = m.graph id) →
      m.mergedNode medoid id = some (m.outLayout.readNode f' id)) := by
  have hroom : ∀ {nhood}, m.outLayout.Room (m.limited id nhood).length :=
    Layout.room_ofRange.2 length_limited_le
  have hroom0 : m.outLayout.Room ([] : List ℕ).length := Layout.room_ofRange.2 (Nat.zero_le _)
  have hlen : ∀ {nhood}, (m.limited id nhood).length < 2 ^ 32 := by
    intro nhood
    have h1 := @length_limited_le _ _ _ _ m id nhood
    have h2 := record_le hok
    omega
  rw [mergeNode] at h
  cases hr : m.renameInverse id with
  | some o =>
    rw [hr] at h
    obtain ⟨vec, hvec, h⟩ := bind_eq_some_iff.1 h
    dsimp only [Option.pure_def] at h
    have hveclen : vec.length = m.outLayout.coordsLen := length_memData hvec
    have hwrite : ∀ o', o' < m.outLayout.nodeOff id ∨
        m.outLayout.nodeOff id + m.outLayout.maxNodeLen ≤ o' →
        m.outLayout.writeNbrs (m.outLayout.writeCoords f id vec) id [] o' = f o' := by
      intro o' ho'
      rw [Layout.writeNbrs_of_not_mem hroom0 ho', Layout.writeCoords_of_not_mem hveclen]
      have hfit : m.outLayout.coordsLen + 4 + 0 * 4 ≤ m.outLayout.maxNodeLen := hroom0
      rw [Layout.nhoodOff]
      omega
    have hnode : m.outLayout.readNode (m.outLayout.writeNbrs (m.outLayout.writeCoords f id vec)
        id []) id = ⟨vec, []⟩ := by
      rw [Layout.readNode_writeNbrs_same (by simp) (by simp),
        Layout.readNode_writeCoords_same hveclen]
    rw [mergedNode, hr]
    dsimp only
    rw [hvec, map_some]
    by_cases hd : m.memDelta medoid o = []
    · rw [if_pos hd] at h
      cases h
      refine ⟨hwrite, fun _ => ?_⟩
      rw [hnode, hd, limited]
      rw [if_neg (by simp)]
    · rw [if_neg hd] at h
      cases h
      refine ⟨fun o' ho' => ?_, fun _ => ?_⟩
      · rw [Layout.writeNbrs_of_not_mem hroom ho', hwrite o' ho']
      · rw [Layout.readNode_writeNbrs_same hlen fun n hn => memDelta_lt hm n (mem_limited hn), hnode]
  | none =>
    rw [hr] at h
    rw [mergedNode, hr]
    by_cases hd : m.diskDelta medoid id = []
    · rw [if_pos hd] at h
      cases h
      refine ⟨fun _ _ => rfl, fun hg => ?_⟩
      rw [if_pos hd, hg rfl]
    · rw [if_neg hd] at h
      cases h
      refine ⟨fun o' ho' => Layout.writeNbrs_of_not_mem hroom ho', fun hg => ?_⟩
      rw [if_neg hd, Layout.readNode_writeNbrs_same hlen, hg rfl]
      intro n hn
      obtain hn | hn := mem_append.1 (mem_limited hn)
      · exact Layout.readNode_nbrs_lt n hn
      · exact diskDelta_lt n hn

theorem mergeNodes_spec (hok : 0 < m.outLayout.nnodesPerSector) (hm : medoid < 2 ^ 32)
    {f : ByteFile} (h : (List.range n).foldlM (m.mergeNode medoid) m.consolidatedFile = some f) :
    (∀ id, n ≤ id → ∀ o, m.outLayout.nodeOff id ≤ o →
      o < m.outLayout.nodeOff id + m.outLayout.maxNodeLen → f o = m.consolidatedFile o) ∧
    ∀ id < n, (m.renameInverse id = none → (m.graph id).nbrs.length ≤ m.pruning.range) →
      m.mergedNode medoid id = some (m.outLayout.readNode f id) ∧
        (m.outLayout.readNode f id).nbrs.length ≤ m.pruning.range := by
  have hlayout := outLayout_ok hok
  induction n generalizing f with
  | zero =>
    cases h
    exact ⟨fun _ _ _ _ _ => rfl, fun id hid => absurd hid (Nat.not_lt_zero id)⟩
  | succ n ih =>
    rw [range_succ, foldlM_append] at h
    obtain ⟨f1, hf1, h⟩ := bind_eq_some_iff.1 h
    obtain ⟨f2, hf2, h⟩ := bind_eq_some_iff.1 h
    cases h
    obtain ⟨hsame, hdone⟩ := ih hf1
    obtain ⟨hout, hnode⟩ := mergeNode_spec hok hm hf2
    refine ⟨fun id hid o h1 h2 => ?_, fun id hid hroom => ?_⟩
    · have hdisj := hlayout.disjoint (show n ≠ id by omega)
      rw [hout o (by omega)]
      exact hsame id (by omega) o h1 h2
    · by_cases heq : id = n
      · subst heq
        have hread : m.renameInverse id = none → m.outLayout.readNode f1 id = m.graph id := by
          intro hr
          refine Layout.readNode_congr (Layout.room_ofRange.2 (hroom hr))
            fun o h1 h2 => (hsame id le_rfl o h1 h2).symm
        have hmerged := hnode hread
        refine ⟨hmerged, ?_⟩
        rw [mergedNode] at hmerged
        split at hmerged
        · obtain ⟨vec, -, hvec⟩ := map_eq_some_iff.1 hmerged
          rw [← hvec]
          exact length_limited_le
        · rename_i hr
          dsimp only at hmerged
          split_ifs at hmerged
          · rw [← Option.some.inj hmerged]
            exact hroom hr
          · rw [← Option.some.inj hmerged]
            exact length_limited_le
      · obtain ⟨hmerged, hlen⟩ := hdone id (by omega) hroom
        have hread : m.outLayout.readNode f id = m.outLayout.readNode f1 id := by
          refine Layout.readNode_congr (Layout.room_ofRange.2 hlen) fun o h1 h2 => (hout o ?_).symm
          have hdisj := hlayout.disjoint heq
          omega
        rw [hread]
        exact ⟨hmerged, hlen⟩

variable {out : Merged Code Tag}

theorem merge_eq_some (h : m.merge = some out) : m.Runs ∧
    m.newMedoid = some out.medoid ∧ m.newNpts = some out.npts ∧
    (List.range out.npts).foldlM (m.mergeNode out.medoid) m.consolidatedFile = some out.file ∧
    out.tags = (List.range out.npts).map m.tagOut ∧ out.layout = m.outLayout ∧
    out.pqData = m.newPqData := by
  rw [merge] at h
  split_ifs at h with hruns
  obtain ⟨medoid, hmedoid, h⟩ := bind_eq_some_iff.1 h
  obtain ⟨npts, hnpts, h⟩ := bind_eq_some_iff.1 h
  obtain ⟨file, hfile, h⟩ := bind_eq_some_iff.1 h
  cases h
  exact ⟨hruns, hmedoid, hnpts, hfile, rfl, rfl, rfl⟩

theorem readNode_merge (h : m.merge = some out) (hid : id < out.npts)
    (hroom : m.renameInverse id = none → (m.graph id).nbrs.length ≤ m.pruning.range) :
    m.mergedNode out.medoid id = some (out.layout.readNode out.file id) ∧
      (out.layout.readNode out.file id).nbrs.length ≤ m.pruning.range := by
  obtain ⟨hruns, hmedoid, -, hfile, -, hlayout, -⟩ := merge_eq_some h
  rw [hlayout]
  exact (mergeNodes_spec hruns.1 (newMedoid_lt hmedoid) hfile).2 id hid hroom

theorem lt_diskNpts (h : m.merge = some out) (hid : id < out.npts)
    (hr : m.renameInverse id = none) : id < m.diskNpts := by
  refine ((newNpts_eq_some (merge_eq_some h).2.2.1).2.2.2 id hid).resolve_right fun hused => ?_
  obtain ⟨o, ho⟩ := mem_usedIds.1 hused
  rw [hr] at ho
  cases ho

end IndexMerger

end DiskANNEval.FreshDiskANN
