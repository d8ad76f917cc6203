import DiskANNEval.FreshDiskANN.MergeLayout
import DiskANNEval.FreshDiskANN.MergedVectors

/-!
# MergedTags — the points of a merged index

The output has the points of the ids that are handed out, which are the ones that are inserted, and
the live points of the disk index at the other ids (`points_perm`).  A node without neighbours counts
as a hole, so a live one may be handed out (`mem_usedIds_iff`).
-/

namespace DiskANNEval.FreshDiskANN

open Lib List Option Function

/-- The tags that are written, with the coordinates at their ids. -/
def Merged.points {Code Tag : Type} [DecidableEq Tag] (out : Merged Code Tag) (invalidTag : Tag) :
    List (Tag × Vec) :=
  (out.tags.zipIdx.filter fun x => x.1 ≠ invalidTag).map fun x =>
    (x.1, (out.layout.readNode out.file x.2).coords)

namespace IndexMerger

variable {D Code Tag : Type} [DecidableEq Tag] {m : IndexMerger D Code Tag} {i j o id : ℕ}
  {pts : List (Vec × Tag)} {p : Vec × Tag}

/-- A node with a tag that is not deleted. -/
def Live (m : IndexMerger D Code Tag) (id : ℕ) : Prop :=
  m.diskTags id ≠ m.invalidTag ∧ m.diskTags id ∉ m.deletedTags

instance (id : ℕ) : Decidable (m.Live id) := inferInstanceAs (Decidable (_ ∧ _))

def diskPoint (m : IndexMerger D Code Tag) (id : ℕ) : Tag × Vec :=
  (m.diskTags id, (m.diskNode id).coords)

def diskPoints (m : IndexMerger D Code Tag) : List (Tag × Vec) :=
  ((List.range m.diskNpts).filter fun id => m.Live id).map m.diskPoint

def memPoints (m : IndexMerger D Code Tag) : List (Tag × Vec) :=
  m.mem.flatMap fun pts => (pts.filter fun p => p.2 ∉ m.deletedTags).map Prod.swap

/-- The points of the indices, less the deleted ones. -/
def livePoints (m : IndexMerger D Code Tag) : List (Tag × Vec) := m.diskPoints ++ m.memPoints

/-! ### The ids that are handed out -/

/-- `process_deletes` takes the node for a hole. -/
def IsHole (m : IndexMerger D Code Tag) (id : ℕ) : Prop :=
  (m.diskNode id).nbrs = [] ∨ id ∈ m.diskDeletedIds ∨
    (∃ nbr ∈ (m.diskNode id).nbrs, nbr ∈ m.diskDeletedIds) ∧ ¬ m.pruning.Chooses

instance : Decidable m.pruning.Chooses := inferInstanceAs (Decidable (_ ∧ _ ∧ _))

instance : DecidablePred m.IsHole := fun _ => inferInstanceAs (Decidable (_ ∨ _ ∨ _ ∧ _))

/-- A node has a neighbour, or one behind a deleted neighbour, that is not deleted. -/
def HasNewEdge (m : IndexMerger D Code Tag) (id : ℕ) : Prop :=
  ∃ nbr ∈ (m.diskNode id).nbrs, nbr ∉ m.diskDeletedIds ∨
    ∃ n ∈ (m.scannedNode nbr).nbrs, n ∉ m.diskDeletedIds

theorem newEdges_eq_nil : m.newEdges id = [] ↔ ¬ m.HasNewEdge id := by
  have hiff : (∀ n, n ∉ m.newEdges id) ↔ ¬ m.HasNewEdge id := by
    simp only [newEdges, mem_filter, (m.setOrder_perm _).mem_iff, mem_dedup,
      mem_flatMap]
    constructor
    · rintro h ⟨nbr, hnbr, hlive | ⟨n, hn, hlive⟩⟩
      · refine h nbr ⟨⟨nbr, hnbr, ?_⟩, by simpa using hlive⟩
        rw [if_neg hlive]
        exact mem_singleton_self nbr
      · by_cases hdel : nbr ∈ m.diskDeletedIds
        · refine h n ⟨⟨nbr, hnbr, ?_⟩, by simpa using hlive⟩
          rw [if_pos hdel]
          exact mem_filter.2 ⟨hn, by simpa using hlive⟩
        · refine h nbr ⟨⟨nbr, hnbr, ?_⟩, by simpa using hdel⟩
          rw [if_neg hdel]
          exact mem_singleton_self nbr
    · rintro h n ⟨⟨nbr, hnbr, hn⟩, hlive⟩
      have hlive' : n ∉ m.diskDeletedIds := by simpa using hlive
      split_ifs at hn with hdel
      · exact h ⟨nbr, hnbr, .inr ⟨n, (mem_filter.1 hn).1, hlive'⟩⟩
      · rw [mem_singleton.1 hn] at hlive'
        exact h ⟨nbr, hnbr, .inl hlive'⟩
  rw [eq_nil_iff_forall_not_mem]
  exact hiff

theorem isSome_consolidateDeletes : (m.consolidateDeletes id).isSome = true ↔
    (id ∉ m.diskDeletedIds → (m.diskNode id).nbrs ≠ [] → m.HasNewEdge id) := by
  rw [consolidateDeletes]
  split_ifs with h1 h2 h3
  · refine iff_of_true rfl fun hid hne => ?_
    exact absurd h1 (not_or.2 ⟨hne, hid⟩)
  · refine iff_of_true rfl fun _ hne => ?_
    obtain ⟨nbr, nbrs, hnbrs⟩ := exists_cons_of_ne_nil hne
    have hnbr : nbr ∈ (m.diskNode id).nbrs := by
      rw [hnbrs]
      exact mem_cons_self
    exact ⟨nbr, hnbr, .inl (h2 nbr hnbr)⟩
  · refine iff_of_false (by simp) fun h => newEdges_eq_nil.1 h3 ?_
    exact h (fun hid => h1 (.inr hid)) fun hnil => h1 (.inl hnil)
  · exact iff_of_true rfl fun _ _ => not_not.1 fun hne => h3 (newEdges_eq_nil.2 hne)

theorem repaired_eq_nil (h : (m.consolidateDeletes id).isSome = true) :
    m.repaired id = [] ∨ id ∈ m.diskDeletedIds ↔ m.IsHole id := by
  rw [repaired, IsHole]
  rw [consolidateDeletes] at h ⊢
  split_ifs at h ⊢ with h1 h2 h3
  · exact iff_of_true (.inl rfl) (h1.imp_right .inl)
  · obtain ⟨hne, hid⟩ := not_or.1 h1
    refine iff_of_false (not_or.2 ⟨hne, hid⟩) ?_
    rintro (hnil | hdel | ⟨⟨nbr, hnbr, hdel⟩, -⟩)
    · exact hne hnil
    · exact hid hdel
    · exact h2 nbr hnbr hdel
  · cases h
  · obtain ⟨hne, hid⟩ := not_or.1 h1
    rw [getD_some, map_eq_nil_iff, Pruning.occludeList_eq_nil, or_iff_left hid,
      or_iff_right hne, or_iff_right hid]
    have hdel : ∃ nbr ∈ (m.diskNode id).nbrs, nbr ∈ m.diskDeletedIds := by
      by_contra hno
      exact h2 fun nbr hnbr hd => hno ⟨nbr, hnbr, hd⟩
    refine ⟨fun hn => ⟨hdel, hn.elim (fun htake hc => ?_) fun hc => hc⟩, fun hn => .inr hn.2⟩
    have hpos := hc.2.2
    obtain hz | hz := take_eq_nil_iff.1 htake
    · omega
    · have hlen := (m.pruning.sort_perm ((m.newEdges id).map fun nbr =>
        ⟨nbr, m.pqDists id nbr⟩)).length_eq
      rw [hz, length_map] at hlen
      exact h3 (eq_nil_of_length_eq_zero hlen.symm)

omit [DecidableEq Tag] in
theorem mem_take_filter_range {P : ℕ → Prop} [DecidablePred P] {n k : ℕ} (hid : id < n) :
    id ∈ ((List.range n).filter fun a => P a).take k ↔ P id ∧ Nat.count P id < k := by
  induction n with
  | zero => exact absurd hid (Nat.not_lt_zero id)
  | succ n ih =>
    have hlen : ((List.range n).filter fun a => P a).length = Nat.count P n := by
      rw [Nat.count, countP_eq_length_filter]
    rw [range_succ, filter_append, take_append, mem_append, hlen]
    obtain hlt | rfl := Nat.lt_succ_iff_lt_or_eq.1 hid
    · have hnot : id ∉ ([n].filter fun a => P a).take (k - Nat.count P n) := by
        intro hmem
        have := mem_singleton.1 (mem_filter.1 (mem_of_mem_take hmem)).1
        omega
      rw [or_iff_left hnot]
      exact ih hlt
    · have hnot : id ∉ ((List.range id).filter fun a => P a).take k := by
        intro hmem
        exact absurd (List.mem_range.1 (mem_filter.1 (mem_of_mem_take hmem)).1)
          (lt_irrefl id)
      rw [or_iff_right hnot]
      by_cases hP : P id
      · rw [filter_cons_of_pos (by simpa using hP), and_iff_right hP]
        cases hk : k - Nat.count P id with
        | zero =>
          exact iff_of_false not_mem_nil (by omega)
        | succ r =>
          exact iff_of_true mem_cons_self (by omega)
      · rw [filter_cons_of_neg (by simpa using hP), filter_nil, take_nil]
        exact iff_of_false not_mem_nil fun h => hP h.1

theorem mem_usedIds_iff (hruns : ∀ id < m.diskNpts, (m.consolidateDeletes id).isSome = true)
    (hid : id < m.diskNpts) :
    id ∈ m.usedIds ↔ m.IsHole id ∧ Nat.count m.IsHole id < m.inserts.length := by
  have hholes : m.holes = (List.range m.diskNpts).filter fun id => m.IsHole id := by
    refine filter_congr fun a ha => decide_eq_decide.2 ?_
    exact repaired_eq_nil (hruns a (List.mem_range.1 ha))
  have hnot : id ∉ (range' m.diskNpts (m.inserts.length - m.holes.length)).take
      (m.inserts.length - m.holes.length) := by
    intro hmem
    have := (mem_range'_1.1 (mem_of_mem_take hmem)).1
    omega
  rw [usedIds, freeIds, take_append, mem_append, or_iff_left hnot, hholes,
    mem_take_filter_range hid]

/-! ### The points that are written -/

/-- What a reader finds at an id. -/
def outPoint (m : IndexMerger D Code Tag) (out : Merged Code Tag) (id : ℕ) : Tag × Vec :=
  (m.tagOut id, (out.layout.readNode out.file id).coords)

variable {out : Merged Code Tag}

theorem points_eq (htags : out.tags = (List.range out.npts).map m.tagOut) :
    out.points m.invalidTag =
      ((List.range out.npts).map (m.outPoint out)).filter fun x => x.1 ≠ m.invalidTag := by
  have hzip : out.tags.zipIdx = (List.range out.npts).map fun id => (m.tagOut id, id) := by
    rw [htags]
    apply ext_getElem (by simp)
    simp
  rw [Merged.points, hzip, List.filter_map, List.filter_map, List.map_map]
  rfl

theorem tagOut_of_some (h : m.renameInverse id = some o) (hp : m.memPoint o = some p)
    (hlive : p.2 ∉ m.deletedTags) : m.tagOut id = p.2 := by
  simp [tagOut, h, hp, hlive]

theorem IsInsert.outPoint (hout : m.merge = some out) (h : m.IsInsert i j pts p)
    (hid : m.rename (m.offsetId i + j) = some id) : m.outPoint out id = p.swap := by
  rw [IndexMerger.outPoint, coords_merge hout h hid,
    tagOut_of_some (rename_eq_some.1 hid) h.memPoint h.live]
  rfl

theorem map_memPoint_survivors (hi : m.mem[i]? = some pts) :
    (m.survivors pts).map (fun j => (m.memPoint (m.offsetId i + j)).map Prod.swap) =
      ((pts.filter fun p => p.2 ∉ m.deletedTags).map Prod.swap).map some := by
  have hzip : pts.filter (fun p => p.2 ∉ m.deletedTags) =
      (pts.zipIdx.filter fun x => x.1.2 ∉ m.deletedTags).map Prod.fst := by
    conv_lhs => rw [← zipIdx_map_fst 0 pts, List.filter_map]
    rfl
  rw [survivors, hzip, List.map_map, List.map_map, List.map_map]
  refine map_congr_left fun x hx => ?_
  obtain ⟨hx, hlive⟩ := mem_filter.1 hx
  have hins : m.IsInsert i x.2 pts x.1 :=
    ⟨hi, mem_zipIdx_iff_getElem?.1 hx, by simpa using hlive⟩
  rw [comp_apply, hins.memPoint]
  rfl

theorem map_memPoint_inserts : (m.inserts.map Prod.fst).map
    (fun o => (m.memPoint o).map Prod.swap) = m.memPoints.map some := by
  have hmem : m.memPoints = m.mem.zipIdx.flatMap
      fun x => (x.1.filter fun p => p.2 ∉ m.deletedTags).map Prod.swap := by
    conv_lhs => rw [memPoints, ← zipIdx_map_fst 0 m.mem, flatMap_map]
  rw [hmem, inserts, map_flatMap, map_flatMap, map_flatMap]
  refine flatMap_congr fun x hx => ?_
  rw [List.map_map, List.map_map, ← map_memPoint_survivors (mem_zipIdx_iff_getElem?.1 hx)]
  refine map_congr_left fun j _ => ?_
  rw [comp_apply, comp_apply]

theorem map_outPoint_usedIds (hout : m.merge = some out) :
    m.usedIds.map (m.outPoint out) = m.memPoints := by
  refine map_injective_iff.2 (some_injective _) ?_
  rw [← map_memPoint_inserts, ← map_fst_inverseList, ← map_snd_inverseList, List.map_map,
    List.map_map, List.map_map]
  refine map_congr_left fun x hx => ?_
  have hinv : m.renameInverse x.1 = some x.2 := renameInverse_eq_some_iff.2 hx
  obtain ⟨j, hj⟩ := mem_inserts_of_renameInverse hinv
  obtain ⟨i, pts, p, hi, hp, hlive, ho⟩ := mem_inserts.1 hj
  have hins : m.IsInsert i j pts p := ⟨hi, hp, hlive⟩
  have hid : m.rename (m.offsetId i + j) = some x.1 := by
    rw [← ho]
    exact rename_eq_some.2 hinv
  rw [comp_apply, comp_apply, comp_apply, hins.outPoint hout hid, ho,
    hins.memPoint, map_some]

theorem renameInverse_eq_none (h : id ∉ m.usedIds) : m.renameInverse id = none := by
  rw [eq_none_iff_forall_ne_some]
  exact fun o ho => h (mem_usedIds.2 ⟨o, ho⟩)

theorem tagOut_of_not_mem (h : id ∉ m.usedIds) : m.tagOut id =
    if m.diskTags id ∈ m.deletedTags then m.invalidTag else m.diskTags id := by
  simp [tagOut, renameInverse_eq_none h]

theorem outPoint_of_not_mem (hlayout : m.LayoutsAgree) (hrec : m.RecordsOk)
    (hout : m.merge = some out) (hid : id < m.diskNpts) (hused : id ∉ m.usedIds) :
    m.outPoint out id = (m.tagOut id, (m.diskNode id).coords) := by
  have hinv := renameInverse_eq_none hused
  obtain ⟨hgraph, hroom⟩ := (hlayout.headerDescribes hrec).deletes id hid
  have hle : m.diskNpts ≤ out.npts := (newNpts_eq_some (merge_eq_some hout).2.2.1).2.1
  have hnode := (readNode_merge hout (hid.trans_le hle) fun _ => by
    rw [graph, hgraph]
    exact Layout.room_ofRange.1 hroom).1
  have hcoords : (out.layout.readNode out.file id).coords = (m.graph id).coords := by
    rw [mergedNode, hinv] at hnode
    dsimp only at hnode
    split_ifs at hnode
    · rw [← Option.some.inj hnode]
    · rw [← Option.some.inj hnode]
  rw [outPoint, hcoords, graph, hgraph]

theorem range_perm (hout : m.merge = some out) : (List.range out.npts).Perm
      (m.usedIds ++ (List.range m.diskNpts).filter fun id => id ∉ m.usedIds) := by
  obtain ⟨-, hle, hlt, hcases⟩ := newNpts_eq_some (merge_eq_some hout).2.2.1
  have hused : m.usedIds.Nodup := by
    have hpw : m.usedIds.Pairwise (· < ·) := pairwise_freeIds.sublist (take_sublist _ _)
    exact hpw.imp fun h => h.ne
  refine (perm_ext_iff_of_nodup nodup_range ?_).2 fun id => ?_
  · refine nodup_append'.2 ⟨hused, nodup_range.filter _, fun id h1 h2 => ?_⟩
    have hnot := (mem_filter.1 h2).2
    exact absurd h1 (by simpa using hnot)
  · rw [mem_append, mem_filter, List.mem_range, List.mem_range, decide_eq_true_eq]
    constructor
    · intro hid
      by_cases hu : id ∈ m.usedIds
      · exact .inl hu
      · exact .inr ⟨(hcases id hid).resolve_right hu, hu⟩
    · rintro (hu | ⟨hid, -⟩)
      · exact hlt id hu
      · exact hid.trans_le hle

theorem points_perm (hlayout : m.LayoutsAgree) (hrec : m.RecordsOk) (hout : m.merge = some out) :
    (out.points m.invalidTag).Perm
      ((((List.range m.diskNpts).filter fun id => id ∉ m.usedIds).filter fun id => m.Live id).map
        m.diskPoint ++ m.memPoints.filter fun x => x.1 ≠ m.invalidTag) := by
  have hrest : ((((List.range m.diskNpts).filter fun id => id ∉ m.usedIds).map
      (m.outPoint out)).filter fun x => x.1 ≠ m.invalidTag) =
      (((List.range m.diskNpts).filter fun id => id ∉ m.usedIds).filter fun id => m.Live id).map
        m.diskPoint := by
    have hpoint : ∀ id ∈ (List.range m.diskNpts).filter (fun id => id ∉ m.usedIds),
        m.outPoint out id = (m.tagOut id, (m.diskNode id).coords) ∧ id ∉ m.usedIds := by
      intro id hid
      obtain ⟨hid, hu⟩ := mem_filter.1 hid
      have hu' : id ∉ m.usedIds := by simpa using hu
      exact ⟨outPoint_of_not_mem hlayout hrec hout (List.mem_range.1 hid) hu', hu'⟩
    rw [List.filter_map]
    have hfilter : ((List.range m.diskNpts).filter fun id => id ∉ m.usedIds).filter
        ((fun x : Tag × Vec => decide (x.1 ≠ m.invalidTag)) ∘ m.outPoint out) =
        ((List.range m.diskNpts).filter fun id => id ∉ m.usedIds).filter fun id => m.Live id := by
      refine filter_congr fun id hid => decide_eq_decide.2 ?_
      obtain ⟨hp, hu⟩ := hpoint id hid
      rw [hp, tagOut_of_not_mem hu, Live]
      by_cases hdel : m.diskTags id ∈ m.deletedTags
      · simp [hdel]
      · simp [hdel]
    rw [hfilter]
    refine map_congr_left fun id hid => ?_
    obtain ⟨hid, hlive⟩ := mem_filter.1 hid
    obtain ⟨hp, hu⟩ := hpoint id hid
    have hlive' : m.Live id := of_decide_eq_true hlive
    rw [hp, tagOut_of_not_mem hu, if_neg hlive'.2]
    rfl
  obtain ⟨-, -, -, -, htags, -⟩ := merge_eq_some hout
  have hperm := ((range_perm hout).map (m.outPoint out)).filter fun x => x.1 ≠ m.invalidTag
  rw [map_append, filter_append, map_outPoint_usedIds hout, hrest] at hperm
  rw [points_eq htags]
  exact hperm.trans perm_append_comm

/-! ### Merges that return -/

theorem isSome_newNpts : m.newNpts.isSome = true ↔ m.inserts ≠ [] := by
  have hlen : m.inverseList.length = m.inserts.length := by
    have h := congrArg List.length (map_snd_inverseList (m := m))
    rwa [length_map, length_map] at h
  rw [newNpts, isSome_map, getLast?_isSome, ne_eq, ne_eq,
    ← length_eq_zero_iff, ← length_eq_zero_iff, hlen]

theorem exists_mergeNode (m : IndexMerger D Code Tag) (medoid : ℕ) (f : ByteFile) (id : ℕ) :
    ∃ f', m.mergeNode medoid f id = some f' := by
  rw [mergeNode]
  cases hr : m.renameInverse id with
  | some o =>
    obtain ⟨j, hj⟩ := mem_inserts_of_renameInverse hr
    obtain ⟨i, pts, p, hi, hp, hlive, rfl⟩ := mem_inserts.1 hj
    have hins : m.IsInsert i j pts p := ⟨hi, hp, hlive⟩
    dsimp only
    rw [memData, hins.memPoint]
    exact ⟨_, rfl⟩
  | none =>
    dsimp only
    split_ifs
    · exact ⟨_, rfl⟩
    · exact ⟨_, rfl⟩

theorem isSome_merge : m.merge.isSome = true ↔
    m.Runs ∧ m.newMedoid.isSome = true ∧ m.inserts ≠ [] := by
  rw [← isSome_newNpts]
  constructor
  · intro h
    obtain ⟨out, hout⟩ := isSome_iff_exists.1 h
    obtain ⟨hruns, hmedoid, hnpts, -⟩ := merge_eq_some hout
    rw [hmedoid, hnpts]
    exact ⟨hruns, rfl, rfl⟩
  · rintro ⟨hruns, hmedoid, hnpts⟩
    obtain ⟨medoid, hmedoid⟩ := isSome_iff_exists.1 hmedoid
    obtain ⟨npts, hnpts⟩ := isSome_iff_exists.1 hnpts
    have hfold : ∀ (ids : List ℕ) (f : ByteFile), ∃ f', ids.foldlM (m.mergeNode medoid) f = some f' := by
      intro ids
      induction ids with
      | nil => exact fun f => ⟨f, rfl⟩
      | cons id ids ih =>
        intro f
        obtain ⟨f', hf'⟩ := exists_mergeNode m medoid f id
        obtain ⟨f'', hf''⟩ := ih f'
        exact ⟨f'', by rw [foldlM_cons, hf']; exact hf''⟩
    obtain ⟨file, hfile⟩ := hfold (List.range npts) m.consolidatedFile
    rw [merge, if_pos hruns, hmedoid, hnpts]
    simp only [bind_eq_bind, bind_some, hfile, Option.pure_def, isSome_some]

theorem isSome_newMedoid : m.newMedoid.isSome = true ↔
    (m.initId ∈ m.diskDeletedIds →
      ∃ n ∈ (m.scannedNode m.initId).nbrs, n ∉ m.diskDeletedIds) := by
  rw [newMedoid]
  split_ifs with h
  · rw [deletedNhood]
    simp [h]
  · simp [h]

theorem mem_memPoints {x : Tag × Vec} :
    x ∈ m.memPoints ↔ ∃ i j pts p, m.IsInsert i j pts p ∧ p.swap = x := by
  simp only [memPoints, mem_flatMap, List.mem_map, mem_filter, decide_eq_true_eq]
  constructor
  · rintro ⟨pts, hpts, p, ⟨hp, hlive⟩, rfl⟩
    obtain ⟨i, hi⟩ := mem_iff_getElem?.1 hpts
    obtain ⟨j, hj⟩ := mem_iff_getElem?.1 hp
    exact ⟨i, j, pts, p, ⟨hi, hj, hlive⟩, rfl⟩
  · rintro ⟨i, j, pts, p, h, rfl⟩
    exact ⟨pts, mem_of_getElem? h.index, p, ⟨mem_of_getElem? h.row, h.live⟩, rfl⟩

/-- The merge returns; the points that are written are those of the indices less the deleted ones,
each tag at one id; and the ids of deleted points that are not handed out have the invalid tag. -/
def PointsKept (m : IndexMerger D Code Tag) : Prop :=
  ∃ out, m.merge = some out ∧ (out.points m.invalidTag).Perm m.livePoints ∧
    (m.livePoints.map Prod.fst).Nodup ∧
    ∀ id ∈ m.diskDeletedIds, id ∉ m.usedIds → out.tags[id]? = some m.invalidTag

/-- What the inputs have to be for it: no node, nor the entry point, is left without an edge; a point
is inserted, from a row that the last index has, and under a tag; no tag is used twice; and the holes
before a live node without neighbours are enough for all points. -/
structure Keepable (m : IndexMerger D Code Tag) : Prop where
  edges : ∀ id < m.diskNpts, id ∉ m.diskDeletedIds → (m.diskNode id).nbrs ≠ [] → m.HasNewEdge id
  entry : m.initId ∈ m.diskDeletedIds → ∃ n ∈ (m.scannedNode m.initId).nbrs, n ∉ m.diskDeletedIds
  insert : ∃ i j pts p, m.IsInsert i j pts p
  rows : ∀ i j pts p, m.IsInsert i j pts p → j < m.dataLoad.length
  tagged : ∀ i j pts p, m.IsInsert i j pts p → p.2 ≠ m.invalidTag
  tags : (m.livePoints.map Prod.fst).Nodup
  holes : ∀ id < m.diskNpts, m.Live id → m.IsHole id → m.inserts.length ≤ Nat.count m.IsHole id

theorem inserts_ne_nil : m.inserts ≠ [] ↔ ∃ i j pts p, m.IsInsert i j pts p := by
  constructor
  · intro h
    obtain ⟨x, hx⟩ := exists_mem_of_ne_nil _ h
    obtain ⟨i, pts, p, hi, hp, hlive, -⟩ := mem_inserts.1 hx
    exact ⟨i, x.2, pts, p, ⟨hi, hp, hlive⟩⟩
  · rintro ⟨i, j, pts, p, h⟩
    exact ne_nil_of_mem h.mem

theorem PointsKept.keepable (hlayout : m.LayoutsAgree) (hrec : m.RecordsOk) (h : m.PointsKept) :
    m.Keepable := by
  obtain ⟨out, hout, hperm, hnodup, -⟩ := h
  have hsome : m.merge.isSome = true := by rw [hout]; rfl
  obtain ⟨⟨-, hdel, hrows⟩, hmedoid, hins⟩ := isSome_merge.1 hsome
  have hpoints := points_perm hlayout hrec hout
  have hunused : ∀ id ∈ (List.range m.diskNpts).filter fun id => m.Live id, id ∉ m.usedIds := by
    have hlen := (hpoints.symm.trans hperm).length_eq
    have hmem := length_filter_le (fun x => decide (x.1 ≠ m.invalidTag)) m.memPoints
    have hle := length_filter_le (fun id => decide (id ∉ m.usedIds))
      ((List.range m.diskNpts).filter fun id => m.Live id)
    rw [length_append, length_map, livePoints, length_append, diskPoints,
      length_map, List.filter_filter] at hlen
    rw [List.filter_filter] at hle
    have hcomm : (List.range m.diskNpts).filter
        (fun id => decide (m.Live id) && decide (id ∉ m.usedIds)) =
        (List.range m.diskNpts).filter fun id => decide (id ∉ m.usedIds) && decide (m.Live id) :=
      filter_congr fun id _ => Bool.and_comm ..
    rw [hcomm] at hlen
    have heq : (((List.range m.diskNpts).filter fun id => m.Live id).filter
        fun id => decide (id ∉ m.usedIds)).length =
          ((List.range m.diskNpts).filter fun id => m.Live id).length := by
      rw [List.filter_filter]
      omega
    intro id hid
    exact of_decide_eq_true (length_filter_eq_length_iff.1 heq id hid)
  refine ⟨fun id hid => isSome_consolidateDeletes.1 (hdel id hid), isSome_newMedoid.1 hmedoid,
    inserts_ne_nil.1 hins, fun i j pts p hp => hrows _ hp.mem, fun i j pts p hp => ?_, hnodup,
    fun id hid hlive hhole => ?_⟩
  · have hmem : p.swap ∈ out.points m.invalidTag := by
      refine hperm.mem_iff.2 (mem_append_right _ ?_)
      exact mem_memPoints.2 ⟨i, j, pts, p, hp, rfl⟩
    obtain ⟨x, hx, he⟩ := mem_map.1 hmem
    have hne := of_decide_eq_true (mem_filter.1 hx).2
    have hfst : x.1 = p.2 := congrArg Prod.fst he
    rwa [hfst] at hne
  · have hnot := hunused id (mem_filter.2 ⟨List.mem_range.2 hid, decide_eq_true hlive⟩)
    rw [mem_usedIds_iff hdel hid] at hnot
    exact Nat.not_lt.1 fun hlt => hnot ⟨hhole, hlt⟩

theorem Keepable.pointsKept (hlayout : m.LayoutsAgree) (hrec : m.RecordsOk) (h : m.Keepable) :
    m.PointsKept := by
  have hdel : ∀ id < m.diskNpts, (m.consolidateDeletes id).isSome = true :=
    fun id hid => isSome_consolidateDeletes.2 (h.edges id hid)
  have hruns : m.Runs := by
    refine ⟨hlayout.1, hdel, fun x hx => ?_⟩
    obtain ⟨i, pts, p, hi, hp, hlive, -⟩ := mem_inserts.1 hx
    exact h.rows i x.2 pts p ⟨hi, hp, hlive⟩
  obtain ⟨out, hout⟩ := isSome_iff_exists.1
    (isSome_merge.2 ⟨hruns, isSome_newMedoid.2 h.entry, inserts_ne_nil.2 h.insert⟩)
  refine ⟨out, hout, ?_, h.tags, fun id hid hused => ?_⟩
  · have hdisk : ((List.range m.diskNpts).filter fun id => id ∉ m.usedIds).filter
        (fun id => m.Live id) = (List.range m.diskNpts).filter fun id => m.Live id := by
      rw [List.filter_filter]
      refine filter_congr fun id hid => ?_
      by_cases hlive : m.Live id
      · have hnot : id ∉ m.usedIds := by
          rw [mem_usedIds_iff hdel (List.mem_range.1 hid)]
          exact fun hc => Nat.not_lt.2 (h.holes id (List.mem_range.1 hid) hlive hc.1) hc.2
        simp [hnot]
      · simp [hlive]
    have hmem : m.memPoints.filter (fun x => x.1 ≠ m.invalidTag) = m.memPoints := by
      refine filter_eq_self.2 fun x hx => decide_eq_true ?_
      obtain ⟨i, j, pts, p, hp, rfl⟩ := mem_memPoints.1 hx
      exact h.tagged i j pts p hp
    have hpoints := points_perm hlayout hrec hout
    rwa [hdisk, hmem] at hpoints
  · obtain ⟨-, -, hnpts, -, htags, -⟩ := merge_eq_some hout
    obtain ⟨hlt, htag⟩ := Finset.mem_filter.1 hid
    have hlt' : id < out.npts := (Finset.mem_range.1 hlt).trans_le (newNpts_eq_some hnpts).2.1
    rw [htags, getElem?_map, getElem?_range hlt', map_some, tagOut_of_not_mem hused,
      if_pos htag]

/-- A merge into a file for lists of `range` keeps the points exactly when its inputs are such. -/
theorem pointsKept_iff (m : IndexMerger D Code Tag) (hlayout : m.LayoutsAgree) (hrec : m.RecordsOk) :
    m.PointsKept ↔ m.Keepable :=
  ⟨fun h => h.keepable hlayout hrec, fun h => h.pointsKept hlayout hrec⟩

def lonelyNodeDisk : List (DiskNode × ℕ) :=
  [(⟨[1, 0, 0, 0], [2]⟩, 5), (⟨[2, 0, 0, 0], []⟩, 6), (⟨[3, 0, 0, 0], [0]⟩, 7)]

def lonelyNodeMem : List (List (Vec × ℕ)) := [[([4, 0, 0, 0], 8)]]

theorem lonelyNode_ok : SmallOk 4 lonelyNodeDisk lonelyNodeMem := by decide

/-- A live node without neighbours. -/
def lonelyNode : IndexMerger ℕ Vec ℕ := smallMerger 4 2 2 lonelyNodeDisk lonelyNodeMem ∅ lonelyNode_ok

theorem lonelyNode_layoutsAgree : lonelyNode.LayoutsAgree := ⟨by decide, .inl rfl⟩

theorem lonelyNode_recordsOk : lonelyNode.RecordsOk := by
  have hlen : ∀ id < lonelyNode.diskNpts, (lonelyNode.diskNode id).nbrs.length ≤ 2 := by
    decide +kernel
  exact fun id hid => Layout.room_ofRange.2 (hlen id hid)

theorem pointsKept_iff_lonelyNode : lonelyNode.LayoutsAgree ∧ lonelyNode.RecordsOk ∧
    (lonelyNode.PointsKept ↔ lonelyNode.Keepable) :=
  ⟨lonelyNode_layoutsAgree, lonelyNode_recordsOk,
    pointsKept_iff lonelyNode lonelyNode_layoutsAgree lonelyNode_recordsOk⟩

/-- The point that is inserted is written over the live node, whose tag is lost. -/
theorem lonelyNode_lost : lonelyNode.Live 1 ∧ lonelyNode.usedIds = [1] ∧
    (lonelyNode.merge.map Merged.tags) = some [5, 8, 7] ∧ ¬ lonelyNode.PointsKept := by
  have htags : (lonelyNode.merge.map Merged.tags) = some [5, 8, 7] := by decide +kernel
  refine ⟨by decide, by decide +kernel, htags, ?_⟩
  rintro ⟨out, hout, hperm, -⟩
  rw [hout, Option.map_some, Option.some.injEq] at htags
  have hlen := hperm.length_eq
  have hlive : lonelyNode.livePoints.length = 4 := by decide +kernel
  rw [hlive, Merged.points, htags] at hlen
  have h3 := length_filter_le (fun x : ℕ × ℕ => decide (x.1 ≠ lonelyNode.invalidTag))
    [5, 8, 7].zipIdx
  rw [length_map] at hlen
  rw [hlen] at h3
  exact absurd h3 (by decide)

end IndexMerger

end DiskANNEval.FreshDiskANN
