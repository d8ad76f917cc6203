import DiskANNEval.PipeANN.MergeKept
import DiskANNEval.PipeANN.PruneNeighbors

/-!
# MergedLists — the graph and the tags after `merge_deletes`

The list of a surviving node is made of surviving ids, each once and without the node's own, and
`prune_neighbors` cuts it to `R`.  `id_map` is injective on the surviving ids, so the list under the
new ids is as good, and the tag is put at the same new id as the record.  What can go wrong is the
place of the record alone: the merged graph is right exactly when no record leaves the window
(`graphKept_iff_inWindow`).
-/

namespace DiskANNEval.PipeANN.MergeDeletes

open Lib Option

variable {T Tag D : Type}

/-- The call with `prune_neighbors`. -/
def withPruning (m : MergeDeletes T Tag) (c : Pruning D) : MergeDeletes T Tag :=
  { m with
    R := c.R
    pruneNeighbors := c.prune
    prune_subset := fun id l => (c.listOk_prune id l).1 }

variable [DecidableEq Tag] (m : MergeDeletes T Tag)

/-- `new_tags[new_id] = id2tag(id)` -/
def copyTag (p : Populated) (newTags : ℕ → Option Tag) (loc : ℕ) : ℕ → Option Tag :=
  match m.index.loc2id loc with
  | none => newTags
  | some id =>
    if m.isDeleted id then newTags
    else
      match p.idMap id with
      | none => newTags
      | some newId => Function.update newTags newId (some (m.index.id2tag id))

/-- The tags that the merge loop has put when it ends; they are the tags of the merged index. -/
def newTags : ℕ → Option Tag :=
  (locStarts m.index.curLoc m.batch).foldl
    (fun t locSt => (m.mergeOrder locSt).foldl (m.copyTag m.populate) t) fun _ => none

/-- The merge returns, and each surviving node has at its new id a record with its coordinates and
a list of at most `R` other surviving nodes, each once, and its tag. -/
def GraphKept : Prop :=
  ∃ out, m.run = some out ∧
    ∀ loc < m.index.curLoc, ∀ id, m.index.loc2id loc = some id → ¬ m.isDeleted id →
      ∃ newId r, out.idMap id = some newId ∧ newId < out.newNpoints ∧
        out.file newId = some r ∧ r.src = loc ∧
        r.node.coords = (m.index.node loc).coords ∧
        (∀ nbr ∈ r.node.nbrs, ∃ id', m.LiveId id' ∧ out.idMap id' = some nbr) ∧
        newId ∉ r.node.nbrs ∧ r.node.nbrs.Nodup ∧ r.node.nbrs.length ≤ m.R ∧
        m.newTags newId = some (m.index.id2tag id)

/-! ### The lists -/

/-- `prune_neighbors` as far as the lists need it. -/
def PrunesWell : Prop :=
  ∀ id l, (l.Nodup → (m.pruneNeighbors id l).Nodup) ∧ (m.pruneNeighbors id l).length ≤ m.R

omit [DecidableEq Tag] in
theorem prunesWell_withPruning (c : Pruning D) : (m.withPruning c).PrunesWell := fun id l =>
  (c.listOk_prune id l).2

variable {id loc : ℕ}

theorem nodup_mergedNhood {p : Populated} {node : DiskNode T} {nhood : List ℕ}
    (h : m.mergedNhood p id node = some nhood) (hp : m.PrunesWell) :
    nhood.Nodup ∧ id ∉ nhood ∧ nhood.length ≤ m.R := by
  rw [mergedNhood, bind_eq_bind, bind_eq_some_iff] at h
  obtain ⟨nhoods, -, h⟩ := h
  rw [pure_def, Option.some.injEq] at h
  have hperm := m.setOrder_perm (nhoods.flatten.dedup.erase id)
  have hnd : (m.setOrder (nhoods.flatten.dedup.erase id)).Nodup :=
    hperm.nodup_iff.2 ((List.nodup_dedup _).erase _)
  have hself : id ∉ m.setOrder (nhoods.flatten.dedup.erase id) := by
    rw [hperm.mem_iff]
    exact (List.nodup_dedup _).not_mem_erase
  subst h
  split_ifs with hlen
  · obtain ⟨h1, h2⟩ := hp id (m.setOrder (nhoods.flatten.dedup.erase id))
    exact ⟨h1 hnd, fun hm => hself (m.prune_subset _ _ _ hm), h2⟩
  · exact ⟨hnd, hself, Nat.not_lt.1 hlen⟩

theorem idMap_inj {id' k : ℕ} (h : m.LiveId id) (h' : m.LiveId id')
    (hk : m.populate.idMap id = some k) (hk' : m.populate.idMap id' = some k) : id = id' := by
  obtain ⟨loc, hloc, hid, hd⟩ := h
  obtain ⟨loc', hloc', hid', hd'⟩ := h'
  rw [m.idMap_populate hloc hid hd, Option.some.injEq] at hk
  rw [m.idMap_populate hloc' hid' hd', Option.some.injEq] at hk'
  have hmem := m.mem_handOut.2 ⟨hloc, (survives_of hid).2 hd⟩
  obtain rfl := m.idxOf_handOut_inj hmem (hk.trans hk'.symm)
  exact Option.some.inj (hid.symm.trans hid')

theorem newRecord_lists {newId : ℕ} {r : MergedRecord T} (hloc : loc < m.index.curLoc)
    (hid : m.index.loc2id loc = some id) (hd : ¬ m.isDeleted id) (hp : m.PrunesWell)
    (hr : m.newRecord m.populate loc id = some r) (hnew : m.populate.idMap id = some newId) :
    r.src = loc ∧ r.node.coords = (m.index.node loc).coords ∧
      (∀ nbr ∈ r.node.nbrs, ∃ id', m.LiveId id' ∧ m.populate.idMap id' = some nbr) ∧
      newId ∉ r.node.nbrs ∧ r.node.nbrs.Nodup ∧ r.node.nbrs.length ≤ m.R := by
  obtain ⟨nhood, heq, hlive⟩ := m.mergedNhood_spec hloc hid
  obtain ⟨hnd, hself, hlen⟩ := m.nodup_mergedNhood heq hp
  let g := fun nbr => (m.populate.idMap nbr).getD 0
  have hg : ∀ nbr ∈ nhood, m.populate.idMap nbr = some (g nbr) := by
    intro nbr hn
    obtain ⟨k, hk⟩ := m.idMap_of_liveId (hlive nbr hn)
    simp only [g, hk, getD_some]
  rw [newRecord, heq, bind_eq_bind, bind_some, mapM_eq_some_map hg,
    bind_some, pure_def, Option.some.injEq] at hr
  subst hr
  refine ⟨rfl, rfl, ?_, ?_, ?_, ?_⟩
  · intro k hk
    obtain ⟨nbr, hn, rfl⟩ := List.mem_map.1 hk
    exact ⟨nbr, hlive nbr hn, hg nbr hn⟩
  · intro hk
    obtain ⟨nbr, hn, heq⟩ := List.mem_map.1 hk
    have hnbr : m.populate.idMap nbr = some newId := heq ▸ hg nbr hn
    obtain rfl := m.idMap_inj (hlive nbr hn) ⟨loc, hloc, hid, hd⟩ hnbr hnew
    exact hself hn
  · refine hnd.map_on fun x hx y hy hxy => ?_
    exact m.idMap_inj (hlive x hx) (hlive y hy) (hg x hx) (hxy ▸ hg y hy)
  · rw [List.length_map]
    exact hlen

/-! ### The tags -/

theorem copyTag_of_survives {t : ℕ → Option Tag} (hloc : loc < m.index.curLoc)
    (hid : m.index.loc2id loc = some id) (hd : ¬ m.isDeleted id) : m.copyTag m.populate t loc =
      Function.update t (m.handOut.idxOf loc) (some (m.index.id2tag id)) := by
  simp only [copyTag, hid, if_neg hd, m.idMap_populate hloc hid hd]

theorem copyTag_of_not_survives {t : ℕ → Option Tag} (hs : ¬ m.Survives loc) :
    m.copyTag m.populate t loc = t := by
  rw [copyTag]
  cases hid : m.index.loc2id loc with
  | none => rfl
  | some id => exact if_pos (by simpa [survives_of hid] using hs)

theorem foldl_copyTag (hloc : loc < m.index.curLoc) (hid : m.index.loc2id loc = some id)
    (hd : ¬ m.isDeleted id) {ls : List ℕ} (hls : ∀ l ∈ ls, l < m.index.curLoc) (t : ℕ → Option Tag)
    (h : loc ∈ ls ∨ t (m.handOut.idxOf loc) = some (m.index.id2tag id)) :
    ls.foldl (m.copyTag m.populate) t (m.handOut.idxOf loc) = some (m.index.id2tag id) := by
  induction ls generalizing t with
  | nil => simpa using h
  | cons l ls ih =>
    rw [List.forall_mem_cons] at hls
    apply ih hls.2
    by_cases hl : l = loc
    · right
      rw [hl, m.copyTag_of_survives hloc hid hd, Function.update_self]
    · refine h.imp (fun hm => (List.mem_cons.1 hm).resolve_left (Ne.symm hl)) fun ht => ?_
      by_cases hs : m.Survives l
      · obtain ⟨id', hid', hd'⟩ := hs
        have hne : m.handOut.idxOf loc ≠ m.handOut.idxOf l := by
          intro he
          have hmem := m.mem_handOut.2 ⟨hloc, (survives_of hid).2 hd⟩
          exact hl (m.idxOf_handOut_inj hmem he).symm
        rw [m.copyTag_of_survives hls.1 hid' hd', Function.update_of_ne hne, ht]
      · rw [m.copyTag_of_not_survives hs, ht]

theorem newTags_eq (hloc : loc < m.index.curLoc) (hid : m.index.loc2id loc = some id)
    (hd : ¬ m.isDeleted id) : m.newTags (m.handOut.idxOf loc) = some (m.index.id2tag id) := by
  have hperm := flatMap_chunks_perm m.merge_perm m.blocks
  rw [Nat.min_eq_left m.curLoc_le_blocks_mul] at hperm
  rw [newTags, ← List.foldl_flatMap]
  refine m.foldl_copyTag hloc hid hd (fun l hl => ?_) _ (.inl ?_)
  · exact List.mem_range.1 (hperm.mem_iff.1 hl)
  · exact hperm.mem_iff.2 (List.mem_range.2 hloc)

/-! ### The records -/

theorem recordAt_of_file {k : ℕ} {r : MergedRecord T}
    (h : (m.drain (m.afterBlocks m.blocks)).rf.file k = some r) : m.recordAt r.src = some r := by
  by_contra hne
  have habs : (m.afterBlocks m.blocks).rf.Absent r :=
    m.absent_of_notMem_blocks _ fun i _ hr => hne (m.mem_blockRecords.1 hr).1.2.2
  rw [m.drain_eq (m.afterBlocks_left _).2] at h
  split_ifs at h with hlt
  · exact (m.absent_writeBack (m.batch_dvd_low _) hlt habs k).2 h
  · exact (habs k).2 h

theorem graphKept_of_inWindow (hp : m.PrunesWell) (h : m.InWindow) : m.GraphKept := by
  obtain ⟨out, hrun, hkept⟩ := m.losesNothing_of_kept (m.kept_of_inWindow h _)
  refine ⟨out, hrun, fun loc hloc id hid hd => ?_⟩
  obtain ⟨newId, r, hnew, hr, hlt, hfile, -⟩ := hkept loc hloc id hid hd
  rw [run_eq, Option.some.injEq] at hrun
  subst hrun
  obtain ⟨hsrc, hcoords, hlive, hself, hnd, hlen⟩ := m.newRecord_lists hloc hid hd hp hr hnew
  refine ⟨newId, r, hnew, hlt, hfile, hsrc, hcoords, hlive, hself, hnd, hlen, ?_⟩
  obtain rfl := Option.some.inj (hnew.symm.trans (m.idMap_populate hloc hid hd))
  exact m.newTags_eq hloc hid hd

theorem inWindow_of_graphKept (h : m.GraphKept) : m.InWindow := by
  obtain ⟨out, hrun, hkept⟩ := h
  rw [run_eq, Option.some.injEq] at hrun
  subst hrun
  apply m.inWindow_of_kept m.curLoc_le_blocks_mul
  intro r hr
  obtain ⟨id, hid, hd⟩ := m.survives_of_recordAt hr.2.2
  obtain ⟨newId, r', hnew, -, hfile, hsrc, -⟩ := hkept r.src hr.1 id hid hd
  have hrec : r' = r := by
    have h1 := m.recordAt_of_file hfile
    rw [hsrc, hr.2.2, Option.some.injEq] at h1
    exact h1.symm
  obtain rfl := Option.some.inj (hnew.symm.trans (m.idMap_populate hr.1 hid hd))
  exact (m.file_iff_has hr).1 (hrec ▸ hfile)

theorem inWindow_withPruning (c : Pruning D) :
    (m.withPruning c).InWindow ↔ m.InWindow := Iff.rfl

/-- Natural numbers for distances, and `alpha = 1`. -/
def natPruning : Pruning ℕ where
  fl :=
    { lt := fun a b => a < b
      le := fun a b => a ≤ b
      eq := fun a b => a = b
      mul := (· * ·)
      div := (· / ·)
      max := max
      zero := 0
      one := 1
      alphaStep := 2
      almostOne := 1
      maxValue := 1000
      lt_irrefl := by simp }
  metric := .l2
  R := 32
  C := 64
  alpha := 1
  saturateGraph := false
  dist := fun a b => (a - b) + (b - a)
  rounds := 1
  rounds_enough := rfl
  rounds_down := rfl

end DiskANNEval.PipeANN.MergeDeletes
