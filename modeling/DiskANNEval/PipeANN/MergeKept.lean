import DiskANNEval.PipeANN.MergeWindow

/-!
# MergeKept — when `merge_deletes` loses nothing

A merge keeps every surviving record exactly when every new id is in the window of its block.  That
is so in any order of the populate loop if whole chunks make up a block (`inWindow_of_dvd`).  With
three nodes in a sector a block is 131073 locations and ends inside a chunk, and `lossyMerge` loses
a node.
-/

namespace DiskANNEval.PipeANN.MergeDeletes

open Lib

variable {T Tag : Type} [DecidableEq Tag] (m : MergeDeletes T Tag)

/-- The merge returns, and the merged file has every surviving node's record exactly once. -/
def LosesNothing : Prop := ∃ out, m.run = some out ∧ m.RecordsKept out

/-- How many blocks the merge loop has. -/
def blocks : ℕ := (m.index.curLoc + m.batch - 1) / m.batch

omit [DecidableEq Tag] in
theorem curLoc_le_blocks_mul : m.index.curLoc ≤ m.blocks * m.batch := le_chunks_mul m.batch_pos

theorem run_eq : m.run = some ⟨m.populate.newNpoints, m.populate.idMap,
    (m.drain (m.afterBlocks m.blocks)).rf.file⟩ := by
  have h := m.foldlM_mergeBlock m.blocks
  rw [run]
  dsimp only [locStarts]
  rw [show (⟨⟨fun _ => none, fun _ => none, 0⟩, 0⟩ : Writer T) = m.afterBlocks 0 from rfl]
  rw [blocks] at h
  rw [h]
  rfl

omit [DecidableEq Tag] in
/-- Less than a batch is left when the merge loop ends, so one more `write_back` does it. -/
theorem drain_eq {w : Writer T} (h : w.nUsedId < w.rf.low + m.batch) :
    m.drain w = if w.rf.low < w.nUsedId then m.writeBack w else w := by
  rw [drain]
  split_ifs with hlt
  · have hdone : ¬ (m.writeBack w).rf.low < (m.writeBack w).nUsedId := by
      rw [writeBack]
      dsimp only
      omega
    rw [drain, if_neg hdone]
  · rfl

theorem afterBlocks_left (j : ℕ) :
    (m.afterBlocks j).rf.low ≤ (m.afterBlocks j).nUsedId ∧
      (m.afterBlocks j).nUsedId < (m.afterBlocks j).rf.low + m.batch := by
  obtain ⟨hused, hlow⟩ := m.afterBlocks_counters j
  have h1 := Nat.mul_div_le (m.blockCount j) m.batch
  have h2 := Nat.lt_mul_div_succ (m.blockCount j) m.batch_pos
  rw [Nat.mul_succ] at h2
  omega

theorem has_drain (j k : ℕ) (r : MergedRecord T) :
    (m.drain (m.afterBlocks j)).rf.Has m.wbufLen k r ↔
      (m.afterBlocks j).rf.Has m.wbufLen k r := by
  rw [m.drain_eq (m.afterBlocks_left j).2]
  split_ifs with hlt
  · exact m.has_writeBack (m.batch_dvd_low j) hlt
  · rfl

theorem low_drain (j : ℕ) : (m.drain (m.afterBlocks j)).rf.low = m.blockCount j := by
  obtain ⟨h1, h2⟩ := m.afterBlocks_left j
  have h3 := (m.afterBlocks_counters j).1
  rw [m.drain_eq h2]
  split_ifs with hlt
  · rw [writeBack]
    dsimp only
    omega
  · omega

theorem blockCount_blocks : m.blockCount m.blocks = m.handOut.length := by
  rw [blockCount, Nat.min_eq_left m.curLoc_le_blocks_mul, length_handOut]

theorem file_iff_has {r : MergedRecord T} (h : m.InBlocks m.blocks r) :
    (m.drain (m.afterBlocks m.blocks)).rf.file (m.key r) = some r ↔
      (m.afterBlocks m.blocks).rf.Has m.wbufLen (m.key r) r := by
  have hlt : m.key r < (m.drain (m.afterBlocks m.blocks)).rf.low := by
    rw [low_drain, blockCount_blocks]
    exact List.idxOf_lt_length_of_mem (h.mem_handOut m)
  rw [← has_drain, RingFile.has_of_lt hlt]

theorem inBlocks_of_recordAt {r : MergedRecord T} (hlt : r.src < m.index.curLoc)
    (h : m.recordAt r.src = some r) : m.InBlocks m.blocks r :=
  ⟨hlt, hlt.trans_le m.curLoc_le_blocks_mul, h⟩

theorem losesNothing_of_kept (h : m.Kept m.blocks) : m.LosesNothing := by
  refine ⟨_, m.run_eq, fun loc hloc id hid hd => ?_⟩
  obtain ⟨r, hr, hsrc⟩ := m.newRecord_spec hloc hid
  have hrec : m.recordAt r.src = some r := by simp [recordAt, hsrc, hid, hd, hr]
  have hin := m.inBlocks_of_recordAt (hsrc ▸ hloc) hrec
  refine ⟨m.key r, r, ?_, hr, ?_, (m.file_iff_has hin).2 (h r hin), ?_⟩
  · rw [key, hsrc]
    exact m.idMap_populate hloc hid hd
  · exact m.newNpoints_populate ▸ List.idxOf_lt_length_of_mem (hin.mem_handOut m)
  · intro k hk r' hr' hsrc'
    obtain ⟨s, hs1, hs2, rfl⟩ := m.exists_key (m.newNpoints_populate ▸ hk)
    have hsin := m.inBlocks_of_recordAt hs1 hs2
    have heq := (m.file_iff_has hsin).2 (h s hsin)
    obtain rfl : r' = s := Option.some.inj (hr'.symm.trans heq)
    rw [key, key, hsrc', hsrc]

theorem kept_of_losesNothing (h : m.LosesNothing) : m.Kept m.blocks := by
  obtain ⟨out, hrun, hkept⟩ := h
  rw [run_eq, Option.some.injEq] at hrun
  subst hrun
  intro r hr
  obtain ⟨id, hid, hd⟩ := m.survives_of_recordAt hr.2.2
  obtain ⟨newId, r', hnew, hr', -, hfile, -⟩ := hkept r.src hr.1 id hid hd
  have hkey : newId = m.key r :=
    Option.some.inj (hnew.symm.trans (m.idMap_populate hr.1 hid hd))
  have hrec : r' = r := by
    have h1 := hr.2.2
    rw [recordAt, hid, Option.bind_some, if_neg hd, hr', Option.some.injEq] at h1
    exact h1
  rw [hkey, hrec] at hfile
  exact (m.file_iff_has hr).1 hfile

theorem inWindow_of_losesNothing (h : m.LosesNothing) : m.InWindow :=
  m.inWindow_of_kept m.curLoc_le_blocks_mul (m.kept_of_losesNothing h)

theorem losesNothing_iff_inWindow : m.LosesNothing ↔ m.InWindow :=
  ⟨m.inWindow_of_losesNothing, fun h => m.losesNothing_of_kept (m.kept_of_inWindow h _)⟩

/-- If a block is made of whole chunks, every order of the populate loop is fine. -/
theorem inWindow_of_dvd (h : locPerPopulate ∣ m.batch) : m.InWindow := by
  intro loc hloc hs
  have hmem := m.mem_handOut.2 ⟨hloc, hs⟩
  have hle := m.le_idxOf_handOut hmem
  have hlt := m.idxOf_handOut_lt hmem
  -- the chunk of `loc` starts and ends inside its block
  have hst : loc / m.batch * m.batch ≤ loc / locPerPopulate * locPerPopulate := by
    obtain ⟨a, ha⟩ := h.mul_left (loc / m.batch)
    have h1 := Nat.div_mul_le_self loc m.batch
    rw [ha, Nat.mul_comm] at h1 ⊢
    exact Nat.mul_le_mul_right _ ((Nat.le_div_iff_mul_le (by decide)).2 h1)
  have hed : (loc / locPerPopulate + 1) * locPerPopulate ≤ loc / m.batch * m.batch + m.batch := by
    obtain ⟨a, ha⟩ := h.mul_left (loc / m.batch + 1)
    have h1 := Nat.lt_div_mul_add m.batch_pos (a := loc)
    rw [← Nat.succ_mul, Nat.succ_eq_add_one, ha] at h1 ⊢
    rw [Nat.mul_comm]
    exact Nat.mul_le_mul_left _ (Nat.div_lt_of_lt_mul h1)
  have h1 := Nat.count_monotone m.Survives hst
  have h2 : Nat.count m.Survives
      (min m.index.curLoc ((loc / locPerPopulate + 1) * locPerPopulate)) ≤
      Nat.count m.Survives (loc / m.batch * m.batch) + m.batch :=
    count_le_count_add (by omega)
  have h3 := Nat.mul_div_le (Nat.count m.Survives (loc / m.batch * m.batch)) m.batch
  have h4 := Nat.lt_mul_div_succ (Nat.count m.Survives (loc / m.batch * m.batch)) m.batch_pos
  rw [Nat.mul_succ] at h4
  rw [writtenBefore, wbufLen, vecInWbuf]
  simp only [batch] at *
  omega

/-! ### A merge that loses a node -/

/-- 131074 nodes with ids and tags equal to their locations, three in a sector, and no deletes; the
populate loop runs in order but for its last chunk, which has two locations and runs backwards. -/
def lossyMerge : MergeDeletes Unit ℕ where
  index :=
    { nnodesPerSector := 3
      curLoc := 131074
      loc2id := some
      id2tag := id
      node := fun _ => ⟨(), []⟩
      loc2id_inj := by
        rintro loc - loc' - id h h'
        exact Option.some.inj (h.trans h'.symm)
      nbrs_located := by simp }
  deletedNodesSet := ∅
  nSampledNbrs := 64
  R := 32
  setOrder := id
  setOrder_perm := fun _ => .refl _
  pruneNeighbors := fun _ l => l
  prune_subset := fun _ _ _ h => h
  populateOrder := fun st =>
    if st = 131072 then [131073, 131072] else locRange 131074 locPerPopulate st
  populate_perm := by
    intro st
    split_ifs with h
    · subst h
      exact .swap ..
    · exact .refl _
  mergeOrder := locRange 131074 (locPerMerge 3)
  merge_perm := fun _ => .refl _

theorem survives_lossyMerge (loc : ℕ) : lossyMerge.Survives loc :=
  ⟨loc, rfl, by simp [isDeleted, lossyMerge]⟩

theorem count_lossyMerge (n : ℕ) : Nat.count lossyMerge.Survives n = n :=
  Nat.count_iff_forall.2 fun _ _ => survives_lossyMerge _

/-- Location 131073 gets the new id 131072, which is written before the node is read. -/
theorem not_inWindow_lossyMerge : ¬ lossyMerge.InWindow := by
  intro h
  have hlt : 131073 < lossyMerge.index.curLoc := by decide
  have hs := survives_lossyMerge 131073
  have hwin := (h 131073 hlt hs).1
  have hidx := (lossyMerge.idxOf_handOut (lossyMerge.mem_handOut.2 ⟨hlt, hs⟩)).1
  have hchunk : 131073 / locPerPopulate * locPerPopulate = 131072 := by decide
  have hbatch : lossyMerge.batch = 131073 := by decide
  have horder : lossyMerge.populateOrder 131072 = [131073, 131072] := rfl
  rw [hchunk, horder, count_lossyMerge, List.filter_cons_of_pos (by simpa using hs),
    List.idxOf_cons_self] at hidx
  rw [writtenBefore, hbatch, count_lossyMerge] at hwin
  omega

theorem lossyMerge_loses : ¬ lossyMerge.LosesNothing := fun h =>
  not_inWindow_lossyMerge (lossyMerge.inWindow_of_losesNothing h)

end DiskANNEval.PipeANN.MergeDeletes
