import DiskANNEval.Lib.Loops
import DiskANNEval.PipeANN.HandOut

/-!
# MergeWindow — what the merge loop of `merge_deletes` writes

The merge loop is a `RingFile`: the buffer holds `2 * batch` ids from `wb_id` on.  While a block is
processed `wb_id` is the number of survivors before it, rounded down to whole batches.  All records
are kept exactly when every new id lies in the window of its block (`InWindow`).  The populate loop
runs in chunks of `LOC_PER_POPULATE`, so new ids can leave the window only where a block does not
end with a chunk, and `inWindow_of_dvd` says so.
-/

namespace DiskANNEval.PipeANN.MergeDeletes

open Lib List Nat Option

variable {T Tag : Type} [DecidableEq Tag] (m : MergeDeletes T Tag)

/-! ### The records -/

/-- An id of a surviving node. -/
def LiveId (id : ℕ) : Prop :=
  ∃ loc < m.index.curLoc, m.index.loc2id loc = some id ∧ ¬ m.isDeleted id

variable {id loc n low k j : ℕ}

theorem idMap_of_liveId (h : m.LiveId id) : ∃ k, m.populate.idMap id = some k := by
  obtain ⟨loc, hloc, hid, hd⟩ := h
  exact ⟨_, m.idMap_populate hloc hid hd⟩

omit [DecidableEq Tag] in
theorem liveId_of_nbr {nbr : ℕ} (hloc : loc < m.index.curLoc) (hid : m.index.loc2id loc = some id)
    (hn : nbr ∈ (m.index.node loc).nbrs) (hd : ¬ m.isDeleted nbr) : m.LiveId nbr := by
  obtain ⟨loc', hloc', hid'⟩ := m.index.nbrs_located loc hloc id hid nbr hn
  exact ⟨loc', hloc', hid', hd⟩

theorem mergedNhood_spec (hloc : loc < m.index.curLoc) (hid : m.index.loc2id loc = some id) :
    ∃ nhood, m.mergedNhood m.populate id (m.index.node loc) = some nhood ∧
      ∀ nbr ∈ nhood, m.LiveId nbr := by
  let f := fun nbr => if m.isDeleted nbr then m.populate.deletedNhoods nbr else some [nbr]
  have hf : ∀ nbr ∈ (m.index.node loc).nbrs, f nbr = some ((f nbr).getD []) ∧
      ∀ x ∈ (f nbr).getD [], m.LiveId x := by
    intro nbr hn
    dsimp only [f]
    split_ifs with hd
    · obtain ⟨loc', hloc', hid'⟩ := m.index.nbrs_located loc hloc id hid nbr hn
      rw [m.deletedNhoods_populate hloc' hid' hd]
      refine ⟨rfl, fun x hx => ?_⟩
      have hx' := mem_filter.1 (mem_of_mem_take hx)
      exact m.liveId_of_nbr hloc' hid' hx'.1 (by simpa using hx'.2)
    · refine ⟨rfl, fun x hx => ?_⟩
      rw [getD_some, mem_singleton] at hx
      exact hx ▸ m.liveId_of_nbr hloc hid hn hd
  have hmap := mapM_eq_some_map fun nbr hn => (hf nbr hn).1
  let l := ((m.index.node loc).nbrs.map fun nbr => (f nbr).getD []).flatten.dedup.erase id
  have hl : ∀ x ∈ m.setOrder l, m.LiveId x := by
    intro x hx
    have hx := mem_of_mem_erase ((m.setOrder_perm l).mem_iff.1 hx)
    rw [mem_dedup, mem_flatten] at hx
    obtain ⟨ys, hys, hx⟩ := hx
    obtain ⟨nbr, hn, rfl⟩ := mem_map.1 hys
    exact (hf nbr hn).2 x hx
  refine ⟨if m.R < (m.setOrder l).length then m.pruneNeighbors id (m.setOrder l)
    else m.setOrder l, ?_, fun x hx => ?_⟩
  · rw [mergedNhood, hmap]
    rfl
  · split at hx
    · exact hl x (m.prune_subset _ _ x hx)
    · exact hl x hx

theorem newRecord_spec (hloc : loc < m.index.curLoc) (hid : m.index.loc2id loc = some id) :
    ∃ r, m.newRecord m.populate loc id = some r ∧ r.src = loc := by
  obtain ⟨nhood, heq, hlive⟩ := m.mergedNhood_spec hloc hid
  have hmap : nhood.mapM m.populate.idMap =
      some (nhood.map fun nbr => (m.populate.idMap nbr).getD 0) := by
    refine mapM_eq_some_map fun nbr hn => ?_
    obtain ⟨k, hk⟩ := m.idMap_of_liveId (hlive nbr hn)
    rw [hk, getD_some]
  refine ⟨⟨loc, (m.index.node loc).coords, nhood.map fun nbr => (m.populate.idMap nbr).getD 0⟩,
    ?_, rfl⟩
  rw [newRecord, heq, bind_eq_bind, bind_some, hmap]
  rfl

/-- The record that the merge loop puts for a location. -/
def recordAt (loc : ℕ) : Option (MergedRecord T) :=
  (m.index.loc2id loc).bind fun id =>
    if m.isDeleted id then none else m.newRecord m.populate loc id

theorem recordAt_eq_some (hloc : loc < m.index.curLoc) (hs : m.Survives loc) :
    ∃ r, m.recordAt loc = some r ∧ r.src = loc := by
  obtain ⟨id, hid, hd⟩ := hs
  obtain ⟨r, hr, hsrc⟩ := m.newRecord_spec hloc hid
  refine ⟨r, ?_, hsrc⟩
  rw [recordAt, hid, bind_some, if_neg hd, hr]

theorem recordAt_eq_none (hs : ¬ m.Survives loc) : m.recordAt loc = none := by
  cases hid : m.index.loc2id loc with
  | none => simp [recordAt, hid]
  | some id =>
    have hd : m.isDeleted id := by simpa [survives_of hid] using hs
    simp [recordAt, hid, hd]

variable {r : MergedRecord T}

theorem src_of_recordAt (h : m.recordAt loc = some r) : r.src = loc := by
  rw [recordAt, bind_eq_some_iff] at h
  obtain ⟨id, -, h⟩ := h
  split_ifs at h with hd
  simp only [newRecord, bind_eq_bind, bind_eq_some_iff] at h
  obtain ⟨nhood, -, nbrs, -, h⟩ := h
  exact (Option.some.inj h) ▸ rfl

theorem survives_of_recordAt (h : m.recordAt loc = some r) : m.Survives loc := by
  by_contra hs
  rw [m.recordAt_eq_none hs] at h
  cases h

/-- The new id of a record. -/
def key (r : MergedRecord T) : ℕ := m.handOut.idxOf r.src

/-! ### The loop over a block -/

/-- Put records. -/
def putRecords (w : Writer T) (rs : List (MergedRecord T)) : Writer T :=
  ⟨RingFile.putAll m.wbufLen m.key w.rf rs, w.nUsedId + rs.length⟩

variable {w : Writer T}

theorem mergeLoc_eq (hloc : loc < m.index.curLoc) :
    m.mergeLoc m.populate w loc = some (m.putRecords w (m.recordAt loc).toList) := by
  cases hid : m.index.loc2id loc with
  | none => simp [mergeLoc, recordAt, hid, putRecords]
  | some id =>
    by_cases hd : m.isDeleted id
    · simp [mergeLoc, recordAt, hid, hd, putRecords]
    · obtain ⟨r, hr, hsrc⟩ := m.newRecord_spec hloc hid
      simp [mergeLoc, recordAt, hid, hd, hr, putRecords, m.idMap_populate hloc hid hd, key, hsrc]

theorem foldlM_mergeLoc {ls : List ℕ} (hls : ∀ l ∈ ls, l < m.index.curLoc) :
    ls.foldlM (m.mergeLoc m.populate) w = some (m.putRecords w (ls.filterMap m.recordAt)) := by
  induction ls generalizing w with
  | nil => simp [putRecords]
  | cons l ls ih =>
    rw [forall_mem_cons] at hls
    rw [foldlM_cons, m.mergeLoc_eq hls.1, bind_eq_bind, bind_some, ih hls.2]
    cases h : m.recordAt l with
    | none => simp [h, putRecords]
    | some r => simp [h, putRecords, add_assoc, add_comm 1]

/-- The records of the block at `locSt`, in the order in which they are put. -/
def blockRecords (locSt : ℕ) : List (MergedRecord T) :=
  (m.mergeOrder locSt).filterMap m.recordAt

/-- `if (n_used_id - wb_id >= LOC_PER_MERGE) write_back()` -/
def writeIfFull (w : Writer T) : Writer T :=
  if m.batch ≤ w.nUsedId - w.rf.low then m.writeBack w else w

omit [DecidableEq Tag] in
theorem mem_mergeOrder {st : ℕ} :
    loc ∈ m.mergeOrder st ↔ st ≤ loc ∧ loc < m.index.curLoc ∧ loc < st + m.batch := by
  rw [(m.merge_perm st).mem_iff, locRange, mem_range'_1, batch]
  omega

theorem mergeBlock_eq {st : ℕ} :
    m.mergeBlock m.populate w st = some (m.writeIfFull (m.putRecords w (m.blockRecords st))) := by
  rw [mergeBlock, m.foldlM_mergeLoc fun l hl => (m.mem_mergeOrder.1 hl).2.1]
  rfl

/-- The writer after the first `j` blocks. -/
def afterBlocks : ℕ → Writer T
  | 0 => ⟨⟨fun _ => none, fun _ => none, 0⟩, 0⟩
  | j + 1 => m.writeIfFull (m.putRecords (afterBlocks j) (m.blockRecords (j * m.batch)))

theorem foldlM_mergeBlock (j : ℕ) :
    (range' 0 j m.batch).foldlM (m.mergeBlock m.populate) (m.afterBlocks 0) =
      some (m.afterBlocks j) := by
  induction j with
  | zero => rfl
  | succ j ih =>
    rw [range'_concat, foldlM_append, ih, bind_eq_bind, bind_some,
      foldlM_cons, zero_add, mul_comm m.batch j, m.mergeBlock_eq]
    rfl

/-! ### The counters -/

/-- The survivors in the first `j` blocks. -/
def blockCount (j : ℕ) : ℕ := Nat.count m.Survives (min m.index.curLoc (j * m.batch))

omit [DecidableEq Tag] in
theorem batch_pos : 0 < m.batch := locPerMerge_pos _

theorem length_filterMap_recordAt {ls : List ℕ} (hls : ∀ l ∈ ls, l < m.index.curLoc) :
    (ls.filterMap m.recordAt).length = (ls.filter m.Survives).length := by
  induction ls with
  | nil => rfl
  | cons l ls ih =>
    rw [forall_mem_cons] at hls
    by_cases hs : m.Survives l
    · obtain ⟨r, hr, -⟩ := m.recordAt_eq_some hls.1 hs
      simp [hr, hs, ih hls.2]
    · simp [m.recordAt_eq_none hs, hs, ih hls.2]

theorem blockCount_succ (j : ℕ) :
    m.blockCount (j + 1) = m.blockCount j + (m.blockRecords (j * m.batch)).length := by
  have h := length_filter_of_perm_range m.Survives
    (Perm.of_eq (@locRange_append m.index.curLoc m.batch j))
  rw [filter_append, length_append, length_filter_of_perm_range _ (Perm.refl _),
    ← ((m.merge_perm (j * m.batch)).filter _).length_eq,
    ← m.length_filterMap_recordAt fun l hl => (m.mem_mergeOrder.1 hl).2.1] at h
  exact h.symm

theorem blockCount_succ_le (j : ℕ) : m.blockCount (j + 1) ≤ m.blockCount j + m.batch :=
  count_le_count_add (by rw [succ_mul]; omega)

theorem div_eq_of_window {x q : ℕ} (h1 : n * q ≤ x) (h2 : x < n * q + n) : x / n = q :=
  Nat.div_eq_of_lt_le (by rwa [mul_comm]) (by rwa [succ_mul, mul_comm])

theorem afterBlocks_counters (j : ℕ) :
    (m.afterBlocks j).nUsedId = m.blockCount j ∧
      (m.afterBlocks j).rf.low = m.batch * (m.blockCount j / m.batch) := by
  induction j with
  | zero => simp [afterBlocks, blockCount]
  | succ j ih =>
    obtain ⟨hused, hlow⟩ := ih
    have hpos := m.batch_pos
    have hsucc := m.blockCount_succ j
    have hle := m.blockCount_succ_le j
    have hdiv := div_add_mod (m.blockCount j) m.batch
    have hmod := mod_lt (m.blockCount j) hpos
    have hused' : (m.putRecords (m.afterBlocks j) (m.blockRecords (j * m.batch))).nUsedId =
        m.blockCount (j + 1) := by rw [putRecords, hused, hsucc]
    have hlow' : (m.putRecords (m.afterBlocks j) (m.blockRecords (j * m.batch))).rf.low =
        m.batch * (m.blockCount j / m.batch) := by rw [putRecords, RingFile.low_putAll, hlow]
    rw [afterBlocks, writeIfFull]
    split_ifs with hfull
    · have hdiv' : m.blockCount (j + 1) / m.batch = m.blockCount j / m.batch + 1 :=
        div_eq_of_window (by rw [mul_succ]; omega) (by rw [mul_succ]; omega)
      rw [hdiv', mul_succ, writeBack]
      dsimp only
      omega
    · have hdiv' : m.blockCount (j + 1) / m.batch = m.blockCount j / m.batch :=
        div_eq_of_window (by omega) (by omega)
      exact ⟨hused', by rw [hlow', hdiv']⟩

/-! ### Writing back -/

section

omit [DecidableEq Tag]

theorem nnodesPerSector_dvd_batch (h : 0 < m.index.nnodesPerSector) :
    m.index.nnodesPerSector ∣ m.batch := by
  rw [batch, locPerMerge, if_pos h]
  exact dvd_mul_left ..

theorem sectorSt_of_dvd (h : m.batch ∣ loc) : m.sectorSt loc = loc := by
  unfold sectorSt
  split_ifs with hn
  · exact Nat.div_mul_cancel ((m.nnodesPerSector_dvd_batch hn).trans h)
  · rfl

theorem sectorEd_bounds (hlow : m.batch ∣ low) (hpos : 0 < n) (hn : n ≤ m.batch) :
    low + n ≤ m.sectorEd (low + n - 1) ∧ m.sectorEd (low + n - 1) ≤ low + m.batch := by
  unfold sectorEd
  split_ifs with hs
  · have hd := m.nnodesPerSector_dvd_batch hs
    obtain ⟨a, ha⟩ := Nat.dvd_add (hd.trans hlow) hd
    have h1 := lt_div_mul_add hs (a := low + n - 1)
    have h2 : (low + n - 1) / m.index.nnodesPerSector < a := by
      rw [div_lt_iff_lt_mul hs, mul_comm, ← ha]
      omega
    have h3 : ((low + n - 1) / m.index.nnodesPerSector + 1) * m.index.nnodesPerSector ≤
        a * m.index.nnodesPerSector := mul_le_mul_right _ h2
    rw [mul_comm a] at h3
    rw [succ_mul] at h3 ⊢
    omega
  · omega

/-- The cell of an id of the batch at `low` is in the half of the buffer that is written. -/
theorem bufId_mul_add {i : ℕ} (hlow : m.batch ∣ low) (hi : i < m.batch) :
    low % m.wbufLen / m.batch * m.batch + i = (low + i) % m.wbufLen := by
  obtain ⟨q, rfl⟩ := hlow
  have hmod : m.batch * q % m.wbufLen = m.batch * (q % 2) := by
    rw [wbufLen, vecInWbuf, mul_comm 2, mul_mod_mul_left]
  have hlt : m.batch * (q % 2) + i < m.wbufLen := by
    have : m.batch * (q % 2) ≤ m.batch * 1 := mul_le_mul_left _ (by omega)
    simp only [vecInWbuf, batch] at *
    omega
  rw [add_mod, hmod, Nat.mul_div_cancel_left _ m.batch_pos, mul_comm (q % 2),
    mod_eq_of_lt (a := i) (by omega), mod_eq_of_lt hlt]

theorem writeBack_rf (hlow : m.batch ∣ w.rf.low) (hlt : w.rf.low < w.nUsedId) :
    (m.writeBack w).rf = w.rf.flush m.wbufLen (min m.batch (w.nUsedId - w.rf.low))
      (m.sectorEd (w.rf.low + min m.batch (w.nUsedId - w.rf.low) - 1)) := by
  have hpos := m.batch_pos
  have hed := (m.sectorEd_bounds hlow (n := min m.batch (w.nUsedId - w.rf.low)) (by omega)
    (by omega)).2
  rw [writeBack, m.sectorSt_of_dvd hlow]
  dsimp only
  congr 1
  funext loc
  split_ifs with h
  · rw [m.bufId_mul_add hlow (by omega), Nat.add_sub_cancel' h.1]
  · rfl

theorem has_writeBack (hlow : m.batch ∣ w.rf.low) (hlt : w.rf.low < w.nUsedId) :
    (m.writeBack w).rf.Has m.wbufLen k r ↔ w.rf.Has m.wbufLen k r := by
  have hpos := m.batch_pos
  rw [m.writeBack_rf hlow hlt]
  exact RingFile.has_flush (m.sectorEd_bounds hlow (by omega) (by omega)).1

theorem absent_writeBack (hlow : m.batch ∣ w.rf.low) (hlt : w.rf.low < w.nUsedId)
    (h : w.rf.Absent r) : (m.writeBack w).rf.Absent r := by
  rw [m.writeBack_rf hlow hlt]
  exact h.flush

end

/-! ### Blocks -/

/-- A record of one of the first `j` blocks. -/
def InBlocks (j : ℕ) (r : MergedRecord T) : Prop :=
  r.src < m.index.curLoc ∧ r.src < j * m.batch ∧ m.recordAt r.src = some r

theorem mem_blockRecords :
    r ∈ m.blockRecords (j * m.batch) ↔ m.InBlocks (j + 1) r ∧ j * m.batch ≤ r.src := by
  rw [blockRecords, mem_filterMap, InBlocks, succ_mul]
  constructor
  · rintro ⟨loc, hloc, hr⟩
    obtain ⟨h1, h2, h3⟩ := m.mem_mergeOrder.1 hloc
    obtain rfl := m.src_of_recordAt hr
    exact ⟨⟨h2, h3, hr⟩, h1⟩
  · rintro ⟨⟨h1, h2, h3⟩, h4⟩
    exact ⟨r.src, m.mem_mergeOrder.2 ⟨h4, h1, h2⟩, h3⟩

theorem nodup_blockRecords (j : ℕ) : (m.blockRecords (j * m.batch)).Nodup := by
  have hnd : (m.mergeOrder (j * m.batch)).Nodup :=
    (m.merge_perm _).nodup_iff.2 (nodup_range' ..)
  refine hnd.filterMap fun loc loc' r hr hr' => ?_
  rw [← m.src_of_recordAt hr, ← m.src_of_recordAt hr']

theorem InBlocks.mem_handOut (h : m.InBlocks j r) : r.src ∈ m.handOut :=
  m.mem_handOut.2 ⟨h.1, m.survives_of_recordAt h.2.2⟩

theorem key_inj {r' : MergedRecord T} (h : m.InBlocks j r) (h' : m.InBlocks j r')
    (he : m.key r = m.key r') : r = r' := by
  have hsrc := m.idxOf_handOut_inj (h.mem_handOut m) he
  have h3 := h.2.2
  rw [hsrc, h'.2.2, Option.some.injEq] at h3
  exact h3.symm

omit [DecidableEq Tag] in
theorem low_lt_of_full (h : m.batch ≤ w.nUsedId - w.rf.low) : w.rf.low < w.nUsedId := by
  have := m.batch_pos
  omega

theorem batch_dvd_low (j : ℕ) : m.batch ∣ (m.afterBlocks j).rf.low :=
  (m.afterBlocks_counters j).2 ▸ dvd_mul_right ..

theorem has_afterBlocks_succ (j k : ℕ) (r : MergedRecord T) :
    (m.afterBlocks (j + 1)).rf.Has m.wbufLen k r ↔
      (RingFile.putAll m.wbufLen m.key (m.afterBlocks j).rf (m.blockRecords (j * m.batch))).Has
        m.wbufLen k r := by
  rw [afterBlocks, writeIfFull]
  split_ifs with hfull
  · have hdvd : m.batch ∣
        (m.putRecords (m.afterBlocks j) (m.blockRecords (j * m.batch))).rf.low := by
      rw [putRecords, RingFile.low_putAll]
      exact m.batch_dvd_low j
    rw [m.has_writeBack hdvd (m.low_lt_of_full hfull)]
    rfl
  · rfl

theorem absent_of_notMem_blocks (j : ℕ) (h : ∀ i < j, r ∉ m.blockRecords (i * m.batch)) :
    (m.afterBlocks j).rf.Absent r := by
  induction j with
  | zero => exact fun k => ⟨by simp [afterBlocks], by simp [afterBlocks]⟩
  | succ j ih =>
    have hput : (m.putRecords (m.afterBlocks j) (m.blockRecords (j * m.batch))).rf.Absent r :=
      (ih fun i hi => h i (lt_succ_of_lt hi)).putAll (h j (lt_succ_self j))
    rw [afterBlocks, writeIfFull]
    split_ifs with hfull
    · refine m.absent_writeBack ?_ (m.low_lt_of_full hfull) hput
      rw [putRecords, RingFile.low_putAll]
      exact m.batch_dvd_low j
    · exact hput

theorem absent_afterBlocks (j : ℕ) (h : j * m.batch ≤ r.src) : (m.afterBlocks j).rf.Absent r := by
  apply m.absent_of_notMem_blocks
  intro i hi hr
  have hlt := ((m.mem_blockRecords).1 hr).1.2.1
  have hle : (i + 1) * m.batch ≤ j * m.batch := mul_le_mul_right _ hi
  omega

/-- The records of the first `j` blocks are where they should be. -/
def Kept (j : ℕ) : Prop :=
  ∀ r, m.InBlocks j r → (m.afterBlocks j).rf.Has m.wbufLen (m.key r) r

theorem InBlocks.succ (h : m.InBlocks j r) : m.InBlocks (j + 1) r :=
  ⟨h.1, by rw [succ_mul]; have := h.2.1; omega, h.2.2⟩

theorem InBlocks.notMem_blockRecords (h : m.InBlocks j r) : r ∉ m.blockRecords (j * m.batch) := by
  intro hr
  have := (m.mem_blockRecords.1 hr).2
  have := h.2.1
  omega

/-! ### Records in the window are kept -/

theorem mod_ne_of_window {k' : ℕ} (h1 : low ≤ k) (h2 : k < low + n) (h3 : low ≤ k')
    (h4 : k' < low + n) (hne : k ≠ k') : k % n ≠ k' % n := by
  intro he
  obtain ⟨a, rfl⟩ := Nat.exists_eq_add_of_le h1
  obtain ⟨b, rfl⟩ := Nat.exists_eq_add_of_le h3
  have hab := ModEq.add_left_cancel' low he
  exact hne (congrArg _ (hab.eq_of_lt_of_lt (by omega) (by omega)))

theorem div_mul_le_of_lt {x : ℕ} (h : x < (j + 1) * n) : x / n * n ≤ j * n :=
  mul_le_mul_right n (Nat.lt_succ_iff.1 (Nat.div_lt_of_lt_mul (by rwa [mul_comm])))

theorem writtenBefore_le (h : m.InBlocks (j + 1) r) :
    m.writtenBefore r.src ≤ (m.afterBlocks j).rf.low := by
  rw [(m.afterBlocks_counters j).2]
  refine mul_le_mul_left _ (Nat.div_le_div_right (count_monotone _ ?_))
  exact le_min ((div_mul_le_self ..).trans h.1.le) (div_mul_le_of_lt h.2.1)

theorem writtenBefore_eq (h : r ∈ m.blockRecords (j * m.batch)) :
    m.writtenBefore r.src = (m.afterBlocks j).rf.low := by
  obtain ⟨hin, hle⟩ := m.mem_blockRecords.1 h
  have hdiv : r.src / m.batch * m.batch = j * m.batch := by
    refine le_antisymm (div_mul_le_of_lt hin.2.1) (mul_le_mul_right _ ?_)
    rwa [le_div_iff_mul_le m.batch_pos]
  rw [(m.afterBlocks_counters j).2, writtenBefore, hdiv, blockCount,
    min_eq_right (hle.trans hin.1.le)]

theorem InBlocks.inWindow (h : m.InBlocks j r) (hw : m.InWindow) :
    m.writtenBefore r.src ≤ m.key r ∧ m.key r < m.writtenBefore r.src + m.wbufLen :=
  hw r.src h.1 (m.survives_of_recordAt h.2.2)

theorem kept_of_inWindow (hw : m.InWindow) (j : ℕ) : m.Kept j := by
  induction j with
  | zero =>
    intro r hr
    have := hr.2.1
    omega
  | succ j ih =>
    have hlt : ∀ r, m.InBlocks (j + 1) r →
        m.key r < (m.afterBlocks j).rf.low + m.wbufLen := by
      intro r hr
      have h1 := (hr.inWindow m hw).2
      have h2 := m.writtenBefore_le hr
      omega
    have hge : ∀ r ∈ m.blockRecords (j * m.batch), (m.afterBlocks j).rf.low ≤ m.key r := by
      intro r hr
      have h1 := ((m.mem_blockRecords.1 hr).1.inWindow m hw).1
      rwa [m.writtenBefore_eq hr] at h1
    -- a record of the block and another one pending differ modulo the buffer length
    have hne : ∀ r, m.InBlocks (j + 1) r → (m.afterBlocks j).rf.low ≤ m.key r →
        ∀ a ∈ m.blockRecords (j * m.batch), a ≠ r → m.key a % m.wbufLen ≠ m.key r % m.wbufLen := by
      intro r hr hlow a ha har
      have hain := (m.mem_blockRecords.1 ha).1
      exact mod_ne_of_window (hge a ha) (hlt a hain) hlow (hlt r hr)
        fun he => har (m.key_inj hain hr he)
    intro r hr
    rw [has_afterBlocks_succ]
    by_cases hmem : r ∈ m.blockRecords (j * m.batch)
    · exact RingFile.has_putAll_of_mem (m.nodup_blockRecords j) hmem (hge r hmem)
        (hne r hr (hge r hmem))
    · have hold : m.InBlocks j r := by
        refine ⟨hr.1, ?_, hr.2.2⟩
        rw [m.mem_blockRecords, not_and, not_le] at hmem
        exact hmem hr
      rw [RingFile.has_putAll_of_notMem hmem]
      exact ⟨ih r hold, fun hlow a ha => hne r hr hlow a ha fun he => hmem (he ▸ ha)⟩

/-! ### Records outside the window are lost, or lose another -/

theorem kept_of_kept_succ (h : m.Kept (j + 1)) : m.Kept j := by
  intro r hr
  have h1 := h r (hr.succ m)
  rw [has_afterBlocks_succ, RingFile.has_putAll_of_notMem (hr.notMem_blockRecords m)] at h1
  exact h1.1

theorem kept_of_kept_add {d : ℕ} (h : m.Kept (j + d)) : m.Kept j := by
  induction d with
  | zero => exact h
  | succ d ih => exact ih (m.kept_of_kept_succ h)

omit [DecidableEq Tag] in
theorem le_batch : 131072 ≤ m.batch := by
  rw [batch, locPerMerge]
  split_ifs with h
  · have h1 := div_add_mod 131072 m.index.nnodesPerSector
    have h2 := mod_lt 131072 h
    rw [roundUp, add_mul]
    rw [Nat.mul_comm] at h1
    split_ifs <;> omega
  · exact le_rfl

/-- A new id is not far above the records put when the block of its node is done. -/
theorem key_lt_of_mem (h : m.InBlocks (j + 1) r) : m.key r < m.blockCount (j + 1) + 1023 := by
  have h1 := m.idxOf_handOut_lt (h.mem_handOut m)
  have h3 := h.2.1
  refine h1.trans_le (count_le_count_add ?_)
  rw [locPerPopulate] at *
  omega

theorem inBlocks_of_key_lt (hloc : r.src < m.index.curLoc) (hr : m.recordAt r.src = some r)
    (hkey : m.key r + 1023 < m.blockCount (j + 1)) : m.InBlocks (j + 1) r := by
  refine ⟨hloc, ?_, hr⟩
  by_contra hle
  have hmem : r.src ∈ m.handOut := m.mem_handOut.2 ⟨hloc, m.survives_of_recordAt hr⟩
  have h1 := m.le_idxOf_handOut hmem
  have h3 : m.blockCount (j + 1) ≤
      Nat.count m.Survives (r.src / locPerPopulate * locPerPopulate) + 1023 :=
    count_le_count_add (by rw [locPerPopulate] at *; omega)
  rw [key] at hkey
  omega

theorem exists_key (hk : k < m.handOut.length) :
    ∃ r, r.src < m.index.curLoc ∧ m.recordAt r.src = some r ∧ m.key r = k := by
  obtain ⟨hlt, hs⟩ := m.mem_handOut.1 (getElem_mem hk)
  obtain ⟨r, hr, hsrc⟩ := m.recordAt_eq_some hlt hs
  refine ⟨r, hsrc ▸ hlt, by rw [hsrc, hr], ?_⟩
  rw [key, hsrc]
  exact m.nodup_handOut.idxOf_getElem k hk

theorem inWindow_of_kept_succ (h : m.Kept (j + 1)) (hr : r ∈ m.blockRecords (j * m.batch)) :
    m.writtenBefore r.src ≤ m.key r ∧ m.key r < m.writtenBefore r.src + m.wbufLen := by
  rw [m.writtenBefore_eq hr]
  obtain ⟨hin, hle⟩ := m.mem_blockRecords.1 hr
  have hhas : ∀ r, m.InBlocks (j + 1) r → (RingFile.putAll m.wbufLen m.key (m.afterBlocks j).rf
      (m.blockRecords (j * m.batch))).Has m.wbufLen (m.key r) r :=
    fun r hr => (m.has_afterBlocks_succ j _ r).1 (h r hr)
  have hge : (m.afterBlocks j).rf.low ≤ m.key r := by
    by_contra hlt
    exact RingFile.not_has_putAll_of_lt (m.absent_afterBlocks j hle) (not_le.1 hlt)
      (hhas r hin)
  refine ⟨hge, ?_⟩
  by_contra hlt
  -- the id one buffer length below has been put as well, and has the same cell
  have hlen : m.key r < m.handOut.length := idxOf_lt_length_of_mem (hin.mem_handOut m)
  obtain ⟨r', hlt', hr', hkey'⟩ := m.exists_key (k := m.key r - m.wbufLen) (by omega)
  have hbatch : 262144 ≤ m.wbufLen := by
    have := m.le_batch
    simp only [vecInWbuf, batch] at *
    omega
  have hkey := m.key_lt_of_mem hin
  have hin' : m.InBlocks (j + 1) r' := m.inBlocks_of_key_lt hlt' hr' (by omega)
  have hcell : m.key r % m.wbufLen = m.key r' % m.wbufLen := by
    rw [hkey', ← mod_eq_sub_mod (by omega)]
  have heq := RingFile.eq_of_has_of_has (hhas r hin) (hhas r' hin')
    (by rw [RingFile.low_putAll]; omega) (by rw [RingFile.low_putAll]; omega) hcell
  rw [← heq] at hkey'
  omega

theorem inWindow_of_kept {q : ℕ} (hq : m.index.curLoc ≤ q * m.batch) (h : m.Kept q) :
    m.InWindow := by
  intro loc hloc hs
  obtain ⟨r, hr, rfl⟩ := m.recordAt_eq_some hloc hs
  have hlt : r.src / m.batch < q := Nat.div_lt_of_lt_mul (by rw [Nat.mul_comm]; omega)
  obtain ⟨d, rfl⟩ := Nat.exists_eq_add_of_le (show r.src / m.batch + 1 ≤ q from hlt)
  refine m.inWindow_of_kept_succ (m.kept_of_kept_add h) (m.mem_blockRecords.2 ⟨⟨hloc, ?_, hr⟩, ?_⟩)
  · rw [succ_mul]
    exact lt_div_mul_add m.batch_pos
  · exact div_mul_le_self ..

end DiskANNEval.PipeANN.MergeDeletes
