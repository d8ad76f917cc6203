import DiskANNEval.PipeANN.MergedLists
import DiskANNEval.PipeANN.NodeBytes

/-!
# MergeRecords — the records that `merge_deletes` writes

The merge of `MergeDeletes` with the pages of `wbuf` and of the output file.  A record is written
field by field into the page of its new id, and a page goes to the file as it is.  `Sim` says that
the pages hold the coordinates of the records of `MergeDeletes`; and that the label bytes of a place
of `wbuf` are always those that `aligned_alloc` gave.

So the merged file has the old coordinates of every record that arrives there, and its labels only
if they were in the new buffer.
-/

namespace DiskANNEval.PipeANN

open Lib Option Nat

/-- A call of `merge_deletes` with the pages of the index; `wbuf` is the write buffer as it is
given. -/
structure MergeRecords (D Tag : Type) where
  meta_ : SSDIndexMetadata
  merge : MergeDeletes (List UInt8) Tag
  pruning : Pruning D
  R_eq : pruning.R = meta_.range
  nnodesPerSector_eq : merge.index.nnodesPerSector = meta_.nnodesPerSector
  disk : Pages
  disk_ok : meta_.PagesOk disk
  node_eq : ∀ loc < merge.index.curLoc,
    merge.index.node loc = ⟨meta_.coords disk loc, meta_.nbrs disk loc⟩
  wbuf : Pages
  wbuf_ok : meta_.PagesOk wbuf

/-- `wbuf`, the output file, `wb_id` and `n_used_id`. -/
structure PageWriter where
  wbuf : Pages
  file : Pages
  wbId : ℕ
  nUsedId : ℕ

namespace MergeRecords

variable {D Tag : Type} [DecidableEq Tag] (c : MergeRecords D Tag)

abbrev call : MergeDeletes (List UInt8) Tag := c.merge.withPruning c.pruning

def sectorsPerBatch : ℕ :=
  if 0 < c.meta_.nnodesPerSector then c.call.batch / c.meta_.nnodesPerSector
  else c.call.batch * divRoundUp c.meta_.maxNodeLen sectorLen

/-- `loc_sector_no(off) - loc_sector_no(0)` -/
def wbufSector (off : ℕ) : ℕ := c.meta_.sectorNo off - c.meta_.sectorNo 0

/-- The last sector of the node at a location. -/
def endSector (loc : ℕ) : ℕ :=
  c.meta_.sectorNo loc +
    if c.meta_.nnodesPerSector = 0 then divRoundUp c.meta_.maxNodeLen sectorLen - 1 else 0

def writeBack (w : PageWriter) : PageWriter :=
  let bufId := w.wbId % c.call.wbufLen / c.call.batch
  let idDelta := min c.call.batch (w.nUsedId - w.wbId)
  let stSector := c.meta_.sectorNo w.wbId
  let edSector := c.endSector (w.wbId + idDelta - 1)
  { w with
    file := fun s =>
      if stSector ≤ s ∧ s ≤ edSector then w.wbuf (bufId * c.sectorsPerBatch + (s - stSector))
      else w.file s
    wbId := w.wbId + idDelta }

def mergeLoc (p : Populated) (w : PageWriter) (loc : ℕ) : Option PageWriter :=
  match c.call.index.loc2id loc with
  | none => some w
  | some id =>
    if c.call.isDeleted id then some w
    else do
      let r ← c.call.newRecord p loc id
      let newId ← p.idMap id
      let wbuf ← c.meta_.writeNode w.wbuf (c.wbufSector (newId % c.call.wbufLen)) newId
        r.node.coords r.node.nbrs
      return { w with wbuf, nUsedId := w.nUsedId + 1 }

def writeIfFull (w : PageWriter) : PageWriter :=
  if c.call.batch ≤ w.nUsedId - w.wbId then c.writeBack w else w

def mergeBlock (p : Populated) (w : PageWriter) (locSt : ℕ) : Option PageWriter := do
  let w ← (c.call.mergeOrder locSt).foldlM (c.mergeLoc p) w
  return c.writeIfFull w

/-- `while (wb_id < n_used_id) write_back()` -/
def drain (w : PageWriter) : PageWriter :=
  if w.wbId < w.nUsedId then drain (c.writeBack w) else w
termination_by w.nUsedId - w.wbId
decreasing_by
  have := MergeDeletes.locPerMerge_pos c.call.index.nnodesPerSector
  simp only [writeBack, MergeDeletes.batch]
  omega

/-- The pages of the merged file. -/
def run : Option Pages := do
  let w ← (locStarts c.call.index.curLoc c.call.batch).foldlM (c.mergeBlock c.call.populate)
    ⟨c.wbuf, fun _ => [], 0, 0⟩
  return (c.drain w).file

/-- The merge returns, and every record that arrives at its new id in the merged file has the
coordinates and the labels of the old one. -/
def KeepsRecords : Prop :=
  ∃ out file, c.call.run = some out ∧ c.run = some file ∧
    ∀ loc < c.call.index.curLoc, ∀ id newId r, c.call.index.loc2id loc = some id →
      ¬ c.call.isDeleted id → out.idMap id = some newId → out.file newId = some r → r.src = loc →
        c.meta_.coords file newId = c.meta_.coords c.disk loc ∧
          c.meta_.labels file newId = c.meta_.labels c.disk loc

/-- The label bytes of the new write buffer at the place of an id. -/
def bufLabels (newId : ℕ) : List UInt8 :=
  slice (c.wbuf (c.wbufSector (newId % c.call.wbufLen))) (c.meta_.labelsOff newId) c.meta_.labelSize

/-- At the place of each new record the write buffer happens to hold the old labels. -/
def LabelsAgree : Prop :=
  ∀ out, c.call.run = some out → ∀ loc < c.call.index.curLoc, ∀ id newId r,
    c.call.index.loc2id loc = some id → ¬ c.call.isDeleted id → out.idMap id = some newId →
      out.file newId = some r → r.src = loc → c.bufLabels newId = c.meta_.labels c.disk loc

/-! ### Sectors and locations -/

section

omit [DecidableEq Tag]

theorem nnodesPerSector_dvd_wbufLen (h : c.meta_.nnodesPerSector ≠ 0) :
    c.meta_.nnodesPerSector ∣ c.call.batch ∧ c.meta_.nnodesPerSector ∣ c.call.wbufLen := by
  have hdvd := c.call.nnodesPerSector_dvd_batch
    (by rw [show c.call.index.nnodesPerSector = _ from c.nnodesPerSector_eq]; omega)
  rw [show c.call.index.nnodesPerSector = _ from c.nnodesPerSector_eq] at hdvd
  exact ⟨hdvd, hdvd.mul_left 2⟩

theorem coordsOff_mod (newId : ℕ) :
    c.meta_.coordsOff (newId % c.call.wbufLen) = c.meta_.coordsOff newId := by
  rw [SSDIndexMetadata.coordsOff, SSDIndexMetadata.coordsOff]
  split_ifs with hn
  · rfl
  · rw [mod_mod_of_dvd _ (c.nnodesPerSector_dvd_wbufLen hn).2]

theorem labelsOff_mod (newId : ℕ) :
    c.meta_.labelsOff (newId % c.call.wbufLen) = c.meta_.labelsOff newId := by
  rw [SSDIndexMetadata.labelsOff, SSDIndexMetadata.labelsOff, coordsOff_mod]

theorem sectorNo_zero : c.meta_.sectorNo 0 = 1 := by
  simp [PageLayout.locSectorNo]

theorem sectorNo_of_wbufSector {k k' : ℕ} (h : c.wbufSector k = c.wbufSector k') :
    c.meta_.sectorNo k = c.meta_.sectorNo k' := by
  rw [wbufSector, wbufSector, sectorNo_zero] at h
  have h1 : 1 ≤ c.meta_.sectorNo k := Nat.le_add_right ..
  have h2 : 1 ≤ c.meta_.sectorNo k' := Nat.le_add_right ..
  omega

/-- `write_back` writes the sectors of the locations that `MergeDeletes` counts, each from the sector
of its place in the buffer. -/
theorem sectors_of_batch {low e loc : ℕ} (hlow : c.call.batch ∣ low) :
    (c.meta_.sectorNo low ≤ c.meta_.sectorNo loc ∧ c.meta_.sectorNo loc ≤ c.endSector e ↔
      low ≤ loc ∧ loc < c.call.sectorEd e) ∧
    ∀ q, low ≤ loc → q * c.sectorsPerBatch + (c.meta_.sectorNo loc - c.meta_.sectorNo low) =
      c.wbufSector (q * c.call.batch + (loc - low)) := by
  have hnps : c.call.index.nnodesPerSector = c.meta_.nnodesPerSector := c.nnodesPerSector_eq
  have hsec : ∀ x, c.meta_.sectorNo x = 1 + if 0 < c.meta_.nnodesPerSector then
      x / c.meta_.nnodesPerSector else x * divRoundUp c.meta_.maxNodeLen sectorLen := fun _ => rfl
  have hspn : 0 < divRoundUp c.meta_.maxNodeLen sectorLen := c.meta_.layout.sectorsPerNode_pos
  simp only [wbufSector, sectorNo_zero, MergeDeletes.sectorEd, endSector, sectorsPerBatch, hnps]
  simp only [hsec]
  by_cases hn : c.meta_.nnodesPerSector = 0
  · simp only [hn, Nat.lt_irrefl, if_false, if_true]
    generalize divRoundUp c.meta_.maxNodeLen sectorLen = n at hspn
    refine ⟨⟨fun h => ⟨?_, ?_⟩, fun h => ⟨?_, ?_⟩⟩, fun q hle => ?_⟩
    · exact le_of_mul_le_mul_right (le_of_add_le_add_left h.1) hspn
    · refine Nat.lt_of_mul_lt_mul_right (a := n) ?_
      rw [succ_mul]
      omega
    · exact Nat.add_le_add_left (mul_le_mul_right _ h.1) 1
    · have := mul_le_mul_right n (le_of_lt_succ h.2)
      omega
    · rw [add_mul, Nat.sub_mul, Nat.mul_assoc]
      omega
  · have hpos := pos_of_ne_zero hn
    obtain ⟨hdvd, -⟩ := c.nnodesPerSector_dvd_wbufLen hn
    obtain ⟨a, ha⟩ := hdvd
    obtain ⟨d, hd⟩ := (c.nnodesPerSector_dvd_wbufLen hn).1.trans hlow
    simp only [hpos, hn, if_true, if_false]
    generalize c.meta_.nnodesPerSector = n at hpos ha hd
    rw [hd, ha, Nat.mul_div_cancel_left _ hpos, Nat.mul_div_cancel_left _ hpos]
    refine ⟨⟨fun h => ⟨?_, ?_⟩, fun h => ⟨?_, ?_⟩⟩, fun q hle => ?_⟩
    · have := (le_div_iff_mul_le hpos).1 (le_of_add_le_add_left h.1)
      rwa [mul_comm]
    · exact (div_lt_iff_lt_mul hpos).1 (by omega)
    · have := (le_div_iff_mul_le hpos).2 (mul_comm n d ▸ h.1)
      omega
    · have := (div_lt_iff_lt_mul hpos).2 h.2
      omega
    · have hsub : (loc - n * d) / n = loc / n - d := sub_mul_div ..
      rw [show q * (n * a) + (loc - n * d) = loc - n * d + n * (q * a) by
        rw [mul_left_comm, add_comm], add_mul_div_left _ _ hpos]
      omega

end

/-! ### The pages hold the records -/

/-- The pages have the coordinates of the records of `w`, and the labels of the new buffer. -/
structure Sim (w : Writer (List UInt8)) (b : PageWriter) : Prop where
  wbId_eq : b.wbId = w.rf.low
  nUsedId_eq : b.nUsedId = w.nUsedId
  wbuf_ok : c.meta_.PagesOk b.wbuf
  ring : ∀ k < c.call.wbufLen, ∀ r, w.rf.ring k = some r →
    slice (b.wbuf (c.wbufSector k)) (c.meta_.coordsOff k) c.meta_.coordsLen = r.node.coords
  labels : ∀ k < c.call.wbufLen,
    slice (b.wbuf (c.wbufSector k)) (c.meta_.labelsOff k) c.meta_.labelSize = c.bufLabels k
  file : ∀ loc r, w.rf.file loc = some r →
    c.meta_.coords b.file loc = r.node.coords ∧ c.meta_.labels b.file loc = c.bufLabels loc

section

omit [DecidableEq Tag]

theorem wbufLen_pos : 0 < c.call.wbufLen := mul_pos two_pos c.call.batch_pos

theorem bufLabels_mod (k : ℕ) : c.bufLabels (k % c.call.wbufLen) = c.bufLabels k := by
  rw [bufLabels, bufLabels, mod_mod, labelsOff_mod]

theorem sim_start :
    c.Sim ⟨⟨fun _ => none, fun _ => none, 0⟩, 0⟩ ⟨c.wbuf, fun _ => [], 0, 0⟩ where
  wbId_eq := rfl
  nUsedId_eq := rfl
  wbuf_ok := c.wbuf_ok
  ring := nofun
  labels := fun k hk => by rw [bufLabels, mod_eq_of_lt hk]
  file := nofun

end

variable {c} {w : Writer (List UInt8)} {b : PageWriter}

omit [DecidableEq Tag] in
theorem Sim.put (h : c.Sim w b) {newId : ℕ} {r : MergedRecord (List UInt8)}
    (hc : r.node.coords.length = c.meta_.coordsLen) (hn : r.node.nbrs.length ≤ c.meta_.range) :
    ∃ wbuf, c.meta_.writeNode b.wbuf (c.wbufSector (newId % c.call.wbufLen)) newId
        r.node.coords r.node.nbrs = some wbuf ∧
      c.Sim ⟨w.rf.put c.call.wbufLen newId r, w.nUsedId + 1⟩
        { b with wbuf, nUsedId := b.nUsedId + 1 } := by
  obtain ⟨wbuf, heq, hok, hw⟩ := @SSDIndexMetadata.writeNode_spec
    c.meta_ _ (c.wbufSector (newId % c.call.wbufLen)) newId _ _ h.wbuf_ok hc hn
  have hfit := c.meta_.labels_fit
  set k0 := newId % c.call.wbufLen with hk0
  have hlt0 : k0 < c.call.wbufLen := mod_lt _ c.wbufLen_pos
  have hoff : c.meta_.coordsOff k0 = c.meta_.coordsOff newId := c.coordsOff_mod newId
  have hloff : c.meta_.labelsOff k0 = c.meta_.labelsOff newId := c.labelsOff_mod newId
  -- the same record, written at the place of the buffer
  have hw : c.meta_.Rewritten b.wbuf wbuf (c.wbufSector k0) k0 r.node.coords :=
    ⟨hoff ▸ hloff ▸ hw.outside, hoff ▸ hw.coords_eq⟩
  refine ⟨wbuf, heq, h.wbId_eq, ?_, hok, fun k hk r' hr' => ?_, fun k hk => ?_, h.file⟩
  · exact congrArg (· + 1) h.nUsedId_eq
  · rw [RingFile.ring_put] at hr'
    by_cases he : k = k0
    · rw [he, Function.update_self, Option.some.injEq] at hr'
      rw [he, hw.coords_eq, hr']
    · rw [Function.update_of_ne he] at hr'
      rw [hw.slice_other c.sectorNo_of_wbufSector he le_rfl (by omega)]
      exact h.ring k hk r' hr'
  · by_cases he : k = k0
    · rw [he, hw.labels_eq]
      exact h.labels k0 hlt0
    · rw [hw.slice_other c.sectorNo_of_wbufSector he (by rw [SSDIndexMetadata.labelsOff]; omega)
        (by rw [SSDIndexMetadata.labelsOff]; omega)]
      exact h.labels k hk

omit [DecidableEq Tag] in
theorem Sim.writeBack (h : c.Sim w b) (hlow : c.call.batch ∣ w.rf.low)
    (hlt : w.rf.low < w.nUsedId) : c.Sim (c.call.writeBack w) (c.writeBack b) := by
  have hpos := c.call.batch_pos
  set e := w.rf.low + min c.call.batch (w.nUsedId - w.rf.low) - 1 with he
  refine ⟨?_, h.nUsedId_eq, h.wbuf_ok, h.ring, h.labels, fun loc r hr => ?_⟩
  · rw [MergeRecords.writeBack, MergeDeletes.writeBack]
    rw [h.wbId_eq, h.nUsedId_eq]
  · obtain ⟨hiff, hplace⟩ := @sectors_of_batch _ _ c _ e loc hlow
    rw [MergeDeletes.writeBack, c.call.sectorSt_of_dvd hlow] at hr
    dsimp only at hr
    rw [MergeRecords.writeBack, SSDIndexMetadata.coords, SSDIndexMetadata.labels]
    dsimp only
    rw [h.wbId_eq, h.nUsedId_eq]
    rw [← he] at hr
    split_ifs at hr with hin
    · rw [if_pos (hiff.2 hin), hplace _ hin.1]
      have hed := (c.call.sectorEd_bounds hlow (n := min c.call.batch (w.nUsedId - w.rf.low))
        (by omega) (by omega)).2
      have hmod := c.call.bufId_mul_add hlow (i := loc - w.rf.low) (by rw [← he] at hed; omega)
      rw [Nat.add_sub_cancel' hin.1] at hmod
      rw [hmod] at hr ⊢
      have hk := mod_lt loc c.wbufLen_pos
      have h1 := h.ring _ hk r hr
      have h2 := h.labels _ hk
      rw [coordsOff_mod] at h1
      rw [labelsOff_mod, bufLabels_mod] at h2
      exact ⟨h1, h2⟩
    · rw [if_neg fun hn => hin (hiff.1 hn)]
      exact h.file loc r hr

/-! ### The loops -/

theorem recordAt_sizes {loc : ℕ} {r : MergedRecord (List UInt8)} (hloc : loc < c.call.index.curLoc)
    (hr : c.call.recordAt loc = some r) :
    r.node.coords = c.meta_.coords c.disk loc ∧ r.node.coords.length = c.meta_.coordsLen ∧
      r.node.nbrs.length ≤ c.meta_.range := by
  obtain ⟨id, hid, hd⟩ := c.call.survives_of_recordAt hr
  rw [MergeDeletes.recordAt, hid, bind_some, if_neg hd] at hr
  obtain ⟨-, hcoords, -, -, -, hlen⟩ := c.call.newRecord_lists hloc hid hd
    (c.merge.prunesWell_withPruning c.pruning) hr (c.call.idMap_populate hloc hid hd)
  have hnode : (c.call.index.node loc).coords = c.meta_.coords c.disk loc := by
    rw [show c.call.index.node loc = _ from c.node_eq loc hloc]
  rw [hnode] at hcoords
  refine ⟨hcoords, ?_, c.R_eq ▸ hlen⟩
  rw [hcoords]
  refine length_slice ?_
  have h1 := c.meta_.coordsOff_fit loc
  have h2 := c.meta_.node_fits
  rw [c.disk_ok, SSDIndexMetadata.coordsLen]
  omega

theorem Sim.mergeLoc (h : c.Sim w b) {loc : ℕ} (hloc : loc < c.call.index.curLoc) :
    ∃ b', c.mergeLoc c.call.populate b loc = some b' ∧
      c.Sim (c.call.putRecords w (c.call.recordAt loc).toList) b' := by
  by_cases hs : c.call.Survives loc
  · obtain ⟨id, hid, hd⟩ := hs
    obtain ⟨r, hr, hsrc⟩ := c.call.newRecord_spec hloc hid
    have hrec : c.call.recordAt loc = some r := by
      rw [MergeDeletes.recordAt, hid, bind_some, if_neg hd, hr]
    have hkey := c.call.idMap_populate hloc hid hd
    obtain ⟨-, hc, hn⟩ := recordAt_sizes hloc hrec
    obtain ⟨wbuf, hw, hsim⟩ := @Sim.put _ _ _ _ _ h (c.call.key r) _ hc hn
    rw [MergeDeletes.key, hsrc] at hw hsim
    refine ⟨{ b with wbuf, nUsedId := b.nUsedId + 1 }, ?_, ?_⟩
    · simp only [MergeRecords.mergeLoc, hid, if_neg hd, hr, hkey, hw, bind_eq_bind,
        bind_some]
      rfl
    · rw [hrec, toList_some, MergeDeletes.putRecords, RingFile.putAll_cons, MergeDeletes.key, hsrc]
      exact hsim
  · rw [c.call.recordAt_eq_none hs]
    refine ⟨b, ?_, h⟩
    rw [MergeRecords.mergeLoc]
    cases hid : c.call.index.loc2id loc with
    | none => rfl
    | some id => exact if_pos (by simpa [MergeDeletes.survives_of hid] using hs)

theorem Sim.mergeLocs {ls : List ℕ} (h : c.Sim w b) (hls : ∀ l ∈ ls, l < c.call.index.curLoc) :
    ∃ b', ls.foldlM (c.mergeLoc c.call.populate) b = some b' ∧
      c.Sim (c.call.putRecords w (ls.filterMap c.call.recordAt)) b' := by
  induction ls generalizing w b with
  | nil => exact ⟨b, rfl, by simpa [MergeDeletes.putRecords] using h⟩
  | cons l ls ih =>
    rw [List.forall_mem_cons] at hls
    obtain ⟨b1, heq1, h1⟩ := h.mergeLoc hls.1
    obtain ⟨b2, heq2, h2⟩ := ih h1 hls.2
    refine ⟨b2, ?_, ?_⟩
    · rw [List.foldlM_cons, heq1, bind_eq_bind, bind_some, heq2]
    · cases hr : c.call.recordAt l with
      | none =>
        simpa [hr, MergeDeletes.putRecords] using h2
      | some r =>
        simpa [hr, MergeDeletes.putRecords, add_assoc, add_comm 1] using h2

omit [DecidableEq Tag] in
theorem Sim.writeIfFull (h : c.Sim w b) (hlow : c.call.batch ∣ w.rf.low) :
    c.Sim (c.call.writeIfFull w) (c.writeIfFull b) := by
  rw [MergeDeletes.writeIfFull, MergeRecords.writeIfFull, h.wbId_eq, h.nUsedId_eq]
  split_ifs with hfull
  · exact h.writeBack hlow (c.call.low_lt_of_full hfull)
  · exact h

variable (c)

theorem sim_afterBlocks (j : ℕ) :
    ∃ b, (List.range' 0 j c.call.batch).foldlM (c.mergeBlock c.call.populate)
        ⟨c.wbuf, fun _ => [], 0, 0⟩ = some b ∧ c.Sim (c.call.afterBlocks j) b := by
  induction j with
  | zero => exact ⟨_, rfl, c.sim_start⟩
  | succ j ih =>
    obtain ⟨b, heq, h⟩ := ih
    obtain ⟨b', heq', h'⟩ := @Sim.mergeLocs _ _ _ _ _ _
      (c.call.mergeOrder (j * c.call.batch)) h fun l hl => (c.call.mem_mergeOrder.1 hl).2.1
    refine ⟨c.writeIfFull b', ?_, h'.writeIfFull ?_⟩
    · rw [List.range'_concat, List.foldlM_append, heq, bind_eq_bind, bind_some,
        List.foldlM_cons, zero_add, mul_comm c.call.batch j, mergeBlock, heq']
      rfl
    · rw [MergeDeletes.putRecords, RingFile.low_putAll]
      exact c.call.batch_dvd_low j

variable {c}

omit [DecidableEq Tag] in
theorem Sim.drain (h : c.Sim w b) (hlow : c.call.batch ∣ w.rf.low)
    (hlt : w.nUsedId < w.rf.low + c.call.batch) : c.Sim (c.call.drain w) (c.drain b) := by
  rw [c.call.drain_eq hlt, MergeRecords.drain, h.wbId_eq, h.nUsedId_eq]
  split_ifs with hleft
  · have hsim := h.writeBack hlow hleft
    have hdone : ¬ (c.writeBack b).wbId < (c.writeBack b).nUsedId := by
      rw [hsim.wbId_eq, hsim.nUsedId_eq, MergeDeletes.writeBack]
      dsimp only
      omega
    rw [MergeRecords.drain, if_neg hdone]
    exact hsim
  · exact h

theorem run_spec (c : MergeRecords D Tag) :
    ∃ out file, c.call.run = some out ∧ c.run = some file ∧
      ∀ newId r, out.file newId = some r → r.src < c.call.index.curLoc →
        c.meta_.coords file newId = c.meta_.coords c.disk r.src ∧
          c.meta_.labels file newId = c.bufLabels newId := by
  obtain ⟨b, heq, h⟩ := c.sim_afterBlocks c.call.blocks
  have hsim := h.drain (c.call.batch_dvd_low _) (c.call.afterBlocks_left _).2
  refine ⟨_, (c.drain b).file, c.call.run_eq, ?_, fun newId r hr hsrc => ?_⟩
  · have hstarts : locStarts c.call.index.curLoc c.call.batch =
        List.range' 0 c.call.blocks c.call.batch := rfl
    rw [run, hstarts, heq]
    rfl
  · obtain ⟨h1, h2⟩ := hsim.file newId r hr
    obtain ⟨hcoords, -⟩ := recordAt_sizes hsrc (c.call.recordAt_of_file hr)
    exact ⟨h1.trans hcoords, h2⟩

/-- The records that arrive are as they were exactly when the buffer has their labels already. -/
theorem keepsRecords_iff_labelsAgree (c : MergeRecords D Tag) :
    c.KeepsRecords ↔ c.LabelsAgree := by
  obtain ⟨out, file, hout, hfile, hall⟩ := c.run_spec
  constructor
  · rintro ⟨out', file', hout', hfile', hkeep⟩ out'' hout'' loc hloc id newId r hid hd hnew hr hsrc
    obtain rfl := Option.some.inj (hout.symm.trans hout')
    obtain rfl := Option.some.inj (hout.symm.trans hout'')
    obtain rfl := Option.some.inj (hfile.symm.trans hfile')
    rw [← (hall newId r hr (hsrc ▸ hloc)).2]
    exact (hkeep loc hloc id newId r hid hd hnew hr hsrc).2
  · intro h
    refine ⟨out, file, hout, hfile, fun loc hloc id newId r hid hd hnew hr hsrc => ?_⟩
    obtain ⟨h1, h2⟩ := hall newId r hr (hsrc ▸ hloc)
    rw [hsrc] at h1
    exact ⟨h1, h2.trans (h out hout loc hloc id newId r hid hd hnew hr hsrc)⟩

/-- If no record leaves the window, all surviving nodes need their labels in the buffer. -/
theorem LabelsAgree.bufLabels_eq (h : c.LabelsAgree) (hw : c.call.InWindow) {loc id : ℕ}
    (hloc : loc < c.call.index.curLoc) (hid : c.call.index.loc2id loc = some id)
    (hd : ¬ c.call.isDeleted id) :
    c.bufLabels (c.call.handOut.idxOf loc) = c.meta_.labels c.disk loc := by
  obtain ⟨out, hrun, hkept⟩ := c.call.losesNothing_of_kept (c.call.kept_of_inWindow hw _)
  obtain ⟨newId, r, hnew, hr, -, hfile, -⟩ := hkept loc hloc id hid hd
  obtain ⟨r', hr', hsrc⟩ := c.call.newRecord_spec hloc hid
  obtain rfl := Option.some.inj (hr'.symm.trans hr)
  have hagree := h out hrun loc hloc id newId r' hid hd hnew hfile hsrc
  rw [c.call.run_eq, Option.some.injEq] at hrun
  subst hrun
  obtain rfl := Option.some.inj (hnew.symm.trans (c.call.idMap_populate hloc hid hd))
  exact hagree

end MergeRecords

end DiskANNEval.PipeANN
