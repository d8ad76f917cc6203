import DiskANNEval.FreshDiskANN.IndexMerger
import DiskANNEval.Lib.While

/-!
# ScanDeleted — `scan_deleted_nodes`

The index is read in blocks of `sectors_per_scan` sectors, and the records of the deleted ids are
copied to `backing_buf`, one after the other, where the returned nodes refer to them.  The offset of
the read is never moved on: each block is the first one, and the node of an id is read from the
record that has its place there (`scanDeletedNodes_iff`).

`reader->read` is taken to read the bytes it is asked for; those behind the end of the file are
zero, as the buffer is before each read.  `none` is a division by zero, a failed assertion, or a
loop that does not end.
-/

namespace DiskANNEval.FreshDiskANN

open Lib List Nat

/-- An index, and what `scan_deleted_nodes` is called with; `asserts` is false in a release build.
The header is that of records that fit into their sectors, and each list into its record. -/
structure ScanCall where
  layout : Layout
  file : ByteFile
  numPoints : ℕ
  deleteSet : Finset ℕ
  sectorsPerScan : ℕ
  asserts : Bool
  numPoints_lt : numPoints < 2 ^ 32
  fits : layout.nnodesPerSector * layout.maxNodeLen ≤ sectorLen
  room : ∀ id < numPoints, layout.Room (layout.readNode file id).nbrs.length

/-- A returned node: `start` is its place in `backing_buf`. -/
structure NodeRef where
  id : ℕ
  start : ℕ
  nnbrs : ℕ

/-- The variables of the scan. -/
structure ScanState where
  nScanned : ℕ
  backing : ByteFile
  backingBufIdx : ℕ
  deletedNodes : List NodeRef

namespace ScanCall

variable (c : ScanCall)

/-- `backing_buf_unit_size` -/
def unitSize : ℕ := roundUp c.layout.maxNodeLen 32

/-- `buf` after a read: `reads[0].offset` is `base_offset`. -/
def readBlock : ByteFile :=
  ByteFile.put (fun _ => 0) 0 (c.file.bytes sectorLen (c.sectorsPerScan * sectorLen))

/-- The body of the loop over the nodes of the sector at `sectorBuf`. -/
def scanNode (buf : ByteFile) (sectorBuf : ℕ) (s : ScanState) : Option ScanState :=
  let nodeBuf := sectorBuf + s.nScanned % c.layout.nnodesPerSector * c.layout.maxNodeLen
  if s.nScanned ∈ c.deleteSet then
    let bufStart := s.backingBufIdx * c.unitSize
    let backing := s.backing.put bufStart (buf.bytes nodeBuf c.layout.maxNodeLen)
    let nnbrs := backing.le 4 (bufStart + c.layout.coordsLen)
    if c.asserts = true ∧ ¬ (nnbrs < 512 ∧ 0 < nnbrs) then none
    else
      some
        { nScanned := s.nScanned + 1
          backing
          backingBufIdx := s.backingBufIdx + 1
          deletedNodes := s.deletedNodes ++ [⟨s.nScanned, bufStart, nnbrs⟩] }
  else some { s with nScanned := s.nScanned + 1 }

/-- At most `k` more nodes of the sector. -/
def scanSector (buf : ByteFile) (sectorBuf : ℕ) : ℕ → ScanState → Option ScanState
  | 0, s => some s
  | k + 1, s =>
    if s.nScanned < c.numPoints then
      (c.scanNode buf sectorBuf s).bind (scanSector buf sectorBuf k)
    else some s

/-- At most `k` more sectors, from the sector `i` on. -/
def scanSectors (buf : ByteFile) : ℕ → ℕ → ScanState → Option ScanState
  | 0, _, s => some s
  | k + 1, i, s =>
    if s.nScanned < c.numPoints then
      (c.scanSector buf (i * sectorLen) c.layout.nnodesPerSector s).bind (scanSectors buf k (i + 1))
    else some s

/-- The body of the outer loop. -/
def scanBlock (s : ScanState) : Option ScanState := c.scanSectors c.readBlock c.sectorsPerScan 0 s

/-- The loop over the blocks; each has at least one point if it has a sector. -/
def scan (backing : ByteFile) : Option ScanState :=
  whileM (fun s => decide (s.nScanned < c.numPoints)) c.scanBlock c.numPoints ⟨0, backing, 0, []⟩

/-- The node that a `DiskNode` refers to. -/
def deref (backing : ByteFile) (n : NodeRef) : DiskNode where
  coords := backing.bytes n.start c.layout.coordsLen
  nbrs := backing.leArray 4 (n.start + c.layout.coordsLen + 4) n.nnbrs

/-- `deleted_nodes`, each id with its node; `NODE_SECTOR_NO(0)` is a division. -/
def scanDeletedNodes (backing : ByteFile) : Option (List (ℕ × DiskNode)) :=
  if c.layout.nnodesPerSector = 0 then none
  else (c.scan backing).map fun s => s.deletedNodes.map fun n => (n.id, c.deref s.backing n)

/-! ### What is to be returned -/

/-- One node for each deleted id, with the list of the record of the id. -/
structure OwnNodes (nodes : List (ℕ × DiskNode)) : Prop where
  nodup : (nodes.map Prod.fst).Nodup
  ids : ∀ id, id ∈ nodes.map Prod.fst ↔ id ∈ c.deleteSet
  nbrs : ∀ n ∈ nodes, n.2.nbrs = (c.layout.readNode c.file n.1).nbrs

/-- The points of a block. -/
def perScan : ℕ := c.sectorsPerScan * c.layout.nnodesPerSector

/-- The record that is read for an id. -/
def scannedNode (id : ℕ) : DiskNode := c.layout.readNode c.file (id % c.perScan)

/-- The assertions hold of the number of neighbours. -/
def Passes (n : DiskNode) : Prop := c.asserts = true → n.nbrs.length < 512 ∧ 0 < n.nbrs.length

/-- There is a record to a sector and a sector to a block, or no point; each deleted id is that of a
point, and its list is that of the record with its place in the first block. -/
structure ScansOwn : Prop where
  sectors : 0 < c.layout.nnodesPerSector
  blocks : 0 < c.numPoints → 0 < c.sectorsPerScan
  deleted : ∀ id ∈ c.deleteSet, id < c.numPoints ∧
    (c.scannedNode id).nbrs = (c.layout.readNode c.file id).nbrs ∧
    c.Passes (c.layout.readNode c.file id)

variable {c : ScanCall} {s : ScanState}

/-! ### A copied record -/

theorem le_unitSize : c.layout.maxNodeLen ≤ c.unitSize := by
  rw [unitSize, roundUp]
  split_ifs with hr
  · omega
  · omega

variable {i id b : ℕ}

theorem readBlock_apply {o : ℕ} (hi : i < c.sectorsPerScan)
    (hid : id % c.perScan = i * c.layout.nnodesPerSector + id % c.layout.nnodesPerSector)
    (hn : 0 < c.layout.nnodesPerSector) (ho : o < c.layout.maxNodeLen) :
    c.readBlock (i * sectorLen + id % c.layout.nnodesPerSector * c.layout.maxNodeLen + o) =
      c.file (c.layout.nodeOff (id % c.perScan) + o) := by
  have hmod := mod_lt id hn
  have hslot := mul_le_mul_right c.layout.maxNodeLen (succ_le_of_lt hmod)
  have hsector := mul_le_mul_right sectorLen (succ_le_of_lt hi)
  have hfits := c.fits
  rw [succ_mul] at hslot hsector
  have hdiv : (i * c.layout.nnodesPerSector + id % c.layout.nnodesPerSector) /
      c.layout.nnodesPerSector = i := by
    rw [mul_comm, mul_add_div hn, div_eq_of_lt hmod, add_zero]
  have hrem : (i * c.layout.nnodesPerSector + id % c.layout.nnodesPerSector) %
      c.layout.nnodesPerSector = id % c.layout.nnodesPerSector := by
    rw [mul_comm, mul_add_mod, mod_mod]
  have hread := @ByteFile.put_bytes_of_lt (fun _ => 0) c.file 0 (c.sectorsPerScan * sectorLen)
    sectorLen (i * sectorLen + id % c.layout.nnodesPerSector * c.layout.maxNodeLen + o) (by omega)
  rw [zero_add] at hread
  rw [readBlock, hread, hid, Layout.nodeOff, hdiv, hrem, succ_mul]
  congr 1
  omega

variable {backing : ByteFile} {n : NodeRef}

theorem deref_of_bytes (hroom : c.layout.Room (c.layout.readNode c.file id).nbrs.length)
    (hlen : n.nnbrs = (c.layout.readNode c.file id).nbrs.length)
    (hbytes : ∀ o < c.layout.maxNodeLen, backing (n.start + o) = c.file (c.layout.nodeOff id + o)) :
    c.deref backing n = c.layout.readNode c.file id := by
  have hcount : (c.layout.readNode c.file id).nbrs.length = c.file.le 4 (c.layout.nhoodOff id) :=
    ByteFile.length_leArray ..
  rw [Layout.Room] at hroom
  rw [deref, hlen, hcount]
  congr 1
  · refine ByteFile.bytes_eq_iff.2 fun o ho => hbytes o (by omega)
  · refine ByteFile.leArray_eq_iff.2 fun o ho => ?_
    rw [Layout.nhoodOff, Nat.add_assoc, Nat.add_assoc, Nat.add_assoc, Nat.add_assoc]
    exact hbytes _ (by omega)

theorem le_of_bytes {start : ℕ} (hroom : c.layout.Room (c.layout.readNode c.file id).nbrs.length)
    (hbytes : ∀ o < c.layout.maxNodeLen, backing (start + o) = c.file (c.layout.nodeOff id + o)) :
    backing.le 4 (start + c.layout.coordsLen) = (c.layout.readNode c.file id).nbrs.length := by
  have hcount : (c.layout.readNode c.file id).nbrs.length = c.file.le 4 (c.layout.nhoodOff id) :=
    ByteFile.length_leArray ..
  rw [Layout.Room] at hroom
  rw [hcount]
  refine ByteFile.le_eq_iff.2 fun o ho => ?_
  rw [Layout.nhoodOff, Nat.add_assoc, Nat.add_assoc]
  exact hbytes _ (by omega)

/-! ### The scan -/

/-- The deleted ids that have been scanned are those of the nodes, and the records are in the units
of `backing_buf`. -/
structure Inv (c : ScanCall) (s : ScanState) : Prop where
  scanned : s.nScanned ≤ c.numPoints
  idx : s.backingBufIdx = s.deletedNodes.length
  ids : s.deletedNodes.map NodeRef.id = (List.range s.nScanned).filter (· ∈ c.deleteSet)
  start : ∀ i n, s.deletedNodes[i]? = some n → n.start = i * c.unitSize
  nnbrs : ∀ n ∈ s.deletedNodes, n.nnbrs = (c.scannedNode n.id).nbrs.length
  bytes : ∀ n ∈ s.deletedNodes, ∀ o < c.layout.maxNodeLen,
    s.backing (n.start + o) = c.file (c.layout.nodeOff (n.id % c.perScan) + o)
  passes : ∀ id < s.nScanned, id ∈ c.deleteSet → c.Passes (c.scannedNode id)

theorem Inv.lt_of_mem (h : c.Inv s) (hn : n ∈ s.deletedNodes) : n.id < s.nScanned := by
  have hmem : n.id ∈ s.deletedNodes.map NodeRef.id := mem_map_of_mem hn
  rw [h.ids, mem_filter, List.mem_range] at hmem
  exact hmem.1

theorem room_scanned (hid : id < c.numPoints) : c.layout.Room (c.scannedNode id).nbrs.length :=
  c.room _ ((mod_le _ _).trans_lt hid)

theorem Inv.skip (h : c.Inv s) (hlt : s.nScanned < c.numPoints) (hdel : s.nScanned ∉ c.deleteSet) :
    c.Inv { s with nScanned := s.nScanned + 1 } where
  scanned := hlt
  idx := h.idx
  ids := by
    rw [range_succ, filter_append, ← h.ids]
    simp [hdel]
  start := h.start
  nnbrs := h.nnbrs
  bytes := h.bytes
  passes := by
    intro id hid hmem
    obtain hid | rfl := Nat.lt_succ_iff_lt_or_eq.1 hid
    · exact h.passes id hid hmem
    · exact absurd hmem hdel

theorem Inv.start_add_lt (h : c.Inv s) (hn : n ∈ s.deletedNodes) {o : ℕ}
    (ho : o < c.layout.maxNodeLen) : n.start + o < s.backingBufIdx * c.unitSize := by
  obtain ⟨k, hk⟩ := mem_iff_getElem?.1 hn
  have hklt : k < s.backingBufIdx := by
    rw [h.idx]
    exact (List.getElem?_eq_some_iff.1 hk).1
  have hunit := mul_le_mul_right c.unitSize (succ_le_of_lt hklt)
  have hle := le_unitSize (c := c)
  rw [succ_mul] at hunit
  rw [h.start k n hk]
  omega

theorem Inv.push (h : c.Inv s) (hlt : s.nScanned < c.numPoints) (hdel : s.nScanned ∈ c.deleteSet)
    (hpass : c.Passes (c.scannedNode s.nScanned))
    (hold : ∀ p < s.backingBufIdx * c.unitSize, backing p = s.backing p)
    (hnew : ∀ o < c.layout.maxNodeLen, backing (s.backingBufIdx * c.unitSize + o) = c.file (c.layout.nodeOff (s.nScanned % c.perScan) + o)) :
    c.Inv ⟨s.nScanned + 1, backing, s.backingBufIdx + 1, s.deletedNodes ++
      [⟨s.nScanned, s.backingBufIdx * c.unitSize, (c.scannedNode s.nScanned).nbrs.length⟩]⟩ where
  scanned := hlt
  idx := by
    show s.backingBufIdx + 1 = (s.deletedNodes ++ [_]).length
    rw [length_append, length_singleton, h.idx]
  ids := by
    show (s.deletedNodes ++ [_]).map NodeRef.id =
      (List.range (s.nScanned + 1)).filter (· ∈ c.deleteSet)
    rw [range_succ, map_append, h.ids]
    simp [hdel]
  start := by
    intro k n hk
    rcases Nat.lt_or_ge k s.deletedNodes.length with hlt | hge
    · rw [getElem?_append_left hlt] at hk
      exact h.start k n hk
    · rw [getElem?_append_right hge, getElem?_singleton] at hk
      split_ifs at hk with h0
      cases hk
      obtain rfl : k = s.backingBufIdx := by
        rw [h.idx]
        omega
      rfl
  nnbrs := by
    intro n hn
    rcases mem_append.1 hn with hn | hn
    · exact h.nnbrs n hn
    · obtain rfl := mem_singleton.1 hn
      rfl
  bytes := by
    intro n hn o ho
    rcases mem_append.1 hn with hn | hn
    · rw [← h.bytes n hn o ho]
      exact hold _ (h.start_add_lt hn ho)
    · obtain rfl := mem_singleton.1 hn
      exact hnew o ho
  passes := by
    intro id hid hmem
    obtain hid | rfl := Nat.lt_succ_iff_lt_or_eq.1 hid
    · exact h.passes id hid hmem
    · exact hpass

theorem scanNode_spec (h : c.Inv s) (hlt : s.nScanned < c.numPoints)
    (hn : 0 < c.layout.nnodesPerSector) (hi : i < c.sectorsPerScan)
    (hplace : s.nScanned % c.perScan = i * c.layout.nnodesPerSector + s.nScanned % c.layout.nnodesPerSector) :
    (c.scanNode c.readBlock (i * sectorLen) s = none ∧
      ∃ id ∈ c.deleteSet, id < c.numPoints ∧ ¬ c.Passes (c.scannedNode id)) ∨
    ∃ s', c.scanNode c.readBlock (i * sectorLen) s = some s' ∧ c.Inv s' ∧
      s'.nScanned = s.nScanned + 1 := by
  by_cases hdel : s.nScanned ∈ c.deleteSet
  swap
  · exact .inr ⟨_, if_neg hdel, h.skip hlt hdel, rfl⟩
  set backing := s.backing.put (s.backingBufIdx * c.unitSize) (c.readBlock.bytes (i * sectorLen +
    s.nScanned % c.layout.nnodesPerSector * c.layout.maxNodeLen) c.layout.maxNodeLen) with hbacking
  have hold : ∀ p < s.backingBufIdx * c.unitSize, backing p = s.backing p := fun p hp =>
    ByteFile.put_of_not_mem (.inl hp)
  have hnew : ∀ o < c.layout.maxNodeLen, backing (s.backingBufIdx * c.unitSize + o) =
      c.file (c.layout.nodeOff (s.nScanned % c.perScan) + o) := fun o ho => by
    rw [hbacking, ByteFile.put_bytes_of_lt ho, readBlock_apply hi hplace hn ho]
  have hnnbrs : backing.le 4 (s.backingBufIdx * c.unitSize + c.layout.coordsLen) =
      (c.scannedNode s.nScanned).nbrs.length :=
    le_of_bytes (room_scanned hlt) hnew
  have hstep : c.scanNode c.readBlock (i * sectorLen) s =
      if c.asserts = true ∧ ¬ ((c.scannedNode s.nScanned).nbrs.length < 512 ∧
        0 < (c.scannedNode s.nScanned).nbrs.length) then none
      else some ⟨s.nScanned + 1, backing, s.backingBufIdx + 1, s.deletedNodes ++
        [⟨s.nScanned, s.backingBufIdx * c.unitSize, (c.scannedNode s.nScanned).nbrs.length⟩]⟩ := by
    rw [← hnnbrs]
    exact if_pos hdel
  by_cases hpass : c.Passes (c.scannedNode s.nScanned)
  · rw [if_neg fun hfail => hfail.2 (hpass hfail.1)] at hstep
    exact .inr ⟨_, hstep, h.push hlt hdel hpass hold hnew, rfl⟩
  · refine .inl ⟨?_, s.nScanned, hdel, hlt, hpass⟩
    rw [Passes, Classical.not_imp] at hpass
    rw [hstep, if_pos hpass]

/-- An assertion fails of a record that is read for a deleted id. -/
def Aborts (c : ScanCall) : Prop :=
  ∃ id ∈ c.deleteSet, id < c.numPoints ∧ ¬ c.Passes (c.scannedNode id)

theorem place_eq {j : ℕ} (hb : c.perScan ∣ b) (hi : i < c.sectorsPerScan)
    (hj : j < c.layout.nnodesPerSector) : (b + i * c.layout.nnodesPerSector + j) % c.perScan =
      i * c.layout.nnodesPerSector + (b + i * c.layout.nnodesPerSector + j) %
        c.layout.nnodesPerSector := by
  have hlt : i * c.layout.nnodesPerSector + j < c.perScan := by
    have hle := mul_le_mul_right c.layout.nnodesPerSector (succ_le_of_lt hi)
    rw [succ_mul] at hle
    rw [perScan]
    omega
  obtain ⟨q, rfl⟩ := hb
  have hsector : c.perScan * q + i * c.layout.nnodesPerSector + j =
      c.layout.nnodesPerSector * (c.sectorsPerScan * q + i) + j := by
    rw [perScan]
    ring
  have hmod : (c.perScan * q + i * c.layout.nnodesPerSector + j) % c.layout.nnodesPerSector = j := by
    rw [hsector, mul_add_mod, mod_eq_of_lt hj]
  rw [hmod, add_assoc, mul_add_mod, mod_eq_of_lt hlt]

theorem scanSector_spec {j k : ℕ} (hb : c.perScan ∣ b) (hi : i < c.sectorsPerScan)
    (hjk : j + k = c.layout.nnodesPerSector) (h : c.Inv s)
    (hs : s.nScanned = c.numPoints ∨ s.nScanned = b + i * c.layout.nnodesPerSector + j) :
    (c.scanSector c.readBlock (i * sectorLen) k s = none ∧ c.Aborts) ∨
    ∃ s', c.scanSector c.readBlock (i * sectorLen) k s = some s' ∧ c.Inv s' ∧
      (s'.nScanned = c.numPoints ∨ s'.nScanned = b + (i + 1) * c.layout.nnodesPerSector) := by
  induction k generalizing j s with
  | zero =>
    refine .inr ⟨s, rfl, h, hs.imp_right fun hs => ?_⟩
    rw [succ_mul]
    omega
  | succ k ih =>
    rw [scanSector]
    by_cases hlt : s.nScanned < c.numPoints
    swap
    · rw [if_neg hlt]
      exact .inr ⟨s, rfl, h, .inl (le_antisymm h.scanned (not_lt.1 hlt))⟩
    rw [if_pos hlt]
    have hplace := place_eq hb hi (show j < c.layout.nnodesPerSector by omega)
    have hcur := hs.resolve_left hlt.ne
    rw [← hcur] at hplace
    rcases scanNode_spec h hlt (by omega) hi hplace with ⟨hnone, hbad⟩ | ⟨s', hsome, h', hnext⟩
    · rw [hnone]
      exact .inl ⟨rfl, hbad⟩
    · rw [hsome]
      exact ih (show j + 1 + k = c.layout.nnodesPerSector by omega) h' (.inr (by omega))

theorem scanSectors_spec {k : ℕ} (hb : c.perScan ∣ b) (hik : i + k = c.sectorsPerScan) (h : c.Inv s)
    (hs : s.nScanned = c.numPoints ∨ s.nScanned = b + i * c.layout.nnodesPerSector) :
    (c.scanSectors c.readBlock k i s = none ∧ c.Aborts) ∨
    ∃ s', c.scanSectors c.readBlock k i s = some s' ∧ c.Inv s' ∧
      (s'.nScanned = c.numPoints ∨ s'.nScanned = b + c.perScan) := by
  induction k generalizing i s with
  | zero =>
    obtain rfl : i = c.sectorsPerScan := by omega
    exact .inr ⟨s, rfl, h, hs⟩
  | succ k ih =>
    rw [scanSectors]
    by_cases hlt : s.nScanned < c.numPoints
    swap
    · rw [if_neg hlt]
      exact .inr ⟨s, rfl, h, .inl (le_antisymm h.scanned (not_lt.1 hlt))⟩
    rw [if_pos hlt]
    rcases scanSector_spec hb (show i < c.sectorsPerScan by omega) (zero_add _) h hs with
      ⟨hnone, hbad⟩ | ⟨s', hsome, h', hs'⟩
    · rw [hnone]
      exact .inl ⟨rfl, hbad⟩
    · rw [hsome]
      exact ih (by omega) h' hs'

/-- At the start of a block. -/
structure BlockInv (c : ScanCall) (s : ScanState) : Prop where
  inv : c.Inv s
  start : s.nScanned = c.numPoints ∨ c.perScan ∣ s.nScanned

theorem scanBlock_spec (h : c.BlockInv s) (hlt : s.nScanned < c.numPoints) :
    (c.scanBlock s = none ∧ c.Aborts) ∨
    ∃ s', c.scanBlock s = some s' ∧ c.BlockInv s' ∧
      (s'.nScanned = c.numPoints ∨ s'.nScanned = s.nScanned + c.perScan) := by
  have hdvd := h.start.resolve_left hlt.ne
  rcases scanSectors_spec hdvd (zero_add _) h.inv (.inr (by rw [zero_mul, add_zero])) with
    ⟨hnone, hbad⟩ | ⟨s', hsome, h', hs'⟩
  · exact .inl ⟨hnone, hbad⟩
  · refine .inr ⟨s', hsome, ⟨h', hs'.imp_right fun hs' => ?_⟩, hs'⟩
    rw [hs']
    exact hdvd.add (dvd_refl _)

theorem blockInv_start (c : ScanCall) (backing : ByteFile) : c.BlockInv ⟨0, backing, 0, []⟩ where
  inv := ⟨zero_le _, rfl, rfl, by simp, by simp, by simp, fun id hid =>
    absurd hid (not_lt_zero id)⟩
  start := .inr (dvd_zero _)

theorem scan_eq_some (h : c.scan backing = some s) : c.Inv s ∧ s.nScanned = c.numPoints := by
  obtain ⟨hinv, hcond⟩ := whileM_keeps (fun s hs hc s' hstep => by
    rcases scanBlock_spec hs (of_decide_eq_true hc) with ⟨hnone, -⟩ | ⟨s'', hsome, hinv, -⟩
    · rw [hnone] at hstep
      cases hstep
    · rw [hsome] at hstep
      cases hstep
      exact hinv) (c.blockInv_start backing) h
  exact ⟨hinv.inv, le_antisymm hinv.inv.scanned (not_lt.1 (of_decide_eq_false hcond))⟩

theorem exists_scan (backing : ByteFile) (hn : 0 < c.layout.nnodesPerSector)
    (hs : 0 < c.numPoints → 0 < c.sectorsPerScan) (hpass : ¬ c.Aborts) :
    ∃ s, c.scan backing = some s := by
  obtain ⟨s, hscan, -⟩ := exists_whileM (fun s => decide (s.nScanned < c.numPoints)) c.scanBlock
    c.BlockInv (fun s => c.numPoints - s.nScanned) (fun s hinv hc => by
      have hlt := of_decide_eq_true hc
      rcases scanBlock_spec hinv hlt with ⟨-, hbad⟩ | ⟨s', hsome, hinv', hnext⟩
      · exact absurd hbad hpass
      · have hper : 0 < c.perScan := mul_pos (hs (by omega)) hn
        exact ⟨s', hsome, hinv', by omega⟩) (c.blockInv_start backing) (sub_le _ _)
  exact ⟨s, hscan⟩

theorem scan_eq_none (hpos : 0 < c.numPoints) (hs : c.sectorsPerScan = 0) :
    c.scan backing = none := by
  refine Option.eq_none_iff_forall_ne_some.2 fun s h => ?_
  obtain ⟨h0, hcond⟩ := whileM_keeps (P := fun s : ScanState => s.nScanned = 0)
    (fun s hs0 _ s' hstep => by
      rw [scanBlock, hs] at hstep
      cases hstep
      exact hs0) rfl h
  have hle := of_decide_eq_false hcond
  omega

theorem Inv.nodes_eq (h : c.Inv s) :
    (s.deletedNodes.map fun n => (n.id, c.deref s.backing n)) =
      ((List.range s.nScanned).filter (· ∈ c.deleteSet)).map fun id => (id, c.scannedNode id) := by
  rw [← h.ids, map_map]
  refine map_congr_left fun n hn => ?_
  have hlt := (h.lt_of_mem hn).trans_le h.scanned
  exact congrArg (Prod.mk n.id) (deref_of_bytes (room_scanned hlt) (h.nnbrs n hn) (h.bytes n hn))

theorem scanDeletedNodes_eq_some {nodes : List (ℕ × DiskNode)}
    (h : c.scanDeletedNodes backing = some nodes) :
    0 < c.layout.nnodesPerSector ∧ (0 < c.numPoints → 0 < c.sectorsPerScan) ∧ ¬ c.Aborts ∧
      nodes = ((List.range c.numPoints).filter (· ∈ c.deleteSet)).map fun id =>
        (id, c.scannedNode id) := by
  rw [scanDeletedNodes] at h
  split_ifs at h with hn
  obtain ⟨s, hs, rfl⟩ := Option.map_eq_some_iff.1 h
  obtain ⟨hinv, hend⟩ := scan_eq_some hs
  refine ⟨pos_of_ne_zero hn, fun hpos => ?_, ?_, ?_⟩
  · by_contra h0
    rw [scan_eq_none hpos (by omega)] at hs
    cases hs
  · rintro ⟨id, hdel, hid, hfail⟩
    exact hfail (hinv.passes id (hid.trans_eq hend.symm) hdel)
  · rw [hinv.nodes_eq, hend]

theorem scanDeletedNodes_eq (backing : ByteFile) (hn : 0 < c.layout.nnodesPerSector)
    (hs : 0 < c.numPoints → 0 < c.sectorsPerScan) (hpass : ¬ c.Aborts) :
    c.scanDeletedNodes backing = some (((List.range c.numPoints).filter (· ∈ c.deleteSet)).map
      fun id => (id, c.scannedNode id)) := by
  obtain ⟨s, hscan⟩ := exists_scan backing hn hs hpass
  obtain ⟨hinv, hend⟩ := scan_eq_some hscan
  rw [scanDeletedNodes, if_neg hn.ne', hscan, Option.map_some, hinv.nodes_eq, hend]

theorem passes_congr {n n' : DiskNode} (h : n.nbrs = n'.nbrs) : c.Passes n ↔ c.Passes n' := by
  rw [Passes, Passes, h]

/-- `scan_deleted_nodes` returns a node for each deleted id with its own list exactly when the lists
are those of the records with their places in the first block. -/
theorem scanDeletedNodes_iff (c : ScanCall) (backing : ByteFile) :
    (∃ nodes, c.scanDeletedNodes backing = some nodes ∧ c.OwnNodes nodes) ↔ c.ScansOwn := by
  constructor
  · rintro ⟨nodes, hscan, hown⟩
    obtain ⟨hn, hs, hpass, rfl⟩ := scanDeletedNodes_eq_some hscan
    refine ⟨hn, hs, fun id hdel => ?_⟩
    have hmem := (hown.ids id).2 hdel
    rw [map_map, mem_map] at hmem
    obtain ⟨id', hid', rfl⟩ := hmem
    obtain ⟨hrange, -⟩ := mem_filter.1 hid'
    have hlt := List.mem_range.1 hrange
    have hnbrs : (c.scannedNode id').nbrs = (c.layout.readNode c.file id').nbrs :=
      hown.nbrs (id', c.scannedNode id') (mem_map_of_mem hid')
    refine ⟨hlt, hnbrs, (passes_congr hnbrs).1 ?_⟩
    by_contra hfail
    exact hpass ⟨id', hdel, hlt, hfail⟩
  · intro h
    have hpass : ¬ c.Aborts := by
      rintro ⟨id, hdel, -, hfail⟩
      obtain ⟨-, hnbrs, hok⟩ := h.deleted id hdel
      exact hfail ((passes_congr hnbrs).2 hok)
    refine ⟨_, scanDeletedNodes_eq backing h.sectors h.blocks hpass, ?_⟩
    constructor
    case nodup =>
      rw [map_map]
      exact (nodup_range.filter _).map fun _ _ heq => heq
    case ids =>
      intro id
      rw [map_map, mem_map]
      simp only [mem_filter, List.mem_range, decide_eq_true_eq]
      constructor
      · rintro ⟨id', ⟨-, hdel⟩, rfl⟩
        exact hdel
      · intro hdel
        exact ⟨id, ⟨(h.deleted id hdel).1, hdel⟩, rfl⟩
    case nbrs =>
      intro n hn
      obtain ⟨id, hid, rfl⟩ := mem_map.1 hn
      obtain ⟨-, hdel⟩ := mem_filter.1 hid
      exact (h.deleted id (of_decide_eq_true hdel)).2.1

theorem mem_scanDeletedNodes_merger {D Code Tag : Type} (m : IndexMerger D Code Tag)
    (hlayout : c.layout = m.layout) (hfile : c.file = m.disk)
    (hscan : c.sectorsPerScan = sectorsPerMerge) {nodes : List (ℕ × DiskNode)}
    (h : c.scanDeletedNodes backing = some nodes) : ∀ n ∈ nodes, n.2 = m.scannedNode n.1 := by
  intro n hn
  obtain ⟨-, -, -, rfl⟩ := scanDeletedNodes_eq_some h
  obtain ⟨id, -, rfl⟩ := mem_map.1 hn
  show c.scannedNode id = m.scannedNode id
  rw [scannedNode, perScan, hlayout, hfile, hscan]
  rfl

/-! ### Two nodes in two blocks -/

/-- Records of 1000 floats and at most 20 neighbours: one to a sector. -/
def wideLayout : Layout := .ofRange 4000 20

/-- Node `0` has the list `[1]`, and node `1` has `[0]`. -/
def wideFile : ByteFile := wideLayout.writeNbrs (wideLayout.writeNbrs (fun _ => 0) 0 [1]) 1 [0]

theorem wideLayout_ok : wideLayout.Ok := Layout.ok_ofRange (by decide)

theorem wideLayout_room : wideLayout.Room 1 := Layout.room_ofRange.2 (by decide)

theorem nbrs_wideFile_one : (wideLayout.readNode wideFile 1).nbrs = [0] := by
  rw [wideFile, Layout.readNode_writeNbrs_same (by decide) (by simp)]

theorem nbrs_wideFile_zero : (wideLayout.readNode wideFile 0).nbrs = [1] := by
  have hzero : wideLayout.readNode (wideLayout.writeNbrs (fun _ => 0) 0 [1]) 0 =
      ⟨(wideLayout.readNode (fun _ => 0) 0).coords, [1]⟩ :=
    Layout.readNode_writeNbrs_same (by decide) (by simp)
  have hother : wideLayout.readNode wideFile 0 =
      wideLayout.readNode (wideLayout.writeNbrs (fun _ => 0) 0 [1]) 0 :=
    Layout.readNode_writeNbrs_of_ne wideLayout_ok (by decide) wideLayout_room
      (by rw [hzero]; exact wideLayout_room)
  rw [hother, hzero]

theorem wideFile_room : ∀ id < 2, wideLayout.Room (wideLayout.readNode wideFile id).nbrs.length := by
  intro id hid
  obtain rfl | rfl : id = 0 ∨ id = 1 := by omega
  · rw [nbrs_wideFile_zero]
    exact wideLayout_room
  · rw [nbrs_wideFile_one]
    exact wideLayout_room

theorem two_lt_two_pow_32 : 2 < 2 ^ 32 := by decide

/-- Node `1` is deleted, and a block has one sector. -/
def twoBlocks : ScanCall where
  layout := wideLayout
  file := wideFile
  numPoints := 2
  deleteSet := {1}
  sectorsPerScan := 1
  asserts := true
  numPoints_lt := two_lt_two_pow_32
  fits := wideLayout_ok.fits
  room := wideFile_room

theorem layout_twoBlocks : twoBlocks.layout = wideLayout := by rw [twoBlocks]

theorem file_twoBlocks : twoBlocks.file = wideFile := by rw [twoBlocks]

/-- Node `1` is returned with the list of node `0`. -/
theorem twoBlocks_wrong_list : ∃ node : DiskNode,
    twoBlocks.scanDeletedNodes (fun _ => 0) = some [(1, node)] ∧ node.nbrs = [1] ∧
      (twoBlocks.layout.readNode twoBlocks.file 1).nbrs = [0] := by
  have hplace : 1 % twoBlocks.perScan = 0 := mod_one 1
  have hzero : (twoBlocks.scannedNode 1).nbrs = [1] := by
    rw [scannedNode, hplace, layout_twoBlocks, file_twoBlocks, nbrs_wideFile_zero]
  have hpass : ¬ twoBlocks.Aborts := by
    rintro ⟨id, hdel, -, hfail⟩
    obtain rfl := Finset.mem_singleton.1 hdel
    refine hfail fun _ => ?_
    rw [hzero]
    decide
  have hids : (List.range twoBlocks.numPoints).filter (· ∈ twoBlocks.deleteSet) = [1] :=
    show (List.range 2).filter (· ∈ ({1} : Finset ℕ)) = [1] by decide
  refine ⟨twoBlocks.scannedNode 1, ?_, hzero, ?_⟩
  · rw [scanDeletedNodes_eq _ wideLayout_ok.pos (fun _ => one_pos) hpass, hids, map_singleton]
  · rw [layout_twoBlocks, file_twoBlocks, nbrs_wideFile_one]

end ScanCall

end DiskANNEval.FreshDiskANN
