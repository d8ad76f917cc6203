import DiskANNEval.Lib.ByteFile
import DiskANNEval.Lib.Filled

/-!
# VectorManager — the vectors that the clustering reads from a disk index

The partitioner reads an index by the lengths in its header, and then puts those of its own output
over them.  The clustering reads the index once more, by the lengths that are there now.  It finds
the vectors in every index of a shape exactly for some shapes (`loadsRight_iff`).
-/

namespace DiskANNEval.Gorgeous

open Lib Nat List Function

namespace VectorManager

/-- The type `T` of an index. -/
inductive DataType where
  | uint8
  | float
  deriving DecidableEq

/-- `sizeof(T)` -/
def DataType.size : DataType → ℕ
  | .uint8 => 1
  | .float => 4

inductive Mode where
  | all
  | graphOnly
  | embOnly
  | graphReplica
  deriving DecidableEq

/-- An index file; `records` are its bytes behind the first sector, and zero behind its end. -/
structure DiskIndex where
  newVersion : Bool
  dataType : DataType
  npts : ℕ
  ndims : ℕ
  medoid : ℕ
  maxNodeLen : ℕ
  nnodesPerSector : ℕ
  sectorLen : ℕ
  fileSize : ℕ
  npts_pos : 0 < npts
  ndims_pos : 0 < ndims
  room : ndims * dataType.size + 4 ≤ maxNodeLen
  fits : nnodesPerSector * maxNodeLen ≤ sectorLen

/-- What the constructor is called with, apart from the index and its sector length. -/
structure Options where
  bs : ℕ
  mode : Mode
  outSectorLen : ℕ

/-- `_nd`, `_dim`, `_max_node_len` and `C`. -/
structure Params where
  nd : ℕ
  dim : ℕ
  maxNodeLen : ℕ
  c : ℕ

/-- `ROUND_UP(x, y) / y` -/
def roundUpDiv (x y : ℕ) : ℕ := x / y + if x % y ≠ 0 then 1 else 0

namespace DiskIndex

variable (ix : DiskIndex) (o : Options) (f : ByteFile)

/-! ### The index -/

/-- The header; in the old version there is no dimension in it. -/
def metas : List ℕ :=
  if ix.newVersion then [ix.npts, ix.ndims, ix.medoid, ix.maxNodeLen, ix.nnodesPerSector]
  else [ix.fileSize, ix.npts, ix.medoid, ix.maxNodeLen, ix.nnodesPerSector]

/-- The record of a node. -/
def recordOff (i : ℕ) : ℕ :=
  i / ix.nnodesPerSector * ix.sectorLen + i % ix.nnodesPerSector * ix.maxNodeLen

/-- The coordinate part of a record. -/
def coords (i : ℕ) : List UInt8 := f.bytes (ix.recordOff i) (ix.ndims * ix.dataType.size)

/-! ### The partitioner -/

/-- What `load_disk_index` reads first. -/
def inputParams : Params where
  nd := if ix.newVersion then ix.metas.getD 0 0 else ix.metas.getD 1 0
  dim := ix.metas.getD 1 0
  maxNodeLen := ix.metas.getD 3 0
  c := ix.metas.getD 4 0

def dimLen : ℕ := ix.inputParams.dim * ix.dataType.size

def nnbrs (i : ℕ) : ℕ := f.le 4 (ix.recordOff i + ix.dimLen)

/-- The list of a node as it is read into the graph. -/
def nbrs (i : ℕ) : List ℕ := f.leArray 4 (ix.recordOff i + ix.dimLen + 4) (ix.nnbrs f i)

/-- Contents from which the graph is read: each list is in its record, and its ids are nodes. -/
structure Accepted : Prop where
  lists : ∀ i < ix.npts, ix.dimLen + 4 + ix.nnbrs f i * 4 ≤ ix.maxNodeLen
  ids : ∀ i < ix.npts, ∀ id ∈ ix.nbrs f i, id < ix.npts
  rest : ∀ off, ix.fileSize ≤ ix.sectorLen + off → f off = 0

/-- `_max_node_len`, for the mode. -/
def outputNodeLen : ℕ :=
  match o.mode with
  | .all => ix.inputParams.maxNodeLen
  | .graphOnly => ix.inputParams.maxNodeLen - ix.dimLen + 4
  | .embOnly => ix.dimLen
  | .graphReplica => ix.inputParams.maxNodeLen - ix.dimLen + 4

/-- `C`, for the mode, in 64-bit arithmetic. -/
def outputC : ℕ :=
  if o.mode = .graphReplica then
    (o.outSectorLen * o.bs + (2 ^ 64 - ix.dimLen)) % 2 ^ 64 / ix.outputNodeLen o
  else o.outSectorLen * o.bs % 2 ^ 64 / ix.outputNodeLen o

/-- The constructor; `none`: a division by zero, a failed read, or a read behind a record. -/
def loadDiskIndex : Option Params :=
  if ix.inputParams.c = 0 then none
  else if ix.fileSize <
      ix.sectorLen + roundUpDiv ix.inputParams.nd ix.inputParams.c * ix.sectorLen then none
  else if ix.inputParams.maxNodeLen < ix.dimLen + 4 then none
  else if ix.outputC o = 0 then none
  else some
    { nd := ix.inputParams.nd
      dim := ix.inputParams.dim
      maxNodeLen := ix.outputNodeLen o
      c := ix.outputC o }

/-! ### The clustering -/

/-- The sectors that `load_vectors_from_disk` reads. -/
def numSectors (p : Params) : ℕ := (p.nd + p.c - 1) / p.c

def batchSize : ℕ := 10000

/-- A copy from the buffer of a batch; `none`: it ends behind the buffer. -/
def copyNode (p : Params) (s j : ℕ) : Option (List UInt8) :=
  let processed := s / batchSize * batchSize
  let currentBatch := min batchSize (numSectors p - processed)
  let off := (s - processed) * ix.sectorLen + j * p.maxNodeLen
  if off + p.dim * ix.dataType.size ≤ currentBatch * ix.sectorLen then
    some (f.bytes (processed * ix.sectorLen + off) (p.dim * ix.dataType.size))
  else none

/-- The nodes of the sectors, as far as there are any. -/
def sectorNodes (p : Params) : List (ℕ × ℕ) :=
  (List.range (numSectors p) ×ˢ List.range p.c).filter fun (s, j) => s * p.c + j < p.nd

/-- `vectors_` -/
def loadVectors (p : Params) : ℕ → Option (List UInt8) :=
  filled (fun _ => some []) (sectorNodes p) (fun (s, j) => s * p.c + j)
    fun (s, j) => ix.copyNode f p s j

/-- The vector of each node is the coordinate part of its record. -/
def LoadsRight (p : Params) : Prop := ∀ i < ix.npts, ix.loadVectors f p i = some (ix.coords f i)

/-- The dimension is that of the index; and there is one node, or each sector has one, before and
after, or the lengths of the nodes are the same, and their numbers in a sector, or both have room
for all nodes. -/
structure SameLayout (p : Params) : Prop where
  dim : p.dim = ix.ndims
  places : ix.npts = 1 ∨ p.c = 1 ∧ ix.nnodesPerSector = 1 ∨ p.maxNodeLen = ix.maxNodeLen ∧
    (p.c = ix.nnodesPerSector ∨ ix.npts ≤ p.c ∧ ix.npts ≤ ix.nnodesPerSector)

/-! ### What the constructor leaves -/

variable {ix o f} {p : Params}

theorem size_pos (t : DataType) : 0 < t.size := by
  cases t <;> decide

theorem dimLen_pos : 0 < ix.ndims * ix.dataType.size := mul_pos ix.ndims_pos (size_pos _)

theorem maxNodeLen_pos : 0 < ix.maxNodeLen := by
  have := ix.room
  omega

theorem inputParams_eq : ix.inputParams =
    ⟨ix.npts, if ix.newVersion then ix.ndims else ix.npts, ix.maxNodeLen, ix.nnodesPerSector⟩ := by
  rw [inputParams, metas]
  cases ix.newVersion <;> rfl

/-- What the constructor checks, and what it leaves. -/
structure Loaded (ix : DiskIndex) (p : Params) : Prop where
  nd : p.nd = ix.npts
  dimLen : p.dim * ix.dataType.size = ix.dimLen
  perSector : 0 < ix.nnodesPerSector
  c_pos : 0 < p.c
  header : ix.dimLen + 4 ≤ ix.maxNodeLen
  size : ix.sectorLen + roundUpDiv ix.npts ix.nnodesPerSector * ix.sectorLen ≤ ix.fileSize

theorem loaded_of_loadDiskIndex (h : ix.loadDiskIndex o = some p) : ix.Loaded p := by
  rw [loadDiskIndex] at h
  split_ifs at h with hc hsize hroom hout
  cases h
  rw [inputParams_eq] at hc hsize hroom
  refine ⟨?_, rfl, pos_of_ne_zero hc, pos_of_ne_zero hout, Nat.le_of_not_lt hroom,
    Nat.le_of_not_lt hsize⟩
  show ix.inputParams.nd = ix.npts
  rw [inputParams_eq]

/-! ### Where a vector is read -/

/-- The place of a node by the lengths that are left. -/
def outputOff (ix : DiskIndex) (p : Params) (i : ℕ) : ℕ :=
  i / p.c * ix.sectorLen + i % p.c * p.maxNodeLen

variable {i j : ℕ}

theorem div_lt_numSectors (hc : 0 < p.c) (hi : i < p.nd) : i / p.c < numSectors p := by
  have hdiv := div_mul_le_self i p.c
  refine (le_div_iff_mul_le hc).2 ?_
  rw [succ_mul]
  omega

theorem loadVectors_apply (hc : 0 < p.c) (hi : i < p.nd) :
    ix.loadVectors f p i = ix.copyNode f p (i / p.c) (i % p.c) := by
  have hmod := mod_lt i hc
  have hmem : (i / p.c, i % p.c) ∈ sectorNodes p := by
    rw [sectorNodes, mem_filter, mem_product, List.mem_range, List.mem_range]
    exact ⟨⟨div_lt_numSectors hc hi, hmod⟩, by
      dsimp only
      rw [div_add_mod']
      exact decide_eq_true hi⟩
  have hfill := filled_of_mem (t := fun _ => some []) (fun k : ℕ × ℕ => k.1 * p.c + k.2)
    (fun k => ix.copyNode f p k.1 k.2) hmem fun k hk h => by
      rw [sectorNodes, mem_filter, mem_product, List.mem_range, List.mem_range] at hk
      obtain ⟨h1, h2⟩ := flat_inj hk.1.2 hmod h
      exact Prod.ext h1 h2
  rw [div_add_mod'] at hfill
  exact hfill

theorem lt_currentBatch {s : ℕ} (hs : s < numSectors p) :
    s - s / batchSize * batchSize < min batchSize (numSectors p - s / batchSize * batchSize) := by
  have hdiv := div_add_mod' s batchSize
  have hmod : s % batchSize < batchSize := mod_lt s (by decide)
  refine lt_min ?_ ?_
  · omega
  · omega

theorem loadVectors_eq_some {bs : List UInt8} (hc : 0 < p.c) (hi : i < p.nd)
    (h : ix.loadVectors f p i = some bs) :
    bs = f.bytes (ix.outputOff p i) (p.dim * ix.dataType.size) ∧
      (i / p.c = 0 → numSectors p = 1 →
        i % p.c * p.maxNodeLen + p.dim * ix.dataType.size ≤ ix.sectorLen) := by
  rw [loadVectors_apply hc hi, copyNode] at h
  split_ifs at h with hle
  refine ⟨?_, fun hs hn => ?_⟩
  · rw [← Option.some.inj h, ← add_assoc, ← add_mul,
      Nat.add_sub_cancel' (div_mul_le_self _ _)]
    rfl
  · rw [hs, hn, Nat.zero_div, zero_mul, Nat.zero_sub, zero_mul, zero_add, Nat.sub_zero,
      min_eq_right (by decide), one_mul] at hle
    exact hle

theorem loadVectors_of_le (hc : 0 < p.c) (hi : i < p.nd)
    (hle : i % p.c * p.maxNodeLen + p.dim * ix.dataType.size ≤ ix.sectorLen) :
    ix.loadVectors f p i = some (f.bytes (ix.outputOff p i) (p.dim * ix.dataType.size)) := by
  have hs := div_lt_numSectors hc hi
  have hbatch := mul_le_mul_right ix.sectorLen (succ_le_of_lt (lt_currentBatch hs))
  rw [succ_mul] at hbatch
  rw [loadVectors_apply hc hi, copyNode]
  rw [if_pos (by omega), ← add_assoc, ← add_mul,
    Nat.add_sub_cancel' (div_mul_le_self _ _)]
  rfl

/-! ### The layouts -/

theorem SameLayout.outputOff_eq (h : ix.SameLayout p) (hi : i < ix.npts) :
    ix.outputOff p i = ix.recordOff i := by
  rw [outputOff, recordOff]
  obtain hone | ⟨hc, hn⟩ | ⟨hlen, heq | ⟨hc, hn⟩⟩ := h.places
  · obtain rfl : i = 0 := by omega
    rw [Nat.zero_div, Nat.zero_div, zero_mod, zero_mod, zero_mul, zero_mul,
      zero_mul]
  · rw [hc, hn, mod_one, zero_mul, zero_mul]
  · rw [hlen, heq]
  · rw [hlen, div_eq_of_lt (hi.trans_le hc), div_eq_of_lt (hi.trans_le hn),
      mod_eq_of_lt (hi.trans_le hc), mod_eq_of_lt (hi.trans_le hn)]

theorem coords_end (hj : j < ix.nnodesPerSector) :
    j * ix.maxNodeLen + ix.ndims * ix.dataType.size ≤ ix.sectorLen := by
  have hmul : (j + 1) * ix.maxNodeLen ≤ ix.nnodesPerSector * ix.maxNodeLen :=
    mul_le_mul_right _ hj
  have hroom := ix.room
  have hfits := ix.fits
  rw [succ_mul] at hmul
  omega

theorem SameLayout.inSector (h : ix.SameLayout p) (hper : 0 < ix.nnodesPerSector) (hc : 0 < p.c)
    (hi : i < ix.npts) : i % p.c * p.maxNodeLen + p.dim * ix.dataType.size ≤ ix.sectorLen := by
  rw [h.dim]
  have hzero := coords_end hper
  rw [zero_mul] at hzero
  obtain hone | ⟨hc1, -⟩ | ⟨hlen, heq | ⟨hcn, hn⟩⟩ := h.places
  · obtain rfl : i = 0 := by omega
    rw [zero_mod, zero_mul]
    exact hzero
  · rw [hc1, mod_one, zero_mul]
    exact hzero
  · rw [hlen]
    exact coords_end (heq ▸ mod_lt i hc)
  · rw [hlen, mod_eq_of_lt (hi.trans_le hcn)]
    exact coords_end (hi.trans_le hn)

theorem SameLayout.loadsRight (h : ix.SameLayout p) (hl : ix.Loaded p) : ix.LoadsRight f p := by
  intro i hi
  rw [loadVectors_of_le hl.c_pos (hl.nd ▸ hi) (h.inSector hl.perSector hl.c_pos hi),
    h.outputOff_eq hi, h.dim]
  rfl

/-! ### One byte of one record -/

/-- The first byte of a record is one, all others are zero. -/
def markFile (ix : DiskIndex) (i : ℕ) : ByteFile := Function.update (fun _ => 0) (ix.recordOff i) 1

theorem inputDimLen_pos : 0 < ix.dimLen := by
  rw [dimLen, inputParams_eq]
  refine mul_pos ?_ (size_pos _)
  split_ifs
  · exact ix.ndims_pos
  · exact ix.npts_pos

theorem record_end (hj : j < ix.nnodesPerSector) :
    j * ix.maxNodeLen + ix.maxNodeLen ≤ ix.sectorLen := by
  rw [← succ_mul]
  exact (mul_le_mul_right _ hj).trans ix.fits

theorem recordOff_add_le (hper : 0 < ix.nnodesPerSector) (hij : i < j) :
    ix.recordOff i + ix.maxNodeLen ≤ ix.recordOff j := by
  have hend := record_end (mod_lt i hper)
  have hi := div_add_mod i ix.nnodesPerSector
  have hj := div_add_mod j ix.nnodesPerSector
  rw [recordOff, recordOff]
  obtain hlt | heq := lt_or_eq_of_le (Nat.div_le_div_right hij.le)
  · have hmul : (i / ix.nnodesPerSector + 1) * ix.sectorLen ≤
        j / ix.nnodesPerSector * ix.sectorLen := mul_le_mul_right _ hlt
    rw [succ_mul] at hmul
    omega
  · rw [heq] at hi ⊢
    have hmod : i % ix.nnodesPerSector + 1 ≤ j % ix.nnodesPerSector := by omega
    have hmul := mul_le_mul_right ix.maxNodeLen hmod
    rw [succ_mul] at hmul
    omega

theorem recordOff_lt_size (hl : ix.Loaded p) (hi : i < ix.npts) :
    ix.sectorLen + ix.recordOff i < ix.fileSize := by
  have hsec : i / ix.nnodesPerSector < roundUpDiv ix.npts ix.nnodesPerSector := by
    refine (div_lt_iff_lt_mul hl.perSector).2 (hi.trans_le ?_)
    have hdiv := div_add_mod' ix.npts ix.nnodesPerSector
    have hmod := mod_lt ix.npts hl.perSector
    rw [roundUpDiv]
    split_ifs
    · rw [succ_mul]
      omega
    · rw [add_zero]
      omega
  have hmul : (i / ix.nnodesPerSector + 1) * ix.sectorLen ≤
      roundUpDiv ix.npts ix.nnodesPerSector * ix.sectorLen := mul_le_mul_right _ hsec
  have hend := record_end (mod_lt i hl.perSector)
  have hpos : 0 < ix.maxNodeLen := maxNodeLen_pos
  have hsize := hl.size
  rw [succ_mul] at hmul
  rw [recordOff]
  omega

theorem nnbrs_markFile (hl : ix.Loaded p) (i j : ℕ) : ix.nnbrs (ix.markFile i) j = 0 := by
  refine ByteFile.le_eq_zero fun off h1 h2 => update_of_ne (fun he => ?_) _ _
  have hheader := hl.header
  have hpos : 0 < ix.dimLen := inputDimLen_pos
  obtain hlt | rfl | hgt := lt_trichotomy i j
  · have := recordOff_add_le hl.perSector hlt
    omega
  · omega
  · have := recordOff_add_le hl.perSector hgt
    omega

theorem accepted_markFile (hl : ix.Loaded p) (hi : i < ix.npts) : ix.Accepted (ix.markFile i) where
  lists := fun j _ => by
    rw [nnbrs_markFile hl]
    exact hl.header
  ids := fun j _ id hid => by
    rw [nbrs, nnbrs_markFile hl] at hid
    exact absurd hid not_mem_nil
  rest := fun off hoff => by
    have hlt := recordOff_lt_size hl hi
    exact update_of_ne (by omega) _ _

theorem dim_eq (hl : ix.Loaded p) (h : ix.LoadsRight f p) : p.dim = ix.ndims := by
  have hpos : 0 < p.nd := hl.nd ▸ ix.npts_pos
  obtain ⟨heq, -⟩ := loadVectors_eq_some hl.c_pos hpos (h 0 ix.npts_pos)
  have hlen := congrArg List.length heq
  rw [coords, ByteFile.length_bytes, ByteFile.length_bytes] at hlen
  exact (eq_of_mul_eq_mul_right (size_pos _) hlen).symm

theorem outputOff_of_markFile (hl : ix.Loaded p) (hi : i < ix.npts)
    (h : ix.LoadsRight (ix.markFile i) p) :
    ix.outputOff p i = ix.recordOff i ∧ (i / p.c = 0 → numSectors p = 1 →
      i % p.c * p.maxNodeLen + ix.ndims * ix.dataType.size ≤ ix.sectorLen) := by
  have hdim := dim_eq hl h
  obtain ⟨heq, hbuf⟩ := loadVectors_eq_some hl.c_pos (hl.nd ▸ hi) (h i hi)
  rw [hdim] at hbuf heq
  refine ⟨?_, hbuf⟩
  by_contra hne
  have hbyte := (ByteFile.bytes_eq_iff.1 heq) 0 dimLen_pos
  rw [add_zero, add_zero, markFile, update_self, update_of_ne hne]
    at hbyte
  cases hbyte

theorem SameLayout.of_loadsRight (hl : ix.Loaded p)
    (h : ∀ f, ix.Accepted f → ix.LoadsRight f p) : ix.SameLayout p := by
  have hmark : ∀ i < ix.npts, ix.outputOff p i = ix.recordOff i ∧ (i / p.c = 0 → numSectors p = 1 →
      i % p.c * p.maxNodeLen + ix.ndims * ix.dataType.size ≤ ix.sectorLen) :=
    fun i hi => outputOff_of_markFile hl hi (h _ (accepted_markFile hl hi))
  have hper := hl.perSector
  have hc := hl.c_pos
  refine ⟨dim_eq hl (h _ (accepted_markFile hl ix.npts_pos)), ?_⟩
  by_cases hone : ix.npts = 1
  · exact .inl hone
  have hnpts : 1 < ix.npts := lt_of_le_of_ne ix.npts_pos (Ne.symm hone)
  -- with two nodes in a sector, before and after, the lengths are the same
  have hlen : 1 < p.c → 1 < ix.nnodesPerSector → p.maxNodeLen = ix.maxNodeLen := by
    intro h1 h2
    have hplace := (hmark 1 hnpts).1
    rw [outputOff, recordOff, div_eq_of_lt h1, div_eq_of_lt h2, mod_eq_of_lt h1,
      mod_eq_of_lt h2, zero_mul, zero_add, zero_add, one_mul,
      one_mul] at hplace
    exact hplace
  have hpos : 0 < ix.maxNodeLen := maxNodeLen_pos
  have hdim : 0 < ix.ndims * ix.dataType.size := dimLen_pos
  have hfull := record_end hper
  obtain hlt | heq | hgt := Nat.lt_trichotomy p.c ix.nnodesPerSector
  · -- the first node of the second sector would be in the first one
    have hle : ix.npts ≤ p.c := by
      by_contra hgt
      have hplace := (hmark p.c (Nat.lt_of_not_le hgt)).1
      rw [outputOff, recordOff, Nat.div_self hc, div_eq_of_lt hlt,
        mod_eq_of_lt hlt, one_mul] at hplace
      have hend := record_end hlt
      omega
    exact .inr (.inr ⟨hlen (by omega) (by omega), .inr ⟨hle, by omega⟩⟩)
  · obtain h1 | h1 := lt_or_eq_of_le (succ_le_of_lt hc)
    · exact .inr (.inr ⟨hlen h1 (heq ▸ h1), .inl heq⟩)
    · exact .inr (.inl ⟨h1.symm, heq ▸ h1.symm⟩)
  · have hle : ix.npts ≤ ix.nnodesPerSector := by
      by_contra hnpts'
      obtain ⟨hplace, hbuf⟩ := hmark ix.nnodesPerSector (Nat.lt_of_not_le hnpts')
      rw [outputOff, recordOff, Nat.div_self hper, mod_self, div_eq_of_lt hgt,
        mod_eq_of_lt hgt, zero_mul, zero_mul, zero_add] at hplace
      obtain hone' | hmore := Nat.lt_or_ge p.c ix.npts
      · -- the second sector starts too late
        have hplace' := (hmark p.c hone').1
        have hdiv := div_add_mod p.c ix.nnodesPerSector
        rw [outputOff, recordOff, Nat.div_self hc, mod_self, zero_mul] at hplace'
        obtain hq | hq : p.c / ix.nnodesPerSector = 1 ∨ 2 ≤ p.c / ix.nnodesPerSector := by
          have hle := div_pos hgt.le hper
          omega
        · have hmul : 1 * ix.maxNodeLen ≤ p.c % ix.nnodesPerSector * ix.maxNodeLen :=
            mul_le_mul_right _ (by rw [hq] at hdiv; omega)
          rw [hq] at hplace'
          omega
        · have hmul : 2 * ix.sectorLen ≤ p.c / ix.nnodesPerSector * ix.sectorLen :=
            mul_le_mul_right _ hq
          omega
      · -- the node is behind the only sector that is read
        have hnum : numSectors p = 1 := by
          rw [numSectors, hl.nd]
          exact Nat.div_eq_of_lt_le (by omega) (by omega)
        have hle := hbuf (div_eq_of_lt hgt) hnum
        rw [mod_eq_of_lt hgt] at hle
        omega
    exact .inr (.inr ⟨hlen (by omega) (by omega), .inr ⟨by omega, hle⟩⟩)

/-- For every content of an index the vectors are right, exactly when the layout stays. -/
theorem loadsRight_iff (h : ix.loadDiskIndex o = some p) :
    (∀ f, ix.Accepted f → ix.LoadsRight f p) ↔ ix.SameLayout p :=
  ⟨SameLayout.of_loadsRight (loaded_of_loadDiskIndex h),
    fun hs _ _ => hs.loadsRight (loaded_of_loadDiskIndex h)⟩

end DiskIndex

theorem tenPoints_pos : 0 < 10 := by decide

theorem fourDims_pos : 0 < 4 := by decide

theorem fourDims_room : 4 * DataType.float.size + 4 ≤ 24 := by decide

theorem fourDims_fits : 170 * 24 ≤ 4096 := by decide

/-- Ten points of four dimensions of four bytes, 170 in a sector. -/
def tenPoints : DiskIndex where
  newVersion := true
  dataType := .float
  npts := 10
  ndims := 4
  medoid := 0
  maxNodeLen := 24
  nnodesPerSector := 170
  sectorLen := 4096
  fileSize := 8192
  npts_pos := tenPoints_pos
  ndims_pos := fourDims_pos
  room := fourDims_room
  fits := fourDims_fits

theorem loadsRight_tenPoints : ∃ p, tenPoints.loadDiskIndex ⟨1, .all, 4096⟩ = some p ∧
    ∀ f, tenPoints.Accepted f → tenPoints.LoadsRight f p := by
  have hload : tenPoints.loadDiskIndex ⟨1, .all, 4096⟩ = some ⟨10, 4, 24, 170⟩ := rfl
  exact ⟨_, hload, (DiskIndex.loadsRight_iff hload).2 ⟨rfl, .inr (.inr ⟨rfl, .inl rfl⟩)⟩⟩

/-- With the graph only, the records are taken to be of 12 bytes. -/
theorem not_loadsRight_graphOnly : ∃ p, tenPoints.loadDiskIndex ⟨1, .graphOnly, 4096⟩ = some p ∧
    tenPoints.Accepted (tenPoints.markFile 1) ∧
      ¬ tenPoints.LoadsRight (tenPoints.markFile 1) p := by
  have hload : tenPoints.loadDiskIndex ⟨1, .graphOnly, 4096⟩ = some ⟨10, 4, 12, 341⟩ := rfl
  have hloaded := DiskIndex.loaded_of_loadDiskIndex hload
  refine ⟨_, hload, DiskIndex.accepted_markFile hloaded (by decide), fun h => ?_⟩
  exact absurd (DiskIndex.outputOff_of_markFile hloaded (by decide) h).1 (by decide)

end VectorManager

end DiskANNEval.Gorgeous
