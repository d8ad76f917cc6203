import DiskANNEval.Lib.Records
import DiskANNEval.Lib.Streams
import DiskANNEval.Lib.While
import DiskANNEval.PipeANN.HandOut
import DiskANNEval.PipeANN.NodeBytes

/-!
# DiskLayout — `create_disk_layout`

The vectors and the graph are read one node after the other, and the node is written into
`sector_buf` where a `DiskNode` of its location is; a full buffer goes behind the first sector,
which gets the metadata at the end.  So the page of `loc_sector_no` has the node, at the place where
a `DiskNode` of the location is (`createDiskLayout_readBack`).

`none` is an exit or a crash, the end of an input file, or a write outside of the buffer.  The
cached streams read and write what comes next.
-/

namespace DiskANNEval.PipeANN

open Lib List Option Nat

/-! ### `SSDIndexMetadata` -/

namespace SSDIndexMetadata

variable (m : SSDIndexMetadata)

def sectorToLoc (sectorNo sectorOff : ℕ) : ℕ :=
  if m.nnodesPerSector = 0 then (sectorNo - 1) / divRoundUp m.maxNodeLen sectorLen
  else (sectorNo - 1) * m.nnodesPerSector + sectorOff

def nodesPerWrite : ℕ := if 0 < m.nnodesPerSector then m.nnodesPerSector else 1

def bytesPerWrite : ℕ :=
  if 0 < m.nnodesPerSector then sectorLen else roundUp m.maxNodeLen sectorLen

/-- Where a record is in the file. -/
def recordOff (loc : ℕ) : ℕ := m.sectorNo loc * sectorLen + m.coordsOff loc

/-! ### Where the records are -/

variable {m}

theorem bytesPerWrite_eq : m.bytesPerWrite = m.sizePerIo := by
  rw [bytesPerWrite, sizePerIo]
  split_ifs
  · rw [mul_one]
  · exact mul_comm _ _

theorem nodesPerWrite_pos : 0 < m.nodesPerWrite := by
  rw [nodesPerWrite]
  split_ifs with h
  · exact h
  · exact one_pos

theorem sectorNo_mul (loc : ℕ) :
    m.sectorNo loc * sectorLen = sectorLen + loc / m.nodesPerWrite * m.sizePerIo := by
  show (1 + if 0 < m.nnodesPerSector then loc / m.nnodesPerSector
    else loc * divRoundUp m.maxNodeLen sectorLen) * sectorLen = _
  rw [nodesPerWrite, sizePerIo, add_mul, one_mul]
  split_ifs
  · rw [mul_one]
  · rw [Nat.div_one, mul_assoc, mul_comm sectorLen]

theorem sectorNo_eq_of_div {loc loc' : ℕ} (h : loc / m.nodesPerWrite = loc' / m.nodesPerWrite) :
    m.sectorNo loc = m.sectorNo loc' := by
  have hsec := sectorNo_mul (m := m) loc
  rw [h, ← sectorNo_mul loc'] at hsec
  exact eq_of_mul_eq_mul_right (by decide) hsec

theorem sectorToLoc_sectorNo (loc : ℕ) : m.sectorToLoc (m.sectorNo loc)
    (if m.nnodesPerSector = 0 then 0 else loc % m.nnodesPerSector) = loc := by
  have hspn : 0 < divRoundUp m.maxNodeLen sectorLen := m.layout.sectorsPerNode_pos
  have hsec : m.sectorNo loc - 1 = if 0 < m.nnodesPerSector then loc / m.nnodesPerSector
      else loc * divRoundUp m.maxNodeLen sectorLen := Nat.add_sub_cancel_left ..
  rw [sectorToLoc, hsec]
  rcases Nat.eq_zero_or_pos m.nnodesPerSector with h | h
  · rw [if_pos h, if_neg (by omega), Nat.mul_div_cancel _ hspn]
  · rw [if_neg h.ne', if_neg h.ne', if_pos h, div_add_mod']

/-- The records of a page are in the bytes of the page, and those of two pages are apart. -/
theorem recordOff_disjoint {loc loc' : ℕ} (hne : loc ≠ loc') :
    m.recordOff loc + m.maxNodeLen ≤ m.recordOff loc' ∨
      m.recordOff loc' + m.maxNodeLen ≤ m.recordOff loc := by
  have hfit := m.coordsOff_fit loc
  have hfit' := m.coordsOff_fit loc'
  rw [recordOff, recordOff]
  obtain h | h | h := lt_trichotomy (loc / m.nodesPerWrite) (loc' / m.nodesPerWrite)
  · have hpage := mul_le_mul_right m.sizePerIo h
    rw [succ_mul] at hpage
    rw [sectorNo_mul, sectorNo_mul]
    omega
  · have hsec := sectorNo_eq_of_div h
    have hdisj := m.coordsOff_disjoint hsec hne
    rw [hsec]
    omega
  · have hpage := mul_le_mul_right m.sizePerIo h
    rw [succ_mul] at hpage
    rw [sectorNo_mul, sectorNo_mul]
    omega

end SSDIndexMetadata

/-- What is on disk of the metadata. -/
structure DiskMetadata where
  sizes : SSDIndexMetadata
  npoints : ℕ
  entryPoint : ℕ
  nptsCurShard : ℕ

namespace DiskMetadata

/-- The sizes of an index. -/
def SizesFit (dataDim sizeofT maxNodeLen nnodesPerSector labelSize : ℕ) : Prop :=
  dataDim * sizeofT + labelSize + 4 ≤ maxNodeLen ∧ nnodesPerSector * maxNodeLen ≤ sectorLen

instance (dataDim sizeofT maxNodeLen nnodesPerSector labelSize : ℕ) :
    Decidable (SizesFit dataDim sizeofT maxNodeLen nnodesPerSector labelSize) :=
  inferInstanceAs (Decidable (_ ∧ _))

/-- The numbers of 64 bits, in their order. -/
def fields (md : DiskMetadata) : List ℕ :=
  [md.npoints, md.sizes.dataDim, md.entryPoint, md.sizes.maxNodeLen, md.sizes.nnodesPerSector,
    md.nptsCurShard, md.sizes.labelSize]

/-- The bytes that `save_to_disk_index` writes: `nr`, `nc` and the numbers. -/
def saved (md : DiskMetadata) : List UInt8 := leBytes 4 7 ++ leBytes 4 1 ++ leList 8 md.fields

/-- `load_from_disk_index`; `none`: the file ends before, or the sizes are not those of an index. -/
def loadFromDiskIndex (sizeofT : ℕ) (sharded : Bool) (file : List UInt8) : Option DiskMetadata := do
  let (nr, s) ← (InStream.mk file 0).readNat 4
  let (_, s) ← s.readNat 4
  let (npoints, s) ← s.readNat 8
  let (dataDim, s) ← s.readNat 8
  let (entryPoint, s) ← s.readNat 8
  let (maxNodeLen, s) ← s.readNat 8
  let (nnodesPerSector, s) ← s.readNat 8
  let (nptsCurShard, s) ← s.readNat 8
  let (labelSize, _) ← s.readNat 8
  let nptsCurShard := if sharded then nptsCurShard else npoints
  let labelSize := if nr < 7 then 0 else labelSize
  if h : SizesFit dataDim sizeofT maxNodeLen nnodesPerSector labelSize then
    some
      { sizes := ⟨dataDim, sizeofT, maxNodeLen, nnodesPerSector, labelSize, h.1, h.2⟩
        npoints
        entryPoint
        nptsCurShard }
  else none

theorem load_saved {md : DiskMetadata} (hf : ∀ n ∈ md.fields, n < 2 ^ 64)
    (hshard : md.nptsCurShard = md.npoints) (sharded : Bool) (rest : List UInt8) :
    loadFromDiskIndex md.sizes.sizeofT sharded (md.saved ++ rest) = some md := by
  have hbound : ∀ n ∈ md.fields, n < 256 ^ 8 := hf
  simp only [fields, forall_mem_cons] at hbound
  obtain ⟨h1, h2, h3, h4, h5, h6, h7, -⟩ := hbound
  have h0 : (InStream.mk (md.saved ++ rest) 0).Ahead (leBytes 4 7 ++ (leBytes 4 1 ++
      (leBytes 8 md.npoints ++ (leBytes 8 md.sizes.dataDim ++ (leBytes 8 md.entryPoint ++
      (leBytes 8 md.sizes.maxNodeLen ++ (leBytes 8 md.sizes.nnodesPerSector ++
      (leBytes 8 md.nptsCurShard ++ (leBytes 8 md.sizes.labelSize ++ rest))))))))) := by
    rfl
  obtain ⟨s0, e0, a0⟩ := h0.readNat (by decide)
  obtain ⟨s1, e1, a1⟩ := a0.readNat (by decide)
  obtain ⟨s2, e2, a2⟩ := a1.readNat h1
  obtain ⟨s3, e3, a3⟩ := a2.readNat h2
  obtain ⟨s4, e4, a4⟩ := a3.readNat h3
  obtain ⟨s5, e5, a5⟩ := a4.readNat h4
  obtain ⟨s6, e6, a6⟩ := a5.readNat h5
  obtain ⟨s7, e7, a7⟩ := a6.readNat h6
  obtain ⟨s8, e8, -⟩ := a7.readNat h7
  have hfit : SizesFit md.sizes.dataDim md.sizes.sizeofT md.sizes.maxNodeLen
      md.sizes.nnodesPerSector md.sizes.labelSize := ⟨md.sizes.node_fits, md.sizes.sector_fits⟩
  simp only [loadFromDiskIndex, e0, e1, e2, e3, e4, e5, e6, e7, e8, bind_eq_bind,
    bind_some, hshard, ite_self, Nat.lt_irrefl, if_false, dif_pos hfit]
  exact congrArg (fun n => some (DiskMetadata.mk md.sizes md.npoints md.entryPoint n)) hshard.symm

end DiskMetadata

namespace DiskLayout

/-! ### `create_disk_layout` -/

/-- An `AbstractLabel`: what `write` writes into the buffer; `none`: it crashes. -/
structure Label where
  size : ℕ
  write : ℕ → Option (List UInt8)
  length_le : ∀ id bs, write id = some bs → bs.length ≤ size

/-- A file of `nr` times `nc` tags. -/
structure TagFile where
  nr : ℕ
  nc : ℕ
  tags : List ℕ

/-- The arguments.  `tagFile` is `none` if the name is empty, and `some none` if there is no such
file. -/
structure Args where
  sizeofT : ℕ
  memIndexFile : List UInt8
  baseFile : List UInt8
  tagFile : Option (Option TagFile)
  label : Option Label

def labelSize (label : Option Label) : ℕ := (label.map Label.size).getD 0

theorem nodeLen_fits (sizeofT ndims width labelSize : ℕ) :
    ndims * sizeofT + labelSize + 4 ≤ (width + 1) * 4 + ndims * sizeofT + labelSize := by
  omega

/-- The metadata of the new index. -/
def newMetadata (sizeofT npts ndims width medoid labelSize : ℕ) : DiskMetadata where
  sizes :=
    { dataDim := ndims
      sizeofT
      maxNodeLen := (width + 1) * 4 + ndims * sizeofT + labelSize
      nnodesPerSector := sectorLen / ((width + 1) * 4 + ndims * sizeofT + labelSize)
      labelSize
      node_fits := nodeLen_fits sizeofT ndims width labelSize
      sector_fits := Nat.div_mul_le_self sectorLen _ }
  npoints := npts
  entryPoint := medoid
  nptsCurShard := npts

/-- `base_reader` and `vamana_reader` -/
structure Readers where
  base : InStream
  vamana : InStream

section

variable (label : Option Label) (m : SSDIndexMetadata) (width : ℕ)

/-- The labels are written. -/
def putLabels (cur : ℕ) (buf : List UInt8) : Option (List UInt8) :=
  match label with
  | none => some buf
  | some l =>
    if 0 < l.size then (l.write cur).bind fun bs => write buf (m.labelsOff cur) bs else some buf

/-- The node `cur` is read into its `DiskNode`. -/
def putNode (cur : ℕ) (buf : List UInt8) (rd : Readers) : Option (List UInt8 × Readers) := do
  let (coords, base) ← rd.base.read m.coordsLen
  let buf ← write buf (m.coordsOff cur) coords
  let (nnbrsRead, vamana) ← rd.vamana.readNat 4
  if nnbrsRead = 0 then none
  else
    let nnbrsToWrite := min nnbrsRead width
    let (nbrs, vamana) ← vamana.read (nnbrsToWrite * 4)
    let buf ← write buf (m.nbrsOff cur) nbrs
    let vamana :=
      if width < nnbrsRead then vamana.seek (vamana.pos + (nnbrsRead - width) * 4) else vamana
    let buf ← write buf (m.nnbrsOff cur) (leBytes 4 nnbrsToWrite)
    let buf ← putLabels label m cur buf
    some (buf, ⟨base, vamana⟩)

/-- The loop over the nodes of one write. -/
def putNodes : ℕ → ℕ → List UInt8 → Readers → Option (List UInt8 × Readers)
  | 0, _, buf, rd => some (buf, rd)
  | k + 1, cur, buf, rd => (putNode label m width cur buf rd).bind fun (buf, rd) =>
      putNodes k (cur + 1) buf rd

/-- `cur_node_id`, the readers, and the buffers that have been written. -/
structure WriteState where
  cur : ℕ
  readers : Readers
  pages : List (List UInt8)

/-- The body of the loop over the writes. -/
def writePage (npoints : ℕ) (s : WriteState) : Option WriteState :=
  let nodesThisWrite := min m.nodesPerWrite (npoints - s.cur)
  (putNodes label m width nodesThisWrite s.cur (List.replicate m.bytesPerWrite 0) s.readers).map
    fun (buf, rd) =>
      { cur := s.cur + nodesThisWrite
        readers := rd
        pages := s.pages ++ [buf] }

/-- All writes of nodes; each has at least one. -/
def writePages (npoints : ℕ) (rd : Readers) : Option WriteState :=
  whileM (fun s => decide (s.cur < npoints)) (writePage label m width npoints) npoints ⟨0, rd, []⟩

end

/-- The tags that are saved with the index. -/
def copyTags (a : Args) (npts frozenNum : ℕ) : Option (Option TagFile) :=
  if 0 < frozenNum ∨ a.tagFile.isSome = true then
    match a.tagFile with
    | some (some t) => if t.nr ≠ npts ∨ t.nc ≠ 1 then none else some (some t)
    | _ => none
  else some none

structure Output where
  file : List UInt8
  tags : Option TagFile

def createDiskLayout (a : Args) : Option Output := do
  let (npts, base) ← (InStream.mk a.baseFile 0).readNat 4
  let (ndims, base) ← base.readNat 4
  let (_, vamana) ← (InStream.mk a.memIndexFile 0).readNat 8
  let (width, vamana) ← vamana.readNat 4
  let (medoid, vamana) ← vamana.readNat 4
  let (vamanaFrozenNum, vamana) ← vamana.readNat 8
  let md := newMetadata a.sizeofT npts ndims width medoid (labelSize a.label)
  let s ← writePages a.label md.sizes width npts ⟨base, vamana⟩
  let tags ← copyTags a npts vamanaFrozenNum
  let file ← write (List.replicate sectorLen 0 ++ s.pages.flatten) 0 md.saved
  some { file, tags }

/-! ### What is to be read back -/

/-- Vectors and a graph with their files; behind the nodes there may be more in a file. -/
structure DataSet where
  sizeofT : ℕ
  ndims : ℕ
  vectors : List (List UInt8)
  baseRest : List UInt8
  indexFileSize : ℕ
  width : ℕ
  medoid : ℕ
  frozenNum : ℕ
  graph : List (List ℕ)
  graphRest : List UInt8
  tagFile : Option (Option TagFile)
  label : Option Label
  sizeofT_le : sizeofT ≤ 8
  ndims_lt : ndims < 2 ^ 32
  npts_lt : vectors.length < 2 ^ 32
  length_vector : ∀ v ∈ vectors, v.length = ndims * sizeofT
  indexFileSize_lt : indexFileSize < 2 ^ 64
  width_lt : width < 2 ^ 32
  medoid_lt : medoid < 2 ^ 32
  frozenNum_lt : frozenNum < 2 ^ 64
  length_graph : graph.length = vectors.length
  degree_lt : ∀ nbrs ∈ graph, nbrs.length < 2 ^ 32
  nbr_lt : ∀ nbrs ∈ graph, ∀ n ∈ nbrs, n < 2 ^ 32
  labelSize_lt : labelSize label < 2 ^ 63

namespace DataSet

variable (d : DataSet)

def npts : ℕ := d.vectors.length

def args : Args where
  sizeofT := d.sizeofT
  memIndexFile := leBytes 8 d.indexFileSize ++ (leBytes 4 d.width ++ (leBytes 4 d.medoid ++
    (leBytes 8 d.frozenNum ++ (leList 4 (encode d.graph) ++ d.graphRest))))
  baseFile := leBytes 4 d.npts ++ (leBytes 4 d.ndims ++ (d.vectors.flatten ++ d.baseRest))
  tagFile := d.tagFile
  label := d.label

def metadata : DiskMetadata :=
  newMetadata d.sizeofT d.npts d.ndims d.width d.medoid (labelSize d.label)

abbrev sizes : SSDIndexMetadata := d.metadata.sizes

/-- The node has neighbours, and its labels can be written. -/
structure NodeOk (i : ℕ) : Prop where
  nbrs : ∀ nbrs ∈ d.graph[i]?, nbrs ≠ []
  labels : ∀ l ∈ d.label, 0 < l.size → (l.write i).isSome

/-- What `create_disk_layout` checks. -/
structure Accepted : Prop where
  nodes : ∀ i < d.npts, d.NodeOk i
  tags : 0 < d.frozenNum ∨ d.tagFile.isSome = true →
    ∃ t, d.tagFile = some (some t) ∧ t.nr = d.npts ∧ t.nc = 1

end DataSet

/-- The pages that are read: `size_per_io` bytes from a sector on. -/
def filePages (m : SSDIndexMetadata) (file : List UInt8) : Pages :=
  fun sector => slice file (sector * sectorLen) m.sizePerIo

/-- The file is an index of the vectors and the graph, with the metadata that are read from it. -/
structure ReadBack (d : DataSet) (file : List UInt8) (md : DiskMetadata) : Prop where
  npoints : md.npoints = d.npts
  entryPoint : md.entryPoint = d.medoid
  range : md.sizes.range = d.width
  page_in_file : ∀ i < d.npts,
    md.sizes.sectorNo i * sectorLen + md.sizes.sizePerIo ≤ file.length
  coords : ∀ i < d.npts, d.vectors[i]? = some (md.sizes.coords (filePages md.sizes file) i)
  nbrs : ∀ i nbrs, d.graph[i]? = some nbrs →
    md.sizes.nbrs (filePages md.sizes file) i = nbrs.take d.width
  nbrs_of_degree : (∀ nbrs ∈ d.graph, nbrs.length ≤ d.width) → ∀ i < d.npts,
    d.graph[i]? = some (md.sizes.nbrs (filePages md.sizes file) i)
  labels : ∀ l ∈ d.label, 0 < l.size → ∀ i < d.npts, ∃ bs, l.write i = some bs ∧
    (md.sizes.labels (filePages md.sizes file) i).take bs.length = bs
  loc_of_sector : ∀ loc, md.sizes.sectorToLoc (md.sizes.sectorNo loc)
    (if md.sizes.nnodesPerSector = 0 then 0 else loc % md.sizes.nnodesPerSector) = loc
  disjoint : ∀ loc loc', loc ≠ loc' →
    md.sizes.recordOff loc + md.sizes.maxNodeLen ≤ md.sizes.recordOff loc' ∨
      md.sizes.recordOff loc' + md.sizes.maxNodeLen ≤ md.sizes.recordOff loc

/-! ### A node in a buffer -/

/-- The buffer has the node at the place of its location. -/
structure HoldsNode (label : Option Label) (m : SSDIndexMetadata) (buf : List UInt8) (loc : ℕ)
    (coords : List UInt8) (nbrs : List ℕ) : Prop where
  coords_eq : slice buf (m.coordsOff loc) m.coordsLen = coords
  nnbrs_eq : slice buf (m.nnbrsOff loc) 4 = leBytes 4 nbrs.length
  nbrs_eq : slice buf (m.nbrsOff loc) (nbrs.length * 4) = leList 4 nbrs
  fits : nbrs.length ≤ m.range
  labels_eq : ∀ l ∈ label, 0 < l.size → ∃ bs, l.write loc = some bs ∧
    bs.length ≤ m.labelSize ∧ slice buf (m.labelsOff loc) bs.length = bs

variable {label : Option Label} {m : SSDIndexMetadata} {buf buf' : List UInt8} {loc : ℕ}
  {coords : List UInt8} {nbrs : List ℕ}

theorem HoldsNode.congr (h : HoldsNode label m buf loc coords nbrs)
    (hs : slice buf' (m.coordsOff loc) m.maxNodeLen = slice buf (m.coordsOff loc) m.maxNodeLen) :
    HoldsNode label m buf' loc coords nbrs := by
  have hfit := m.labels_fit
  have hn := h.fits
  have hpart : ∀ o l, m.coordsOff loc ≤ o → o + l ≤ m.coordsOff loc + m.maxNodeLen →
      slice buf' o l = slice buf o l := fun o l => slice_congr hs
  constructor
  case coords_eq => rw [hpart _ _ le_rfl (by omega), h.coords_eq]
  case nnbrs_eq =>
    rw [hpart _ _ (by rw [SSDIndexMetadata.nnbrsOff]; omega)
      (by rw [SSDIndexMetadata.nnbrsOff]; omega), h.nnbrs_eq]
  case nbrs_eq =>
    rw [hpart _ _ (by rw [SSDIndexMetadata.nbrsOff]; omega)
      (by rw [SSDIndexMetadata.nbrsOff]; omega), h.nbrs_eq]
  case fits => exact hn
  case labels_eq =>
    intro l hl hpos
    obtain ⟨bs, hbs, hlen, heq⟩ := h.labels_eq l hl hpos
    refine ⟨bs, hbs, hlen, ?_⟩
    rw [hpart _ _ (by rw [SSDIndexMetadata.labelsOff]; omega)
      (by rw [SSDIndexMetadata.labelsOff]; omega), heq]

theorem write_in_record (m : SSDIndexMetadata) (loc off : ℕ) (bs : List UInt8)
    (hlen : buf.length = m.sizePerIo) (hend : off + bs.length ≤ m.coordsOff loc + m.maxNodeLen) :
    ∃ buf', write buf off bs = some buf' ∧ buf'.length = m.sizePerIo ∧
      AgreesOutside buf' buf off (off + bs.length) ∧ slice buf' off bs.length = bs := by
  have hfit := m.coordsOff_fit loc
  obtain ⟨buf', h⟩ : ∃ buf', write buf off bs = some buf' := write_isSome (by omega)
  exact ⟨buf', h, (length_write h).trans hlen, agreesOutside_write h, slice_write_same h⟩

theorem putLabels_spec (hsize : labelSize label = m.labelSize) (hlen : buf.length = m.sizePerIo) :
    (putLabels label m loc buf = none ∧ ∃ l ∈ label, 0 < l.size ∧ l.write loc = none) ∨
    ∃ buf', putLabels label m loc buf = some buf' ∧ buf'.length = m.sizePerIo ∧
      AgreesOutside buf' buf (m.labelsOff loc) (m.coordsOff loc + m.maxNodeLen) ∧
      ∀ l ∈ label, 0 < l.size → ∃ bs, l.write loc = some bs ∧ bs.length ≤ m.labelSize ∧
        slice buf' (m.labelsOff loc) bs.length = bs := by
  have hfit := m.labels_fit
  cases label with
  | none => exact .inr ⟨buf, rfl, hlen, .refl _ _ _, fun l hl => absurd hl (by simp)⟩
  | some l =>
    rw [putLabels]
    by_cases hpos : 0 < l.size
    · rw [if_pos hpos]
      cases hw : l.write loc with
      | none => exact .inl ⟨rfl, l, rfl, hpos, hw⟩
      | some bs =>
        have hbs : bs.length ≤ m.labelSize := (l.length_le loc bs hw).trans_eq hsize
        obtain ⟨buf', hput, hlen', hout, hsame⟩ := write_in_record m loc (m.labelsOff loc) bs hlen
          (by rw [SSDIndexMetadata.labelsOff]; omega)
        refine .inr ⟨buf', hput, hlen', hout.mono le_rfl ?_, ?_⟩
        · rw [SSDIndexMetadata.labelsOff]
          omega
        · rintro l' hl' -
          obtain rfl : l = l' := Option.some.inj hl'
          exact ⟨bs, hw, hbs, hsame⟩
    · rw [if_neg hpos]
      refine .inr ⟨buf, rfl, hlen, .refl _ _ _, ?_⟩
      intro l' hl' hpos'
      obtain rfl : l = l' := Option.some.inj hl'
      exact absurd hpos' hpos

theorem holdsNode_of_writes {b₁ b₂ b₃ b₄ : List UInt8} (hfits : nbrs.length ≤ m.range)
    (hcoords : AgreesOutside b₁ buf (m.coordsOff loc) (m.coordsOff loc + m.coordsLen))
    (hc : slice b₁ (m.coordsOff loc) m.coordsLen = coords)
    (hnbrs : AgreesOutside b₂ b₁ (m.nbrsOff loc) (m.nbrsOff loc + nbrs.length * 4))
    (hl : slice b₂ (m.nbrsOff loc) (nbrs.length * 4) = leList 4 nbrs)
    (hnnbrs : AgreesOutside b₃ b₂ (m.nnbrsOff loc) (m.nnbrsOff loc + 4))
    (hn : slice b₃ (m.nnbrsOff loc) 4 = leBytes 4 nbrs.length)
    (hlabels : AgreesOutside b₄ b₃ (m.labelsOff loc) (m.coordsOff loc + m.maxNodeLen))
    (hb : ∀ l ∈ label, 0 < l.size → ∃ bs, l.write loc = some bs ∧ bs.length ≤ m.labelSize ∧
      slice b₄ (m.labelsOff loc) bs.length = bs) :
    AgreesOutside b₄ buf (m.coordsOff loc) (m.coordsOff loc + m.maxNodeLen) ∧
      HoldsNode label m b₄ loc coords nbrs := by
  have hfit := m.labels_fit
  have hnn : m.nnbrsOff loc = m.coordsOff loc + m.coordsLen := rfl
  have hnb : m.nbrsOff loc = m.coordsOff loc + m.coordsLen + 4 := rfl
  have hla : m.labelsOff loc = m.coordsOff loc + m.coordsLen + (1 + m.range) * 4 := rfl
  constructor
  · refine (hlabels.mono (by omega) le_rfl).trans ?_
    refine (hnnbrs.mono (by omega) (by omega)).trans ?_
    exact (hnbrs.mono (by omega) (by omega)).trans (hcoords.mono le_rfl (by omega))
  constructor
  case coords_eq =>
    rw [hlabels.2 _ _ (.inl (by omega)), hnnbrs.2 _ _ (.inl (by omega)),
      hnbrs.2 _ _ (.inl (by omega)), hc]
  case nnbrs_eq => rw [hlabels.2 _ _ (.inl (by omega)), hn]
  case nbrs_eq => rw [hlabels.2 _ _ (.inl (by omega)), hnnbrs.2 _ _ (.inr (by omega)), hl]
  case fits => exact hfits
  case labels_eq => exact hb

/-! ### The loops -/

/-- The readers are at the node `cur`. -/
structure DataSet.At (d : DataSet) (cur : ℕ) (rd : Readers) : Prop where
  base : rd.base.Ahead ((d.vectors.drop cur).flatten ++ d.baseRest)
  vamana : rd.vamana.Ahead (leList 4 (encode (d.graph.drop cur)) ++ d.graphRest)

/-- The buffer has the node of the data. -/
def DataSet.Holds (d : DataSet) (buf : List UInt8) (i : ℕ) : Prop :=
  ∃ coords nbrs, d.vectors[i]? = some coords ∧ d.graph[i]? = some nbrs ∧
    HoldsNode d.label d.sizes buf i coords (nbrs.take d.width)

theorem DataSet.range_sizes (d : DataSet) : d.sizes.range = d.width := by
  show ((d.width + 1) * 4 + d.ndims * d.sizeofT + labelSize d.label - d.ndims * d.sizeofT -
    labelSize d.label) / 4 - 1 = d.width
  omega

variable {i : ℕ}

theorem DataSet.NodeOk.of_write {d : DataSet} {nbrs : List ℕ} (hn : d.graph[i]? = some nbrs)
    (hne : nbrs ≠ []) (hw : ∀ l ∈ d.label, 0 < l.size → ∃ bs, l.write i = some bs) :
    d.NodeOk i := by
  refine ⟨fun nbrs' h => ?_, fun l hl hpos => ?_⟩
  · obtain rfl : nbrs = nbrs' := Option.some.inj (hn.symm.trans h)
    exact hne
  · obtain ⟨bs, hbs⟩ := hw l hl hpos
    rw [hbs]
    rfl

variable {d : DataSet} {cur : ℕ} {rd : Readers}

theorem DataSet.At.split (h : d.At cur rd) (hc : d.vectors[cur]? = some coords)
    (hn : d.graph[cur]? = some nbrs) :
    rd.base.Ahead (coords ++ ((d.vectors.drop (cur + 1)).flatten ++ d.baseRest)) ∧
    rd.vamana.Ahead (leBytes 4 nbrs.length ++ (leList 4 (nbrs.take d.width) ++
      (leList 4 (nbrs.drop d.width) ++
        (leList 4 (encode (d.graph.drop (cur + 1))) ++ d.graphRest)))) := by
  obtain ⟨hlt, rfl⟩ := List.getElem?_eq_some_iff.1 hc
  obtain ⟨hlt', rfl⟩ := List.getElem?_eq_some_iff.1 hn
  constructor
  · have hbase := h.base
    rw [drop_eq_getElem_cons hlt, flatten_cons, append_assoc] at hbase
    exact hbase
  · have hvamana := h.vamana
    rw [drop_eq_getElem_cons hlt', encode_cons, leList_cons] at hvamana
    have hsplit : leList 4 (d.graph[cur] ++ encode (d.graph.drop (cur + 1))) =
        leList 4 (d.graph[cur].take d.width) ++ (leList 4 (d.graph[cur].drop d.width) ++
          leList 4 (encode (d.graph.drop (cur + 1)))) := by
      rw [leList, leList, leList, leList, ← flatMap_append, ← flatMap_append,
        ← append_assoc, take_append_drop]
    rw [hsplit] at hvamana
    simpa only [append_assoc] using hvamana

theorem putNode_spec (hcur : cur < d.npts) (hat : d.At cur rd)
    (hlen : buf.length = d.sizes.sizePerIo) :
    (putNode d.label d.sizes d.width cur buf rd = none ∧ ¬ d.NodeOk cur) ∨
    ∃ buf' rd', putNode d.label d.sizes d.width cur buf rd = some (buf', rd') ∧ d.NodeOk cur ∧
      buf'.length = d.sizes.sizePerIo ∧ AgreesOutside buf' buf (d.sizes.coordsOff cur)
        (d.sizes.coordsOff cur + d.sizes.maxNodeLen) ∧
      d.At (cur + 1) rd' ∧ d.Holds buf' cur := by
  obtain ⟨coords, hc⟩ : ∃ coords, d.vectors[cur]? = some coords :=
    ⟨_, getElem?_eq_getElem hcur⟩
  obtain ⟨nbrs, hn⟩ : ∃ nbrs, d.graph[cur]? = some nbrs :=
    ⟨_, getElem?_eq_getElem (hcur.trans_eq d.length_graph.symm)⟩
  have hclen : coords.length = d.sizes.coordsLen := d.length_vector _ (mem_of_getElem? hc)
  have hfit := d.sizes.labels_fit
  have hrange := d.range_sizes
  obtain ⟨hbase, hvamana⟩ := hat.split hc hn
  set kept := nbrs.take d.width with hkept
  have hkeptLen : kept.length = min nbrs.length d.width := by
    rw [List.length_take, min_comm]
  -- the coordinates and the number of neighbours
  obtain ⟨base, hreadBase, hbase'⟩ := hbase.read hclen.symm
  obtain ⟨b₁, hput₁, hlen₁, hout₁, hsame₁⟩ := write_in_record d.sizes cur (d.sizes.coordsOff cur)
    coords hlen (by omega)
  obtain ⟨v₁, hreadN, hv₁⟩ := hvamana.readNat (d.degree_lt nbrs (mem_of_getElem? hn))
  by_cases hzero : nbrs.length = 0
  · refine .inl ⟨?_, fun hok => hok.nbrs nbrs hn (length_eq_zero_iff.1 hzero)⟩
    simp only [putNode, hreadBase, hput₁, hreadN, bind_eq_bind, bind_some, if_pos hzero]
  -- the neighbours
  obtain ⟨v₂, hreadL, hv₂⟩ := hv₁.read
    (by rw [length_leList, hkeptLen])
  obtain ⟨b₂, hput₂, hlen₂, hout₂, hsame₂⟩ := write_in_record d.sizes cur (d.sizes.nbrsOff cur)
    (leList 4 kept) hlen₁ (by rw [length_leList, SSDIndexMetadata.nbrsOff]; omega)
  rw [length_leList] at hout₂ hsame₂
  obtain ⟨b₃, hput₃, hlen₃, hout₃, hsame₃⟩ := write_in_record d.sizes cur (d.sizes.nnbrsOff cur)
    (leBytes 4 (min nbrs.length d.width)) hlen₂ (by rw [length_leBytes, SSDIndexMetadata.nnbrsOff]; omega)
  rw [length_leBytes] at hout₃ hsame₃
  have hv₃ : (if d.width < nbrs.length then v₂.seek (v₂.pos + (nbrs.length - d.width) * 4)
      else v₂).Ahead (leList 4 (encode (d.graph.drop (cur + 1))) ++ d.graphRest) := by
    split_ifs with hlong
    · exact hv₂.skip (by rw [length_leList, length_drop])
    · rw [drop_eq_nil_of_le (by omega)] at hv₂
      exact hv₂
  -- the labels
  rcases @putLabels_spec d.label d.sizes b₃ cur rfl hlen₃ with
    ⟨hput₄, l, hl, hpos, hw⟩ | ⟨b₄, hput₄, hlen₄, hout₄, hlabels⟩
  · refine .inl ⟨?_, fun hok => ?_⟩
    · simp only [putNode, hreadBase, hput₁, hreadN, hreadL, hput₂, hput₃, hput₄, bind_eq_bind,
        bind_some, if_neg hzero, bind_none]
    · have hsome := hok.labels l hl hpos
      rw [hw] at hsome
      cases hsome
  · rw [← hkeptLen] at hsame₃
    rw [hclen] at hout₁ hsame₁
    obtain ⟨hout, hholds⟩ := holdsNode_of_writes (by omega) hout₁ hsame₁ hout₂ hsame₂ hout₃ hsame₃
      hout₄ hlabels
    refine .inr ⟨b₄, ⟨base, _⟩, ?_, ?_, hlen₄, hout, ⟨hbase', hv₃⟩, coords, nbrs, hc, hn, hholds⟩
    · simp only [putNode, hreadBase, hput₁, hreadN, hreadL, hput₂, hput₃, hput₄, bind_eq_bind,
        bind_some, if_neg hzero]
      rfl
    · refine .of_write hn (fun hnil => hzero (by rw [hnil]; rfl)) fun l hl hpos => ?_
      obtain ⟨bs, hbs, -⟩ := hlabels l hl hpos
      exact ⟨bs, hbs⟩

theorem DataSet.Holds.congr (h : d.Holds buf i)
    (hs : slice buf' (d.sizes.coordsOff i) d.sizes.maxNodeLen = slice buf (d.sizes.coordsOff i) d.sizes.maxNodeLen) :
    d.Holds buf' i := by
  obtain ⟨coords, nbrs, hc, hn, hholds⟩ := h
  exact ⟨coords, nbrs, hc, hn, hholds.congr hs⟩

theorem putNodes_spec {k st : ℕ} (hst : st ≤ cur)
    (hpage : ∀ j, st ≤ j → j < cur + k → d.sizes.sectorNo j = d.sizes.sectorNo st)
    (hcur : cur + k ≤ d.npts) (hat : d.At cur rd) (hlen : buf.length = d.sizes.sizePerIo)
    (hheld : ∀ j, st ≤ j → j < cur → d.Holds buf j) :
    (putNodes d.label d.sizes d.width k cur buf rd = none ∧ ∃ j < d.npts, ¬ d.NodeOk j) ∨
    ∃ buf' rd', putNodes d.label d.sizes d.width k cur buf rd = some (buf', rd') ∧
      buf'.length = d.sizes.sizePerIo ∧ d.At (cur + k) rd' ∧
      (∀ j, st ≤ j → j < cur + k → d.Holds buf' j) ∧ ∀ j, cur ≤ j → j < cur + k → d.NodeOk j := by
  induction k generalizing cur buf rd with
  | zero => exact .inr ⟨buf, rd, rfl, hlen, hat, hheld, fun j h1 h2 => by omega⟩
  | succ k ih =>
    rw [putNodes]
    rcases putNode_spec (by omega) hat hlen with ⟨hnone, hbad⟩ |
      ⟨b, r, hput, hok, hlen', hout, hat', hnew⟩
    · rw [hnone]
      exact .inl ⟨rfl, cur, by omega, hbad⟩
    · rw [hput]
      have hheld' : ∀ j, st ≤ j → j < cur + 1 → d.Holds b j := by
        intro j h1 h2
        rcases Nat.lt_succ_iff_lt_or_eq.1 h2 with hlt | rfl
        · -- the other records of the page stay
          refine (hheld j h1 hlt).congr (hout.2 _ _ ?_)
          refine d.sizes.coordsOff_disjoint ?_ hlt.ne
          rw [hpage j h1 (by omega), hpage cur hst (by omega)]
        · exact hnew
      rcases ih (by omega) (fun j h1 h2 => hpage j h1 (by omega)) (by omega) hat' hlen' hheld' with
        ⟨hnone, hbad⟩ | ⟨b', r', hrest, hlen'', hat'', hheld'', hoks⟩
      · exact .inl ⟨hnone, hbad⟩
      · rw [add_right_comm] at hat'' hheld'' hoks
        refine .inr ⟨b', r', hrest, hlen'', hat'', hheld'', fun j h1 h2 => ?_⟩
        obtain rfl | hlt := h1.eq_or_lt
        · exact hok
        · exact hoks j hlt h2

/-- The nodes before `cur` are in their pages. -/
structure WriteInv (d : DataSet) (s : WriteState) : Prop where
  cur_eq : s.cur = min (s.pages.length * d.sizes.nodesPerWrite) d.npts
  at_cur : d.At s.cur s.readers
  length_page : ∀ p ∈ s.pages, p.length = d.sizes.sizePerIo
  holds : ∀ j < s.cur, ∃ p, s.pages[j / d.sizes.nodesPerWrite]? = some p ∧ d.Holds p j
  ok : ∀ j < s.cur, d.NodeOk j

variable {s : WriteState}

theorem writePage_spec (hs : WriteInv d s) (hlt : s.cur < d.npts) :
    (writePage d.label d.sizes d.width d.npts s = none ∧ ∃ j < d.npts, ¬ d.NodeOk j) ∨
    ∃ s', writePage d.label d.sizes d.width d.npts s = some s' ∧ WriteInv d s' ∧ s.cur < s'.cur := by
  have hpos := SSDIndexMetadata.nodesPerWrite_pos (m := d.sizes)
  have hcur := hs.cur_eq
  set k := min d.sizes.nodesPerWrite (d.npts - s.cur) with hk
  -- all of them are in the next page
  have hdiv : ∀ j, s.cur ≤ j → j < s.cur + k → j / d.sizes.nodesPerWrite = s.pages.length := by
    intro j h1 h2
    refine Nat.div_eq_of_lt_le (by omega) ?_
    rw [succ_mul]
    omega
  have hpage : ∀ j, s.cur ≤ j → j < s.cur + k → d.sizes.sectorNo j = d.sizes.sectorNo s.cur :=
    fun j h1 h2 => SSDIndexMetadata.sectorNo_eq_of_div
      ((hdiv j h1 h2).trans (hdiv s.cur le_rfl (by omega)).symm)
  have hzeros : (replicate d.sizes.bytesPerWrite (0 : UInt8)).length = d.sizes.sizePerIo := by
    rw [length_replicate, SSDIndexMetadata.bytesPerWrite_eq]
  rcases putNodes_spec le_rfl hpage (by omega) hs.at_cur hzeros
    (fun j h1 h2 => absurd h2 (by omega)) with ⟨hnone, hbad⟩ | ⟨b, r, hput, hlen, hat, hheld, hoks⟩
  · exact .inl ⟨by rw [writePage, hnone, map_none], hbad⟩
  · refine .inr ⟨_, by rw [writePage, hput, map_some], ?_, by dsimp only; omega⟩
    constructor
    case cur_eq =>
      show s.cur + k = min ((s.pages ++ [b]).length * d.sizes.nodesPerWrite) d.npts
      rw [length_append, length_singleton, succ_mul]
      omega
    case at_cur => exact hat
    case length_page =>
      intro p hp
      rcases mem_append.1 hp with hp | hp
      · exact hs.length_page p hp
      · rw [mem_singleton.1 hp]
        exact hlen
    case holds =>
      intro j hj
      rcases lt_or_ge j s.cur with hold | hnew
      · obtain ⟨p, hp, hholds⟩ := hs.holds j hold
        exact ⟨p, by rw [getElem?_append_left (List.getElem?_eq_some_iff.1 hp).1, hp], hholds⟩
      · refine ⟨b, ?_, hheld j hnew hj⟩
        show (s.pages ++ [b])[j / d.sizes.nodesPerWrite]? = some b
        rw [hdiv j hnew hj, getElem?_concat_length]
    case ok =>
      intro j hj
      rcases lt_or_ge j s.cur with hold | hnew
      · exact hs.ok j hold
      · exact hoks j hnew hj

theorem writePages_spec (hat : d.At 0 rd) :
    ((writePages d.label d.sizes d.width d.npts rd).isSome ↔ ∀ i < d.npts, d.NodeOk i) ∧
    ∀ s, writePages d.label d.sizes d.width d.npts rd = some s → WriteInv d s ∧ s.cur = d.npts := by
  have hstart : WriteInv d ⟨0, rd, []⟩ := by
    refine ⟨by simp, hat, by simp, fun j hj => absurd hj (not_lt_zero j), ?_⟩
    exact fun j hj => absurd hj (not_lt_zero j)
  have hend : ∀ s, writePages d.label d.sizes d.width d.npts rd = some s →
      WriteInv d s ∧ s.cur = d.npts := by
    intro s hs
    obtain ⟨hinv, hcond⟩ := whileM_keeps (fun s hs hc s' hstep => by
      rcases writePage_spec hs (of_decide_eq_true hc) with ⟨hnone, -⟩ | ⟨s'', hsome, hinv, -⟩
      · rw [hnone] at hstep
        cases hstep
      · rw [hsome] at hstep
        cases hstep
        exact hinv) hstart hs
    have hle := of_decide_eq_false hcond
    have hcur := hinv.cur_eq
    exact ⟨hinv, by omega⟩
  refine ⟨⟨fun hsome i hi => ?_, fun hall => ?_⟩, hend⟩
  · obtain ⟨s, hs⟩ := isSome_iff_exists.1 hsome
    obtain ⟨hinv, hcur⟩ := hend s hs
    exact hinv.ok i (hi.trans_eq hcur.symm)
  · obtain ⟨s, hs, -⟩ := exists_whileM (fun s => decide (s.cur < d.npts))
      (writePage d.label d.sizes d.width d.npts) (WriteInv d) (fun s => d.npts - s.cur)
      (fun s hs hc => by
        rcases writePage_spec hs (of_decide_eq_true hc) with ⟨-, j, hj, hbad⟩ | ⟨s', hsome, hinv, hlt⟩
        · exact absurd (hall j hj) hbad
        · have hcond := of_decide_eq_true hc
          exact ⟨s', hsome, hinv, by omega⟩)
      hstart (sub_le _ _)
    rw [writePages, hs]
    rfl

/-! ### Reading the file -/

section pages

variable {pages : Pages}

theorem HoldsNode.coords_read (h : HoldsNode label m (pages (m.sectorNo loc)) loc coords nbrs) :
    m.coords pages loc = coords :=
  h.coords_eq

theorem HoldsNode.nbrs_read (h : HoldsNode label m (pages (m.sectorNo loc)) loc coords nbrs)
    (hlen : nbrs.length < 2 ^ 32) (hlt : ∀ n ∈ nbrs, n < 2 ^ 32) : m.nbrs pages loc = nbrs := by
  have hn : m.nnbrs pages loc = nbrs.length := by
    rw [SSDIndexMetadata.nnbrs, h.nnbrs_eq, leNat_leBytes]
    exact mod_eq_of_lt hlen
  rw [SSDIndexMetadata.nbrs, hn]
  exact map_leNat_eq h.nbrs_eq hlt

theorem HoldsNode.labels_read (h : HoldsNode label m (pages (m.sectorNo loc)) loc coords nbrs)
    {l : Label} (hl : l ∈ label) (hpos : 0 < l.size) :
    ∃ bs, l.write loc = some bs ∧ (m.labels pages loc).take bs.length = bs := by
  obtain ⟨bs, hbs, hlen, heq⟩ := h.labels_eq l hl hpos
  refine ⟨bs, hbs, ?_⟩
  rw [SSDIndexMetadata.labels, slice, take_take, min_eq_left hlen]
  exact heq

end pages

theorem length_saved (md : DiskMetadata) : md.saved.length = 64 := by
  simp [DiskMetadata.saved, DiskMetadata.fields]

theorem WriteInv.page_eq (hs : WriteInv d s) {file p : List UInt8}
    (hfile : write (replicate sectorLen 0 ++ s.pages.flatten) 0 d.metadata.saved = some file)
    (hp : s.pages[i / d.sizes.nodesPerWrite]? = some p) :
    d.sizes.sectorNo i * sectorLen + d.sizes.sizePerIo ≤ file.length ∧
      filePages d.sizes file (d.sizes.sectorNo i) = p := by
  obtain ⟨hlt, rfl⟩ := List.getElem?_eq_some_iff.1 hp
  have hzeros : (replicate sectorLen (0 : UInt8)).length = sectorLen := length_replicate
  have hsaved := length_saved d.metadata
  constructor
  · have hle := mul_le_mul_right d.sizes.sizePerIo (succ_le_of_lt hlt)
    rw [succ_mul] at hle
    rw [length_write hfile, length_append, length_flatten_of_length hs.length_page,
      SSDIndexMetadata.sectorNo_mul]
    omega
  · have hafter : 0 + d.metadata.saved.length ≤ sectorLen := by
      rw [hsaved]
      decide
    rw [filePages, SSDIndexMetadata.sectorNo_mul, slice_write_after hfile (by omega),
      slice_append_right (by omega), hzeros, Nat.add_sub_cancel_left]
    exact slice_flatten hs.length_page hlt

theorem DataSet.fields_lt (d : DataSet) : ∀ n ∈ d.metadata.fields, n < 2 ^ 64 := by
  have hnpts := d.npts_lt
  have hndims := d.ndims_lt
  have hwidth := d.width_lt
  have hmedoid := d.medoid_lt
  have hlabel := d.labelSize_lt
  have hcoords : d.ndims * d.sizeofT ≤ 2 ^ 32 * 8 := Nat.mul_le_mul hndims.le d.sizeofT_le
  have hnode : (d.width + 1) * 4 + d.ndims * d.sizeofT + labelSize d.label < 2 ^ 64 := by omega
  have hper : sectorLen / ((d.width + 1) * 4 + d.ndims * d.sizeofT + labelSize d.label) < 2 ^ 64 :=
    (div_le_self _ _).trans_lt (by decide)
  simp only [DiskMetadata.fields, forall_mem_cons]
  refine ⟨?_, ?_, ?_, hnode, hper, ?_, ?_, by simp⟩
  · exact hnpts.trans (by decide)
  · exact hndims.trans (by decide)
  · exact hmedoid.trans (by decide)
  · exact hnpts.trans (by decide)
  · exact hlabel.trans (by decide)

theorem WriteInv.readBack (hs : WriteInv d s) (hcur : s.cur = d.npts) {file : List UInt8}
    (hfile : write (replicate sectorLen 0 ++ s.pages.flatten) 0 d.metadata.saved = some file) :
    ReadBack d file d.metadata := by
  -- what the page of a node has
  have hnode : ∀ i < d.npts, ∃ coords nbrs, d.vectors[i]? = some coords ∧ d.graph[i]? = some nbrs ∧
      d.sizes.sectorNo i * sectorLen + d.sizes.sizePerIo ≤ file.length ∧
      HoldsNode d.label d.sizes (filePages d.sizes file (d.sizes.sectorNo i)) i coords
        (nbrs.take d.width) := by
    intro i hi
    obtain ⟨p, hp, coords, nbrs, hc, hn, hholds⟩ := hs.holds i (hi.trans_eq hcur.symm)
    obtain ⟨hlen, rfl⟩ := hs.page_eq hfile hp
    exact ⟨coords, nbrs, hc, hn, hlen, hholds⟩
  have hnbrs : ∀ i nbrs, d.graph[i]? = some nbrs →
      d.sizes.nbrs (filePages d.sizes file) i = nbrs.take d.width := by
    intro i nbrs hi
    have hlt : i < d.npts := (List.getElem?_eq_some_iff.1 hi).1.trans_eq d.length_graph
    obtain ⟨coords, nbrs', -, hn, -, hholds⟩ := hnode i hlt
    obtain rfl := Option.some.inj (hi.symm.trans hn)
    have hmem := mem_of_getElem? hi
    refine hholds.nbrs_read ?_ fun n hn => d.nbr_lt nbrs hmem n (mem_of_mem_take hn)
    exact (length_take_le _ _).trans_lt d.width_lt
  constructor
  case npoints => rfl
  case entryPoint => rfl
  case range => exact d.range_sizes
  case page_in_file =>
    intro i hi
    obtain ⟨-, -, -, -, hlen, -⟩ := hnode i hi
    exact hlen
  case coords =>
    intro i hi
    obtain ⟨coords, nbrs, hc, -, -, hholds⟩ := hnode i hi
    rw [hc]
    exact congrArg some hholds.coords_read.symm
  case nbrs => exact hnbrs
  case nbrs_of_degree =>
    intro hdeg i hi
    obtain ⟨coords, nbrs, -, hn, -⟩ := hnode i hi
    have htake := hnbrs i nbrs hn
    rw [take_of_length_le (hdeg nbrs (mem_of_getElem? hn))] at htake
    rw [hn]
    exact congrArg some htake.symm
  case labels =>
    intro l hl hpos i hi
    obtain ⟨coords, nbrs, -, -, -, hholds⟩ := hnode i hi
    exact hholds.labels_read hl hpos
  case loc_of_sector => exact SSDIndexMetadata.sectorToLoc_sectorNo
  case disjoint => exact fun loc loc' => SSDIndexMetadata.recordOff_disjoint

/-! ### The whole of `create_disk_layout` -/

theorem copyTags_isSome (d : DataSet) : (copyTags d.args d.npts d.frozenNum).isSome ↔
    (0 < d.frozenNum ∨ d.tagFile.isSome = true →
      ∃ t, d.tagFile = some (some t) ∧ t.nr = d.npts ∧ t.nc = 1) := by
  change (if 0 < d.frozenNum ∨ d.tagFile.isSome = true then _ else _ : Option _).isSome ↔ _
  by_cases hneeded : 0 < d.frozenNum ∨ d.tagFile.isSome = true
  · rw [if_pos hneeded, imp_iff_right hneeded]
    change (match d.tagFile with | some (some t) => _ | _ => none : Option (Option TagFile)).isSome ↔ _
    match d.tagFile with
    | none => simp
    | some none => simp
    | some (some t) =>
      by_cases hdims : t.nr ≠ d.npts ∨ t.nc ≠ 1
      · simp only [if_pos hdims]
        simp
        omega
      · simp only [if_neg hdims]
        simp
        omega
  · rw [if_neg hneeded]
    simp [hneeded]

theorem createDiskLayout_eq (d : DataSet) : ∃ rd, d.At 0 rd ∧ createDiskLayout d.args =
    (writePages d.label d.sizes d.width d.npts rd).bind fun s =>
      (copyTags d.args d.npts d.frozenNum).bind fun tags =>
        (write (replicate sectorLen 0 ++ s.pages.flatten) 0 d.metadata.saved).bind fun file =>
          some { file, tags } := by
  have hbase : (InStream.mk d.args.baseFile 0).Ahead (leBytes 4 d.npts ++ (leBytes 4 d.ndims ++
      (d.vectors.flatten ++ d.baseRest))) := rfl
  have hvamana : (InStream.mk d.args.memIndexFile 0).Ahead (leBytes 8 d.indexFileSize ++
      (leBytes 4 d.width ++ (leBytes 4 d.medoid ++ (leBytes 8 d.frozenNum ++
        (leList 4 (encode d.graph) ++ d.graphRest))))) := rfl
  obtain ⟨b₁, hb₁, hbase₁⟩ := hbase.readNat d.npts_lt
  obtain ⟨b₂, hb₂, hbase₂⟩ := hbase₁.readNat d.ndims_lt
  obtain ⟨v₁, hv₁, hvamana₁⟩ := hvamana.readNat d.indexFileSize_lt
  obtain ⟨v₂, hv₂, hvamana₂⟩ := hvamana₁.readNat d.width_lt
  obtain ⟨v₃, hv₃, hvamana₃⟩ := hvamana₂.readNat d.medoid_lt
  obtain ⟨v₄, hv₄, hvamana₄⟩ := hvamana₃.readNat d.frozenNum_lt
  refine ⟨⟨b₂, v₄⟩, ⟨hbase₂, hvamana₄⟩, ?_⟩
  simp only [createDiskLayout, hb₁, hb₂, hv₁, hv₂, hv₃, hv₄, bind_eq_bind, bind_some]
  rfl

/-- The file that `create_disk_layout` writes is an index of the vectors and the graph; it is
written when each node has neighbours and the labels and the tags are there. -/
theorem createDiskLayout_readBack (d : DataSet) :
    ((createDiskLayout d.args).isSome ↔ d.Accepted) ∧
    ∀ out, createDiskLayout d.args = some out → ∀ sharded, ∃ md,
      DiskMetadata.loadFromDiskIndex d.sizeofT sharded out.file = some md ∧
        ReadBack d out.file md := by
  obtain ⟨rd, hat, heq⟩ := createDiskLayout_eq d
  obtain ⟨hpages, hinv⟩ := writePages_spec hat
  have htags := copyTags_isSome d
  have hsaved := length_saved d.metadata
  have hput : ∀ pages : List (List UInt8), ∃ file,
      write (replicate sectorLen 0 ++ pages.flatten) 0 d.metadata.saved = some file := by
    intro pages
    refine write_isSome ?_
    rw [length_append, length_replicate, hsaved, sectorLen]
    omega
  constructor
  · rw [heq]
    constructor
    · intro hsome
      obtain ⟨out, hout⟩ := isSome_iff_exists.1 hsome
      obtain ⟨s, hs, hout⟩ := bind_eq_some_iff.1 hout
      obtain ⟨tags, ht, -⟩ := bind_eq_some_iff.1 hout
      exact ⟨hpages.1 (by rw [hs]; rfl), htags.1 (by rw [ht]; rfl)⟩
    · intro hok
      obtain ⟨s, hs⟩ := isSome_iff_exists.1 (hpages.2 hok.nodes)
      obtain ⟨tags, ht⟩ := isSome_iff_exists.1 (htags.2 hok.tags)
      obtain ⟨file, hfile⟩ := hput s.pages
      rw [hs, bind_some, ht, bind_some, hfile]
      rfl
  · intro out hout sharded
    rw [heq] at hout
    obtain ⟨s, hs, hout⟩ := bind_eq_some_iff.1 hout
    obtain ⟨tags, -, hout⟩ := bind_eq_some_iff.1 hout
    obtain ⟨file, hfile, hout⟩ := bind_eq_some_iff.1 hout
    obtain rfl := Option.some.inj hout
    obtain ⟨hs, hcur⟩ := hinv s hs
    refine ⟨d.metadata, ?_, hs.readBack hcur hfile⟩
    obtain ⟨-, hbytes⟩ := write_eq_some hfile
    dsimp only
    rw [hbytes, take_zero, nil_append]
    exact DiskMetadata.load_saved d.fields_lt rfl sharded _

end DiskLayout

end DiskANNEval.PipeANN
