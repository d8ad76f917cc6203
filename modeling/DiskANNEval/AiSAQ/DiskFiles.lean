import DiskANNEval.AiSAQ.DiskRecords

/-!
# DiskFiles — the sectors of the file, and its header

A `DataSet` is a graph with the vectors and the PQ codes of its nodes, and its files are what
`create_disk_layout` reads.  The readers go through the files in order, or with rearranged vectors to
the place of each node; in both cases the record number `i` is the record of one node.
-/

namespace DiskANNEval.AiSAQ.DiskLayout

open Lib AiSAQ.MergeShards Option

/-! ### The input -/

/-- A graph, its vectors and their PQ codes. -/
structure DataSet where
  nhood : List (List ℕ)
  coords : List (List UInt8)
  codes : List (List UInt8)
  ndims : ℕ
  sizeofT : ℕ
  width : ℕ
  medoid : ℕ
  frozen : ℕ
  pqNbytes : ℕ
  reorder : Option ReorderFile
  npts_lt : nhood.length < 2 ^ 32
  ndims_lt : ndims < 2 ^ 32
  sizeofT_le : sizeofT ≤ 4
  width_lt : width < 2 ^ 32
  degree_le : ∀ l ∈ nhood, l.length ≤ width
  nbr_lt : ∀ l ∈ nhood, ∀ n ∈ l, n < nhood.length
  coords_length : coords.length = nhood.length
  coord_length : ∀ c ∈ coords, c.length = ndims * sizeofT
  codes_length : codes.length = nhood.length
  code_length : ∀ c ∈ codes, c.length = pqNbytes

/-- The number of points. -/
def DataSet.npts (d : DataSet) : ℕ := d.nhood.length

/-- The files. -/
def DataSet.files (d : DataSet) : Files where
  npts := d.npts
  ndims := d.ndims
  sizeofT := d.sizeofT
  base := d.coords.flatten
  vamana :=
    { expectedFileSize := vamanaMetadataSize + 4 * (encode d.nhood).length
      width := d.width
      medoid := d.medoid
      frozen := d.frozen
      words := encode d.nhood }
  pqNpts := d.npts
  pqNbytes := d.pqNbytes
  pqCompressed := d.codes.flatten
  reorder := d.reorder

/-- What the loader has from the other files belongs to the data set. -/
structure LoadEnv.Matches (env : LoadEnv) (d : DataSet) : Prop where
  numPoints : env.numPoints = d.npts
  nChunks : env.nChunks = d.pqNbytes
  diskBytesPerPoint : env.diskBytesPerPoint = d.ndims * d.sizeofT
  useDiskIndexPq : d.reorder.isSome → env.useDiskIndexPq = true

/-- The maps of the writer are made from the files. -/
structure Writer.Prepared (w : Writer) (map : List ℕ) : Prop where
  rearranged : w.layout.rearrange = true → w.map = map ∧ map.length = w.files.npts ∧
    nodePositions w.opts w.files.vamana.width w.files.npts 0 w.files.vamana.words = some w.pos ∧
    createReversedVectorsMap map = some w.reversed ∧ rearrangedPq w.files w.reversed = some w.pq
  plain : w.layout.rearrange = false → w.pq = w.files.pqCompressed

theorem createDiskLayout_eq_some {f : Files} {o : Options} {map : List ℕ} {file : File} {l : Layout}
    (h : createDiskLayout f o map = some file)
    (hl : decideLayout o f.plainNodeLen f.pqNbytes f.vamana.width = some l) :
    ∃ (w : Writer) (medoid : ℕ), w.files = f ∧ w.opts = o ∧ w.layout = l ∧ w.Prepared map ∧
      w.file medoid = some file := by
  rw [createDiskLayout, hl] at h
  split at h
  · rw [bind_some] at h
    split at h
    · rename_i hr
      split at h
      · cases h
      · rename_i hlen
        obtain ⟨pos, hpos, h⟩ := bind_eq_some_iff.mp h
        obtain ⟨reversed, hrev, h⟩ := bind_eq_some_iff.mp h
        obtain ⟨pq, hpq, h⟩ := bind_eq_some_iff.mp h
        obtain ⟨medoid, -, h⟩ := bind_eq_some_iff.mp h
        refine ⟨_, medoid, rfl, rfl, rfl, ⟨?_, ?_⟩, h⟩
        · intro _
          exact ⟨rfl, not_not.mp (not_or.mp hlen).2, hpos, hrev, hpq⟩
        · intro hr'
          rw [hr] at hr'
          cases hr'
    · rename_i hr
      refine ⟨_, _, rfl, rfl, rfl, ⟨?_, ?_⟩, h⟩
      · intro hr'
        exact absurd hr' hr
      · intro _
        rfl
  · cases h

/-! ### The length of the file -/

section length

variable {w : Writer}

theorem Writer.length_sectorNode {cur : ℕ} {rd rd' : Readers} {r : List UInt8}
    (h : w.sectorNode cur rd = some (r, rd')) : r.length = w.layout.maxNodeLen := by
  obtain ⟨⟨rid, coords, nodeBuf, rd₁⟩, hread, h⟩ := bind_eq_some_iff.mp h
  obtain ⟨r', hr', h⟩ := map_eq_some_iff.mp h
  cases h
  rw [Writer.length_putRecord hr', Writer.length_readNode hread]

theorem Writer.length_multisectorNode {cur : ℕ} {rd rd' : Readers} {r : List UInt8}
    (h : w.multisectorNode cur rd = some (r, rd')) :
    r.length = divRoundUp w.layout.maxNodeLen sectorLen * sectorLen := by
  obtain ⟨⟨rid, coords, nodeBuf, rd₁⟩, hread, h⟩ := bind_eq_some_iff.mp h
  obtain ⟨r', hr', h⟩ := map_eq_some_iff.mp h
  cases h
  rw [Writer.length_putRecord hr', List.length_replicate]

theorem Writer.length_nodeSectors {nodes : List UInt8} (h : w.nodeSectors = some nodes) :
    nodes.length = w.nSectors * sectorLen := by
  rw [Writer.nodeSectors] at h
  split at h
  · rename_i hper
    refine (fillSectors_spec (I := fun _ _ => True) (P := fun _ _ => True) ?_ hper ?_
      (Nat.zero_le _) trivial h).1
    · intro cur s r s' _ _ hn
      exact ⟨Writer.length_sectorNode hn, trivial, trivial⟩
    · exact Nat.div_mul_le_self _ _
  · rename_i hper
    rw [(eachNode_spec (I := fun _ _ => True) (P := fun _ _ => True) ?_
      (Nat.zero_add _).le trivial h).1, Writer.nSectors, if_neg hper, Nat.mul_assoc]
    intro cur s r s' _ _ hn
    exact ⟨Writer.length_multisectorNode hn, trivial, trivial⟩

/-- The number of sectors of the reorder data. -/
def Writer.nReorderSectors (w : Writer) : ℕ :=
  (w.files.reorder.map fun r => r.nReorderSectors w.files.npts).getD 0

theorem Writer.length_reorderNode {re : ReorderFile} {cur : ℕ} {rest rest' r : List UInt8}
    (h : w.reorderNode re cur rest = some (r, rest')) : r.length = re.ndims * 4 := by
  rw [Writer.reorderNode] at h
  split at h
  · obtain ⟨rid, -, h⟩ := bind_eq_some_iff.mp h
    obtain ⟨v, hv, h⟩ := map_eq_some_iff.mp h
    cases h
    obtain ⟨hfit, rfl⟩ := readSlice_eq_some.mp hv
    exact length_slice hfit
  · obtain ⟨v, hv, h⟩ := map_eq_some_iff.mp h
    cases h
    obtain ⟨hfit, rfl⟩ := readSlice_eq_some.mp hv
    exact length_slice hfit

theorem Writer.length_reorderSectors {reorder : List UInt8} (h : w.reorderSectors = some reorder) :
    reorder.length = w.nReorderSectors * sectorLen := by
  rw [Writer.reorderSectors] at h
  rw [Writer.nReorderSectors]
  cases hr : w.files.reorder with
  | none =>
    rw [hr] at h
    cases h
    simp
  | some r =>
    rw [hr] at h
    dsimp only at h
    split at h
    · cases h
    · rename_i hper
      refine (fillSectors_spec (I := fun _ _ => True) (P := fun _ _ => True) ?_
        (Nat.pos_of_ne_zero hper) ?_ (Nat.zero_le _) trivial h).1
      · intro cur s v s' _ _ hn
        exact ⟨Writer.length_reorderNode hn, trivial, trivial⟩
      · exact Nat.div_mul_le_self _ _

end length

/-! ### The header -/

section header

variable {w : Writer} {medoid : ℕ} {file : File}

theorem length_header (fields : List ℕ) : (header fields).length = 8 + fields.length * 8 := by
  simp only [header, List.length_append, length_leBytes, length_leList]

theorem Writer.length_outputFileMeta_le (w : Writer) (medoid : ℕ) :
    (w.outputFileMeta medoid).length ≤ 14 := by
  rw [Writer.outputFileMeta]
  cases w.files.reorder with
  | none => simp
  | some r => simp

theorem Writer.file_eq_some (h : w.file medoid = some file) :
    ∃ nodes reorder, w.nodeSectors = some nodes ∧ w.reorderSectors = some reorder ∧
      write (List.replicate sectorLen 0 ++ nodes ++ reorder) 0 (header (w.outputFileMeta medoid)) =
        some file.bytes := by
  obtain ⟨nodes, hnodes, h⟩ := bind_eq_some_iff.mp h
  obtain ⟨reorder, hreorder, h⟩ := bind_eq_some_iff.mp h
  obtain ⟨bytes, hbytes, h⟩ := bind_eq_some_iff.mp h
  split at h
  · cases h
    exact ⟨nodes, reorder, hnodes, hreorder, hbytes⟩
  · cases h

theorem Writer.length_file (h : w.file medoid = some file) :
    file.bytes.length = (w.nSectors + w.nReorderSectors + 1) * sectorLen := by
  obtain ⟨nodes, reorder, hnodes, hreorder, hbytes⟩ := Writer.file_eq_some h
  rw [length_write hbytes, List.length_append, List.length_append, List.length_replicate,
    Writer.length_nodeSectors hnodes, Writer.length_reorderSectors hreorder, Nat.succ_mul,
    Nat.add_mul]
  omega

theorem Writer.readU64_file (h : w.file medoid = some file) {k n : ℕ}
    (hk : (w.outputFileMeta medoid)[k]? = some n) : readU64 file k = .ok (n % 2 ^ 64) := by
  obtain ⟨nodes, reorder, -, -, hbytes⟩ := Writer.file_eq_some h
  obtain ⟨hlt, rfl⟩ := List.getElem?_eq_some_iff.mp hk
  have hsame := slice_write_same hbytes
  have hfit := (write_eq_some hbytes).1
  rw [← length_write hbytes] at hfit
  rw [length_header] at hsame hfit
  have hslot : slice file.bytes (8 + k * 8) 8 = leBytes 8 (w.outputFileMeta medoid)[k] := by
    have hin := @slice_slice file.bytes 0 (8 + (w.outputFileMeta medoid).length * 8) (8 + k * 8) 8
      (by omega)
    rw [hsame, Nat.zero_add] at hin
    rw [← hin, header, slice_append_right (by simp), ← slice_leList hlt]
    simp
  rw [readU64, readLe_of_slice (by omega) hslot]

theorem ok_bind {ε α β : Type} (a : α) (f : α → Except ε β) :
    ((.ok a : Except ε α) >>= f) = f a := rfl

theorem require_of {p : Prop} [Decidable p] (hp : p) (e : LoadError) : require p e = .ok () :=
  if_pos hp

/-- The loader, when what it reads is there and none of its checks before the degree fails. -/
theorem load_of_reads {env : LoadEnv} {ndims medoidId maxNodeLen perSector frozen frozenId hasReorder
    next md re : ℕ} {reorder : Option (ℕ × ℕ × ℕ)} (hchunks : env.nChunks ≤ maxPqChunks)
    (h0 : readU64 file 0 = .ok env.numPoints) (h1 : readU64 file 1 = .ok ndims)
    (h2 : readU64 file 2 = .ok medoidId) (h3 : readU64 file 3 = .ok maxNodeLen)
    (h4 : readU64 file 4 = .ok perSector) (h5 : readU64 file 5 = .ok frozen)
    (h6 : readU64 file 6 = .ok frozenId) (h7 : readU64 file 7 = .ok hasReorder)
    (hpq : hasReorder = 0 ∨ env.useDiskIndexPq = true)
    (hreorder : readReorder file hasReorder = .ok reorder)
    (hnext : (if hasReorder = 0 then 8 else 11) = next)
    (hsize : readU64 file next = .ok file.bytes.length) (hmd : readU64 file (next + 1) = .ok md)
    (hre : readU64 file (next + 2) = .ok re)
    (hcache : decide (re ≠ 0) = true ∨ env.pqReadPageCache = false) :
    load env file = (deriveDegree env maxNodeLen md (decide (re ≠ 0))).map fun degree =>
      { nChunks := env.nChunks
        diskBytesPerPoint := env.diskBytesPerPoint
        medoid := medoidId
        maxNodeLen
        nnodesPerSector := perSector
        numFrozenPoints := frozen
        frozenLocation := if frozen = 1 then frozenId else 0
        reorder
        maxDegree := degree.1
        rearrangedVectors := decide (re ≠ 0)
        inlinePqVectors := degree.2 } := by
  rw [load]
  simp only [h0, h1, h2, h3, h4, h5, h6, h7, ok_bind, require_of hchunks,
    require_of hpq, hreorder, hnext, hsize, hmd, hre, require_of hcache]
  cases deriveDegree env maxNodeLen md (decide (re ≠ 0)) with
  | error e => rfl
  | ok p => rfl

/-- What the index has of the layout. -/
structure FlashIndex.HasLayout (ix : FlashIndex) (env : LoadEnv) (l : Layout) (p : ℕ × ℕ) : Prop where
  nChunks : ix.nChunks = env.nChunks
  diskBytesPerPoint : ix.diskBytesPerPoint = env.diskBytesPerPoint
  maxNodeLen : ix.maxNodeLen = l.maxNodeLen
  nnodesPerSector : ix.nnodesPerSector = l.nnodesPerSector
  rearrangedVectors : ix.rearrangedVectors = l.rearrange
  maxDegree : ix.maxDegree = p.1
  inlinePqVectors : ix.inlinePqVectors = p.2

theorem Writer.load_file {env : LoadEnv} (h : w.file medoid = some file)
    (hpts : env.numPoints = w.files.npts) (hnpts : w.files.npts < 2 ^ 32)
    (hchunks : env.nChunks ≤ maxPqChunks)
    (hpq : w.files.reorder.isSome → env.useDiskIndexPq = true)
    (hcache : w.layout.rearrange = false → env.pqReadPageCache = false)
    (hlen : w.layout.maxNodeLen < 2 ^ 64) (hwidth : w.files.vamana.width < 2 ^ 32) :
    ∃ mk : ℕ × ℕ → FlashIndex,
      load env file = (deriveDegree env w.layout.maxNodeLen
        (if 0 < w.layout.inlinePqVectors then w.files.vamana.width else 0)
        w.layout.rearrange).map mk ∧ ∀ p, (mk p).HasLayout env w.layout p := by
  have hnum : ∀ k n, (w.outputFileMeta medoid)[k]? = some n → readU64 file k = .ok (n % 2 ^ 64) :=
    fun k n => Writer.readU64_file h
  have hsize := Writer.length_file h
  have hfits := file.fits
  have hper : w.layout.nnodesPerSector < 2 ^ 64 :=
    lt_of_le_of_lt (Nat.div_le_self _ _) (by decide)
  have hmd : (if 0 < w.layout.inlinePqVectors then w.files.vamana.width else 0) < 2 ^ 64 := by
    split <;> omega
  have hre : (if w.layout.rearrange = true then 1 else 0) < 2 ^ 64 := by
    split <;> omega
  have hflag : decide ((if w.layout.rearrange = true then 1 else 0) ≠ 0) = w.layout.rearrange := by
    cases w.layout.rearrange <;> rfl
  have hcache' : decide ((if w.layout.rearrange = true then 1 else 0) ≠ 0) = true ∨
      env.pqReadPageCache = false := by
    cases hr : w.layout.rearrange with
    | true => exact Or.inl rfl
    | false => exact Or.inr (hcache hr)
  rw [Writer.outputFileMeta] at hnum
  have h0 : readU64 file 0 = .ok env.numPoints := by
    rw [hnum 0 _ rfl, hpts, Nat.mod_eq_of_lt (by omega)]
  have h3 : readU64 file 3 = .ok w.layout.maxNodeLen := by
    rw [hnum 3 _ rfl, Nat.mod_eq_of_lt hlen]
  have h4 : readU64 file 4 = .ok w.layout.nnodesPerSector := by
    rw [hnum 4 _ rfl, Nat.mod_eq_of_lt hper]
  have hsum : w.nReorderSectors =
      (w.files.reorder.map fun r => r.nReorderSectors w.files.npts).getD 0 := rfl
  cases hr : w.files.reorder with
  | none =>
    rw [hr] at hnum hsum
    have h8 : readU64 file 8 = .ok file.bytes.length := by
      rw [hnum 8 _ rfl, ← hsum, ← hsize, Nat.mod_eq_of_lt (by omega)]
    have h9 := hnum 9 _ rfl
    have h10 := hnum 10 _ rfl
    rw [Nat.mod_eq_of_lt hmd] at h9
    rw [Nat.mod_eq_of_lt hre] at h10
    have hload := load_of_reads hchunks h0 (hnum 1 _ rfl) (hnum 2 _ rfl) h3 h4 (hnum 5 _ rfl)
      (hnum 6 _ rfl) (hnum 7 _ rfl) (Or.inl rfl) rfl rfl h8 h9 h10 hcache'
    rw [hflag] at hload
    exact ⟨_, hload, fun p => ⟨rfl, rfl, rfl, rfl, rfl, rfl, rfl⟩⟩
  | some r =>
    rw [hr] at hnum hsum hpq
    have h11 : readU64 file 11 = .ok file.bytes.length := by
      rw [hnum 11 _ rfl, ← hsum, ← hsize, Nat.mod_eq_of_lt (by omega)]
    have h12 := hnum 12 _ rfl
    have h13 := hnum 13 _ rfl
    rw [Nat.mod_eq_of_lt hmd] at h12
    rw [Nat.mod_eq_of_lt hre] at h13
    have hreorder : readReorder file (1 % 2 ^ 64) = .ok (some ((w.nSectors + 1) % 2 ^ 64,
        r.ndims % 2 ^ 64, r.nDataNodesPerSector % 2 ^ 64)) := by
      rw [readReorder, hnum 8 _ rfl, hnum 9 _ rfl, hnum 10 _ rfl]
      rfl
    have hload := load_of_reads hchunks h0 (hnum 1 _ rfl) (hnum 2 _ rfl) h3 h4 (hnum 5 _ rfl)
      (hnum 6 _ rfl) (hnum 7 _ rfl) (Or.inr (hpq rfl)) hreorder rfl h11 h12 h13 hcache'
    rw [hflag] at hload
    exact ⟨_, hload, fun p => ⟨rfl, rfl, rfl, rfl, rfl, rfl, rfl⟩⟩

end header

end DiskANNEval.AiSAQ.DiskLayout
