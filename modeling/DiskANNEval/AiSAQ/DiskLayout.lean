import DiskANNEval.AiSAQ.MergeShards
import DiskANNEval.Lib.Sectors

/-!
# DiskLayout — the index file on disk, written and loaded

`create_disk_layout` puts a record for every node into the sectors of a file: the coordinates, the
number of neighbours and their ids, with rearranged vectors the old id, and the PQ codes of the first
neighbours inline.  The loader has only the header of the file: it works out the degree and the
number of inline codes from the length of a record.

A file is its bytes after what `create_disk_layout` has read of it, so the readers are the bytes that
are left.  `none` stands for an exception, a failed assertion, a division by zero, or an access
outside of a buffer.
-/

namespace DiskANNEval.AiSAQ.DiskLayout

open Lib AiSAQ.MergeShards

def sectorLen : ℕ := 4096

def maxPqChunks : ℕ := 512

def maxGraphDegree : ℕ := 512

def divRoundUp (x y : ℕ) : ℕ := x / y + if x % y ≠ 0 then 1 else 0

def roundUp (x y : ℕ) : ℕ := divRoundUp x y * y

/-- A difference of `uint64_t`. -/
def sub64 (a b : ℕ) : ℕ := (a + 2 ^ 64 - b) % 2 ^ 64

/-! ### What the writer decides -/

/-- `aisaq_calc_max_inline_pq_vectors`; the arguments are of 32 bits. -/
def calcMaxInlinePqVectors (maxNodeLen pqNbytes maxDegree : ℕ) : Option ℕ :=
  if sectorLen ≤ maxNodeLen then
    let diskSpace := roundUp maxNodeLen sectorLen % 2 ^ 32
    if pqNbytes = 0 then none
    else some (min maxDegree ((diskSpace + 2 ^ 32 - maxNodeLen) % 2 ^ 32 / pqNbytes))
  else if maxNodeLen = 0 then none
  else
    let nnodes := sectorLen / maxNodeLen
    if nnodes * pqNbytes % 2 ^ 32 = 0 then none
    else some (min maxDegree ((sectorLen - nnodes * maxNodeLen) / (nnodes * pqNbytes % 2 ^ 32)))

/-- `inline_pq` and `rearrange`; `asserts` is false in a release build. -/
structure Options where
  inlinePq : ℤ
  rearrange : Bool
  asserts : Bool

/-- What the writer has decided. -/
structure Layout where
  maxNodeLen : ℕ
  inlinePqVectors : ℕ
  rearrange : Bool
deriving DecidableEq

/-- The length of the record without inline codes, and the number of inline codes. -/
def calcInline (o : Options) (maxNodeLen pqNbytes width : ℕ) : Option (ℕ × ℕ) :=
  if 0 < o.inlinePq then
    let inlinePqVectors := o.inlinePq.toNat
    if o.asserts = true ∧ width < inlinePqVectors then none
    else if o.rearrange = true ∧ inlinePqVectors < width then
      some (maxNodeLen + 4, inlinePqVectors)
    else some (maxNodeLen, inlinePqVectors)
  else if o.asserts = true ∧ o.inlinePq ≠ -1 then none
  else
    (calcMaxInlinePqVectors (maxNodeLen % 2 ^ 32) pqNbytes width).bind fun nInline =>
      if o.rearrange = true ∧ nInline < width then
        (calcMaxInlinePqVectors ((maxNodeLen + 4) % 2 ^ 32) pqNbytes width).map fun nInline =>
          (maxNodeLen + 4, nInline)
      else some (maxNodeLen, nInline)

/-- The decision of `create_disk_layout`; the share of inline codes that it prints is a division by
the width. -/
def decideLayout (o : Options) (maxNodeLen pqNbytes width : ℕ) : Option Layout :=
  if o.inlinePq = 0 then
    some { maxNodeLen := if o.rearrange = true then maxNodeLen + 4 else maxNodeLen
           inlinePqVectors := 0
           rearrange := o.rearrange }
  else
    (calcInline o maxNodeLen pqNbytes width).bind fun (maxNodeLen, inlinePqVectors) =>
      let maxNodeLen := maxNodeLen + inlinePqVectors * pqNbytes % 2 ^ 32
      if inlinePqVectors = width then some { maxNodeLen, inlinePqVectors, rearrange := false }
      else if width = 0 then none
      else some { maxNodeLen, inlinePqVectors, rearrange := o.rearrange }

def Layout.nnodesPerSector (l : Layout) : ℕ := sectorLen / l.maxNodeLen

/-- The place in the file to which the loops of the writer come at the record number `i`. -/
def Layout.nodeOffset (l : Layout) (i : ℕ) : ℕ :=
  if 0 < l.nnodesPerSector then
    sectorLen + i / l.nnodesPerSector * sectorLen + i % l.nnodesPerSector * l.maxNodeLen
  else sectorLen + i * (divRoundUp l.maxNodeLen sectorLen * sectorLen)

/-! ### The files -/

/-- The file of the vectors for a reordering of the results. -/
structure ReorderFile where
  npts : ℕ
  ndims : ℕ
  data : List UInt8

/-- The files that `create_disk_layout` reads; `sizeofT` is the size of a coordinate. -/
structure Files where
  npts : ℕ
  ndims : ℕ
  sizeofT : ℕ
  base : List UInt8
  vamana : VamanaFile
  pqNpts : ℕ
  pqNbytes : ℕ
  pqCompressed : List UInt8
  reorder : Option ReorderFile

/-- A file on disk; no file is longer than an `off_t`. -/
structure File where
  bytes : List UInt8
  fits : bytes.length < 2 ^ 63

/-- The checks of the sizes and of the numbers of points. -/
def Files.checked (f : Files) : Bool :=
  f.vamana.expectedFileSize = f.vamana.fileSize ∧ f.pqNpts = f.npts ∧
    f.pqCompressed.length = f.pqNbytes * f.pqNpts ∧
    ∀ r ∈ f.reorder, r.npts = f.npts ∧ r.data.length = 4 * r.npts * r.ndims

/-- The length of a vector. -/
def Files.coordLen (f : Files) : ℕ := f.ndims * f.sizeofT

/-- The length of a record with neither inline codes nor an old id. -/
def Files.plainNodeLen (f : Files) : ℕ := (f.vamana.width + 1) * 4 + f.coordLen

/-! ### The rearranged vectors -/

/-- `vamana_reader_node_to_pos_map`: the number of words before each record. -/
def nodePositions (o : Options) (width : ℕ) : ℕ → ℕ → List ℕ → Option (List ℕ)
  | 0, _, _ => some []
  | 1, offset, _ => some [offset]
  | _ + 2, _, [] => none
  | n + 2, offset, nnbrs :: words =>
    if o.asserts = true ∧ (nnbrs = 0 ∨ width < nnbrs) then none
    else (nodePositions o width (n + 1) (offset + (nnbrs + 1)) (words.drop nnbrs)).map (offset :: ·)

/-- `aisaq_create_reversed_vectors_map`; an entry `none` is `AISAQ_INVALID_VID`. -/
def createReversedVectorsMap (map : List ℕ) : Option (List (Option ℕ)) :=
  map.zipIdx.foldlM
    (fun reversed p => reversed[p.1]?.bind fun old =>
      if old = none then some (reversed.set p.1 (some p.2)) else none)
    (List.replicate map.length none)

/-- The codes in the order of the new ids; how far the loop is, is printed every `npts / 100`. -/
def rearrangedPq (f : Files) (reversed : List (Option ℕ)) : Option (List UInt8) :=
  if f.npts / 100 = 0 then none
  else
    ((List.range f.npts).mapM fun i => reversed[i]?.join.bind fun rid =>
      readSlice f.pqCompressed (rid * f.pqNbytes) f.pqNbytes).map List.flatten

/-! ### The loop over the nodes -/

/-- What does not change while the nodes are written. -/
structure Writer where
  files : Files
  opts : Options
  layout : Layout
  map : List ℕ
  reversed : List (Option ℕ)
  pos : List ℕ
  pq : List UInt8

/-- The variables of the loop: what the readers have left. -/
structure Readers where
  vamana : List ℕ
  base : List UInt8

/-- Where the rearranged id and the inline codes begin. -/
def Writer.auxOffset (w : Writer) : ℕ := w.files.coordLen + (w.files.vamana.width + 1) * 4

/-- Where the inline codes begin. -/
def Writer.codesOffset (w : Writer) : ℕ := w.auxOffset + if w.layout.rearrange = true then 4 else 0

/-- `nnbrs`, a reference into `node_buf`. -/
def Writer.nnbrs (w : Writer) (nodeBuf : List UInt8) : Option ℕ := readLe 4 nodeBuf w.files.coordLen

/-- `nhood_buf[j]` -/
def Writer.nhoodBuf (w : Writer) (nodeBuf : List UInt8) (j : ℕ) : Option ℕ :=
  readLe 4 nodeBuf (w.files.coordLen + 4 + j * 4)

/-- The record of the graph is read into `node_buf`: its number of neighbours, the buffer, and the
words behind those that have been read. -/
def Writer.readNhood (w : Writer) (nodeBuf : List UInt8) : List ℕ → Option (ℕ × List UInt8 × List ℕ)
  | [] => none
  | nnbrs :: words =>
    (write nodeBuf w.files.coordLen (leBytes 4 nnbrs)).bind fun nodeBuf =>
      if w.opts.asserts = true ∧ (nnbrs = 0 ∨ w.files.vamana.width < nnbrs) then none
      else
        let n := min nnbrs w.files.vamana.width
        if n ≤ words.length then
          (write nodeBuf (w.files.coordLen + 4) (leList 4 (words.take n))).map fun nodeBuf =>
            (nnbrs, nodeBuf, words.drop n)
        else none

/-- The neighbours under their new ids. -/
def Writer.rename (w : Writer) (nnbrs : ℕ) (nodeBuf : List UInt8) : Option (List UInt8) :=
  (List.range nnbrs).foldlM
    (fun nodeBuf j => (w.nhoodBuf nodeBuf j).bind fun id => w.map[id]?.bind fun id =>
      write nodeBuf (w.files.coordLen + 4 + j * 4) (leBytes 4 id))
    nodeBuf

/-- What is read for the node `cur`: `rid`, the coordinates, and `node_buf`. -/
def Writer.readNode (w : Writer) (cur : ℕ) (rd : Readers) :
    Option (ℕ × List UInt8 × List UInt8 × Readers) :=
  let nodeBuf := List.replicate w.layout.maxNodeLen 0
  let vecLen := w.files.coordLen
  if w.layout.rearrange = true then
    w.reversed[cur]?.join.bind fun rid => w.pos[rid]?.bind fun pos =>
      (w.readNhood nodeBuf (w.files.vamana.words.drop pos)).bind fun (nnbrs, nodeBuf, _) =>
        (w.rename nnbrs nodeBuf).bind fun nodeBuf =>
          (readSlice w.files.base (rid * vecLen) vecLen).map fun coords => (rid, coords, nodeBuf, rd)
  else
    (w.readNhood nodeBuf rd.vamana).bind fun (nnbrs, nodeBuf, words) =>
      (readSlice rd.base 0 vecLen).map fun coords =>
        (cur, coords, nodeBuf,
          { vamana := words.drop (nnbrs - w.files.vamana.width)
            base := rd.base.drop vecLen })

/-- The codes of the first neighbours.  `src` is the buffer in which `nnbrs` and `nhood_buf` are. -/
def Writer.putCodes (w : Writer) (src : List UInt8 → List UInt8) (dst : List UInt8) :
    Option (List UInt8) :=
  (w.nnbrs (src dst)).bind fun nnbrs =>
    (List.range (min w.layout.inlinePqVectors nnbrs)).foldlM
      (fun dst cv => (w.nhoodBuf (src dst) cv).bind fun id =>
        (readSlice w.pq (id * w.files.pqNbytes) w.files.pqNbytes).bind fun code =>
          write dst (w.codesOffset + cv * w.files.pqNbytes) code)
      dst

/-- The fields of the record are written into `dst`. -/
def Writer.putRecord (w : Writer) (src : List UInt8 → List UInt8) (rid : ℕ) (coords dst : List UInt8) :
    Option (List UInt8) :=
  (write dst 0 coords).bind fun dst =>
  (w.nnbrs (src dst)).bind fun nnbrs =>
  (write dst w.files.coordLen (leBytes 4 (min nnbrs w.files.vamana.width))).bind fun dst =>
  (w.nnbrs (src dst)).bind fun nnbrs =>
  (readSlice (src dst) (w.files.coordLen + 4) (min nnbrs w.files.vamana.width * 4)).bind fun nhood =>
  (write dst (w.files.coordLen + 4) nhood).bind fun dst =>
  (if w.layout.rearrange = true then write dst w.auxOffset (leBytes 4 rid) else some dst).bind
    fun dst => if 0 < w.layout.inlinePqVectors then w.putCodes src dst else some dst

/-- With several nodes in a sector the record is made in `node_buf` itself. -/
def Writer.sectorNode (w : Writer) (cur : ℕ) (rd : Readers) : Option (List UInt8 × Readers) :=
  (w.readNode cur rd).bind fun (rid, coords, nodeBuf, rd) =>
    (w.putRecord (fun dst => dst) rid coords nodeBuf).map fun record => (record, rd)

/-- With several sectors to a node it is made in `multisector_buf`. -/
def Writer.multisectorNode (w : Writer) (cur : ℕ) (rd : Readers) : Option (List UInt8 × Readers) :=
  (w.readNode cur rd).bind fun (rid, coords, nodeBuf, rd) =>
    (w.putRecord (fun _ => nodeBuf) rid coords
      (List.replicate (divRoundUp w.layout.maxNodeLen sectorLen * sectorLen) 0)).map
        fun record => (record, rd)

def Writer.nSectors (w : Writer) : ℕ :=
  if 0 < w.layout.nnodesPerSector then
    roundUp w.files.npts w.layout.nnodesPerSector / w.layout.nnodesPerSector
  else w.files.npts * divRoundUp w.layout.maxNodeLen sectorLen

/-- The sectors with the nodes. -/
def Writer.nodeSectors (w : Writer) : Option (List UInt8) :=
  let rd := { vamana := w.files.vamana.words, base := w.files.base }
  if 0 < w.layout.nnodesPerSector then
    fillSectors sectorLen w.layout.maxNodeLen w.layout.nnodesPerSector w.files.npts w.sectorNode
      w.nSectors 0 rd
  else eachNode w.multisectorNode w.files.npts 0 rd

def ReorderFile.nDataNodesPerSector (r : ReorderFile) : ℕ := sectorLen / (r.ndims * 4)

def ReorderFile.nReorderSectors (r : ReorderFile) (npts : ℕ) : ℕ :=
  roundUp npts r.nDataNodesPerSector / r.nDataNodesPerSector

/-- The next vector of the reorder data. -/
def Writer.reorderNode (w : Writer) (r : ReorderFile) (cur : ℕ) (rest : List UInt8) :
    Option (List UInt8 × List UInt8) :=
  if w.layout.rearrange = true then
    w.reversed[cur]?.join.bind fun rid =>
      (readSlice r.data (rid * (r.ndims * 4)) (r.ndims * 4)).map fun vec => (vec, rest)
  else (readSlice rest 0 (r.ndims * 4)).map fun vec => (vec, rest.drop (r.ndims * 4))

/-- The sectors with the reorder data. -/
def Writer.reorderSectors (w : Writer) : Option (List UInt8) :=
  match w.files.reorder with
  | none => some []
  | some r =>
    if r.nDataNodesPerSector = 0 then none
    else fillSectors sectorLen (r.ndims * 4) r.nDataNodesPerSector w.files.npts (w.reorderNode r)
      (r.nReorderSectors w.files.npts) 0 r.data

def Writer.outputFileMeta (w : Writer) (medoid : ℕ) : List ℕ :=
  let nReorderSectors := (w.files.reorder.map fun r => r.nReorderSectors w.files.npts).getD 0
  [w.files.npts, w.files.ndims, medoid, w.layout.maxNodeLen, w.layout.nnodesPerSector,
    w.files.vamana.frozen, if w.files.vamana.frozen = 1 then medoid else 0] ++
  (match w.files.reorder with
    | none => [0]
    | some r => [1, w.nSectors + 1, r.ndims, r.nDataNodesPerSector]) ++
  [(w.nSectors + nReorderSectors + 1) * sectorLen,
    if 0 < w.layout.inlinePqVectors then w.files.vamana.width else 0,
    if w.layout.rearrange = true then 1 else 0]

/-- The header, as `save_bin` writes it over the first sector. -/
def header (fields : List ℕ) : List UInt8 :=
  leBytes 4 fields.length ++ leBytes 4 1 ++ leList 8 fields

/-- The sectors, and the header over the first of them. -/
def Writer.file (w : Writer) (medoid : ℕ) : Option File :=
  w.nodeSectors.bind fun nodes => w.reorderSectors.bind fun reorder =>
    (write (List.replicate sectorLen 0 ++ nodes ++ reorder) 0 (header (w.outputFileMeta medoid))).bind
      fun bytes => if h : bytes.length < 2 ^ 63 then some ⟨bytes, h⟩ else none

/-- `create_disk_layout`.  `map` is what `aisaq_generate_vectors_rearrange_map` has made: it goes
over the graph from the entry points in the order of a hash set. -/
def createDiskLayout (f : Files) (o : Options) (map : List ℕ) : Option File :=
  if f.checked then
    (decideLayout o f.plainNodeLen f.pqNbytes f.vamana.width).bind fun layout =>
      if layout.rearrange = true then
        if f.npts = 0 ∨ map.length ≠ f.npts then none
        else
          (nodePositions o f.vamana.width f.npts 0 f.vamana.words).bind fun pos =>
          (createReversedVectorsMap map).bind fun reversed =>
          (rearrangedPq f reversed).bind fun pq => map[f.vamana.medoid]?.bind fun medoid =>
            Writer.file { files := f, opts := o, layout, map, reversed, pos, pq } medoid
      else
        Writer.file
          { files := f
            opts := o
            layout
            map := []
            reversed := []
            pos := []
            pq := f.pqCompressed }
          f.vamana.medoid
  else none

/-! ### The loader -/

/-- What the loader has from the other files: the numbers of points and of PQ chunks, and the length
of a vector in the index.  `pqReadPageCache`: the search is to have a cache of PQ pages. -/
structure LoadEnv where
  numPoints : ℕ
  nChunks : ℕ
  diskBytesPerPoint : ℕ
  useDiskIndexPq : Bool
  pqReadPageCache : Bool

inductive LoadError
  | pqChunks
  | endOfFile
  | numPoints
  | reorderWithoutDiskPq
  | fileSize
  | pageCacheNotRearranged
  | maxDegree (mdMaxDegree : ℕ)
  | graphDegree
  | divisionByZero
deriving DecidableEq

/-- The fields of `PQFlashIndex` that the layout is in. -/
structure FlashIndex where
  nChunks : ℕ
  diskBytesPerPoint : ℕ
  medoid : ℕ
  maxNodeLen : ℕ
  nnodesPerSector : ℕ
  numFrozenPoints : ℕ
  frozenLocation : ℕ
  reorder : Option (ℕ × ℕ × ℕ)
  maxDegree : ℕ
  rearrangedVectors : Bool
  inlinePqVectors : ℕ
deriving DecidableEq

/-- `READ_U64`: the number `k` of the header. -/
def readU64 (file : File) (k : ℕ) : Except LoadError ℕ :=
  match readLe 8 file.bytes (8 + k * 8) with
  | some n => .ok n
  | none => .error .endOfFile

/-- The degree and the number of inline codes, from the fields of the header. -/
def deriveDegree (env : LoadEnv) (maxNodeLen mdMaxDegree : ℕ) (rearranged : Bool) :
    Except LoadError (ℕ × ℕ) :=
  let ridLen := if rearranged = true then 4 else 0
  let maxMaxDegree := sub64 (sub64 (sub64 maxNodeLen env.diskBytesPerPoint) ridLen / 4) 1
  if mdMaxDegree ≠ 0 ∧ maxMaxDegree < mdMaxDegree then .error (.maxDegree mdMaxDegree)
  else
    let maxDegree := if mdMaxDegree ≠ 0 then mdMaxDegree else maxMaxDegree
    if maxGraphDegree < maxDegree then .error .graphDegree
    else if env.nChunks = 0 then .error .divisionByZero
    else
      .ok (maxDegree,
        sub64 maxNodeLen (env.diskBytesPerPoint + (maxDegree + 1) * 4 + ridLen) / env.nChunks)

/-- Throws unless the condition holds. -/
def require (p : Prop) [Decidable p] (e : LoadError) : Except LoadError Unit :=
  if p then .ok () else .error e

/-- `_reorder_data_start_sector`, `_ndims_reorder_vecs` and `_nvecs_per_sector`. -/
def readReorder (file : File) (reorderDataExists : ℕ) : Except LoadError (Option (ℕ × ℕ × ℕ)) :=
  if reorderDataExists = 0 then .ok none
  else do
    let startSector ← readU64 file 8
    let ndimsReorderVecs ← readU64 file 9
    let nvecsPerSector ← readU64 file 10
    pure (some (startSector, ndimsReorderVecs, nvecsPerSector))

/-- `load_from_separate_paths`: what is read of the index file. -/
def load (env : LoadEnv) (file : File) : Except LoadError FlashIndex := do
  require (env.nChunks ≤ maxPqChunks) .pqChunks
  let diskNnodes ← readU64 file 0
  let _diskNdims ← readU64 file 1
  require (diskNnodes = env.numPoints) .numPoints
  let medoid ← readU64 file 2
  let maxNodeLen ← readU64 file 3
  let nnodesPerSector ← readU64 file 4
  let numFrozenPoints ← readU64 file 5
  let fileFrozenId ← readU64 file 6
  let reorderDataExists ← readU64 file 7
  require (reorderDataExists = 0 ∨ env.useDiskIndexPq = true) .reorderWithoutDiskPq
  let reorder ← readReorder file reorderDataExists
  let next := if reorderDataExists = 0 then 8 else 11
  let mdFileSize ← readU64 file next
  let mdMaxDegree ← readU64 file (next + 1)
  let mdRearrangedIndex ← readU64 file (next + 2)
  require (file.bytes.length = mdFileSize) .fileSize
  let rearrangedVectors := decide (mdRearrangedIndex ≠ 0)
  require (rearrangedVectors = true ∨ env.pqReadPageCache = false) .pageCacheNotRearranged
  let degree ← deriveDegree env maxNodeLen mdMaxDegree rearrangedVectors
  pure
    { nChunks := env.nChunks
      diskBytesPerPoint := env.diskBytesPerPoint
      medoid
      maxNodeLen
      nnodesPerSector
      numFrozenPoints
      frozenLocation := if numFrozenPoints = 1 then fileFrozenId else 0
      reorder
      maxDegree := degree.1
      rearrangedVectors
      inlinePqVectors := degree.2 }

def FlashIndex.getNodeSector (ix : FlashIndex) (nodeId : ℕ) : ℕ :=
  1 + if 0 < ix.nnodesPerSector then nodeId / ix.nnodesPerSector
    else nodeId * divRoundUp ix.maxNodeLen sectorLen

def FlashIndex.offsetToNode (ix : FlashIndex) (nodeId : ℕ) : ℕ :=
  if ix.nnodesPerSector = 0 then 0 else nodeId % ix.nnodesPerSector * ix.maxNodeLen

/-- `aisaq_offset_to_node_aisaq_data`, from the beginning of the node. -/
def FlashIndex.aisaqDataOffset (ix : FlashIndex) : ℕ := ix.diskBytesPerPoint + (ix.maxDegree + 1) * 4

def FlashIndex.aisaqDataSize (ix : FlashIndex) : ℕ :=
  ix.inlinePqVectors * ix.nChunks + if ix.rearrangedVectors = true then 4 else 0

/-- What is read of a node. -/
structure NodeData where
  coords : List UInt8
  nbrs : List ℕ
  aisaqData : List UInt8
deriving DecidableEq

/-- `read_nodes`, of one node. -/
def FlashIndex.readNode (ix : FlashIndex) (file : File) (nodeId : ℕ) : Option NodeData :=
  let numSectors := if 0 < ix.nnodesPerSector then 1 else divRoundUp ix.maxNodeLen sectorLen
  (readSlice file.bytes (ix.getNodeSector nodeId * sectorLen) (numSectors * sectorLen)).bind fun buf =>
    let node := ix.offsetToNode nodeId
    let nhood := node + ix.diskBytesPerPoint
    (readSlice buf node ix.diskBytesPerPoint).bind fun coords => (readLe 4 buf nhood).bind fun nnbrs =>
      ((List.range nnbrs).mapM fun j => readLe 4 buf (nhood + 4 + j * 4)).bind fun nbrs =>
        (readSlice buf (node + ix.aisaqDataOffset) ix.aisaqDataSize).map fun aisaqData =>
          { coords, nbrs, aisaqData }

end DiskANNEval.AiSAQ.DiskLayout
