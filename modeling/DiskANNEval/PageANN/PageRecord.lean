import DiskANNEval.PageANN.PageFilling
import DiskANNEval.PageANN.PageSearch

/-!
# PageRecord — the bytes of the index

A sector has the vectors of the nodes of a page, the numbers of its cached and uncached neighbours,
their ids, and the PQ codes of the uncached ones.  A vector is copied with the aligned width over
what comes after it.  The first sector is the header; `load` reads the parameters of the parser there.
-/

namespace DiskANNEval.PageANN

open Lib

variable {D : Type}

/-- What `create_disk_layout` leaves: the index, the neighbours of its pages, `cached_PQ_nodes` and
`reorder_pq_data_buff`. -/
structure DiskLayout where
  file : List UInt8
  lists : List PageLists
  cachedPq : Finset ℕ
  reorderPq : List UInt8

namespace PageBuild

variable (b : PageBuild D)

/-- The codes, each at the place of its node. -/
def reorderPq : Option (List UInt8) :=
  (List.range b.merge.npts).foldlM (fun buf old =>
      if old ∈ b.pageOf old then write buf (b.newId old * b.pqSize) (b.pq old) else some buf)
    (List.replicate (b.merge.npts * b.pqSize) 0)

/-- `cur_vec`, which has `get_aligned_dim()` elements. -/
def curVec (id : ℕ) : List UInt8 :=
  b.vector id ++ List.replicate (b.alignedDim * b.typeByte - b.nodeLen) 0

/-- `sector_num_cached_nbrs_buf` -/
def countsOff : ℕ := b.nnodesPerSector * b.nodeLen

/-- `sector_cached_nbrs_IDs_buf` -/
def idsOff : ℕ := b.countsOff + 2 + 2

/-- The sector of a page. -/
def sectorBytes (reorder : List UInt8) (page : List ℕ) (l : PageLists) : Option (List UInt8) := do
  let uncachedOff := b.idsOff + l.cached.length * 4
  let buf ← writeEach b.nodeLen (List.replicate sectorLen 0) 0 (page.map b.curVec)
  let buf ← write buf b.countsOff (leBytes 2 l.cached.length)
  let buf ← write buf (b.countsOff + 2) (leBytes 2 l.uncached.length)
  let buf ← write buf b.idsOff (leList 4 l.cached)
  let buf ← write buf uncachedOff (leList 4 l.uncached)
  let codes ← l.uncached.mapM fun id => readSlice reorder (id * b.pqSize) b.pqSize
  writeEach b.pqSize buf (uncachedOff + l.uncached.length * 4) codes

def maxDeg (ls : List PageLists) : ℕ :=
  ls.foldl (fun deg l => max deg (l.cached.length % 2 ^ 16 + l.uncached.length % 2 ^ 16)) 0

/-- `output_file_meta` -/
def fileMeta (ls : List PageLists) : List ℕ :=
  let nPages := b.merged.mergedNodes.length
  [b.nnodesPerSector * nPages, b.dimension, 4, b.merged.nodeToPage b.medoid, b.nodeLen,
    b.nnodesPerSector, b.pqSize, maxDeg ls, (nPages + 1) * sectorLen]

/-- The first sector: what `save_bin` writes, and zeros. -/
def header (ls : List PageLists) : List UInt8 :=
  leBytes 4 9 ++ leBytes 4 1 ++ leList 8 (b.fileMeta ls) ++ List.replicate (sectorLen - 80) 0

def createDiskLayout (fuel : ℕ) : Option DiskLayout := do
  let reorder ← b.reorderPq
  let (ls, cachedPq) ← b.allLists fuel
  let sectors ← (b.merged.mergedNodes.zip ls).mapM fun x => b.sectorBytes reorder x.1 x.2
  return ⟨b.header ls ++ sectors.flatten, ls, cachedPq, reorder⟩

end PageBuild

/-- A read of the sector of a page. -/
def sectorOf (file : List UInt8) (pageID : ℕ) : List UInt8 :=
  slice file ((pageID + 1) * sectorLen) sectorLen

def maxPqChunks : ℕ := 512

/-- `load`, as far as it is about the parser: the header, and the number of chunks from the pivots.
`none`: it throws. -/
def loadParams (sizeT nChunks : ℕ) (file : List UInt8) : Option PageParams :=
  if maxPqChunks < nChunks then none
  else do
    let numPoints ← readLe 8 file 8
    let dataDim ← readLe 8 file 16
    let maxNodeLen ← readLe 8 file 40
    let nnodesPerSector ← readLe 8 file 48
    let maxDegree ← readLe 8 file 64
    if maxGraphDegree < maxDegree then none
    else some { numPoints, dataDim, sizeT, maxNodeLen, nnodesPerSector, nChunks, maxDegree }

end DiskANNEval.PageANN
