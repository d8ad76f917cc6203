import DiskANNEval.AiSAQ.PqVectorsFile

/-!
# PqReadSizes — the read of a vector and the size of a buffer

`init_common` takes `m_max_io_size_sectors` from the size of a vector alone, in sectors of 512 bytes;
`calc_pq_vector_read_params` rounds the read of a vector to whole blocks of the device.
-/

namespace DiskANNEval.AiSAQ.PqReader

open Lib

variable {r : Reader} {id : ℕ}

/-- The read of the vector is no longer than a buffer, the vector lies inside of the sectors that are
read, and `buff_offset` is where it begins. -/
structure ReadOk (r : Reader) (id : ℕ) : Prop where
  fits : r.readSectors id ≤ r.maxIoSizeSectors
  starts : (r.calcPqVectorReadParams id).fromSector * sectorSize +
    (r.calcPqVectorReadParams id).buffOffset = r.vectorPos id
  ends : r.vectorPos id + r.pqVectorSize ≤ ((r.calcPqVectorReadParams id).toSector + 1) * sectorSize

theorem fromSector_le_toSector :
    (r.calcPqVectorReadParams id).fromSector ≤ (r.calcPqVectorReadParams id).toSector := by
  cases h : r.rearranged with
  | true =>
    have hpos := r.sectorsPerPage_pos h
    rw [r.readParams_rearranged id h]
    dsimp only
    omega
  | false =>
    have hpos := r.sectorsPerBlock_pos
    have hmul := Nat.mul_le_mul_right (r.blockSize / sectorSize) (r.firstBlock_le id)
    rw [r.readParams_blocks id h]
    dsimp only
    rw [Nat.add_mul]
    omega

theorem vectorEnd_le : r.vectorPos id + r.pqVectorSize ≤
    ((r.calcPqVectorReadParams id).toSector + 1) * sectorSize := by
  have hspec := r.buffOffset_spec id
  have hle := r.buffOffset_add_le id
  have hfrom := @fromSector_le_toSector r id
  calc r.vectorPos id + r.pqVectorSize
      ≤ (r.calcPqVectorReadParams id).fromSector * sectorSize + r.readSectors id * sectorSize := by
        omega
    _ = ((r.calcPqVectorReadParams id).toSector + 1) * sectorSize := by
        rw [← Nat.add_mul, Reader.readSectors]
        congr 1
        omega

/-- The reads that fit are those of a rearranged file, and those whose blocks are no longer than a
buffer. -/
theorem readOk_iff_fits (r : Reader) (id : ℕ) : ReadOk r id ↔ r.Fits id := by
  rw [← r.readSectors_le_iff id]
  constructor
  · exact ReadOk.fits
  · exact fun h => ⟨h, r.buffOffset_spec id, vectorEnd_le⟩

theorem not_fits_of_block (h : r.rearranged = false)
    (hblock : r.maxIoSizeSectors < r.blockSize / sectorSize) : ¬ r.Fits id := by
  rw [← r.readSectors_le_iff id, r.readSectors_blocks id h]
  have hle : r.blockSize / sectorSize ≤
      (r.lastBlock id - r.firstBlock id + 1) * (r.blockSize / sectorSize) :=
    Nat.le_mul_of_pos_left _ (Nat.succ_pos _)
  omega

/-- One vector of 16 bytes. -/
def smallFile : List UInt8 := leBytes 4 1 ++ leBytes 4 16 ++ List.replicate 16 7

/-- The block size that is taken where the device does not give one. -/
def defaultBlock : BlockSize := ⟨4096, by decide, by decide⟩

/-- With the default block size the read has eight sectors, and a buffer two. -/
theorem not_readOk_smallFile :
    ∃ r, initPlain defaultBlock smallFile = some (r, 1) ∧ ¬ ReadOk r 0 := by
  have hsome : ((initPlain defaultBlock smallFile).map fun p =>
      (p.1.rearranged, p.1.maxIoSizeSectors, p.1.blockSize, p.2)) = some (false, 2, 4096, 1) := by
    decide +kernel
  obtain ⟨⟨r, n⟩, hinit, hr⟩ := Option.map_eq_some_iff.1 hsome
  obtain ⟨hfile, hmax, hblock, hn⟩ : r.rearranged = false ∧ r.maxIoSizeSectors = 2 ∧
      r.blockSize = 4096 ∧ n = 1 := by simpa using hr
  subst hn
  refine ⟨r, hinit, fun h => ?_⟩
  refine not_fits_of_block hfile ?_ ((r.readSectors_le_iff 0).1 h.fits)
  rw [hmax, hblock]
  decide

end DiskANNEval.AiSAQ.PqReader
