import DiskANNEval.Lib.Filled
import DiskANNEval.Lib.SquareGaps

/-!
# PqDists — the distances between points by the tables of their codes

A point is a code for each chunk, and with two pivot tables a branch for each chunk.  The distances
of two points are sums over the entries of tables that `load` fills.  `compute_pq_dists_doublepq`
takes the source's code where the destination's belongs and the row length of the small tables for
the large one.  For all pivot tables both functions are right exactly when they take entries of the
right pairs of centroids (`distsRight_iff`).
-/

namespace DiskANNEval.DGAI

open Lib List Finset

namespace PqDists

def maxPqChunks : ℕ := 1024

def u32 (x : ℕ) : ℕ := x % 2 ^ 32

/-- The macros `USE_DOUBLE_PQ` and `REORDER_COMPUTE_PQ`. -/
structure Build where
  useDoublePq : Bool
  reorderComputePq : Bool

/-- What an index has apart from the pivot tables. -/
structure PqCodes where
  nChunks : ℕ
  ndims : ℕ
  chunkOffsets : ℕ → ℕ
  data : ℕ → ℕ
  mapBytes : ℕ → ℕ
  nChunks_le : nChunks ≤ maxPqChunks
  offsets_mono : Monotone chunkOffsets
  offsets_le : chunkOffsets nChunks ≤ ndims
  data_lt : ∀ k, data k < 256
  mapBytes_lt : ∀ k, mapBytes k < 2

/-- A pivot table: 256 rows of `ndims` numbers. -/
abbrev PivotTable := ℕ → ℚ

/-! ### Loops over flat arrays -/

/-- A step `(i, c)` adds to the `i`th sum. -/
def sumInto (steps : List (ℕ × ℕ)) (cell : ℕ → ℕ → ℚ) : ℕ → ℚ :=
  steps.foldl (fun d p => Function.update d p.1 (d p.1 + cell p.1 p.2)) fun _ => 0

theorem sumInto_apply (steps : List (ℕ × ℕ)) (cell : ℕ → ℕ → ℚ) (i : ℕ) :
    sumInto steps cell i = (steps.map fun p => if p.1 = i then cell p.1 p.2 else 0).sum := by
  rw [sumInto]
  induction steps using reverseRecOn with
  | nil => rfl
  | append_singleton steps p ih =>
    rw [foldl_append, foldl_cons, foldl_nil, map_append, sum_append,
      List.map_cons, map_nil, List.sum_singleton]
    by_cases hp : p.1 = i
    · subst hp
      rw [Function.update_self, ih, if_pos rfl]
    · rw [Function.update_of_ne (Ne.symm hp), ih, if_neg hp, add_zero]

/-- The loop over the chunks, and in it over the destinations. -/
def byChunk (n count : ℕ) : List (ℕ × ℕ) :=
  (List.range n).flatMap fun c => (List.range count).map fun i => (i, c)

/-- The loop over the destinations, and in it over the chunks. -/
def byId (n count : ℕ) : List (ℕ × ℕ) :=
  (List.range count).flatMap fun i => (List.range n).map fun c => (i, c)

variable {n : ℕ}

theorem sum_flatMap_range {m : ℕ} {g : ℕ → ℕ → ℕ × ℕ} {f : ℕ × ℕ → ℚ} :
    (((List.range n).flatMap fun a => (List.range m).map (g a)).map f).sum =
      ∑ a ∈ Finset.range n, ∑ b ∈ Finset.range m, f (g a b) := by
  rw [map_flatMap, flatMap_def, sum_flatten, List.map_map]
  show ((List.range n).map fun a => (((List.range m).map (g a)).map f).sum).sum = _
  simp only [List.map_map]
  rfl

theorem sumInto_byChunk {count i : ℕ} (hi : i < count) (cell : ℕ → ℕ → ℚ) :
    sumInto (byChunk n count) cell i = ∑ c ∈ Finset.range n, cell i c := by
  rw [sumInto_apply, byChunk, sum_flatMap_range]
  refine sum_congr rfl fun c _ => ?_
  rw [sum_ite_eq' (Finset.range count) i fun i => cell i c,
    if_pos (Finset.mem_range.2 hi)]

theorem sumInto_byId {count i : ℕ} (hi : i < count) (cell : ℕ → ℕ → ℚ) :
    sumInto (byId n count) cell i = ∑ c ∈ Finset.range n, cell i c := by
  rw [sumInto_apply, byId, sum_flatMap_range, sum_comm]
  refine sum_congr rfl fun c _ => ?_
  rw [sum_ite_eq' (Finset.range count) i fun i => cell i c,
    if_pos (Finset.mem_range.2 hi)]

namespace PqCodes

variable (cd : PqCodes) (b : Build) (t₁ t₂ : PivotTable)

/-! ### The tables -/

/-- The squared distance of two rows, in a chunk. -/
def pairDist (t t' : PivotTable) (i j c : ℕ) : ℚ :=
  ∑ d ∈ Finset.Ico (cd.chunkOffsets c) (cd.chunkOffsets (c + 1)),
    (t (i * cd.ndims + d) - t' (j * cd.ndims + d)) ^ 2

/-- The three loops of `load`. -/
def cells (n : ℕ) : List (ℕ × ℕ × ℕ) := List.range n ×ˢ (List.range n ×ˢ List.range cd.nChunks)

def allToAllDists (t : PivotTable) : ℕ → ℚ :=
  filled (fun _ => 0) (cd.cells 256)
    (fun (i, j, c) =>
      if b.reorderComputePq then i * cd.nChunks * 256 + c * 256 + j
      else i * 256 * cd.nChunks + j * cd.nChunks + c)
    fun (i, j, c) => cd.pairDist t t i j c

/-- Of the 512 centroids the first 256 are those of the first table. -/
def tableOf (i : ℕ) : PivotTable := if 256 ≤ i then t₂ else t₁

def rowOf (i : ℕ) : ℕ := if 256 ≤ i then i - 256 else i

/-- The squared distance of two of the 512 centroids, in a chunk. -/
def centroidDist (i j c : ℕ) : ℚ :=
  cd.pairDist (tableOf t₁ t₂ i) (tableOf t₁ t₂ j) (rowOf i) (rowOf j) c

/-- `pq_cross_all_to_all_dists` -/
def crossAllToAllDists : ℕ → ℚ :=
  filled (fun _ => 0) (cd.cells 512) (fun (i, j, c) => u32 (i * cd.nChunks * 512 + c * 512 + j))
    fun (i, j, c) => cd.centroidDist t₁ t₂ i j c

/-! ### The distances -/

def aggregateCoords (ids : List ℕ) : List ℕ :=
  ids.flatMap fun id => (List.range cd.nChunks).map fun c => cd.data (id * cd.nChunks + c)

/-- `aligned_scratch[i * n_chunks + c]` -/
def scratchCode (ids : List ℕ) (i c : ℕ) : ℕ :=
  (cd.aggregateCoords ids).getD (i * cd.nChunks + c) 0

def computeDistancesAlltoall (t : PivotTable) (src : ℕ) (ids : List ℕ) : ℕ → ℚ :=
  if b.reorderComputePq then
    sumInto (byChunk cd.nChunks ids.length) fun i c =>
      cd.allToAllDists b t (cd.data (cd.nChunks * src + c) * cd.nChunks * 256 + c * 256 +
        cd.scratchCode ids i c)
  else
    sumInto (byId cd.nChunks ids.length) fun i c =>
      cd.allToAllDists b t (cd.data (cd.nChunks * src + c) * 256 * cd.nChunks +
        cd.scratchCode ids i c * cd.nChunks + c)

/-- The sums with `USE_DOUBLE_PQ`: codes of nine bits, in 32-bit arithmetic. -/
def crossDists (src : ℕ) (ids : List ℕ) : ℕ → ℚ :=
  sumInto (byChunk cd.nChunks ids.length) fun i c =>
    let srcCode := cd.data (src * cd.nChunks + c) ||| cd.mapBytes (u32 (src * cd.nChunks + c)) <<< 8
    let dstCode :=
      cd.scratchCode ids i c ||| cd.mapBytes (u32 (ids.getD i 0 * cd.nChunks + c)) <<< 8
    cd.crossAllToAllDists t₁ t₂ (u32 (u32 (srcCode * cd.nChunks * 512 + c * 512) + dstCode))

/-- `none`: the function crashes. -/
def computePqDists (src : ℕ) (ids : List ℕ) : Option (List ℚ) :=
  if 32768 ≤ ids.length then none
  else some ((List.range ids.length).map
    (if b.useDoublePq then cd.crossDists t₁ t₂ src ids
      else cd.computeDistancesAlltoall b t₁ src ids))

/-- The sums of `compute_pq_dists_doublepq`; the destination's code is not used. -/
def doublepqDists (src : ℕ) (ids : List ℕ) : ℕ → ℚ :=
  sumInto (byChunk cd.nChunks ids.length) fun i c =>
    let srcBranch := cd.mapBytes (u32 (src * cd.nChunks) + c)
    let dstBranch := cd.mapBytes (u32 (ids.getD i 0 * cd.nChunks) + c)
    let srcCode := cd.data (src * cd.nChunks + c)
    let baseOffset := srcCode * (256 * cd.nChunks) + c * 256
    if srcBranch = 0 ∧ dstBranch = 0 then cd.allToAllDists b t₁ (baseOffset + srcCode)
    else if srcBranch = 1 ∧ dstBranch = 1 then cd.allToAllDists b t₂ (baseOffset + srcCode)
    else cd.crossAllToAllDists t₁ t₂ (baseOffset + srcCode)

def computePqDistsDoublepq (src : ℕ) (ids : List ℕ) : Option (List ℚ) :=
  if 32768 ≤ ids.length then none
  else some ((List.range ids.length).map (cd.doublepqDists b t₁ t₂ src ids))

/-! ### What the distances should be -/

/-- The centroid, of 512, that a point has in a chunk. -/
def codeOf (id c : ℕ) : ℕ :=
  cd.data (id * cd.nChunks + c) + 256 * cd.mapBytes (id * cd.nChunks + c)

def exactDist (src id : ℕ) : ℚ :=
  ∑ c ∈ Finset.range cd.nChunks, cd.centroidDist t₁ t₂ (cd.codeOf src c) (cd.codeOf id c) c

/-- Both functions return the exact distances. -/
def DistsRight (src : ℕ) (ids : List ℕ) : Prop :=
  cd.computePqDists b t₁ t₂ src ids = some (ids.map (cd.exactDist t₁ t₂ src)) ∧
    cd.computePqDistsDoublepq b t₁ t₂ src ids = some (ids.map (cd.exactDist t₁ t₂ src))

/-! ### The entries -/

/-- The chunk and the two centroids whose distance is taken for a chunk. -/
abbrev Entries := ℕ → ℕ × ℕ × ℕ

def exactEntries (src id : ℕ) : Entries := fun c => (c, cd.codeOf src c, cd.codeOf id c)

/-- The entries of `compute_pq_dists`: the branches are ignored, or looked up at an index of 32
bits. -/
def entries (src id : ℕ) : Entries := fun c =>
  (c, cd.data (src * cd.nChunks + c) +
      if b.useDoublePq then 256 * cd.mapBytes (u32 (src * cd.nChunks + c)) else 0,
    cd.data (id * cd.nChunks + c) +
      if b.useDoublePq then 256 * cd.mapBytes (u32 (id * cd.nChunks + c)) else 0)

/-- The entries of `compute_pq_dists_doublepq`, by the position in the table. -/
def doublepqEntries (src id : ℕ) : Entries := fun c =>
  let srcBranch := cd.mapBytes (u32 (src * cd.nChunks) + c)
  let srcCode := cd.data (src * cd.nChunks + c)
  if srcBranch = cd.mapBytes (u32 (id * cd.nChunks) + c) then
    if b.reorderComputePq then (c, srcCode + 256 * srcBranch, srcCode + 256 * srcBranch)
    else ((c * 256 + srcCode) % cd.nChunks, srcCode + 256 * srcBranch,
      (c * 256 + srcCode) / cd.nChunks + 256 * srcBranch)
  else
    let pos := srcCode * (256 * cd.nChunks) + c * 256 + srcCode
    (pos / 512 % cd.nChunks, pos / 512 / cd.nChunks, pos % 512)

/-- The pairs of a chunk. -/
def pairsIn (e : Entries) (c : ℕ) : List (ℕ × ℕ) :=
  ((List.range cd.nChunks).filter fun k => (e k).1 = c).map fun k => (e k).2

/-- In each chunk with a dimension the pairs of two different centroids are the same. -/
def SamePairs (e e' : Entries) : Prop :=
  ∀ c < cd.nChunks, cd.chunkOffsets c < cd.chunkOffsets (c + 1) →
    (realPairs (cd.pairsIn e c)).Perm (realPairs (cd.pairsIn e' c))

/-! ### Positions in the tables -/

variable {j c x : ℕ}

theorem mem_cells {n i : ℕ} : (i, j, c) ∈ cd.cells n ↔ i < n ∧ j < n ∧ c < cd.nChunks := by
  rw [cells, List.mem_product, List.mem_product, List.mem_range, List.mem_range, List.mem_range]

variable {cd b t₁ t₂}

theorem u32_of_lt (h : x < 2 ^ 32) : u32 x = x := Nat.mod_eq_of_lt h

/-- The position of the distance of `i` and `j` in chunk `c`, in rows of `m` numbers. -/
theorem chunkMajor_eq (i j c m : ℕ) :
    i * cd.nChunks * m + c * m + j = (i * cd.nChunks + c) * m + j := by
  rw [Nat.add_mul]

theorem filled_cells {n i : ℕ} (idx : ℕ → ℕ → ℕ → ℕ) (val : ℕ → ℕ → ℕ → ℚ) (hi : i < n) (hj : j < n)
    (hc : c < cd.nChunks)
    (hinj : ∀ i' < n, ∀ j' < n, ∀ c' < cd.nChunks, idx i' j' c' = idx i j c → i' = i ∧ j' = j ∧ c' = c) :
    filled (fun _ => 0) (cd.cells n) (fun (i, j, c) => idx i j c) (fun (i, j, c) => val i j c)
      (idx i j c) = val i j c := by
  have hmem : (i, j, c) ∈ cd.cells n := cd.mem_cells.2 ⟨hi, hj, hc⟩
  refine filled_of_mem (fun (i, j, c) => idx i j c) _ hmem fun k hk h => ?_
  obtain ⟨i', j', c'⟩ := k
  obtain ⟨hi', hj', hc'⟩ := cd.mem_cells.1 hk
  obtain ⟨rfl, rfl, rfl⟩ := hinj i' hi' j' hj' c' hc' h
  rfl

variable {t : PivotTable}

theorem allToAllDists_chunkMajor (hb : b.reorderComputePq = true) {i : ℕ} (hi : i < 256)
    (hj : j < 256) (hc : c < cd.nChunks) :
    cd.allToAllDists b t (i * cd.nChunks * 256 + c * 256 + j) = cd.pairDist t t i j c := by
  have hfill := filled_cells (fun i j c =>
    if b.reorderComputePq then i * cd.nChunks * 256 + c * 256 + j
    else i * 256 * cd.nChunks + j * cd.nChunks + c) (cd.pairDist t t) hi hj hc ?_
  · dsimp only at hfill
    rw [if_pos hb] at hfill
    exact hfill
  · intro i' _ j' hj' c' hc' h
    rw [if_pos hb, if_pos hb, chunkMajor_eq, chunkMajor_eq] at h
    obtain ⟨hrow, rfl⟩ := flat_inj hj' hj h
    obtain ⟨rfl, rfl⟩ := flat_inj hc' hc hrow
    exact ⟨rfl, rfl, rfl⟩

theorem allToAllDists_pairMajor (hb : ¬ b.reorderComputePq = true) {i : ℕ} (hi : i < 256)
    (hj : j < 256) (hc : c < cd.nChunks) :
    cd.allToAllDists b t (i * 256 * cd.nChunks + j * cd.nChunks + c) = cd.pairDist t t i j c := by
  have hidx : ∀ i j c, i * 256 * cd.nChunks + j * cd.nChunks + c = (i * 256 + j) * cd.nChunks + c :=
    fun i j c => by rw [Nat.add_mul]
  have hfill := filled_cells (fun i j c =>
    if b.reorderComputePq then i * cd.nChunks * 256 + c * 256 + j
    else i * 256 * cd.nChunks + j * cd.nChunks + c) (cd.pairDist t t) hi hj hc ?_
  · dsimp only at hfill
    rw [if_neg hb] at hfill
    exact hfill
  · intro i' _ j' hj' c' hc' h
    rw [if_neg hb, if_neg hb, hidx, hidx] at h
    obtain ⟨hpair, rfl⟩ := flat_inj hc' hc h
    obtain ⟨rfl, rfl⟩ := flat_inj hj' hj hpair
    exact ⟨rfl, rfl, rfl⟩

theorem crossPos_lt {i : ℕ} (hi : i < 512) (hj : j < 512) (hc : c < cd.nChunks) :
    (i * cd.nChunks + c) * 512 + j < 2 ^ 32 := by
  have hrow := flat_lt (flat_lt hi hc) hj
  have hn : 512 * cd.nChunks * 512 ≤ 512 * maxPqChunks * 512 :=
    Nat.mul_le_mul_right _ (Nat.mul_le_mul_left _ cd.nChunks_le)
  have hmax : 512 * maxPqChunks * 512 ≤ 2 ^ 32 := by decide
  exact hrow.trans_le (hn.trans hmax)

theorem crossAllToAllDists_apply {i : ℕ} (hi : i < 512) (hj : j < 512) (hc : c < cd.nChunks) :
    cd.crossAllToAllDists t₁ t₂ ((i * cd.nChunks + c) * 512 + j) = cd.centroidDist t₁ t₂ i j c := by
  have hfill := filled_cells (fun i j c => u32 (i * cd.nChunks * 512 + c * 512 + j))
    (cd.centroidDist t₁ t₂) hi hj hc ?_
  · dsimp only at hfill
    rw [chunkMajor_eq, u32_of_lt (crossPos_lt hi hj hc)] at hfill
    exact hfill
  · intro i' hi' j' hj' c' hc' h
    rw [chunkMajor_eq, chunkMajor_eq, u32_of_lt (crossPos_lt hi' hj' hc'),
      u32_of_lt (crossPos_lt hi hj hc)] at h
    obtain ⟨hrow, rfl⟩ := flat_inj hj' hj h
    obtain ⟨rfl, rfl⟩ := flat_inj hc' hc hrow
    exact ⟨rfl, rfl, rfl⟩

theorem scratchCode_eq {ids : List ℕ} {i : ℕ} (hi : i < ids.length) (hc : c < cd.nChunks) :
    cd.scratchCode ids i c = cd.data (ids.getD i 0 * cd.nChunks + c) := by
  induction ids generalizing i with
  | nil => exact absurd hi (Nat.not_lt_zero i)
  | cons id ids ih =>
    have hlen : ((List.range cd.nChunks).map fun c => cd.data (id * cd.nChunks + c)).length =
        cd.nChunks := by rw [length_map, length_range]
    rw [scratchCode, aggregateCoords, flatMap_cons]
    cases i with
    | zero =>
      rw [Nat.zero_mul, Nat.zero_add, getD_append _ _ _ _ (by rw [hlen]; exact hc),
        getD_eq_getElem _ _ (by rw [hlen]; exact hc), getElem_map, getElem_range]
      rfl
    | succ i =>
      rw [getD_append_right _ _ _ _ (by rw [Nat.succ_mul]; omega), hlen,
        getD_cons_succ, ← ih (Nat.lt_of_succ_lt_succ hi), Nat.succ_mul,
        show i * cd.nChunks + cd.nChunks + c - cd.nChunks = i * cd.nChunks + c by omega]
      rfl

/-! ### The sums -/

variable (cd t₁ t₂) in
/-- The sum over the chunks of the distances of the entries. -/
def entrySum (e : Entries) : ℚ :=
  ∑ c ∈ Finset.range cd.nChunks, cd.centroidDist t₁ t₂ (e c).2.1 (e c).2.2 (e c).1

theorem or_shift {m : ℕ} (hx : x < 256) : x ||| m <<< 8 = x + 256 * m := by
  rw [Nat.or_comm, ← Nat.shiftLeft_add_eq_or_of_lt (show x < 2 ^ 8 from hx)]
  omega

theorem centroidDist_first {i : ℕ} (hi : i < 256) (hj : j < 256) :
    cd.centroidDist t₁ t₂ i j c = cd.pairDist t₁ t₁ i j c := by
  rw [centroidDist, tableOf, tableOf, rowOf, rowOf, if_neg (by omega), if_neg (by omega),
    if_neg (by omega), if_neg (by omega)]

theorem centroidDist_branch {i m : ℕ} (hi : i < 256) (hj : j < 256) (hm : m < 2) :
    cd.centroidDist t₁ t₂ (i + 256 * m) (j + 256 * m) c =
      cd.pairDist (if m = 0 then t₁ else t₂) (if m = 0 then t₁ else t₂) i j c := by
  obtain rfl | rfl : m = 0 ∨ m = 1 := by omega
  · rw [Nat.add_zero, Nat.add_zero, centroidDist_first hi hj, if_pos rfl]
  · rw [centroidDist, tableOf, tableOf, rowOf, rowOf, if_pos (by omega), if_pos (by omega),
      if_pos (by omega), if_pos (by omega), if_neg (by decide),
      show i + 256 * 1 - 256 = i by omega, show j + 256 * 1 - 256 = j by omega]

variable {src i : ℕ} {ids : List ℕ}

theorem crossDists_eq (hi : i < ids.length) (hb : b.useDoublePq = true) :
    cd.crossDists t₁ t₂ src ids i = cd.entrySum t₁ t₂ (cd.entries b src (ids.getD i 0)) := by
  rw [crossDists, sumInto_byChunk hi]
  refine sum_congr rfl fun c hc => ?_
  rw [Finset.mem_range] at hc
  have hs := cd.data_lt (src * cd.nChunks + c)
  have hd := cd.data_lt (ids.getD i 0 * cd.nChunks + c)
  have hms := cd.mapBytes_lt (u32 (src * cd.nChunks + c))
  have hmd := cd.mapBytes_lt (u32 (ids.getD i 0 * cd.nChunks + c))
  rw [scratchCode_eq hi hc, or_shift hs, or_shift hd, entries]
  dsimp only
  rw [if_pos hb, if_pos hb]
  have hx : cd.data (src * cd.nChunks + c) +
      256 * cd.mapBytes (u32 (src * cd.nChunks + c)) < 512 := by omega
  have hy : cd.data (ids.getD i 0 * cd.nChunks + c) +
      256 * cd.mapBytes (u32 (ids.getD i 0 * cd.nChunks + c)) < 512 := by omega
  generalize cd.data (src * cd.nChunks + c) +
    256 * cd.mapBytes (u32 (src * cd.nChunks + c)) = x at hx ⊢
  generalize cd.data (ids.getD i 0 * cd.nChunks + c) +
    256 * cd.mapBytes (u32 (ids.getD i 0 * cd.nChunks + c)) = y at hy ⊢
  have hbase : (x * cd.nChunks + c) * 512 < 2 ^ 32 :=
    (Nat.le_add_right _ y).trans_lt (crossPos_lt hx hy hc)
  rw [← Nat.add_mul, u32_of_lt hbase, u32_of_lt (crossPos_lt hx hy hc),
    crossAllToAllDists_apply hx hy hc]

theorem computeDistancesAlltoall_eq (hi : i < ids.length) (hb : ¬ b.useDoublePq = true) :
    cd.computeDistancesAlltoall b t₁ src ids i =
      cd.entrySum t₁ t₂ (cd.entries b src (ids.getD i 0)) := by
  have hcell : ∀ c < cd.nChunks, cd.centroidDist t₁ t₂ (cd.entries b src (ids.getD i 0) c).2.1
      (cd.entries b src (ids.getD i 0) c).2.2 (cd.entries b src (ids.getD i 0) c).1 =
      cd.pairDist t₁ t₁ (cd.data (cd.nChunks * src + c)) (cd.scratchCode ids i c) c := by
    intro c hc
    rw [scratchCode_eq hi hc, entries, Nat.mul_comm cd.nChunks src]
    rw [if_neg hb, if_neg hb]
    exact centroidDist_first (cd.data_lt _) (cd.data_lt _)
  rw [computeDistancesAlltoall]
  split_ifs with hr
  · rw [sumInto_byChunk hi]
    refine sum_congr rfl fun c hc => ?_
    rw [Finset.mem_range] at hc
    rw [hcell c hc, allToAllDists_chunkMajor hr (cd.data_lt _) _ hc]
    rw [scratchCode_eq hi hc]
    exact cd.data_lt _
  · rw [sumInto_byId hi]
    refine sum_congr rfl fun c hc => ?_
    rw [Finset.mem_range] at hc
    rw [hcell c hc, allToAllDists_pairMajor hr (cd.data_lt _) _ hc]
    rw [scratchCode_eq hi hc]
    exact cd.data_lt _

/-- The entry at the row of a code and its own column: in the one order it is the distance of the
code's centroid to itself. -/
theorem allToAllDists_own (hx : x < 256) (hc : c < cd.nChunks) :
    cd.allToAllDists b t (x * (256 * cd.nChunks) + c * 256 + x) =
      if b.reorderComputePq then cd.pairDist t t x x c
      else cd.pairDist t t x ((c * 256 + x) / cd.nChunks) ((c * 256 + x) % cd.nChunks) := by
  split_ifs with hr
  · rw [Nat.mul_comm 256, ← Nat.mul_assoc, allToAllDists_chunkMajor hr hx hx hc]
  · have hlt : c * 256 + x < cd.nChunks * 256 := flat_lt hc hx
    have hpos : x * (256 * cd.nChunks) + c * 256 + x = x * 256 * cd.nChunks +
        (c * 256 + x) / cd.nChunks * cd.nChunks + (c * 256 + x) % cd.nChunks := by
      have hdiv := Nat.div_add_mod (c * 256 + x) cd.nChunks
      rw [Nat.mul_comm] at hdiv
      rw [← Nat.mul_assoc]
      omega
    rw [hpos, allToAllDists_pairMajor hr hx (Nat.div_lt_of_lt_mul hlt)
      (Nat.mod_lt _ (Nat.zero_lt_of_lt hc))]

theorem crossAllToAllDists_pos {pos : ℕ} (h : pos < 512 * cd.nChunks * 512) :
    cd.crossAllToAllDists t₁ t₂ pos =
      cd.centroidDist t₁ t₂ (pos / 512 / cd.nChunks) (pos % 512) (pos / 512 % cd.nChunks) := by
  have hrow : pos / 512 < 512 * cd.nChunks := (Nat.div_lt_iff_lt_mul (by decide)).2 h
  have hn : 0 < cd.nChunks := Nat.pos_of_ne_zero fun h0 => by
    rw [h0] at hrow
    exact Nat.not_lt_zero _ hrow
  have hsplit : pos = (pos / 512 / cd.nChunks * cd.nChunks + pos / 512 % cd.nChunks) * 512 +
      pos % 512 := by
    rw [Nat.mul_comm (pos / 512 / cd.nChunks), Nat.div_add_mod, Nat.mul_comm, Nat.div_add_mod]
  rw [← crossAllToAllDists_apply ((Nat.div_lt_iff_lt_mul hn).2 hrow)
    (Nat.mod_lt pos (by decide)) (Nat.mod_lt (pos / 512) hn), ← hsplit]

theorem doublepqPos_lt (hx : x < 256) (hc : c < cd.nChunks) :
    x * (256 * cd.nChunks) + c * 256 + x < 512 * cd.nChunks * 512 := by
  have hpos : x * (256 * cd.nChunks) + c * 256 + x = (x * cd.nChunks + c) * 256 + x := by
    rw [Nat.add_mul, Nat.mul_comm 256, Nat.mul_assoc]
  have hlt := flat_lt (flat_lt hx hc) hx
  have hle : 256 * cd.nChunks * 256 ≤ 512 * cd.nChunks * 512 :=
    Nat.mul_le_mul (Nat.mul_le_mul_right _ (by decide)) (by decide)
  rw [hpos]
  exact hlt.trans_le hle

theorem doublepqDists_eq (hi : i < ids.length) :
    cd.doublepqDists b t₁ t₂ src ids i =
      cd.entrySum t₁ t₂ (cd.doublepqEntries b src (ids.getD i 0)) := by
  rw [doublepqDists, sumInto_byChunk hi]
  refine sum_congr rfl fun c hc => ?_
  rw [Finset.mem_range] at hc
  have hx := cd.data_lt (src * cd.nChunks + c)
  have hs := cd.mapBytes_lt (u32 (src * cd.nChunks) + c)
  have hd := cd.mapBytes_lt (u32 (ids.getD i 0 * cd.nChunks) + c)
  rw [doublepqEntries]
  generalize cd.data (src * cd.nChunks + c) = x at hx ⊢
  generalize cd.mapBytes (u32 (src * cd.nChunks) + c) = sb at hs ⊢
  generalize cd.mapBytes (u32 (ids.getD i 0 * cd.nChunks) + c) = db at hd ⊢
  by_cases heq : sb = db
  · subst heq
    rw [if_pos rfl]
    have hown : (if sb = 0 ∧ sb = 0 then
          cd.allToAllDists b t₁ (x * (256 * cd.nChunks) + c * 256 + x)
        else if sb = 1 ∧ sb = 1 then cd.allToAllDists b t₂ (x * (256 * cd.nChunks) + c * 256 + x)
        else cd.crossAllToAllDists t₁ t₂ (x * (256 * cd.nChunks) + c * 256 + x)) =
        cd.allToAllDists b (if sb = 0 then t₁ else t₂) (x * (256 * cd.nChunks) + c * 256 + x) := by
      obtain rfl | rfl : sb = 0 ∨ sb = 1 := by omega
      · rfl
      · rfl
    rw [hown, allToAllDists_own hx hc]
    by_cases hr : b.reorderComputePq = true
    · rw [if_pos hr, if_pos hr]
      exact (centroidDist_branch hx hx hs).symm
    · rw [if_neg hr, if_neg hr]
      exact (centroidDist_branch hx (Nat.div_lt_of_lt_mul (flat_lt hc hx)) hs).symm
  · rw [if_neg (by omega), if_neg (by omega), if_neg heq,
      crossAllToAllDists_pos (doublepqPos_lt hx hc)]

/-! ### The sums for all tables -/

variable (cd t₁ t₂) in
/-- The coordinate of a centroid in a dimension. -/
def coordOf (d x : ℕ) : ℚ := tableOf t₁ t₂ x (rowOf x * cd.ndims + d)

variable (cd) in
/-- The entries are of chunks of the index. -/
def InRange (e : Entries) : Prop := ∀ c < cd.nChunks, (e c).1 < cd.nChunks

variable {e e' : Entries}

theorem entrySum_eq (he : cd.InRange e) :
    cd.entrySum t₁ t₂ e = ∑ c ∈ Finset.range cd.nChunks,
      ∑ d ∈ Finset.Ico (cd.chunkOffsets c) (cd.chunkOffsets (c + 1)),
        gapSum (cd.coordOf t₁ t₂ d) (cd.pairsIn e c) := by
  have hfiber := sum_fiberwise_of_maps_to
    (fun k hk => Finset.mem_range.2 (he k (Finset.mem_range.1 hk)))
    fun k => cd.centroidDist t₁ t₂ (e k).2.1 (e k).2.2 (e k).1
  rw [entrySum, ← hfiber]
  refine sum_congr rfl fun c _ => ?_
  have hgap : ∀ d, gapSum (cd.coordOf t₁ t₂ d) (cd.pairsIn e c) =
      ∑ k ∈ Finset.range cd.nChunks with (e k).1 = c,
        (cd.coordOf t₁ t₂ d (e k).2.1 - cd.coordOf t₁ t₂ d (e k).2.2) ^ 2 := by
    intro d
    rw [gapSum, pairsIn, List.map_map]
    rfl
  rw [sum_congr rfl fun d _ => hgap d, sum_comm]
  refine sum_congr rfl fun k hk => ?_
  rw [(Finset.mem_filter.1 hk).2]
  rfl

/-- A table with values in one dimension only. -/
def probe (n d₀ first : ℕ) (v : ℕ → ℚ) : PivotTable :=
  fun p => if p % n = d₀ then v (first + p / n) else 0

theorem coordOf_probe {d₀ d : ℕ} (hd : d < cd.ndims) (v : ℕ → ℚ) :
    cd.coordOf (probe cd.ndims d₀ 0 v) (probe cd.ndims d₀ 256 v) d =
      if d = d₀ then v else fun _ => 0 := by
  have hpos : 0 < cd.ndims := Nat.zero_lt_of_lt hd
  have hmod : ∀ r, (r * cd.ndims + d) % cd.ndims = d := fun r => by
    rw [Nat.mul_comm, Nat.mul_add_mod, Nat.mod_eq_of_lt hd]
  have hdiv : ∀ r, (r * cd.ndims + d) / cd.ndims = r := fun r => by
    rw [Nat.mul_comm, Nat.mul_add_div hpos, Nat.div_eq_of_lt hd, Nat.add_zero]
  funext x
  rw [coordOf, tableOf, rowOf]
  by_cases h256 : 256 ≤ x
  · rw [if_pos h256, if_pos h256, probe, hmod, hdiv, Nat.add_sub_cancel' h256]
    split_ifs
    · rfl
    · rfl
  · rw [if_neg h256, probe, hmod, hdiv, Nat.zero_add]
    split_ifs
    · rfl
    · rfl

theorem gapSum_zero (l : List (ℕ × ℕ)) : gapSum (fun _ => 0) l = 0 := by
  rw [gapSum, sub_zero]
  exact sum_eq_zero fun x hx => by
    obtain ⟨-, -, rfl⟩ := mem_map.1 hx
    rfl

theorem offsets_lt {c' d : ℕ} (hd : d < cd.chunkOffsets (c + 1)) (hc : c < c') :
    d < cd.chunkOffsets c' := hd.trans_le (cd.offsets_mono hc)

/-- Tables with values in the first dimension of a chunk see the pairs of this chunk. -/
theorem entrySum_probe (he : cd.InRange e) {c₀ : ℕ} (hc₀ : c₀ < cd.nChunks)
    (hlt : cd.chunkOffsets c₀ < cd.chunkOffsets (c₀ + 1)) (v : ℕ → ℚ) :
    cd.entrySum (probe cd.ndims (cd.chunkOffsets c₀) 0 v)
      (probe cd.ndims (cd.chunkOffsets c₀) 256 v) e = gapSum v (cd.pairsIn e c₀) := by
  have hgap : ∀ c < cd.nChunks, ∀ d < cd.chunkOffsets (c + 1),
      gapSum (cd.coordOf (probe cd.ndims (cd.chunkOffsets c₀) 0 v)
        (probe cd.ndims (cd.chunkOffsets c₀) 256 v) d) (cd.pairsIn e c) =
        if d = cd.chunkOffsets c₀ then gapSum v (cd.pairsIn e c) else 0 := by
    intro c hc d hd
    have hdims : d < cd.ndims := (offsets_lt hd hc).trans_le cd.offsets_le
    rw [coordOf_probe hdims]
    split_ifs
    · rfl
    · exact gapSum_zero _
  rw [entrySum_eq he, sum_eq_single c₀, sum_eq_single (cd.chunkOffsets c₀)]
  · rw [hgap c₀ hc₀ _ hlt, if_pos rfl]
  · intro d hd hne
    rw [hgap c₀ hc₀ d (mem_Ico.1 hd).2, if_neg hne]
  · exact fun h => absurd (mem_Ico.2 ⟨le_rfl, hlt⟩) h
  · intro c hc hne
    refine Finset.sum_eq_zero fun d hd => ?_
    obtain ⟨hle, hd⟩ := mem_Ico.1 hd
    rw [hgap c (Finset.mem_range.1 hc) d hd, if_neg]
    obtain hcc | hcc := Nat.lt_or_gt_of_ne hne
    · exact (offsets_lt hd hcc).ne
    · exact ((offsets_lt hlt hcc).trans_le hle).ne'
  · exact fun h => absurd (Finset.mem_range.2 hc₀) h

theorem samePairs_iff (he : cd.InRange e) (he' : cd.InRange e') :
    cd.SamePairs e e' ↔ ∀ t₁ t₂, cd.entrySum t₁ t₂ e = cd.entrySum t₁ t₂ e' := by
  constructor
  · intro h t₁ t₂
    rw [entrySum_eq he, entrySum_eq he']
    refine sum_congr rfl fun c hc => sum_congr rfl fun d hd => ?_
    obtain ⟨hle, hd⟩ := mem_Ico.1 hd
    exact gapSum_eq_iff.2 (h c (Finset.mem_range.1 hc) (hle.trans_lt hd)) _
  · intro h c hc hlt
    refine gapSum_eq_iff.1 fun v => ?_
    rw [← entrySum_probe he hc hlt v, h, entrySum_probe he' hc hlt v]

/-! ### The functions -/

theorem map_range_eq {ids : List ℕ} {f F : ℕ → ℚ} (h : ∀ i < ids.length, f i = F (ids.getD i 0)) :
    (List.range ids.length).map f = ids.map F := by
  refine ext_getElem (by simp) fun i h1 h2 => ?_
  have hi : i < ids.length := by simpa using h2
  rw [getElem_map, getElem_map, getElem_range, h i hi, getD_eq_getElem _ _ hi]

variable {g : ℕ → ℚ}

theorem returned_iff {ids : List ℕ} {f F : ℕ → ℚ} (h : ∀ i < ids.length, f i = F (ids.getD i 0)) :
    (if 32768 ≤ ids.length then none else some ((List.range ids.length).map f)) =
      some (ids.map g) ↔ ids.length < 32768 ∧ ∀ id ∈ ids, F id = g id := by
  rw [map_range_eq h]
  split_ifs with hlen
  · exact iff_of_false (fun hc => by cases hc) fun hc => Nat.not_lt.2 hlen hc.1
  · rw [Option.some.injEq, map_inj_left]
    exact ⟨fun hall => ⟨Nat.lt_of_not_le hlen, hall⟩, And.right⟩

theorem computePqDists_eq_iff : cd.computePqDists b t₁ t₂ src ids = some (ids.map g) ↔
      ids.length < 32768 ∧ ∀ id ∈ ids, cd.entrySum t₁ t₂ (cd.entries b src id) = g id := by
  refine returned_iff fun i hi => ?_
  split_ifs with hb
  · exact crossDists_eq hi hb
  · exact computeDistancesAlltoall_eq hi hb

theorem computePqDistsDoublepq_eq_iff :
    cd.computePqDistsDoublepq b t₁ t₂ src ids = some (ids.map g) ↔
      ids.length < 32768 ∧ ∀ id ∈ ids, cd.entrySum t₁ t₂ (cd.doublepqEntries b src id) = g id :=
  returned_iff fun _ hi => doublepqDists_eq hi

theorem inRange_exactEntries (src id : ℕ) : cd.InRange (cd.exactEntries src id) := fun _ hc => hc

theorem inRange_entries (b : Build) (src id : ℕ) : cd.InRange (cd.entries b src id) :=
  fun _ hc => hc

theorem inRange_doublepqEntries (b : Build) (src id : ℕ) :
    cd.InRange (cd.doublepqEntries b src id) := by
  intro c hc
  have hmod : ∀ k, k % cd.nChunks < cd.nChunks := fun k => Nat.mod_lt k (Nat.zero_lt_of_lt hc)
  rw [doublepqEntries]
  split_ifs
  · exact hc
  · exact hmod _
  · exact hmod _

/-- With two tables, and branches within 32 bits of index, `compute_pq_dists` is right. -/
theorem computePqDists_exact (hb : b.useDoublePq = true) (hlen : ids.length < 32768)
    (hsrc : (src + 1) * cd.nChunks ≤ 2 ^ 32) (hids : ∀ id ∈ ids, (id + 1) * cd.nChunks ≤ 2 ^ 32) :
    cd.computePqDists b t₁ t₂ src ids = some (ids.map (cd.exactDist t₁ t₂ src)) := by
  refine computePqDists_eq_iff.2 ⟨hlen, fun id hid => sum_congr rfl fun c hc => ?_⟩
  have hlt := hids id hid
  rw [Nat.succ_mul] at hsrc hlt
  rw [Finset.mem_range] at hc
  rw [entries, if_pos hb, if_pos hb, u32_of_lt (by omega), u32_of_lt (by omega)]
  rfl

/-- For all pivot tables the distances are right, exactly when the functions take entries of the
right pairs. -/
theorem distsRight_iff (cd : PqCodes) (b : Build) (src : ℕ) (ids : List ℕ) :
    (∀ t₁ t₂, cd.DistsRight b t₁ t₂ src ids) ↔ ids.length < 32768 ∧ ∀ id ∈ ids,
      cd.SamePairs (cd.entries b src id) (cd.exactEntries src id) ∧
        cd.SamePairs (cd.doublepqEntries b src id) (cd.exactEntries src id) := by
  have hsame : ∀ id, cd.SamePairs (cd.entries b src id) (cd.exactEntries src id) ∧
      cd.SamePairs (cd.doublepqEntries b src id) (cd.exactEntries src id) ↔ ∀ t₁ t₂,
        cd.entrySum t₁ t₂ (cd.entries b src id) = cd.exactDist t₁ t₂ src id ∧
          cd.entrySum t₁ t₂ (cd.doublepqEntries b src id) = cd.exactDist t₁ t₂ src id := by
    intro id
    rw [samePairs_iff (inRange_entries b src id) (inRange_exactEntries src id),
      samePairs_iff (inRange_doublepqEntries b src id) (inRange_exactEntries src id)]
    exact ⟨fun h t₁ t₂ => ⟨h.1 t₁ t₂, h.2 t₁ t₂⟩,
      fun h => ⟨fun t₁ t₂ => (h t₁ t₂).1, fun t₁ t₂ => (h t₁ t₂).2⟩⟩
  simp only [DistsRight, computePqDists_eq_iff, computePqDistsDoublepq_eq_iff, hsame]
  constructor
  · intro h
    exact ⟨(h (fun _ => 0) fun _ => 0).1.1,
      fun id hid t₁ t₂ => ⟨(h t₁ t₂).1.2 id hid, (h t₁ t₂).2.2 id hid⟩⟩
  · rintro ⟨hlen, h⟩ t₁ t₂
    exact ⟨⟨hlen, fun id hid => (h id hid t₁ t₂).1⟩, hlen, fun id hid => (h id hid t₁ t₂).2⟩

end PqCodes

theorem oneChunk_le : 1 ≤ maxPqChunks := by decide

theorem oneChunk_mono : Monotone fun c : ℕ => min c 1 := fun _ _ h => min_le_min_right 1 h

theorem oneChunk_end : min 1 1 ≤ 1 := by decide

theorem twoCodes_lt (k : ℕ) : (if k = 1 then 1 else 0) < 256 := by
  split_ifs <;> decide

theorem noBranch_lt (_ : ℕ) : 0 < 2 := Nat.two_pos

/-- Two points of one dimension, of the first two centroids of the first table. -/
def twoPoints : PqCodes where
  nChunks := 1
  ndims := 1
  chunkOffsets := fun c => min c 1
  data := fun k => if k = 1 then 1 else 0
  mapBytes := fun _ => 0
  nChunks_le := oneChunk_le
  offsets_mono := oneChunk_mono
  offsets_le := oneChunk_end
  data_lt := twoCodes_lt
  mapBytes_lt := noBranch_lt

theorem computePqDists_twoPoints :
    twoPoints.computePqDists ⟨true, true⟩ (fun k => k) (fun k => k) 0 [0, 1] =
      some ([0, 1].map (twoPoints.exactDist (fun k => k) (fun k => k) 0)) :=
  PqCodes.computePqDists_exact rfl (by decide) (by decide) (by decide)

/-- The centroids are one apart, and the distance is zero. -/
theorem not_distsRight_twoPoints : twoPoints.computePqDistsDoublepq ⟨true, true⟩ (fun k => k)
    (fun _ => 0) 0 [1] = some [0] ∧ ¬ twoPoints.DistsRight ⟨true, true⟩ (fun k => k) (fun _ => 0) 0
      [1] := by
  have hzero : twoPoints.entrySum (fun k => (k : ℚ)) (fun _ => 0)
      (twoPoints.doublepqEntries ⟨true, true⟩ 0 1) = 0 := by decide +kernel
  have hone : twoPoints.exactDist (fun k => (k : ℚ)) (fun _ => 0) 0 1 = 1 := by decide +kernel
  refine ⟨(PqCodes.computePqDistsDoublepq_eq_iff (g := fun _ => 0)).2
    ⟨by decide, fun id hid => ?_⟩, fun h => ?_⟩
  · obtain rfl := List.mem_singleton.1 hid
    exact hzero
  · have hdist := (PqCodes.computePqDistsDoublepq_eq_iff.1 h.2).2 1 (List.mem_singleton_self 1)
    rw [hzero, hone] at hdist
    exact zero_ne_one hdist

end PqDists

end DiskANNEval.DGAI
