import DiskANNEval.PageANN.PageRecord

/-!
# PageRoundTrip — what is written to a page is read back

If the writes of a sector stay in it, the loops of the search read from it the vectors, the ids and the
codes that were written (`Written`).  They stay in it where `get_optimal_page_degree_nnodes_per_page`
did not subtract more than there was; the loop over the vectors then ends for up to 255 nodes.
-/

namespace DiskANNEval.PageANN

open Lib List Option

variable {D : Type}

namespace PageBuild

variable {b : PageBuild D}

/-! ### Codes -/

variable (b) in
/-- The PQ code of the node with a new id. -/
def codeOf (x : ℕ) : List UInt8 := b.pq (b.merged.newToOriginal[x]?.getD 0)

theorem newToOriginal_newId {id : ℕ} (hid : id < b.merge.npts) :
    b.merged.newToOriginal[b.newId id]? = some id := by
  rw [(pageOf_spec hid).2]
  exact b.ok.inverse id hid

theorem newId_lt {id : ℕ} (hid : id < b.merge.npts) : b.newId id < b.merge.npts := by
  rw [← b.ok.length]
  exact (List.getElem?_eq_some_iff.1 (newToOriginal_newId hid)).1

theorem newId_inj {i j : ℕ} (hi : i < b.merge.npts) (hj : j < b.merge.npts)
    (h : b.newId i = b.newId j) : i = j := by
  have hi' := newToOriginal_newId hi
  rw [h, newToOriginal_newId hj] at hi'
  exact (Option.some.inj hi').symm

theorem codeOf_newId {id : ℕ} (hid : id < b.merge.npts) : b.codeOf (b.newId id) = b.pq id := by
  rw [codeOf, newToOriginal_newId hid]
  rfl

theorem IsNew.lt {x : ℕ} (h : b.IsNew x) : x < b.merge.npts := by
  obtain ⟨id, hid, rfl⟩ := h
  exact newId_lt hid

theorem slot_end_le {x n w : ℕ} (h : x < n) : x * w + w ≤ n * w := by
  rw [← Nat.succ_mul]
  exact Nat.mul_le_mul_right w h

theorem exists_reorder {olds : List ℕ} (holds : ∀ old ∈ olds, old < b.merge.npts)
    (hnodup : olds.Nodup) {buf : List UInt8} (hlen : buf.length = b.merge.npts * b.pqSize) :
    ∃ buf', olds.foldlM (fun buf old =>
        if old ∈ b.pageOf old then write buf (b.newId old * b.pqSize) (b.pq old) else some buf) buf =
        some buf' ∧
      buf'.length = b.merge.npts * b.pqSize ∧
      (∀ old ∈ olds, slice buf' (b.newId old * b.pqSize) b.pqSize = b.pq old) ∧
      ∀ old < b.merge.npts, old ∉ olds →
        slice buf' (b.newId old * b.pqSize) b.pqSize = slice buf (b.newId old * b.pqSize) b.pqSize := by
  induction olds generalizing buf with
  | nil => exact ⟨buf, rfl, hlen, fun old h => absurd h not_mem_nil, fun _ _ _ => rfl⟩
  | cons old olds ih =>
    have hold := holds old mem_cons_self
    obtain ⟨hnot, hnodup⟩ := nodup_cons.1 hnodup
    have hpq := b.pq_length old
    obtain ⟨buf₁, h₁⟩ : ∃ buf₁, write buf (b.newId old * b.pqSize) (b.pq old) = some buf₁ :=
      write_isSome (by rw [hpq, hlen]; exact slot_end_le (newId_lt hold))
    obtain ⟨buf', h', hlen', hmem, hother⟩ := ih (fun i hi => holds i (mem_cons_of_mem _ hi))
      hnodup ((length_write h₁).trans hlen)
    refine ⟨buf', ?_, hlen', fun i hi => ?_, fun i hi hni => ?_⟩
    · rw [foldlM_cons, if_pos (pageOf_spec hold).1, h₁]
      exact h'
    · rcases mem_cons.1 hi with rfl | hi
      · rw [hother i hold hnot]
        have hsame := slice_write_same h₁
        rwa [hpq] at hsame
      · exact hmem i hi
    · rw [mem_cons, not_or] at hni
      rw [hother i hi hni.2]
      -- the places of two nodes are apart
      rcases Nat.lt_or_gt_of_ne (fun heq => hni.1 (newId_inj hi hold heq)) with hlt | hgt
      · exact slice_write_before h₁ (slot_end_le hlt)
      · exact slice_write_after h₁ (by rw [hpq]; exact slot_end_le hgt)

variable (b) in
theorem exists_reorderPq : ∃ buf, b.reorderPq = some buf ∧
    buf.length = b.merge.npts * b.pqSize ∧
    ∀ x, b.IsNew x → slice buf (x * b.pqSize) b.pqSize = b.codeOf x := by
  obtain ⟨buf, hbuf, hlen, hmem, -⟩ := exists_reorder
    (fun old hold => List.mem_range.1 hold) nodup_range
    (length_replicate)
  refine ⟨buf, hbuf, hlen, ?_⟩
  rintro x ⟨id, hid, rfl⟩
  rw [hmem id (List.mem_range.2 hid), codeOf_newId hid]

variable {buf reorder : List UInt8} {page : List ℕ} {l : PageLists}

theorem mapM_readSlice (hlen : reorder.length = b.merge.npts * b.pqSize)
    (hcode : ∀ x, b.IsNew x → slice reorder (x * b.pqSize) b.pqSize = b.codeOf x) {ids : List ℕ}
    (hids : ∀ x ∈ ids, b.IsNew x) :
    ids.mapM (fun x => readSlice reorder (x * b.pqSize) b.pqSize) = some (ids.map b.codeOf) := by
  apply mapM_eq_some_map
  intro x hx
  rw [readSlice_eq_some, hlen]
  exact ⟨slot_end_le (hids x hx).lt, hcode x (hids x hx)⟩

/-! ### Sectors -/

theorem length_codeOf (x : ℕ) : (b.codeOf x).length = b.pqSize := b.pq_length _

theorem length_curVec (id : ℕ) : (b.curVec id).length = b.alignedDim * b.typeByte := by
  have hle : b.nodeLen ≤ b.alignedDim * b.typeByte := by
    apply Nat.mul_le_mul_right
    unfold PageBudget.alignedDim
    omega
  rw [curVec, length_append, length_replicate, b.vector_length]
  unfold PageBudget.nodeLen at hle ⊢
  omega

theorem take_curVec (id : ℕ) : (b.curVec id).take b.nodeLen = b.vector id := by
  rw [curVec, take_append_of_le_length (by rw [b.vector_length]; rfl), take_of_length_le]
  rw [b.vector_length]
  rfl

variable (b) in
/-- What the sector of a page holds. -/
structure Holds (page : List ℕ) (l : PageLists) (buf : List UInt8) : Prop where
  length : buf.length = sectorLen
  vectors : ∀ k id, page[k]? = some id → slice buf (k * b.nodeLen) b.nodeLen = b.vector id
  numCached : slice buf b.countsOff 2 = leBytes 2 l.cached.length
  numUncached : slice buf (b.countsOff + 2) 2 = leBytes 2 l.uncached.length
  cached : slice buf b.idsOff (l.cached.length * 4) = leList 4 l.cached
  uncached : slice buf (b.idsOff + l.cached.length * 4) (l.uncached.length * 4) = leList 4 l.uncached
  codes : ∀ j x, l.uncached[j]? = some x →
    slice buf (b.idsOff + l.cached.length * 4 + l.uncached.length * 4 + j * b.pqSize) b.pqSize =
      b.codeOf x
  fits : b.idsOff + l.cached.length * 4 + l.uncached.length * 4 ≤ sectorLen

theorem holds_of_sectorBytes (hpage : page.length = b.nnodesPerSector)
    (hcodes : l.uncached.mapM (fun x => readSlice reorder (x * b.pqSize) b.pqSize) =
      some (l.uncached.map b.codeOf))
    (h : b.sectorBytes reorder page l = some buf) : b.Holds page l buf := by
  obtain ⟨buf₁, h₁, h⟩ := bind_eq_some_iff.1 h
  obtain ⟨buf₂, h₂, h⟩ := bind_eq_some_iff.1 h
  obtain ⟨buf₃, h₃, h⟩ := bind_eq_some_iff.1 h
  obtain ⟨buf₄, h₄, h⟩ := bind_eq_some_iff.1 h
  obtain ⟨buf₅, h₅, h⟩ := bind_eq_some_iff.1 h
  have h : writeEach b.pqSize buf₅ (b.idsOff + l.cached.length * 4 + l.uncached.length * 4)
      (l.uncached.map b.codeOf) = some buf := by
    rw [hcodes] at h
    exact h
  obtain ⟨hlen₁, -, hvec⟩ := writeEach_spec h₁
  obtain ⟨hlen₆, hbefore₆, hcode⟩ := writeEach_spec h
  have hids : b.idsOff = b.countsOff + 2 + 2 := rfl
  have hfit₅ := (write_eq_some h₅).1
  have hlen : buf₅.length = sectorLen := by
    rw [length_write h₅, length_write h₄, length_write h₃, length_write h₂, hlen₁,
      length_replicate]
  rw [← length_write h₅, hlen, length_leList] at hfit₅
  -- each write is behind the ones before
  have hb₂ : ∀ o w, o + w ≤ b.countsOff + 2 → slice buf o w = slice buf₂ o w := by
    intro o w ho
    rw [hbefore₆ o w (by omega), slice_write_before h₅ (by omega), slice_write_before h₄ (by omega),
      slice_write_before h₃ ho]
  refine ⟨hlen₆.trans hlen, fun k id hk => ?_, ?_, ?_, ?_, ?_, fun j x hx => ?_, hfit₅⟩
  · have hklt : k + 1 ≤ b.nnodesPerSector := by
      rw [← hpage]
      exact (List.getElem?_eq_some_iff.1 hk).1
    have hend := Nat.mul_le_mul_right b.nodeLen hklt
    rw [Nat.succ_mul] at hend
    have hend' : k * b.nodeLen + b.nodeLen ≤ b.countsOff := hend
    obtain ⟨-, hslice⟩ := hvec k (b.curVec id) (by rw [getElem?_map, hk]; rfl)
    rw [hb₂ _ _ (by omega), slice_write_before h₂ hend']
    rw [Nat.zero_add] at hslice
    have hlen : b.nodeLen ≤ (b.curVec id).length := by
      rw [length_curVec]
      exact Nat.mul_le_mul_right _ (by unfold PageBudget.alignedDim; omega)
    rw [hslice b.nodeLen le_rfl hlen, take_curVec]
  · rw [hb₂ _ _ le_rfl]
    have hsame := slice_write_same h₂
    rwa [length_leBytes] at hsame
  · rw [hbefore₆ _ _ (by omega), slice_write_before h₅ (by omega), slice_write_before h₄ (by omega)]
    have hsame := slice_write_same h₃
    rwa [length_leBytes] at hsame
  · rw [hbefore₆ _ _ (by omega), slice_write_before h₅ (by omega)]
    have hsame := slice_write_same h₄
    rwa [length_leList] at hsame
  · rw [hbefore₆ _ _ (by omega)]
    have hsame := slice_write_same h₅
    rwa [length_leList] at hsame
  · obtain ⟨-, hslice⟩ := hcode j (b.codeOf x) (by rw [getElem?_map, hx]; rfl)
    rw [hslice b.pqSize le_rfl (length_codeOf x).ge, take_of_length_le (length_codeOf x).le]

theorem exists_sectorBytes (hfits : b.Fits b.pageGraphDegree b.nnodesPerSector)
    (hpage : page.length = b.nnodesPerSector)
    (hroom : b.pageBytes l.cached.length l.uncached.length ≤ sectorLen)
    (hcodes : l.uncached.mapM (fun x => readSlice reorder (x * b.pqSize) b.pqSize) =
      some (l.uncached.map b.codeOf)) : ∃ buf, b.sectorBytes reorder page l = some buf := by
  unfold pageBytes at hroom
  rw [Nat.mul_add] at hroom
  have hcounts : b.countsOff = b.nnodesPerSector * b.nodeLen := rfl
  have hids : b.idsOff = b.countsOff + 2 + 2 := rfl
  obtain ⟨buf₁, h₁⟩ : ∃ buf₁, writeEach b.nodeLen (replicate sectorLen 0) 0
      (page.map b.curVec) = some buf₁ := by
    apply exists_writeEach
    intro j p hp
    rw [getElem?_map] at hp
    obtain ⟨id, hid, rfl⟩ := map_eq_some_iff.1 hp
    have hj : j ≤ b.nnodesPerSector - 1 := by
      have hlt := (List.getElem?_eq_some_iff.1 hid).1
      omega
    have hmul := Nat.mul_le_mul_right b.nodeLen hj
    have haligned := hfits.aligned
    rw [length_curVec, length_replicate]
    omega
  have hlen₁ := (writeEach_spec h₁).1
  rw [length_replicate] at hlen₁
  obtain ⟨buf₂, h₂⟩ : ∃ buf₂, write buf₁ b.countsOff (leBytes 2 l.cached.length) = some buf₂ :=
    write_isSome (by rw [length_leBytes]; omega)
  have hlen₂ := length_write h₂
  obtain ⟨buf₃, h₃⟩ : ∃ buf₃, write buf₂ (b.countsOff + 2) (leBytes 2 l.uncached.length) = some buf₃ :=
    write_isSome (by rw [length_leBytes]; omega)
  have hlen₃ := length_write h₃
  obtain ⟨buf₄, h₄⟩ : ∃ buf₄, write buf₃ b.idsOff (leList 4 l.cached) = some buf₄ :=
    write_isSome (by rw [length_leList]; omega)
  have hlen₄ := length_write h₄
  obtain ⟨buf₅, h₅⟩ : ∃ buf₅, write buf₄ (b.idsOff + l.cached.length * 4) (leList 4 l.uncached) =
      some buf₅ := write_isSome (by rw [length_leList]; omega)
  have hlen₅ := length_write h₅
  obtain ⟨buf₆, h₆⟩ : ∃ buf₆, writeEach b.pqSize buf₅
      (b.idsOff + l.cached.length * 4 + l.uncached.length * 4) (l.uncached.map b.codeOf) =
      some buf₆ := by
    apply exists_writeEach
    intro j p hp
    rw [getElem?_map] at hp
    obtain ⟨x, hx, rfl⟩ := map_eq_some_iff.1 hp
    have hend := slot_end_le (w := b.pqSize) (List.getElem?_eq_some_iff.1 hx).1
    rw [length_codeOf]
    omega
  exact ⟨buf₆, bind_eq_some_iff.2 ⟨buf₁, h₁, bind_eq_some_iff.2 ⟨buf₂, h₂,
    bind_eq_some_iff.2 ⟨buf₃, h₃, bind_eq_some_iff.2 ⟨buf₄, h₄,
      bind_eq_some_iff.2 ⟨buf₅, h₅, bind_eq_some_iff.2 ⟨_, hcodes, h₆⟩⟩⟩⟩⟩⟩⟩

/-! ### The parser -/

variable (b) in
/-- The parameters are those of the index. -/
structure OfIndex (par : PageParams) : Prop where
  bytes : par.diskBytesPerPoint = b.nodeLen
  maxNodeLen : par.maxNodeLen = b.nodeLen
  nnodes : par.nnodesPerSector = b.nnodesPerSector
  nChunks : par.nChunks = b.pqSize
  numPoints : ∃ n, par.numPoints = b.nnodesPerSector * n

variable (b) in
/-- The parser finds what was written. -/
structure ReadsBack (par : PageParams) (p : ℕ) (sector : List UInt8) (page : List ℕ)
    (l : PageLists) : Prop where
  vectors : par.vectors p sector = some (page.map b.vector)
  cached : par.cachedNbrs sector = l.cached
  uncached : par.uncachedNbrs sector = l.uncached
  codes : par.uncachedPq sector = l.uncached.map b.codeOf

variable {par : PageParams}

theorem OfIndex.numNodes (hpar : b.OfIndex par) (p : ℕ) : par.numNodes p = b.nnodesPerSector := by
  obtain ⟨n, hn⟩ := hpar.numPoints
  unfold PageParams.numNodes
  rw [hn, hpar.nnodes, Nat.mul_mod_right, if_pos rfl, ite_self]

theorem Holds.lists (h : b.Holds page l buf) (hpar : b.OfIndex par)
    (hids : ∀ x ∈ l.cached ++ l.uncached, x < 2 ^ 32) :
    par.cachedNbrs buf = l.cached ∧ par.uncachedNbrs buf = l.uncached ∧
      par.uncachedPq buf = l.uncached.map b.codeOf := by
  have hfits := h.fits
  have hspace : par.allFullVectorSpace = b.countsOff := by
    rw [PageParams.allFullVectorSpace, hpar.nnodes, hpar.maxNodeLen]
    rfl
  have hsector : sectorLen = 4096 := rfl
  have hc : par.numCachedNbrs buf = l.cached.length := by
    rw [PageParams.numCachedNbrs, hspace, h.numCached, leNat_leBytes]
    exact Nat.mod_eq_of_lt (by omega)
  have hu : par.numUncachedNbrs buf = l.uncached.length := by
    rw [PageParams.numUncachedNbrs, hspace, h.numUncached, leNat_leBytes]
    exact Nat.mod_eq_of_lt (by omega)
  have hnbr : par.pageNbr buf = fun k => leNat (slice buf (b.idsOff + k * 4) 4) := by
    funext k
    rw [PageParams.pageNbr, hspace]
    rfl
  refine ⟨?_, ?_, ?_⟩
  · unfold PageParams.cachedNbrs
    rw [hc, hnbr]
    exact map_leNat_eq h.cached fun x hx => hids x (mem_append_left _ hx)
  · unfold PageParams.uncachedNbrs
    rw [hu, hc, hnbr]
    simp only [Nat.add_mul, ← Nat.add_assoc]
    exact map_leNat_eq h.uncached fun x hx => hids x (mem_append_right _ hx)
  · unfold PageParams.uncachedPq
    rw [hu]
    have hlen : l.uncached.length = (l.uncached.map b.codeOf).length := (length_map _).symm
    rw [hlen]
    refine map_range_eq fun k x hk => ?_
    rw [getElem?_map] at hk
    obtain ⟨y, hy, rfl⟩ := map_eq_some_iff.1 hk
    rw [PageParams.pagePq, hspace, hpar.nChunks, ← h.codes k y hy, Nat.add_mul]
    congr 1
    show b.idsOff + (_ + _) + _ = _
    omega

theorem Holds.readsBack_iff (h : b.Holds page l buf) (hpar : b.OfIndex par)
    (hpage : page.length = b.nnodesPerSector) (hids : ∀ x ∈ l.cached ++ l.uncached, x < 2 ^ 32)
    (p : ℕ) : b.ReadsBack par p buf page l ↔ b.nnodesPerSector ≤ 255 := by
  have hnum := hpar.numNodes p
  constructor
  · intro hread
    have hvec := hread.vectors
    unfold PageParams.vectors at hvec
    split_ifs at hvec with hlt
    omega
  · intro hle
    obtain ⟨hc, hu, hcodes⟩ := h.lists hpar hids
    refine ⟨?_, hc, hu, hcodes⟩
    unfold PageParams.vectors
    rw [if_pos (by omega), hnum, ← hpage]
    congr 1
    have hlen : page.length = (page.map b.vector).length := (length_map _).symm
    rw [hlen]
    refine map_range_eq fun k x hk => ?_
    rw [getElem?_map] at hk
    obtain ⟨id, hid, rfl⟩ := map_eq_some_iff.1 hk
    rw [PageParams.nodeCoords, hpar.bytes, hpar.maxNodeLen]
    exact h.vectors k id hid

end PageBuild

end DiskANNEval.PageANN
