import DiskANNEval.PageANN.PageRoundTrip

/-!
# PageFile — the index as a whole

The header gives the parser the parameters that the sectors were written with, and the sector of a
page is where the search reads it.
-/

namespace DiskANNEval.PageANN

open Lib List Option

variable {D : Type}

namespace PageBuild

variable {b : PageBuild D} {fuel : ℕ} {out : DiskLayout}

/-! ### Sectors -/

variable (b) in
/-- What is known of an index that was written. -/
structure Layout (out : DiskLayout) : Prop where
  filled : b.AllFilled b.merged.mergedNodes ∅ out.cachedPq out.lists
  length : out.reorderPq.length = b.merge.npts * b.pqSize
  codes : ∀ x, b.IsNew x → slice out.reorderPq (x * b.pqSize) b.pqSize = b.codeOf x
  header : ∃ rest, out.file = b.header out.lists ++ rest
  sector : ∀ p page l, b.merged.mergedNodes[p]? = some page → out.lists[p]? = some l →
    b.Holds page l (sectorOf out.file p)

theorem length_fileMeta (ls : List PageLists) : (b.fileMeta ls).length = 9 := rfl

theorem length_header (ls : List PageLists) : (b.header ls).length = sectorLen := by
  unfold header
  rw [length_append, length_append,
    length_leList, length_fileMeta, length_replicate]
  rfl

theorem layout_of_createDiskLayout (h : b.createDiskLayout fuel = some out) : b.Layout out := by
  obtain ⟨reorder, hreorder, hlen, hcodes⟩ := exists_reorderPq b
  obtain ⟨reorder', hreorder', h⟩ := bind_eq_some_iff.1 h
  obtain rfl := Option.some.inj (hreorder.symm.trans hreorder')
  obtain ⟨⟨ls, cachedPq⟩, hls, h⟩ := bind_eq_some_iff.1 h
  obtain ⟨sectors, hsectors, h⟩ := bind_eq_some_iff.1 h
  cases h
  have hfilled := allFilled_of_allLists hls
  have hholds : ∀ page l buf, page ∈ b.merged.mergedNodes → l ∈ ls →
      b.sectorBytes reorder page l = some buf → b.Holds page l buf := by
    intro page l buf hpage hl hbuf
    exact holds_of_sectorBytes (b.ok.slots page hpage)
      (mapM_readSlice hlen hcodes (hfilled.listed l hl).uncached) hbuf
  have hlens : ∀ buf ∈ sectors, buf.length = sectorLen := by
    intro buf hbuf
    obtain ⟨⟨page, l⟩, hmem, hbuf⟩ := exists_of_mem_mapM hsectors hbuf
    obtain ⟨hpage, hl⟩ := of_mem_zip hmem
    exact (hholds page l buf hpage hl hbuf).length
  refine ⟨hfilled, hlen, hcodes, ⟨_, rfl⟩, fun p page l hp hl => ?_⟩
  obtain ⟨buf, hget, hbuf⟩ := getElem?_of_mapM hsectors
    (getElem?_zip_eq_some.2 ⟨hp, hl⟩ :
      (b.merged.mergedNodes.zip ls)[p]? = some (page, l))
  obtain ⟨hlt, hget⟩ := List.getElem?_eq_some_iff.1 hget
  have hsector : sectorOf (b.header ls ++ sectors.flatten) p = buf := by
    rw [sectorOf, Nat.succ_mul, slice_append_right (by rw [length_header]; omega), length_header,
      Nat.add_sub_cancel, slice_flatten hlens hlt, hget]
  show b.Holds page l (sectorOf (b.header ls ++ sectors.flatten) p)
  rw [hsector]
  exact hholds page l buf (mem_of_getElem? hp) (mem_of_getElem? hl) hbuf

theorem exists_createDiskLayout (hfits : b.Fits b.pageGraphDegree b.nnodesPerSector) :
    ∃ fuel out, b.createDiskLayout fuel = some out := by
  obtain ⟨reorder, hreorder, hlen, hcodes⟩ := exists_reorderPq b
  obtain ⟨fuel, ls, after, hls, hfilled⟩ := exists_allLists b
  obtain ⟨sectors, hsectors⟩ := exists_mapM (f := fun x : List ℕ × PageLists =>
      b.sectorBytes reorder x.1 x.2) (by
    rintro ⟨page, l⟩ hmem
    obtain ⟨hpage, hl⟩ := of_mem_zip hmem
    exact exists_sectorBytes hfits (b.ok.slots page hpage) (hfilled.room hfits l hl)
      (mapM_readSlice hlen hcodes (hfilled.listed l hl).uncached))
  exact ⟨fuel, _, bind_eq_some_iff.2 ⟨reorder, hreorder,
    bind_eq_some_iff.2 ⟨_, hls, bind_eq_some_iff.2 ⟨sectors, hsectors, rfl⟩⟩⟩⟩

theorem fits_of_build {fuel deg n : ℕ} (hopt : b.getOptimal fuel = some (deg, n))
    (hdeg : b.pageGraphDegree = deg % 2 ^ 32) (hn : b.nnodesPerSector = n % 2 ^ 32)
    (hover : b.overhead deg ≤ sectorLen) : b.Fits b.pageGraphDegree b.nnodesPerSector := by
  have hnn : 0 < b.nnodesPerSector := b.merge.nnodes_pos
  have hpos : 0 < n := by
    rcases Nat.eq_zero_or_pos n with h | h
    · rw [h] at hn
      omega
    · exact h
  have hfits := PageBudget.fits_of_getOptimal hopt hpos hover
  have hle := PageBudget.le_overhead (b := b.toPageBudget) deg
  have hroom := hfits.le
  have hsector : sectorLen = 4096 := rfl
  rw [Nat.mod_eq_of_lt (by omega)] at hdeg hn
  rwa [← hdeg, ← hn] at hfits

/-! ### The header -/

theorem readLe_header (ls : List PageLists) (rest : List UInt8) {k x : ℕ}
    (hk : (b.fileMeta ls)[k]? = some x) :
    readLe 8 (b.header ls ++ rest) (8 + k * 8) = some (x % 2 ^ 64) := by
  obtain ⟨hlt, hget⟩ := List.getElem?_eq_some_iff.1 hk
  have hlen := length_header (b := b) ls
  have hmeta : (leList 8 (b.fileMeta ls)).length = 72 := by rw [length_leList, length_fileMeta]
  have hsector : sectorLen = 4096 := rfl
  rw [length_fileMeta] at hlt
  apply readLe_of_slice
  · rw [length_append]
    omega
  · rw [slice_append_left (by omega), header, append_assoc, slice_append_right, length_append,
      length_leBytes, length_leBytes, slice_append_left, ← hget, ← slice_leList, Nat.add_sub_cancel_left]
    · rw [hmeta]
      omega
    · rw [length_append, length_leBytes, length_leBytes]
      omega

theorem length_mergedNodes_le (b : PageBuild D) :
    1 ≤ b.merged.mergedNodes.length ∧ b.merged.mergedNodes.length ≤ b.merge.npts := by
  have hpos := b.merge.npts_pos
  have hnn := b.merge.nnodes_pos
  rw [b.ok.count]
  constructor
  · rw [Nat.one_le_div_iff hnn]
    omega
  · apply Nat.div_le_of_le_mul
    rw [Nat.mul_comm]
    exact Nat.add_sub_one_le_mul hpos.ne' hnn.ne'

theorem Layout.small (h : b.Layout out) :
    b.nnodesPerSector * b.nodeLen ≤ sectorLen ∧ b.nnodesPerSector ≤ sectorLen ∧
      b.nodeLen ≤ sectorLen ∧ b.dimension ≤ sectorLen := by
  obtain ⟨hpos, -⟩ := length_mergedNodes_le b
  have hlen := h.filled.length
  obtain ⟨page, hpage⟩ : ∃ page, b.merged.mergedNodes[0]? = some page :=
    ⟨_, getElem?_eq_getElem hpos⟩
  obtain ⟨l, hl⟩ : ∃ l, out.lists[0]? = some l := ⟨_, getElem?_eq_getElem (by omega)⟩
  have hfits := (h.sector 0 page l hpage hl).fits
  unfold idsOff countsOff at hfits
  have hmul : b.nnodesPerSector * b.nodeLen ≤ sectorLen := by omega
  have hnode := PageBudget.nodeLen_pos (b := b.toPageBudget)
  have hnn : 0 < b.nnodesPerSector := b.merge.nnodes_pos
  have hnodeLen := (Nat.le_mul_of_pos_left b.nodeLen hnn).trans hmul
  refine ⟨hmul, (Nat.le_mul_of_pos_right _ hnode).trans hmul, hnodeLen, ?_⟩
  refine (Nat.le_mul_of_pos_right b.dimension ?_).trans hnodeLen
  exact Nat.pos_of_mul_pos_left hnode

theorem Layout.loadParams_eq (h : b.Layout out) :
    loadParams b.typeByte b.pqSize out.file =
      if maxPqChunks < b.pqSize then none
      else if maxGraphDegree < maxDeg out.lists % 2 ^ 64 then none
      else some ⟨b.nnodesPerSector * b.merged.mergedNodes.length, b.dimension, b.typeByte, b.nodeLen,
        b.nnodesPerSector, b.pqSize, maxDeg out.lists % 2 ^ 64⟩ := by
  obtain ⟨rest, hrest⟩ := h.header
  obtain ⟨-, hnn, hnode, hdim⟩ := h.small
  obtain ⟨-, hpages⟩ := length_mergedNodes_le b
  have hnpts := b.merge.npts_lt
  have hsector : sectorLen = 4096 := rfl
  have hpoints : b.nnodesPerSector * b.merged.mergedNodes.length < 2 ^ 64 :=
    (Nat.mul_le_mul hnn (hpages.trans hnpts.le)).trans_lt (by rw [hsector]; norm_num)
  unfold loadParams
  rw [hrest, readLe_header out.lists rest (k := 0) rfl,
    readLe_header out.lists rest (k := 1) rfl,
    readLe_header out.lists rest (k := 4) rfl,
    readLe_header out.lists rest (k := 5) rfl,
    readLe_header out.lists rest (k := 7) rfl,
    Nat.mod_eq_of_lt hpoints, Nat.mod_eq_of_lt (by omega : b.dimension < 2 ^ 64),
    Nat.mod_eq_of_lt (by omega : b.nodeLen < 2 ^ 64),
    Nat.mod_eq_of_lt (by omega : b.nnodesPerSector < 2 ^ 64)]
  rfl

theorem Layout.ofIndex (h : b.Layout out) {par : PageParams}
    (hpar : loadParams b.typeByte b.pqSize out.file = some par) : b.OfIndex par := by
  rw [h.loadParams_eq] at hpar
  split_ifs at hpar
  cases hpar
  exact ⟨rfl, rfl, rfl, rfl, _, rfl⟩

theorem Layout.lt_of_mem (h : b.Layout out) {l : PageLists} (hl : l ∈ out.lists) {x : ℕ}
    (hx : x ∈ l.cached ++ l.uncached) : b.IsNew x := by
  rcases mem_append.1 hx with hx | hx
  · exact ((h.filled.listed l hl).cached x hx).2
  · exact (h.filled.listed l hl).uncached x hx

theorem Layout.readsBack_iff (h : b.Layout out) {par : PageParams}
    (hpar : loadParams b.typeByte b.pqSize out.file = some par) :
    (∀ p page l, b.merged.mergedNodes[p]? = some page → out.lists[p]? = some l →
      b.ReadsBack par p (sectorOf out.file p) page l) ↔ b.nnodesPerSector ≤ 255 := by
  have hpage : ∀ p page l, b.merged.mergedNodes[p]? = some page → out.lists[p]? = some l →
      (b.ReadsBack par p (sectorOf out.file p) page l ↔ b.nnodesPerSector ≤ 255) := by
    intro p page l hp hl
    refine (h.sector p page l hp hl).readsBack_iff (h.ofIndex hpar)
      (b.ok.slots page (mem_of_getElem? hp)) (fun x hx => ?_) p
    exact (h.lt_of_mem (mem_of_getElem? hl) hx).lt.trans b.merge.npts_lt
  constructor
  · intro hall
    obtain ⟨hpos, -⟩ := length_mergedNodes_le b
    have hlen := h.filled.length
    have hp : b.merged.mergedNodes[0]? = some b.merged.mergedNodes[0] :=
      getElem?_eq_getElem hpos
    have hl : out.lists[0]? = some (out.lists.get ⟨0, by omega⟩) := getElem?_eq_getElem _
    exact (hpage 0 _ _ hp hl).1 (hall 0 _ _ hp hl)
  · intro hle p page l hp hl
    exact (hpage p page l hp hl).2 hle

theorem maxDeg_le {ls : List PageLists} {k : ℕ} (h : ∀ l ∈ ls, l.size ≤ k) : maxDeg ls ≤ k := by
  have hfold : ∀ deg ≤ k, ls.foldl (fun deg l =>
      max deg (l.cached.length % 2 ^ 16 + l.uncached.length % 2 ^ 16)) deg ≤ k := by
    intro deg hdeg
    induction ls generalizing deg with
    | nil => exact hdeg
    | cons l ls ih =>
      refine ih (fun l hl => h l (mem_cons_of_mem _ hl)) _ (Nat.max_le.2 ⟨hdeg, ?_⟩)
      have hsize := h l mem_cons_self
      unfold PageLists.size at hsize
      omega
  exact hfold 0 (Nat.zero_le k)

/-- With 508 bytes of vectors, a page has no room for more than `MAX_GRAPH_DEGREE` neighbours. -/
theorem Layout.exists_loadParams (h : b.Layout out) (hchunks : b.pqSize ≤ maxPqChunks)
    (hvec : 508 ≤ b.nnodesPerSector * b.nodeLen) :
    ∃ par, loadParams b.typeByte b.pqSize out.file = some par := by
  have hsector : sectorLen = 4096 := rfl
  have hmax : maxGraphDegree = 896 := rfl
  have hle : maxDeg out.lists ≤ 896 := by
    apply maxDeg_le
    intro l hl
    obtain ⟨p, hlt, rfl⟩ := mem_iff_getElem.1 hl
    have hp : b.merged.mergedNodes[p]? = some (b.merged.mergedNodes.get
        ⟨p, by rwa [← h.filled.length]⟩) := getElem?_eq_getElem _
    have hfits := (h.sector p _ _ hp (getElem?_eq_getElem hlt)).fits
    unfold idsOff countsOff at hfits
    unfold PageLists.size
    omega
  rw [h.loadParams_eq, if_neg (by omega), Nat.mod_eq_of_lt (by omega), if_neg (by omega)]
  exact ⟨_, rfl⟩

/-! ### The parameters of `build_page_graph` -/

/-- With page degree and nodes per page from `get_optimal_page_degree_nnodes_per_page`, where the
neighbours of that degree have room, the index is written, and if `load` takes it, the pages are read
back exactly when they have up to 255 nodes. -/
theorem createDiskLayout_readsBack (b : PageBuild D) {fuel deg n : ℕ}
    (hopt : b.getOptimal fuel = some (deg, n)) (hdeg : b.pageGraphDegree = deg % 2 ^ 32)
    (hn : b.nnodesPerSector = n % 2 ^ 32) (hover : b.overhead deg ≤ sectorLen) :
    ∃ fuel out, b.createDiskLayout fuel = some out ∧
      out.lists.length = b.merged.mergedNodes.length ∧
      ∀ par, loadParams b.typeByte b.pqSize out.file = some par →
        ((∀ p page l, b.merged.mergedNodes[p]? = some page → out.lists[p]? = some l →
          b.ReadsBack par p (sectorOf out.file p) page l) ↔ b.nnodesPerSector ≤ 255) := by
  have hfits := fits_of_build hopt hdeg hn hover
  obtain ⟨fuel, out, hout⟩ := exists_createDiskLayout hfits
  have hlayout := layout_of_createDiskLayout hout
  exact ⟨fuel, out, hout, hlayout.filled.length, fun par hpar => hlayout.readsBack_iff hpar⟩

end PageBuild

/-! ### Pages of one node and its copies -/

theorem two_lt : 2 < 2 ^ 32 := by norm_num

/-- One node without neighbours. -/
def loneNode (nnodes : ℕ) (h : 0 < nnodes) : MergeNodes ℕ :=
  { oneNode with
    nnodesPerSector := nnodes
    nnodes_pos := h
    R := 2
    R_pos := Nat.two_pos
    R_lt := two_lt }

theorem le_of_not_below {d n : ℕ} (h : decide (d < n) = false) : n ≤ d :=
  not_lt.1 (of_decide_eq_false h)

theorem narrow_nnodes_pos : 0 < 15 := Nat.succ_pos 14

theorem wide_nnodes_pos : 0 < 341 := Nat.succ_pos 340

theorem loneNode_narrow_merges :
    ((loneNode 15 narrow_nnodes_pos).mergeNodesIntoPage 16).isSome := by decide +kernel

theorem loneNode_wide_merges :
    ((loneNode 341 wide_nnodes_pos).mergeNodesIntoPage 16).isSome := by decide +kernel

theorem narrow_dimension_pos : 0 < 64 := Nat.succ_pos 63

theorem wide_dimension_pos : 0 < 8 := Nat.succ_pos 7

theorem narrow_type : 4 = 1 ∨ 4 = 4 := Or.inr rfl

theorem wide_type : 1 = 1 ∨ 1 = 4 := Or.inl rfl

/-- A `float` vector of dimension 64, 8 chunks, all neighbours cached. -/
def narrow : PageBuild ℕ where
  dimension := 64
  dimension_pos := narrow_dimension_pos
  typeByte := 4
  type_eq := narrow_type
  pqSize := 8
  share d := d
  share_le _ := le_rfl
  minDegree := 1
  avgBelow d n := decide (d < n)
  avg_ge _ _ _ _ h := le_of_not_below h
  merge := loneNode 15 narrow_nnodes_pos
  merged := Option.get _ loneNode_narrow_merges
  merges := ⟨16, (Option.some_get _).symm⟩
  pageGraphDegree := 63
  vector _ := List.replicate 256 0
  vector_length _ := List.length_replicate
  pq _ := List.replicate 8 0
  pq_length _ := List.length_replicate
  medoid := 0

/-- A `uint8_t` vector of dimension 8, one chunk, all neighbours cached. -/
def wide : PageBuild ℕ where
  dimension := 8
  dimension_pos := wide_dimension_pos
  typeByte := 1
  type_eq := wide_type
  pqSize := 1
  share d := d
  share_le _ := le_rfl
  minDegree := 1
  avgBelow d n := decide (d < n)
  avg_ge _ _ _ _ h := le_of_not_below h
  merge := loneNode 341 wide_nnodes_pos
  merged := Option.get _ loneNode_wide_merges
  merges := ⟨16, (Option.some_get _).symm⟩
  pageGraphDegree := 341
  vector _ := List.replicate 8 0
  vector_length _ := List.length_replicate
  pq _ := [0]
  pq_length _ := rfl
  medoid := 0

theorem narrow_getOptimal : narrow.getOptimal 64 = some (63, 15) := by decide +kernel

theorem wide_getOptimal : wide.getOptimal 400 = some (341, 341) := by decide +kernel

theorem narrow_readsBack : ∃ fuel out, narrow.createDiskLayout fuel = some out ∧
    out.lists.length = narrow.merged.mergedNodes.length ∧
    ∀ par, loadParams 4 8 out.file = some par →
      ((∀ p page l, narrow.merged.mergedNodes[p]? = some page → out.lists[p]? = some l →
        narrow.ReadsBack par p (sectorOf out.file p) page l) ↔ narrow.nnodesPerSector ≤ 255) :=
  narrow.createDiskLayout_readsBack narrow_getOptimal rfl rfl (by decide)

/-- The loop over the 341 vectors of a page does not end. -/
theorem wide_not_readsBack : wide.getOptimal 400 = some (wide.pageGraphDegree, wide.nnodesPerSector) ∧
    ∃ fuel out par, wide.createDiskLayout fuel = some out ∧
      loadParams 1 1 out.file = some par ∧ par.vectors 0 (sectorOf out.file 0) = none := by
  have hfits := PageBuild.fits_of_build wide_getOptimal rfl rfl (by decide)
  obtain ⟨fuel, out, hout⟩ := PageBuild.exists_createDiskLayout hfits
  have hlayout := PageBuild.layout_of_createDiskLayout hout
  obtain ⟨par, hpar⟩ := hlayout.exists_loadParams (by decide) (by decide)
  refine ⟨wide_getOptimal, fuel, out, par, hout, hpar, ?_⟩
  rw [PageParams.vectors, (hlayout.ofIndex hpar).numNodes]
  exact if_neg (by decide)

end DiskANNEval.PageANN
