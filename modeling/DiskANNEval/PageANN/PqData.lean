import DiskANNEval.Lib.Positions
import DiskANNEval.PageANN.PageFile

/-!
# PqData — the codes in memory

`generate_new_pq_data` stores the codes of `cached_PQ_nodes` with a map or an array from the ids to
their places, or the codes of all nodes where this is not larger.  `load` reads them, and a search
finds the code of an id by the storage only.
-/

namespace DiskANNEval.PageANN

open Lib List

variable {D : Type}

/-- The storage that `generate_new_pq_data` chooses. -/
inductive PqMode
  | map
  | array
  | identity

/-- The test `target_pq_cache_ratio == 1.0`, and the order of a `tsl::robin_set`. -/
structure PqArgs where
  ratioIsOne : Bool
  order : Finset ℕ → List ℕ
  order_nodup : ∀ s, (order s).Nodup
  mem_order : ∀ s x, x ∈ order s ↔ x ∈ s

/-- The fields of `PQFlashIndex` for the codes in memory. -/
structure CachedPq where
  numCached : ℕ
  allCached : Bool
  buff : List UInt8
  storage : PqStorage

/-- An array where a quarter of the codes is in memory, as `actual_PQ_cache_ratio >= 0.25`. -/
def pqMode (ratioIsOne : Bool) (pointsNum numCached numChunks : ℕ) : PqMode :=
  let leftPqSpace := if ratioIsOne then 0 else (pointsNum - numCached) * numChunks
  let useArray := decide (pointsNum ≤ 4 * numCached)
  let sizeIdxMap := if useArray then 4 * pointsNum else 2 * 4 * numCached * 2
  if leftPqSpace ≤ sizeIdxMap then .identity else if useArray then .array else .map

/-- The fields before the codes. -/
def pqHeader (pointsNum numCached numChunks useMap useArray : ℕ) : List UInt8 :=
  leBytes 4 pointsNum ++ leBytes 4 numCached ++ leBytes 4 numChunks ++ leBytes 1 useMap ++
    leBytes 1 useArray

def generateNewPqData (args : PqArgs) (b : PageBuild D) (out : DiskLayout) : Option (List UInt8) :=
  let ids := args.order out.cachedPq
  let pointsNum := b.merge.npts
  let codes := ids.mapM fun id => readSlice out.reorderPq (id * b.pqSize) b.pqSize
  match pqMode args.ratioIsOne pointsNum ids.length b.pqSize with
  | .map => codes.map fun codes =>
      pqHeader pointsNum ids.length b.pqSize 1 0 ++ codes.flatten ++ leList 4 ids
  | .array => codes.map fun codes =>
      pqHeader pointsNum ids.length b.pqSize 0 1 ++ codes.flatten ++
        leList 4 (positionArray pointsNum uint32Max ids)
  | .identity => (readSlice out.reorderPq 0 (pointsNum * b.pqSize)).map fun codes =>
      pqHeader pointsNum pointsNum b.pqSize 0 0 ++ codes

/-- What `load` reads after the codes.  The array stays empty where no code is in memory. -/
def readStorage (file : List UInt8) (pointsNum numCached idsOff useMap useArray : ℕ) :
    Option PqStorage :=
  if useMap ≠ 0 then (readList 4 file idsOff numCached).map fun ids => .map (positionMap ids)
  else if useArray ≠ 0 then
    (readList 4 file idsOff (if 0 < numCached then pointsNum else 0)).map .array
  else some .identity

/-- `load`, as far as it is about the codes. -/
def loadCachedPq (file : List UInt8) : Option CachedPq := do
  let pointsNum ← readLe 4 file 0
  let numCached ← readLe 4 file 4
  let numChunks ← readLe 4 file 8
  let useMap ← readLe 1 file 12
  let useArray ← readLe 1 file 13
  let buff ← readSlice file 14 (numCached * numChunks)
  let storage ← readStorage file pointsNum numCached (14 + numCached * numChunks) useMap useArray
  return ⟨numCached, decide (0 < numCached ∧ pointsNum = numCached), buff, storage⟩

/-- The index has the parameters and the codes that `load` has read. -/
structure PageIndex.LoadedFrom (ix : PageIndex) (par : PageParams) (cache : CachedPq) : Prop where
  params : ix.toPageParams = par
  buff : ix.cachedPqBuff = cache.buff
  storage : ix.pqStorage = cache.storage

namespace PageBuild

variable {b : PageBuild D} {args : PqArgs} {out : DiskLayout}

/-! ### The file -/

theorem length_pqHeader (p c k m a : ℕ) : (pqHeader p c k m a).length = 14 := by
  unfold pqHeader
  simp only [length_append, length_leBytes]

theorem readLe_append {w n : ℕ} (hn : n < 2 ^ (8 * w)) (pre post : List UInt8) :
    readLe w (pre ++ leBytes w n ++ post) pre.length = some n := by
  rw [readLe_of_slice, Nat.mod_eq_of_lt hn]
  · rw [length_append, length_append, length_leBytes]
    omega
  · have hlen : (leBytes w n).length = w := length_leBytes w n
    rw [append_assoc, slice_append_right le_rfl, Nat.sub_self, slice_append_left (by omega)]
    calc slice (leBytes w n) 0 w = slice (leBytes w n) 0 (leBytes w n).length := by rw [hlen]
      _ = leBytes w n := slice_zero_length _

variable {p c k a : ℕ} {codes : List UInt8}

theorem loadCachedPq_eq {m : ℕ} (hp : p < 2 ^ 32) (hc : c < 2 ^ 32) (hk : k < 2 ^ 32)
    (hm : m < 2 ^ 8) (ha : a < 2 ^ 8) {rest : List UInt8} (hcodes : codes.length = c * k)
    {storage : PqStorage}
    (h : readStorage (pqHeader p c k m a ++ codes ++ rest) p c (14 + c * k) m a = some storage) :
    loadCachedPq (pqHeader p c k m a ++ codes ++ rest) =
      some ⟨c, decide (0 < c ∧ p = c), codes, storage⟩ := by
  have hlen := length_pqHeader p c k m a
  have h₀ : readLe 4 (pqHeader p c k m a ++ codes ++ rest) 0 = some p := by
    have h := readLe_append (w := 4) hp [] (leBytes 4 c ++ leBytes 4 k ++ leBytes 1 m ++ leBytes 1 a ++
      codes ++ rest)
    simpa [pqHeader] using h
  have h₁ : readLe 4 (pqHeader p c k m a ++ codes ++ rest) 4 = some c := by
    have h := readLe_append (w := 4) hc (leBytes 4 p) (leBytes 4 k ++ leBytes 1 m ++ leBytes 1 a ++
      codes ++ rest)
    simpa [pqHeader] using h
  have h₂ : readLe 4 (pqHeader p c k m a ++ codes ++ rest) 8 = some k := by
    have h := readLe_append (w := 4) hk (leBytes 4 p ++ leBytes 4 c) (leBytes 1 m ++ leBytes 1 a ++
      codes ++ rest)
    simpa [pqHeader, append_assoc] using h
  have h₃ : readLe 1 (pqHeader p c k m a ++ codes ++ rest) 12 = some m := by
    have h := readLe_append (w := 1) hm (leBytes 4 p ++ leBytes 4 c ++ leBytes 4 k) (leBytes 1 a ++
      codes ++ rest)
    simpa [pqHeader] using h
  have h₄ : readLe 1 (pqHeader p c k m a ++ codes ++ rest) 13 = some a := by
    have h := readLe_append (w := 1) ha (leBytes 4 p ++ leBytes 4 c ++ leBytes 4 k ++ leBytes 1 m)
      (codes ++ rest)
    simpa [pqHeader, append_assoc] using h
  have hbuff : readSlice (pqHeader p c k m a ++ codes ++ rest) 14 (c * k) = some codes := by
    rw [readSlice_eq_some, ← hcodes]
    constructor
    · rw [length_append, length_append]
      omega
    · rw [append_assoc, ← hlen, slice_append_right le_rfl, Nat.sub_self,
        slice_append_left (by omega), slice_zero_length]
  unfold loadCachedPq
  rw [h₀, h₁, h₂, h₃, h₄]
  simp only [Option.bind_eq_bind, Option.bind_some, hbuff, h]
  rfl

theorem readList_end {m : ℕ} {ns : List ℕ} (hcodes : codes.length = c * k)
    (hns : ∀ n ∈ ns, n < 2 ^ 32) :
    readList 4 (pqHeader p c k m a ++ codes ++ leList 4 ns) (14 + c * k) ns.length = some ns := by
  have hlen : (pqHeader p c k m a ++ codes).length = 14 + c * k := by
    rw [length_append, length_pqHeader, hcodes]
  apply readList_of_slice _ _ hns
  · rw [length_append, hlen, length_leList]
  · have hend : (leList 4 ns).length = ns.length * 4 := length_leList 4 ns
    rw [← hlen, slice_append_right le_rfl, Nat.sub_self, ← hend, slice_zero_length]

variable {ids : List ℕ}

theorem readStorage_map (hcodes : codes.length = ids.length * k) (hids : ∀ x ∈ ids, x < 2 ^ 32) :
    readStorage (pqHeader p ids.length k 1 a ++ codes ++ leList 4 ids) p ids.length
      (14 + ids.length * k) 1 a = some (.map (positionMap ids)) := by
  rw [readStorage, readList_end hcodes hids]
  rfl

theorem readStorage_array (hc : 0 < c) (hcodes : codes.length = c * k)
    (hids : ∀ x ∈ ids, x < 2 ^ 32) :
    readStorage (pqHeader ids.length c k 0 1 ++ codes ++ leList 4 ids) ids.length c
      (14 + c * k) 0 1 = some (.array ids) := by
  rw [readStorage, if_pos hc,
    readList_end hcodes hids]
  rfl

/-! ### The codes -/

variable (b) in
/-- The storage takes an id to a place of the buffer with the code of its node. -/
structure InMemory (cache : CachedPq) (x : ℕ) : Prop where
  fits : (cache.storage.index x + 1) * b.pqSize ≤ cache.buff.length
  code : slice cache.buff (cache.storage.index x * b.pqSize) b.pqSize = b.codeOf x

variable (b) in
/-- What a search relies on: the codes of `cached_PQ_nodes` are in memory, and if it takes all of them
to be there, each code is at its id. -/
structure PqLoaded (cachedPq : Finset ℕ) (cache : CachedPq) : Prop where
  cached : ∀ x ∈ cachedPq, b.InMemory cache x
  all : cache.allCached = true → ∀ x, b.IsNew x →
    (x + 1) * b.pqSize ≤ cache.buff.length ∧ slice cache.buff (x * b.pqSize) b.pqSize = b.codeOf x

section Layout

variable (h : b.Layout out)

include h

theorem Layout.isNew_of_mem {x : ℕ} (hx : x ∈ args.order out.cachedPq) : b.IsNew x := by
  rcases h.filled.new x ((args.mem_order _ _).1 hx) with hx | hx
  · exact absurd hx (Finset.notMem_empty x)
  · exact hx

theorem Layout.mapM_order :
    (args.order out.cachedPq).mapM (fun id => readSlice out.reorderPq (id * b.pqSize) b.pqSize) =
      some ((args.order out.cachedPq).map b.codeOf) :=
  mapM_readSlice h.length h.codes fun _ hx => h.isNew_of_mem hx

end Layout

theorem codes_flatten {x : ℕ} (hk : ids[k]? = some x) :
    (k + 1) * b.pqSize ≤ (ids.map b.codeOf).flatten.length ∧
      slice (ids.map b.codeOf).flatten (k * b.pqSize) b.pqSize = b.codeOf x := by
  have hlen : ∀ c ∈ ids.map b.codeOf, c.length = b.pqSize := by
    intro c hc
    obtain ⟨y, -, rfl⟩ := mem_map.1 hc
    exact length_codeOf y
  obtain ⟨hlt, hget⟩ := List.getElem?_eq_some_iff.1 hk
  have hlt' : k < (ids.map b.codeOf).length := by rwa [length_map]
  constructor
  · rw [length_flatten_of_length hlen, length_map]
    exact Nat.mul_le_mul_right _ hlt
  · rw [slice_flatten hlen hlt', getElem_map, hget]

theorem lt_of_pqMode_ne {r : Bool} (h : pqMode r p c k ≠ .identity) : c < p := by
  by_contra hle
  apply h
  have hspace : (if r then 0 else (p - c) * k) = 0 := by
    rw [Nat.sub_eq_zero_of_le (not_lt.1 hle), Nat.zero_mul, ite_self]
  unfold pqMode
  rw [hspace, if_pos (Nat.zero_le _)]

theorem le_of_pqMode_array {r : Bool} (h : pqMode r p c k = .array) : p ≤ 4 * c := by
  by_contra hlt
  have hmap : decide (p ≤ 4 * c) = false := decide_eq_false hlt
  unfold pqMode at h
  dsimp only at h
  rw [hmap] at h
  split_ifs at h <;> contradiction

theorem exists_cachedPq (h : b.Layout out) (hchunks : b.pqSize < 2 ^ 32) :
    ∃ file cache, generateNewPqData args b out = some file ∧ loadCachedPq file = some cache ∧
      b.PqLoaded out.cachedPq cache := by
  have hnpts := b.merge.npts_lt
  have hlt : ∀ x ∈ args.order out.cachedPq, x < b.merge.npts := fun x hx => (h.isNew_of_mem hx).lt
  have hnodup := args.order_nodup out.cachedPq
  have hflat : ((args.order out.cachedPq).map b.codeOf).flatten.length =
      (args.order out.cachedPq).length * b.pqSize := by
    rw [length_flatten_of_length, length_map]
    intro c hc
    obtain ⟨y, -, rfl⟩ := mem_map.1 hc
    exact length_codeOf y
  unfold generateNewPqData
  dsimp only
  rw [h.mapM_order]
  cases hmode : pqMode args.ratioIsOne b.merge.npts (args.order out.cachedPq).length b.pqSize with
  | map =>
    have hne := lt_of_pqMode_ne (by rw [hmode]; exact PqMode.noConfusion)
    refine ⟨_, _, rfl, loadCachedPq_eq hnpts (by omega) hchunks (by norm_num) (by norm_num) hflat
      (readStorage_map hflat fun x hx => (hlt x hx).trans hnpts), fun x hx => ?_, fun hall => ?_⟩
    · obtain ⟨k, hk⟩ := mem_iff_getElem?.1 ((args.mem_order _ _).2 hx)
      have hindex : (PqStorage.map (positionMap (args.order out.cachedPq))).index x = k := by
        rw [PqStorage.index, lookup_positionMap hnodup hk]
        rfl
      obtain ⟨hfits, hcode⟩ := codes_flatten hk
      exact ⟨by rwa [hindex], by rwa [hindex]⟩
    · have heq := (of_decide_eq_true hall).2
      omega
  | array =>
    have hne := lt_of_pqMode_ne (by rw [hmode]; exact PqMode.noConfusion)
    have hquarter := le_of_pqMode_array hmode
    have hids : ∀ x ∈ positionArray b.merge.npts uint32Max (args.order out.cachedPq), x < 2 ^ 32 :=
      fun x hx => lt_of_mem_positionArray (by norm_num [uint32Max]) (by omega) hx
    have hread := readStorage_array (by omega) hflat hids
    rw [length_positionArray] at hread
    refine ⟨_, _, rfl, loadCachedPq_eq hnpts (by omega) hchunks (by norm_num) (by norm_num) hflat hread,
      fun x hx => ?_, fun hall => ?_⟩
    · obtain ⟨k, hk⟩ := mem_iff_getElem?.1 ((args.mem_order _ _).2 hx)
      have hindex : (PqStorage.array (positionArray b.merge.npts uint32Max
          (args.order out.cachedPq))).index x = k := by
        rw [PqStorage.index, getElem?_positionArray hnodup hk (hlt x (mem_of_getElem? hk))]
        rfl
      obtain ⟨hfits, hcode⟩ := codes_flatten hk
      exact ⟨by rwa [hindex], by rwa [hindex]⟩
    · have heq := (of_decide_eq_true hall).2
      omega
  | identity =>
    have hcodes : readSlice out.reorderPq 0 (b.merge.npts * b.pqSize) = some out.reorderPq := by
      rw [readSlice_eq_some, ← h.length]
      exact ⟨by omega, slice_zero_length _⟩
    rw [hcodes]
    have hall : ∀ x, b.IsNew x → (x + 1) * b.pqSize ≤ out.reorderPq.length ∧
        slice out.reorderPq (x * b.pqSize) b.pqSize = b.codeOf x := by
      intro x hx
      rw [h.length]
      exact ⟨Nat.mul_le_mul_right _ hx.lt, h.codes x hx⟩
    have hload : loadCachedPq (pqHeader b.merge.npts b.merge.npts b.pqSize 0 0 ++ out.reorderPq ++ []) =
        some _ := loadCachedPq_eq hnpts hnpts hchunks (by norm_num) (by norm_num) h.length rfl
    rw [append_nil] at hload
    refine ⟨_, _, rfl, hload, fun x hx => ?_, fun _ => hall⟩
    obtain ⟨hfits, hcode⟩ := hall x (h.isNew_of_mem ((args.mem_order _ _).2 hx))
    exact ⟨hfits, hcode⟩

/-! ### The candidates of a page -/

variable (b) in
/-- The code is that of the original node with the new id. -/
def OwnCode (x : ℕ) (code : List UInt8) : Prop :=
  ∃ id < b.merge.npts, b.merged.newToOriginal[x]? = some id ∧ code = b.pq id

theorem IsNew.ownCode {x : ℕ} (hx : b.IsNew x) : b.OwnCode x (b.codeOf x) := by
  obtain ⟨id, hid, rfl⟩ := hx
  exact ⟨id, hid, newToOriginal_newId hid, codeOf_newId hid⟩

theorem mem_pageCandidates {ix : PageIndex} {par : PageParams} {cache : CachedPq} {page : List ℕ}
    {l : PageLists} {sector : List UInt8} {expandedPages : List ℕ} (hix : ix.LoadedFrom par cache)
    (hpar : b.OfIndex par) (hholds : b.Holds page l sector)
    (hids : ∀ x ∈ l.cached ++ l.uncached, b.IsNew x) (hcached : ∀ x ∈ l.cached, b.InMemory cache x)
    {c : ℕ × List UInt8} (hc : c ∈ ix.pageCandidates expandedPages sector) :
    c.1 ∈ l.cached ++ l.uncached ∧ c.2 = b.codeOf c.1 := by
  rw [← hix.params] at hpar
  obtain ⟨hcn, hun, hupq⟩ := hholds.lists hpar fun x hx => (hids x hx).lt.trans b.merge.npts_lt
  unfold PageIndex.pageCandidates at hc
  rw [hcn, hun, hupq] at hc
  rcases mem_append.1 hc with hc | hc
  · obtain ⟨x, hx, rfl⟩ := mem_map.1 hc
    have hx := (mem_filter.1 (mem_of_mem_take hx)).1
    refine ⟨mem_append_left _ hx, ?_⟩
    show ix.cachedPq (ix.pqStorage.index x) = b.codeOf x
    rw [PageIndex.cachedPq, hix.buff, hix.storage, hpar.nChunks]
    exact (hcached x hx).code
  · have hmem := (mem_filter.1 (mem_of_mem_take hc)).1
    rw [← map_prod_left_eq_zip] at hmem
    obtain ⟨x, hx, rfl⟩ := mem_map.1 hmem
    exact ⟨mem_append_right _ hx, rfl⟩

/-- The ids that a page lists as cached are found in memory, and each candidate comes with the code of
its own node.  Where a search takes all codes to be in memory, as for the pages in the cache, each is
at its id. -/
theorem createDiskLayout_cachedPq (b : PageBuild D) (args : PqArgs) {fuel : ℕ} {out : DiskLayout}
    {par : PageParams} (hout : b.createDiskLayout fuel = some out)
    (hpar : loadParams b.typeByte b.pqSize out.file = some par) :
    ∃ file cache, generateNewPqData args b out = some file ∧ loadCachedPq file = some cache ∧
      (∀ l ∈ out.lists, ∀ x ∈ l.cached,
        (cache.storage.index x + 1) * b.pqSize ≤ cache.buff.length ∧
          b.OwnCode x (slice cache.buff (cache.storage.index x * b.pqSize) b.pqSize)) ∧
      ∀ ix : PageIndex, ix.LoadedFrom par cache →
        (∀ p page l expandedPages, b.merged.mergedNodes[p]? = some page → out.lists[p]? = some l →
          ∀ c ∈ ix.pageCandidates expandedPages (sectorOf out.file p),
            c.1 ∈ l.cached ++ l.uncached ∧ b.OwnCode c.1 c.2) ∧
        (cache.allCached = true → ∀ x, b.IsNew x → b.OwnCode x (ix.cachedPq x)) := by
  have hlayout := layout_of_createDiskLayout hout
  have hchunks : b.pqSize < 2 ^ 32 := by
    have hmax : maxPqChunks = 512 := rfl
    rw [hlayout.loadParams_eq] at hpar
    split_ifs at hpar with hle
    omega
  have hindex := hlayout.ofIndex hpar
  obtain ⟨file, cache, hfile, hcache, hloaded⟩ : ∃ file cache, generateNewPqData args b out = some file ∧
      loadCachedPq file = some cache ∧ b.PqLoaded out.cachedPq cache := exists_cachedPq hlayout hchunks
  have hnew : ∀ l ∈ out.lists, ∀ x ∈ l.cached ++ l.uncached, b.IsNew x :=
    fun l hl x hx => hlayout.lt_of_mem hl hx
  have hmemory : ∀ l ∈ out.lists, ∀ x ∈ l.cached, b.InMemory cache x :=
    fun l hl x hx => hloaded.cached x ((hlayout.filled.listed l hl).cached x hx).1
  refine ⟨file, cache, hfile, hcache, fun l hl x hx => ?_, fun ix hix => ⟨?_, fun hall x hx => ?_⟩⟩
  · have hin := hmemory l hl x hx
    refine ⟨hin.fits, ?_⟩
    rw [hin.code]
    exact (hnew l hl x (List.mem_append_left _ hx)).ownCode
  · intro p page l expandedPages hp hl c hc
    have hmem := List.mem_of_getElem? hl
    obtain ⟨hc₁, hc₂⟩ := mem_pageCandidates hix hindex (hlayout.sector p page l hp hl) (hnew l hmem)
      (hmemory l hmem) hc
    refine ⟨hc₁, ?_⟩
    rw [hc₂]
    exact (hnew l hmem c.1 hc₁).ownCode
  · have hchunk : ix.nChunks = b.pqSize := by
      rw [← hindex.nChunks, ← hix.params]
    rw [PageIndex.cachedPq, hix.buff, hchunk, (hloaded.all hall x hx).2]
    exact hx.ownCode

end PageBuild

/-! ### Two nodes on two pages -/

theorem pair_nbrs_lt (id : ℕ) : ∀ n ∈ [if id = 0 then 1 else 0], n < 2 := by
  intro n hn
  rw [mem_singleton.1 hn]
  split_ifs
  · exact Nat.one_lt_two
  · exact Nat.two_pos

/-- Two nodes, each the neighbour of the other. -/
def pairNodes : MergeNodes ℕ :=
  { oneNode with
    npts := 2
    npts_pos := Nat.two_pos
    npts_lt := two_lt
    R := 2
    R_pos := Nat.two_pos
    R_lt := two_lt
    nbrs := fun id => [if id = 0 then 1 else 0]
    nbrs_lt := pair_nbrs_lt }

theorem pairNodes_merges : (pairNodes.mergeNodesIntoPage 16).isSome := by decide +kernel

theorem pair_dimension_pos : 0 < 128 := Nat.succ_pos 127

theorem pair_type : 4 = 1 ∨ 4 = 4 := Or.inr rfl

/-- `float` vectors of dimension 128, all neighbours cached. -/
def pairBuild : PageBuild ℕ where
  dimension := 128
  dimension_pos := pair_dimension_pos
  typeByte := 4
  type_eq := pair_type
  pqSize := 8
  share d := d
  share_le _ := le_rfl
  minDegree := 1
  avgBelow d n := decide (d < n)
  avg_ge _ _ _ _ h := le_of_not_below h
  merge := pairNodes
  merged := Option.get _ pairNodes_merges
  merges := ⟨16, (Option.some_get _).symm⟩
  pageGraphDegree := 63
  vector _ := List.replicate 512 0
  vector_length _ := List.length_replicate
  pq id := List.replicate 8 (UInt8.ofNat id)
  pq_length _ := List.length_replicate
  medoid := 0

/-- A set in ascending order. -/
def sortedArgs : PqArgs where
  ratioIsOne := true
  order s := s.sort (· ≤ ·)
  order_nodup s := s.sort_nodup (· ≤ ·)
  mem_order _ _ := Finset.mem_sort (· ≤ ·)

theorem pairBuild_fits : pairBuild.Fits pairBuild.pageGraphDegree pairBuild.nnodesPerSector :=
  ⟨by decide, by decide, by decide⟩

theorem pairBuild_cachedPq : ∃ fuel out par file cache, pairBuild.createDiskLayout fuel = some out ∧
    loadParams 4 8 out.file = some par ∧ generateNewPqData sortedArgs pairBuild out = some file ∧
    loadCachedPq file = some cache ∧
      (∀ l ∈ out.lists, ∀ x ∈ l.cached,
        (cache.storage.index x + 1) * 8 ≤ cache.buff.length ∧
          pairBuild.OwnCode x (slice cache.buff (cache.storage.index x * 8) 8)) := by
  obtain ⟨fuel, out, hout⟩ := PageBuild.exists_createDiskLayout pairBuild_fits
  obtain ⟨par, hpar⟩ := (PageBuild.layout_of_createDiskLayout hout).exists_loadParams (by decide)
    (by decide)
  obtain ⟨file, cache, hfile, hcache, hcached, -⟩ :=
    pairBuild.createDiskLayout_cachedPq sortedArgs hout hpar
  exact ⟨fuel, out, par, file, cache, hout, hpar, hfile, hcache, hcached⟩

end DiskANNEval.PageANN
