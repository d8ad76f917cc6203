import DiskANNEval.AiSAQ.PqSubmit
import DiskANNEval.Lib.Bytes
import Mathlib

/-!
# PqVectorsFile — the files of rearranged PQ vectors

With `rearrange`, `create_disk_layout` writes the vectors in their new order one behind the other, and
from that file another one in which no vector crosses a page.  The second one is opened without
`O_TRUNC`: what an older file has behind its end stays there, and the reader's check of the size
refuses the file.  The first one's progress is shown at each hundredth of the points.
-/

namespace DiskANNEval.AiSAQ.PqReader

open Lib List Option Nat

/-! ### The writers -/

/-- A file of PQ vectors that are not rearranged, which both writers read. -/
structure IsPlainFile (file : List UInt8) (numPoints pqVectorSize : ℕ) : Prop where
  length : file.length = 4 * 2 + numPoints * pqVectorSize
  size_pos : 0 < pqVectorSize

/-- What the writer of the aligned file is given; `rearrangeMap` is `none` for `nullptr`. -/
structure AlignedArgs where
  pqCompressedVectors : List UInt8
  pageSize : ℕ
  rearrangeMap : Option (ℕ → ℕ)
  numPoints : ℕ
  pqVectorSize : ℕ

/-- `page_buff`, `vec_in_page`, and what has been written. -/
structure PageState where
  pageBuff : List UInt8
  vecInPage : ℕ
  out : List UInt8

namespace AlignedArgs

variable (a : AlignedArgs)

def pqVectorsPerPage : ℕ := a.pageSize / a.pqVectorSize

/-- The original id -/
def nid (id : ℕ) : ℕ :=
  match a.rearrangeMap with
  | none => id
  | some rearrangeMap => rearrangeMap id

/-- The vector for `id`; for an original id that is none it is zeros. -/
def readVector (id : ℕ) : Option (List UInt8) :=
  if a.numPoints ≤ a.nid id then some (List.replicate a.pqVectorSize 0)
  else readSlice a.pqCompressedVectors (4 * 2 + a.nid id * a.pqVectorSize) a.pqVectorSize

/-- The body of the loop over the ids. -/
def putVector (st : PageState) (id : ℕ) : Option PageState := do
  let v ← a.readVector id
  let pageBuff ← write st.pageBuff (st.vecInPage * a.pqVectorSize) v
  let vecInPage := st.vecInPage + 1
  if vecInPage = a.pqVectorsPerPage ∨ id + 1 = a.numPoints then
    let remain := a.pageSize - vecInPage * a.pqVectorSize
    let pageBuff ← write pageBuff (vecInPage * a.pqVectorSize) (List.replicate remain 0)
    return { pageBuff, vecInPage := 0, out := st.out ++ pageBuff }
  else return { st with pageBuff, vecInPage }

/-- `aisaq_rearranged_pq_compressed_vectors_file_header` -/
def header : List UInt8 := leBytes 4 a.numPoints ++ (leBytes 4 a.pqVectorSize ++ leBytes 4 a.pageSize)

/-- What is written, page by page. -/
def pages : Option (List UInt8) := do
  let pageBuff ← write (List.replicate a.pageSize 0) 0 a.header
  let st ← (List.range a.numPoints).foldlM a.putVector
    { pageBuff, vecInPage := 0, out := pageBuff.take sectorLen }
  return st.out

/-- `aisaq_create_aligned_rearranged_pq_compressed_vectors_file` over a file that holds `old` (nothing
if there is none): it is not truncated. -/
def createFile (old : List UInt8) : Option (List UInt8) :=
  a.pages.map fun out => out ++ old.drop out.length

end AlignedArgs

/-- The loop of `create_disk_layout` that writes the plain file of the rearranged vectors; `none`: it
divides by zero, or reads behind the end. -/
def createPlain (pqCompressedVectors : List UInt8) (reversedMap : ℕ → ℕ) (npts pqNbytes : ℕ) :
    Option (List UInt8) :=
  let progressStep := npts / 100
  (List.range npts).foldlM (fun out i =>
    if progressStep = 0 then none
    else (readSlice pqCompressedVectors (4 * 2 + reversedMap i * pqNbytes) pqNbytes).map (out ++ ·))
    (leBytes 4 npts ++ leBytes 4 pqNbytes)

/-! ### The reader -/

def divRoundUp (x y : ℕ) : ℕ := x / y + if x % y = 0 then 0 else 1

/-- The page sizes that `init_common` accepts, where it does not divide by zero. -/
def PageOk (pageSize pqVectorSize blockSize : ℕ) : Prop :=
  0 < pqVectorSize ∧ pageSize ≠ 0 ∧ pageSize % blockSize = 0 ∧ pageSize % sectorLen = 0 ∧
    0 < pageSize / pqVectorSize

instance (pageSize pqVectorSize blockSize : ℕ) : Decidable (PageOk pageSize pqVectorSize blockSize) :=
  inferInstanceAs (Decidable (_ ∧ _ ∧ _ ∧ _ ∧ _))

theorem PageOk.page {pageSize pqVectorSize blockSize : ℕ} (h : PageOk pageSize pqVectorSize blockSize) :
    sectorLen ∣ pageSize ∧ pqVectorSize ≤ pageSize :=
  ⟨dvd_of_mod_eq_zero h.2.2.2.1, (Nat.div_pos_iff.1 h.2.2.2.2).2⟩

/-- A device's block size. -/
structure BlockSize where
  bytes : ℕ
  pos : 0 < bytes
  sector_dvd : sectorSize ∣ bytes

/-- `init_common` for a rearranged file: the reader and `m_num_vectors`. -/
def initRearranged (b : BlockSize) (file : List UInt8) : Option (Reader × ℕ) := do
  let numVectors ← readLe 4 file 0
  let vectorSize ← readLe 4 file 4
  let pageSize ← readLe 4 file 8
  if h : PageOk pageSize vectorSize b.bytes then
    if file.length = divRoundUp numVectors (pageSize / vectorSize) * pageSize + sectorLen then
      some (⟨true, pageSize, b.bytes, vectorSize, h.1, b.pos, b.sector_dvd, fun _ => h.page⟩, numVectors)
    else none
  else none

/-- `init_common` for a plain file with vectors of at least a byte. -/
def initPlain (b : BlockSize) (file : List UInt8) : Option (Reader × ℕ) := do
  let numVectors ← readLe 4 file 0
  let vectorSize ← readLe 4 file 4
  if h : 0 < vectorSize then
    if file.length = 4 * 2 + numVectors * vectorSize then
      some (⟨false, 0, b.bytes, vectorSize, h, b.pos, b.sector_dvd, nofun⟩, numVectors)
    else none
  else none

/-- The sectors that are read for a vector; behind the end of the file there are none. -/
def Reader.readRange (r : Reader) (file : List UInt8) (id : ℕ) : List UInt8 :=
  slice file ((r.calcPqVectorReadParams id).fromSector * sectorSize) (r.readSectors id * sectorSize)

/-- The reader accepts the file, and in the range it reads for an id is the vector, at its offset. -/
def Serves (init : Option (Reader × ℕ)) (file : List UInt8) (numPoints : ℕ) (vec : ℕ → List UInt8) :
    Prop :=
  ∃ r, init = some (r, numPoints) ∧ ∀ id < numPoints,
    (r.calcPqVectorReadParams id).buffOffset + r.pqVectorSize ≤ (r.readRange file id).length ∧
      slice (r.readRange file id) (r.calcPqVectorReadParams id).buffOffset r.pqVectorSize = vec id

theorem serves_of_vectorPos {init : Option (Reader × ℕ)} {file : List UInt8} {n : ℕ}
    {vec : ℕ → List UInt8} {r : Reader} (hinit : init = some (r, n))
    (hvec : ∀ id < n, r.vectorPos id + r.pqVectorSize ≤ file.length ∧
      slice file (r.vectorPos id) r.pqVectorSize = vec id) : Serves init file n vec := by
  refine ⟨r, hinit, fun id hid => ?_⟩
  obtain ⟨hend, hslice⟩ := hvec id hid
  have hspec := r.buffOffset_spec id
  have hfit := r.buffOffset_add_le id
  constructor
  · rw [Reader.readRange, slice, List.length_take, length_drop]
    omega
  · rw [Reader.readRange, slice_slice hfit, hspec, hslice]

theorem foldlM_range_succ {σ : Type} {f : σ → ℕ → Option σ} {s s' s'' : σ} {m : ℕ}
    (h : (List.range m).foldlM f s = some s') (hf : f s' m = some s'') :
    (List.range (m + 1)).foldlM f s = some s'' := by
  rw [range_succ, foldlM_append, h, bind_eq_bind, bind_some,
    foldlM_cons, hf]
  rfl

/-! ### The aligned file -/

namespace AlignedArgs

variable {a : AlignedArgs} {st : PageState} {q j : ℕ}

/-- What `rearrange_map` assigns to the id. -/
def vector (a : AlignedArgs) (id : ℕ) : List UInt8 :=
  if a.numPoints ≤ a.nid id then List.replicate a.pqVectorSize 0
  else slice a.pqCompressedVectors (4 * 2 + a.nid id * a.pqVectorSize) a.pqVectorSize

theorem readVector_eq (h : IsPlainFile a.pqCompressedVectors a.numPoints a.pqVectorSize) (id : ℕ) :
    a.readVector id = some (a.vector id) ∧ (a.vector id).length = a.pqVectorSize := by
  rw [readVector, vector]
  split_ifs with hnid
  · exact ⟨rfl, length_replicate⟩
  · have hfit : 4 * 2 + a.nid id * a.pqVectorSize + a.pqVectorSize ≤ a.pqCompressedVectors.length := by
      have hmul : (a.nid id + 1) * a.pqVectorSize ≤ a.numPoints * a.pqVectorSize :=
        mul_le_mul_right _ (not_le.1 hnid)
      rw [succ_mul] at hmul
      rw [h.length]
      omega
    exact ⟨readSlice_eq_some.2 ⟨hfit, rfl⟩, length_slice hfit⟩

/-- After `q` pages and `j` vectors of the next one. -/
structure PageInv (a : AlignedArgs) (q j : ℕ) (st : PageState) : Prop where
  buffLen : st.pageBuff.length = a.pageSize
  vecInPage : st.vecInPage = j
  outLen : st.out.length = sectorLen + q * a.pageSize
  header : slice st.out 0 12 = a.header
  done : ∀ p < q, ∀ k < a.pqVectorsPerPage,
    slice st.out (sectorLen + p * a.pageSize + k * a.pqVectorSize) a.pqVectorSize =
      a.vector (p * a.pqVectorsPerPage + k)
  cur : ∀ k < j, slice st.pageBuff (k * a.pqVectorSize) a.pqVectorSize =
    a.vector (q * a.pqVectorsPerPage + k)

theorem vectors_le_page : a.pqVectorsPerPage * a.pqVectorSize ≤ a.pageSize := div_mul_le_self ..

theorem vector_end_le {k m : ℕ} (h : k < m) :
    k * a.pqVectorSize + a.pqVectorSize ≤ m * a.pqVectorSize := by
  rw [← succ_mul]
  exact mul_le_mul_right _ h

theorem PageInv.write (h : a.PageInv q j st)
    (hsrc : IsPlainFile a.pqCompressedVectors a.numPoints a.pqVectorSize)
    (hj : j < a.pqVectorsPerPage) : ∃ pageBuff,
      Lib.write st.pageBuff (j * a.pqVectorSize) (a.vector (q * a.pqVectorsPerPage + j)) =
        some pageBuff ∧ a.PageInv q (j + 1) { st with pageBuff, vecInPage := j + 1 } := by
  have hlen := (readVector_eq hsrc (q * a.pqVectorsPerPage + j)).2
  have hend := (vector_end_le hj).trans vectors_le_page
  obtain ⟨pageBuff, hw⟩ := @write_isSome st.pageBuff
    (a.vector (q * a.pqVectorsPerPage + j)) (j * a.pqVectorSize) (by rw [hlen, h.buffLen]; exact hend)
  refine ⟨pageBuff, hw, { h with
    buffLen := (length_write hw).trans h.buffLen
    vecInPage := rfl
    cur := fun k hk => ?_ }⟩
  obtain hlt | rfl := Nat.lt_succ_iff_lt_or_eq.1 hk
  · exact (slice_write_before hw (vector_end_le hlt)).trans (h.cur k hlt)
  · have hsame := slice_write_same hw
    rwa [hlen] at hsame

theorem PageInv.flush (h : a.PageInv q j st) (hj : j ≤ a.pqVectorsPerPage) : ∃ pageBuff,
    Lib.write st.pageBuff (j * a.pqVectorSize)
        (replicate (a.pageSize - j * a.pqVectorSize) 0) = some pageBuff ∧
      pageBuff.length = a.pageSize ∧
      (st.out ++ pageBuff).length = sectorLen + (q + 1) * a.pageSize ∧
      slice (st.out ++ pageBuff) 0 12 = a.header ∧
      (∀ p < q, ∀ k < a.pqVectorsPerPage,
        slice (st.out ++ pageBuff) (sectorLen + p * a.pageSize + k * a.pqVectorSize) a.pqVectorSize =
          a.vector (p * a.pqVectorsPerPage + k)) ∧
      ∀ k < j, slice (st.out ++ pageBuff) (sectorLen + q * a.pageSize + k * a.pqVectorSize)
        a.pqVectorSize = a.vector (q * a.pqVectorsPerPage + k) := by
  have hfit : j * a.pqVectorSize ≤ a.pageSize := (mul_le_mul_right _ hj).trans vectors_le_page
  obtain ⟨pageBuff, hw⟩ := @write_isSome st.pageBuff
    (replicate (a.pageSize - j * a.pqVectorSize) 0) (j * a.pqVectorSize)
    (by rw [length_replicate, h.buffLen]; omega)
  have hlen : pageBuff.length = a.pageSize := (length_write hw).trans h.buffLen
  have hout := h.outLen
  have h4096 : 12 ≤ sectorLen := by decide
  refine ⟨pageBuff, hw, hlen, ?_, ?_, fun p hp k hk => ?_, fun k hk => ?_⟩
  · rw [length_append, hout, hlen, succ_mul, add_assoc]
  · rw [slice_append_left (by omega), h.header]
  · have hp' : p * a.pageSize + a.pageSize ≤ q * a.pageSize := by
      rw [← succ_mul]
      exact mul_le_mul_right _ hp
    have hk' := (vector_end_le hk).trans vectors_le_page
    rw [slice_append_left (by omega)]
    exact h.done p hp k hk
  · rw [slice_append_right (by omega), hout, Nat.add_sub_cancel_left,
      slice_write_before hw (vector_end_le hk)]
    exact h.cur k hk

theorem PageInv.putVector (h : a.PageInv q j st)
    (hsrc : IsPlainFile a.pqCompressedVectors a.numPoints a.pqVectorSize)
    (hj : j < a.pqVectorsPerPage) (hn : q * a.pqVectorsPerPage + j + 1 ≠ a.numPoints) :
    ∃ st', a.putVector st (q * a.pqVectorsPerPage + j) = some st' ∧
      if j + 1 = a.pqVectorsPerPage then a.PageInv (q + 1) 0 st' else a.PageInv q (j + 1) st' := by
  obtain ⟨pageBuff, hw, hinv⟩ := h.write hsrc hj
  rw [AlignedArgs.putVector, (readVector_eq hsrc _).1, bind_eq_bind, bind_some,
    h.vecInPage, hw, bind_some]
  dsimp only
  by_cases hfull : j + 1 = a.pqVectorsPerPage
  · obtain ⟨pageBuff', hw', hlen, houtLen, hheader, hdone, hlast⟩ := hinv.flush hj
    rw [if_pos (.inl hfull), hw']
    refine ⟨_, rfl, ?_⟩
    rw [if_pos hfull]
    refine ⟨hlen, rfl, houtLen, hheader, fun p hp k hk => ?_, fun k hk => absurd hk (by omega)⟩
    obtain hlt | rfl := Nat.lt_succ_iff_lt_or_eq.1 hp
    · exact hdone p hlt k hk
    · exact hlast k (by omega)
  · rw [if_neg (by omega)]
    refine ⟨_, rfl, ?_⟩
    rwa [if_neg hfull]

theorem PageInv.putVector_last (h : a.PageInv q j st)
    (hsrc : IsPlainFile a.pqCompressedVectors a.numPoints a.pqVectorSize)
    (hj : j < a.pqVectorsPerPage) (hn : q * a.pqVectorsPerPage + j + 1 = a.numPoints) :
    ∃ st', a.putVector st (q * a.pqVectorsPerPage + j) = some st' ∧
      st'.out.length = sectorLen + (q + 1) * a.pageSize ∧ slice st'.out 0 12 = a.header ∧
      ∀ p k, k < a.pqVectorsPerPage → p * a.pqVectorsPerPage + k < a.numPoints →
        slice st'.out (sectorLen + p * a.pageSize + k * a.pqVectorSize) a.pqVectorSize =
          a.vector (p * a.pqVectorsPerPage + k) := by
  obtain ⟨pageBuff, hw, hinv⟩ := h.write hsrc hj
  obtain ⟨pageBuff', hw', -, houtLen, hheader, hdone, hlast⟩ := hinv.flush hj
  rw [AlignedArgs.putVector, (readVector_eq hsrc _).1, bind_eq_bind, bind_some,
    h.vecInPage, hw, bind_some]
  dsimp only at hw' ⊢
  rw [if_pos (.inr hn), hw']
  refine ⟨_, rfl, houtLen, hheader, fun p k hk hid => ?_⟩
  obtain hlt | rfl | hgt := lt_trichotomy p q
  · exact hdone p hlt k hk
  · exact hlast k (by omega)
  · have hmul := mul_le_mul_right a.pqVectorsPerPage hgt
    rw [succ_mul] at hmul
    omega

theorem exists_pageInv (hsrc : IsPlainFile a.pqCompressedVectors a.numPoints a.pqVectorSize)
    (hP : 0 < a.pqVectorsPerPage) (hinit : a.PageInv 0 0 st) {m : ℕ} (hm : m < a.numPoints) :
    ∃ q j st', m = q * a.pqVectorsPerPage + j ∧ j < a.pqVectorsPerPage ∧
      (List.range m).foldlM a.putVector st = some st' ∧ a.PageInv q j st' := by
  induction m with
  | zero => exact ⟨0, 0, st, by omega, hP, rfl, hinit⟩
  | succ m ih =>
    obtain ⟨q, j, st', rfl, hj, hrun, hinv⟩ := ih (by omega)
    obtain ⟨st'', hstep, hinv'⟩ := hinv.putVector hsrc hj (by omega)
    have hrun' : (List.range (q * a.pqVectorsPerPage + j + 1)).foldlM a.putVector st = some st'' :=
      foldlM_range_succ hrun hstep
    split_ifs at hinv' with hfull
    · refine ⟨q + 1, 0, st'', ?_, hP, hrun', hinv'⟩
      rw [succ_mul]
      omega
    · exact ⟨q, j + 1, st'', by omega, by omega, hrun', hinv'⟩

theorem divRoundUp_eq {P : ℕ} (hj : j < P) : divRoundUp (q * P + j + 1) P = q + 1 := by
  have hP : 0 < P := by omega
  rw [divRoundUp]
  by_cases hfull : j + 1 = P
  · rw [show q * P + j + 1 = (q + 1) * P by rw [succ_mul]; omega, mul_mod_left, if_pos rfl,
      Nat.mul_div_cancel _ hP]
  · have hmod : (q * P + j + 1) % P = j + 1 := by
      rw [Nat.add_assoc, add_comm, add_mul_mod_self_right, mod_eq_of_lt (by omega)]
    have hdiv : (q * P + j + 1) / P = q := by
      rw [Nat.add_assoc, add_comm, add_mul_div_right _ _ hP, div_eq_of_lt (by omega),
        zero_add]
    rw [hmod, hdiv, if_neg (succ_ne_zero j)]

/-- The length of the new file. -/
def fileSize (a : AlignedArgs) : ℕ := divRoundUp a.numPoints a.pqVectorsPerPage * a.pageSize + sectorLen

theorem length_header : a.header.length = 12 := by
  rw [header, length_append, length_append, length_leBytes, length_leBytes, length_leBytes]

theorem pages_spec (hsrc : IsPlainFile a.pqCompressedVectors a.numPoints a.pqVectorSize)
    (hdvd : sectorLen ∣ a.pageSize) (hpos : a.pageSize ≠ 0) (hP : 0 < a.pqVectorsPerPage) :
    ∃ out, a.pages = some out ∧ out.length = a.fileSize ∧ slice out 0 12 = a.header ∧
      ∀ id < a.numPoints, slice out (sectorLen + (id / a.pqVectorsPerPage * a.pageSize +
        id % a.pqVectorsPerPage * a.pqVectorSize)) a.pqVectorSize = a.vector id := by
  have hle : sectorLen ≤ a.pageSize := le_of_dvd (pos_of_ne_zero hpos) hdvd
  have h12 : 12 ≤ sectorLen := by decide
  obtain ⟨pageBuff, hw⟩ := @write_isSome (replicate a.pageSize 0) a.header 0
    (by rw [length_header, length_replicate]; omega)
  have hlen : pageBuff.length = a.pageSize := (length_write hw).trans length_replicate
  have hhead : slice (pageBuff.take sectorLen) 0 12 = a.header := by
    have hsame := slice_write_same hw
    rw [← hsame]
    exact @slice_slice pageBuff 0 sectorLen 0 12 (by omega)
  have hinit : a.PageInv 0 0 { pageBuff, vecInPage := 0, out := pageBuff.take sectorLen } := by
    refine ⟨hlen, rfl, ?_, hhead, fun p hp => absurd hp (not_lt_zero p),
      fun k hk => absurd hk (not_lt_zero k)⟩
    show (pageBuff.take sectorLen).length = sectorLen + 0 * a.pageSize
    rw [List.length_take]
    omega
  rw [pages, hw, bind_eq_bind, bind_some]
  obtain hn | hn := Nat.eq_zero_or_pos a.numPoints
  · refine ⟨pageBuff.take sectorLen, by rw [hn]; rfl, ?_, hhead, fun id hid => by omega⟩
    rw [fileSize, hn, divRoundUp, Nat.zero_div, zero_mod, if_pos rfl, List.length_take]
    omega
  · obtain ⟨m, hm⟩ := exists_eq_succ_of_ne_zero hn.ne'
    obtain ⟨q, j, st, rfl, hj, hrun, hinv⟩ := exists_pageInv hsrc hP hinit (m := m) (by omega)
    obtain ⟨st', hstep, hlen', hheader, hvec⟩ := hinv.putVector_last hsrc hj hm.symm
    refine ⟨st'.out, ?_, ?_, hheader, fun id hid => ?_⟩
    · rw [hm, foldlM_range_succ hrun hstep]
      rfl
    · rw [hlen', fileSize, hm, divRoundUp_eq hj, add_comm]
    · have hsplit := div_add_mod' id a.pqVectorsPerPage
      rw [← add_assoc, hvec _ _ (mod_lt id hP) (by rwa [hsplit]), hsplit]

/-- The arguments fit their types. -/
structure Fits (a : AlignedArgs) : Prop where
  plain : IsPlainFile a.pqCompressedVectors a.numPoints a.pqVectorSize
  numPoints_lt : a.numPoints < 2 ^ 32
  pageSize_lt : a.pageSize < 2 ^ 32

theorem createFile_spec (h : a.Fits) (b : BlockSize) (hpage : PageOk a.pageSize a.pqVectorSize b.bytes)
    (old : List UInt8) : ∃ file, a.createFile old = some file ∧
      file.length = max a.fileSize old.length ∧ readLe 4 file 0 = some a.numPoints ∧
      readLe 4 file 4 = some a.pqVectorSize ∧ readLe 4 file 8 = some a.pageSize ∧
      ∀ id < a.numPoints, sectorLen + (id / a.pqVectorsPerPage * a.pageSize +
          id % a.pqVectorsPerPage * a.pqVectorSize) + a.pqVectorSize ≤ file.length ∧
        slice file (sectorLen + (id / a.pqVectorsPerPage * a.pageSize +
          id % a.pqVectorsPerPage * a.pqVectorSize)) a.pqVectorSize = a.vector id := by
  have hP : 0 < a.pqVectorsPerPage := hpage.2.2.2.2
  obtain ⟨out, hout, hlen, hheader, hvec⟩ := pages_spec h.plain hpage.page.1 hpage.2.1 hP
  have h12 : 12 ≤ out.length := by
    have : 12 ≤ sectorLen := by decide
    rw [hlen, fileSize]
    omega
  have hlen' : (out ++ old.drop out.length).length = max a.fileSize old.length := by
    rw [length_append, length_drop, hlen]
    omega
  have hword : ∀ k < 3, ∀ n < 2 ^ 32, slice a.header (k * 4) 4 = leBytes 4 n →
      readLe 4 (out ++ old.drop out.length) (k * 4) = some n := by
    intro k hk n hn hslice
    have hread := @readLe_of_slice 4 n (k * 4) (out ++ old.drop out.length)
      (by rw [length_append]; omega) ?_
    · rwa [mod_eq_of_lt hn] at hread
    · rw [slice_append_left (by omega), ← hslice, ← hheader, slice_slice (by omega), zero_add]
  have hsize : a.pqVectorSize < 2 ^ 32 := hpage.page.2.trans_lt h.pageSize_lt
  have hlen4 : ∀ n, (leBytes 4 n).length = 4 := length_leBytes 4
  refine ⟨_, by rw [createFile, hout]; rfl, hlen', hword 0 (by omega) _ h.numPoints_lt ?_,
    hword 1 (by omega) _ hsize ?_, hword 2 (by omega) _ h.pageSize_lt ?_, fun id hid => ?_⟩
  · rw [header]
    exact slice_zero_length (leBytes 4 a.numPoints)
  · rw [header, slice_append_right (by rw [hlen4]), hlen4]
    exact slice_zero_length (leBytes 4 a.pqVectorSize)
  · rw [header]
    exact slice_zero_length (leBytes 4 a.pageSize)
  · have hend : sectorLen + (id / a.pqVectorsPerPage * a.pageSize +
        id % a.pqVectorsPerPage * a.pqVectorSize) + a.pqVectorSize ≤ out.length := by
      have hw := (readVector_eq h.plain id).2
      have hpos := h.plain.size_pos
      rw [← hvec id hid, slice, List.length_take, length_drop] at hw
      omega
    constructor
    · rw [length_append]
      omega
    · rw [slice_append_left hend, hvec id hid]

/-- The reader accepts the aligned file, and finds in it what the map assigns, exactly when the file
that was there before is not longer. -/
theorem serves_createFile_iff (h : a.Fits) (b : BlockSize)
    (hpage : PageOk a.pageSize a.pqVectorSize b.bytes) (old : List UInt8) :
    (∃ file, a.createFile old = some file ∧
        Serves (initRearranged b file) file a.numPoints a.vector) ↔ old.length ≤ a.fileSize := by
  obtain ⟨file, hfile, hlen, hnum, hsize, hpageSize, hvec⟩ := createFile_spec h b hpage old
  have hinit : ∀ x, initRearranged b file = some x → old.length ≤ a.fileSize := by
    intro x hx
    rw [initRearranged, hnum, hsize, hpageSize] at hx
    simp only [bind_eq_bind, bind_some] at hx
    split_ifs at hx with hl
    have hle : file.length = a.fileSize := hl
    omega
  constructor
  · rintro ⟨file', hfile', r, hr, -⟩
    rw [hfile, Option.some.injEq] at hfile'
    subst hfile'
    exact hinit _ hr
  · intro hold
    have hlen' : file.length = divRoundUp a.numPoints (a.pageSize / a.pqVectorSize) * a.pageSize +
        sectorLen := hlen.trans (max_eq_left hold)
    refine ⟨file, hfile, serves_of_vectorPos (r := ⟨true, a.pageSize, b.bytes, a.pqVectorSize,
      hpage.1, b.pos, b.sector_dvd, fun _ => hpage.page⟩) ?_ fun id hid => ?_⟩
    · rw [initRearranged, hnum, hsize, hpageSize]
      simp only [bind_eq_bind, bind_some, dif_pos hpage, if_pos hlen']
    · exact hvec id hid

end AlignedArgs

/-! ### The plain file -/

section Plain

variable {src : List UInt8} {m : ℕ → ℕ} {n w : ℕ}

/-- The vectors that the map assigns to the ids. -/
def mapped (src : List UInt8) (m : ℕ → ℕ) (n w : ℕ) : List (List UInt8) :=
  (List.range n).map fun i => slice src (4 * 2 + m i * w) w

theorem length_of_mem_mapped (hsrc : IsPlainFile src n w) (hm : ∀ i < n, m i < n) :
    ∀ v ∈ mapped src m n w, v.length = w := by
  intro v hv
  obtain ⟨i, hi, rfl⟩ := mem_map.1 hv
  have hmul := mul_le_mul_right w (hm i (List.mem_range.1 hi))
  rw [succ_mul] at hmul
  exact length_slice (by rw [hsrc.length]; omega)

theorem createPlain_eq (hsrc : IsPlainFile src n w) (hm : ∀ i < n, m i < n) (hn : n = 0 ∨ 100 ≤ n) :
    createPlain src m n w = some (leBytes 4 n ++ leBytes 4 w ++ (mapped src m n w).flatten) := by
  have hrun : ∀ k ≤ n, (List.range k).foldlM (fun out i =>
      if n / 100 = 0 then none else (readSlice src (4 * 2 + m i * w) w).map (out ++ ·))
      (leBytes 4 n ++ leBytes 4 w) = some (leBytes 4 n ++ leBytes 4 w ++
        (mapped src m k w).flatten) := by
    intro k
    induction k with
    | zero => simp [mapped]
    | succ k ih =>
      intro hk
      refine foldlM_range_succ (ih (by omega)) ?_
      have hread : readSlice src (4 * 2 + m k * w) w = some (slice src (4 * 2 + m k * w) w) := by
        have hmul := mul_le_mul_right w (hm k hk)
        rw [succ_mul] at hmul
        exact readSlice_eq_some.2 ⟨by rw [hsrc.length]; omega, rfl⟩
      have hsucc : mapped src m (k + 1) w = mapped src m k w ++ [slice src (4 * 2 + m k * w) w] := by
        rw [mapped, range_succ, map_append]
        rfl
      rw [if_neg (by omega), hread, map_some, hsucc, flatten_append,
        flatten_singleton, append_assoc _ (mapped src m k w).flatten]
  exact hrun n le_rfl

theorem createPlain_eq_none (hpos : 0 < n) (hn : n < 100) : createPlain src m n w = none := by
  obtain ⟨k, rfl⟩ := exists_eq_succ_of_ne_zero hpos.ne'
  rw [createPlain, range_succ_eq_map, foldlM_cons, if_pos (by omega)]
  rfl

/-- The plain file is written, and the reader finds in it what the map assigns, exactly when there are
no points or at least a hundred. -/
theorem serves_createPlain_iff (hsrc : IsPlainFile src n w) (hn : n < 2 ^ 32) (hw : w < 2 ^ 32)
    (hm : ∀ i < n, m i < n) (b : BlockSize) :
    (∃ file, createPlain src m n w = some file ∧
        Serves (initPlain b file) file n fun id => slice src (4 * 2 + m id * w) w) ↔
      n = 0 ∨ 100 ≤ n := by
  constructor
  · rintro ⟨file, hfile, -⟩
    by_contra hnot
    rw [createPlain_eq_none (by omega) (by omega)] at hfile
    cases hfile
  · intro hcount
    have hlen4 : ∀ k, (leBytes 4 k).length = 4 := length_leBytes 4
    have hparts := length_of_mem_mapped hsrc hm
    have hcountParts : (mapped src m n w).length = n := by simp [mapped]
    set body := (mapped src m n w).flatten with hbody
    have hbodyLen : body.length = n * w := by rw [length_flatten_of_length hparts, hcountParts]
    have hheadLen : (leBytes 4 n ++ leBytes 4 w).length = 8 := by
      rw [length_append, hlen4, hlen4]
    have hlen : (leBytes 4 n ++ leBytes 4 w ++ body).length = 4 * 2 + n * w := by
      rw [length_append, hheadLen, hbodyLen]
    have hnum : readLe 4 (leBytes 4 n ++ leBytes 4 w ++ body) 0 = some n := by
      have hslice : slice (leBytes 4 n ++ leBytes 4 w ++ body) 0 4 = leBytes 4 n := by
        exact slice_zero_length (leBytes 4 n)
      rw [readLe_of_slice (by omega) hslice, mod_eq_of_lt hn]
    have hsize : readLe 4 (leBytes 4 n ++ leBytes 4 w ++ body) 4 = some w := by
      have hslice : slice (leBytes 4 n ++ leBytes 4 w ++ body) 4 4 = leBytes 4 w := by
        exact slice_zero_length (leBytes 4 w)
      rw [readLe_of_slice (by omega) hslice, mod_eq_of_lt hw]
    have hplain : createPlain src m n w = some (leBytes 4 n ++ leBytes 4 w ++ body) :=
      createPlain_eq hsrc hm hcount
    refine ⟨_, hplain, serves_of_vectorPos
      (r := ⟨false, 0, b.bytes, w, hsrc.size_pos, b.pos, b.sector_dvd, nofun⟩) ?_ fun id hid => ?_⟩
    · rw [initPlain, hnum, hsize]
      simp only [bind_eq_bind, bind_some, dif_pos hsrc.size_pos, if_pos hlen]
    · show 4 * 2 + id * w + w ≤ _ ∧ slice _ (4 * 2 + id * w) w = _
      have hmul := mul_le_mul_right w hid
      rw [succ_mul] at hmul
      refine ⟨by omega, ?_⟩
      rw [slice_append_right (by rw [hheadLen]; omega), hheadLen, show 4 * 2 + id * w - 8 = id * w by omega,
        hbody, slice_flatten hparts (by rwa [hcountParts])]
      simp [mapped]

end Plain

/-! ### Both files -/

/-- For each file, the reader accepts it and finds in the range it reads for an id what the map assigns
to the id: the aligned one, exactly when no longer file was there before; the plain one, exactly when
there are no points or at least a hundred. -/
theorem rearrangedFiles_served_iff (a : AlignedArgs) (b : BlockSize) (old : List UInt8) (m : ℕ → ℕ)
    (h : a.Fits) (hpage : PageOk a.pageSize a.pqVectorSize b.bytes)
    (hm : ∀ i < a.numPoints, m i < a.numPoints) :
    ((∃ file, a.createFile old = some file ∧
        Serves (initRearranged b file) file a.numPoints a.vector) ↔ old.length ≤ a.fileSize) ∧
      ((∃ file, createPlain a.pqCompressedVectors m a.numPoints a.pqVectorSize = some file ∧
          Serves (initPlain b file) file a.numPoints fun id =>
            slice a.pqCompressedVectors (4 * 2 + m id * a.pqVectorSize) a.pqVectorSize) ↔
        a.numPoints = 0 ∨ 100 ≤ a.numPoints) :=
  ⟨AlignedArgs.serves_createFile_iff h b hpage old,
    serves_createPlain_iff h.plain h.numPoints_lt (hpage.page.2.trans_lt h.pageSize_lt) hm b⟩

/-- Vectors of one byte, in pages of `4096` bytes. -/
def byteVectors (numPoints : ℕ) : AlignedArgs where
  pqCompressedVectors := leBytes 4 numPoints ++ leBytes 4 1 ++ List.replicate numPoints 7
  pageSize := 4096
  rearrangeMap := none
  numPoints
  pqVectorSize := 1

theorem sectorSize_pos : 0 < sectorSize := succ_pos 511

/-- A device with blocks of a sector. -/
def sectorBlocks : BlockSize := ⟨sectorSize, sectorSize_pos, dvd_rfl⟩

theorem fits_byteVectors {n : ℕ} (hn : n < 2 ^ 32) : (byteVectors n).Fits := by
  have hpage : 4096 < 2 ^ 32 := by decide
  refine ⟨⟨?_, one_pos⟩, hn, hpage⟩
  show (leBytes 4 n ++ leBytes 4 1 ++ replicate n 7).length = 4 * 2 + n * 1
  rw [length_append, length_append, length_leBytes, length_leBytes, length_replicate]
  omega

theorem rearrangedFiles_served_iff_one :
    ((∃ file, (byteVectors 1).createFile [] = some file ∧
        Serves (initRearranged sectorBlocks file) file 1 (byteVectors 1).vector) ↔
      0 ≤ (byteVectors 1).fileSize) ∧
    ((∃ file, createPlain (byteVectors 1).pqCompressedVectors id 1 1 = some file ∧
        Serves (initPlain sectorBlocks file) file 1 fun i =>
          slice (byteVectors 1).pqCompressedVectors (4 * 2 + i * 1) 1) ↔ 1 = 0 ∨ 100 ≤ 1) :=
  rearrangedFiles_served_iff (byteVectors 1) sectorBlocks [] id (fits_byteVectors (by decide))
    (by decide) fun i hi => hi

/-- The file of one point is written over that of `5000` points, and keeps its length; and the plain
file of one point is not written. -/
theorem shorterFile_refused : ∃ old file, (byteVectors 5000).createFile [] = some old ∧
    (byteVectors 1).createFile old = some file ∧ old.length = 12288 ∧ (byteVectors 1).fileSize = 8192 ∧
    ¬ Serves (initRearranged sectorBlocks file) file 1 (byteVectors 1).vector ∧
    createPlain (byteVectors 1).pqCompressedVectors id 1 1 = none := by
  have hpage : PageOk 4096 1 sectorBlocks.bytes := by decide
  obtain ⟨old, hold, hlen, -⟩ := AlignedArgs.createFile_spec (fits_byteVectors (n := 5000) (by decide))
    sectorBlocks hpage []
  have hfit := fits_byteVectors (n := 1) (by decide)
  obtain ⟨file, hfile, -⟩ := AlignedArgs.createFile_spec hfit sectorBlocks hpage old
  have hsize : (byteVectors 5000).fileSize = 12288 ∧ (byteVectors 1).fileSize = 8192 := by
    constructor <;>
      norm_num [AlignedArgs.fileSize, AlignedArgs.pqVectorsPerPage, divRoundUp, byteVectors, sectorLen]
  have hlen' : old.length = 12288 := by rw [hlen, hsize.1, length_nil, max_zero]
  refine ⟨old, file, hold, hfile, hlen', hsize.2, fun hserves => ?_, createPlain_eq_none (by decide) (by decide)⟩
  have hle := (AlignedArgs.serves_createFile_iff hfit sectorBlocks hpage old).1 ⟨file, hfile, hserves⟩
  rw [hlen', hsize.2] at hle
  exact absurd hle (by omega)

end DiskANNEval.AiSAQ.PqReader
