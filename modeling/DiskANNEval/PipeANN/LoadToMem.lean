import DiskANNEval.Lib.ByteFile
import DiskANNEval.PipeANN.HandOut
import DiskANNEval.PipeANN.NodeBytes

/-!
# LoadToMem — `load_to_mem`

The records are read in batches of `kLocsPerRead` locations, from the sector of the first location
of a batch to the first sector of the last one.  Where a record takes several sectors, the others of
the last record are not read, and the node is taken from what the buffer has there: in a full batch
what has been there since its allocation, in a shorter one the record that is `kLocsPerRead`
locations before.

`reader->read` is taken to read all the bytes it is asked for.
-/

namespace DiskANNEval.PipeANN

open Lib Nat List

namespace SSDIndexMetadata

variable (m : SSDIndexMetadata)

/-- The node that `node_from_page` refers to, in a page at `pageBuf`. -/
def nodeFromPage (mem : ByteFile) (pageBuf loc : ℕ) : DiskNode (List UInt8) where
  coords := mem.bytes (pageBuf + m.coordsOff loc) m.coordsLen
  nbrs := ByteFile.leArray 4 mem (pageBuf + m.nbrsOff loc)
    (ByteFile.le 4 mem (pageBuf + m.nnbrsOff loc))

/-- The bytes of a record up to the end of its neighbours. -/
def usedLen (mem : ByteFile) (pageBuf loc : ℕ) : ℕ :=
  m.coordsLen + 4 + ByteFile.le 4 mem (pageBuf + m.nnbrsOff loc) * 4

end SSDIndexMetadata

/-- An index file; no record has more than `range` neighbours. -/
structure IndexFile where
  meta_ : SSDIndexMetadata
  npoints : ℕ
  npoints_le : npoints ≤ 2 ^ 32
  bytes : ByteFile
  nnbrs_le : ∀ loc < npoints,
    ByteFile.le 4 bytes (meta_.sectorNo loc * sectorLen + meta_.nnbrsOff loc) ≤ meta_.range

namespace IndexFile

variable (f : IndexFile)

/-- The record on disk. -/
def record (loc : ℕ) : DiskNode (List UInt8) :=
  f.meta_.nodeFromPage f.bytes (f.meta_.sectorNo loc * sectorLen) loc

/-- The bytes of the record up to the end of its neighbours. -/
def recordLen (loc : ℕ) : ℕ := f.meta_.usedLen f.bytes (f.meta_.sectorNo loc * sectorLen) loc

def kLocsPerRead : ℕ :=
  if 0 < f.meta_.nnodesPerSector then roundUp 131072 f.meta_.nnodesPerSector else 131072

def locEd (locSt : ℕ) : ℕ := min f.npoints (locSt + f.kLocsPerRead)

def nSectorsToRead (locSt : ℕ) : ℕ :=
  let locEd := f.locEd locSt
  f.meta_.sectorNo (if 0 < locEd then locEd - 1 else 0) - f.meta_.sectorNo locSt + 1

/-- The buffer after a read. -/
def readBatch (buf : ByteFile) (locSt : ℕ) : ByteFile :=
  buf.put 0 (f.bytes.bytes (f.meta_.sectorNo locSt * sectorLen) (f.nSectorsToRead locSt * sectorLen))

/-- The node that is taken from the buffer. -/
def takeNode (buf : ByteFile) (locSt loc : ℕ) : DiskNode (List UInt8) :=
  f.meta_.nodeFromPage buf ((f.meta_.sectorNo loc - f.meta_.sectorNo locSt) * sectorLen) loc

abbrev MemNodes : Type := ℕ → Option (DiskNode (List UInt8))

/-- The body of the loop over `loc_st`; the iterations for the locations are independent. -/
def loadBatch (s : ByteFile × MemNodes) (locSt : ℕ) : ByteFile × MemNodes :=
  let buf := f.readBatch s.1 locSt
  (buf, (locRange f.npoints f.kLocsPerRead locSt).foldl
    (fun nodes loc => Function.update nodes loc (some (f.takeNode buf locSt loc))) s.2)

/-- `buf` is what the buffer holds after its allocation. -/
def loadToMem (buf : ByteFile) : MemNodes :=
  ((locStarts f.npoints f.kLocsPerRead).foldl f.loadBatch (buf, fun _ => none)).2

/-- Every node is loaded as it is on disk, whatever the buffer holds. -/
def Loads : Prop := ∀ buf, ∀ loc < f.npoints, f.loadToMem buf loc = some (f.record loc)

end IndexFile

/-! ### What a node depends on -/

theorem SSDIndexMetadata.nodeFromPage_eq_iff (m : SSDIndexMetadata) {f g : ByteFile} {a b loc : ℕ} :
    m.nodeFromPage g b loc = m.nodeFromPage f a loc ↔
      ∀ o < m.usedLen f a loc, g (b + m.coordsOff loc + o) = f (a + m.coordsOff loc + o) := by
  have hparts : m.nodeFromPage g b loc = m.nodeFromPage f a loc ↔
      g.bytes (b + m.coordsOff loc) m.coordsLen = f.bytes (a + m.coordsOff loc) m.coordsLen ∧
      ByteFile.le 4 g (b + m.nnbrsOff loc) = ByteFile.le 4 f (a + m.nnbrsOff loc) ∧
      ByteFile.leArray 4 g (b + m.nbrsOff loc) (ByteFile.le 4 f (a + m.nnbrsOff loc)) =
        ByteFile.leArray 4 f (a + m.nbrsOff loc) (ByteFile.le 4 f (a + m.nnbrsOff loc)) := by
    rw [nodeFromPage, nodeFromPage, DiskNode.mk.injEq]
    refine and_congr_right fun _ => ⟨fun h => ?_, fun ⟨hn, h⟩ => by rw [hn, h]⟩
    have hn := congrArg List.length h
    rw [ByteFile.length_leArray, ByteFile.length_leArray] at hn
    rw [hn] at h
    exact ⟨hn, h⟩
  rw [hparts, ByteFile.bytes_eq_iff, ByteFile.le_eq_iff, ByteFile.leArray_eq_iff, usedLen]
  simp only [nnbrsOff, nbrsOff, ← Nat.add_assoc]
  constructor
  · rintro ⟨hc, hn, hl⟩ o ho
    rcases lt_or_ge o m.coordsLen with h1 | h1
    · exact hc o h1
    obtain ⟨d, rfl⟩ := Nat.exists_eq_add_of_le h1
    rcases lt_or_ge d 4 with h2 | h2
    · exact (Nat.add_assoc ..) ▸ (Nat.add_assoc (a + m.coordsOff loc) ..) ▸ hn d h2
    · obtain ⟨e, rfl⟩ := Nat.exists_eq_add_of_le h2
      have h := hl e (by omega)
      simp only [Nat.add_assoc] at h ⊢
      exact h
  · intro h
    refine ⟨fun o ho => h o (by omega), fun o ho => ?_, fun o ho => ?_⟩
    · have h := h (m.coordsLen + o) (by omega)
      simp only [← Nat.add_assoc] at h
      exact h
    · have h := h (m.coordsLen + 4 + o) (by omega)
      simp only [← Nat.add_assoc] at h
      exact h

namespace IndexFile

variable {f : IndexFile} {buf : ByteFile} {loc locSt : ℕ}

theorem recordLen_le (hloc : loc < f.npoints) : f.recordLen loc ≤ f.meta_.maxNodeLen := by
  have h := f.nnbrs_le loc hloc
  have hfit := f.meta_.labels_fit
  rw [recordLen, SSDIndexMetadata.usedLen]
  omega

/-! ### The buffer -/

theorem readBatch_apply (p : ℕ) : f.readBatch buf locSt p =
    if p < f.nSectorsToRead locSt * sectorLen then
      f.bytes (f.meta_.sectorNo locSt * sectorLen + p) else buf p := by
  split_ifs with hp
  · have h := @ByteFile.put_bytes_of_lt buf f.bytes 0 (f.nSectorsToRead locSt * sectorLen)
      (f.meta_.sectorNo locSt * sectorLen) p hp
    rwa [zero_add] at h
  · refine ByteFile.put_of_not_mem (.inr ?_)
    rw [ByteFile.length_bytes]
    omega

/-- The buffer after `n` batches. -/
def bufAfter (f : IndexFile) (buf : ByteFile) : ℕ → ByteFile
  | 0 => buf
  | n + 1 => f.readBatch (bufAfter f buf n) (n * f.kLocsPerRead)

theorem kLocsPerRead_pos (f : IndexFile) : 0 < f.kLocsPerRead :=
  MergeDeletes.locPerMerge_pos f.meta_.nnodesPerSector

theorem foldl_update {α : Type} (g : ℕ → α) (ids : List ℕ) (nodes : ℕ → Option α) (x : ℕ) :
    ids.foldl (fun nodes loc => Function.update nodes loc (some (g loc))) nodes x =
      if x ∈ ids then some (g x) else nodes x := by
  induction ids generalizing nodes with
  | nil => rfl
  | cons id ids ih =>
    rw [foldl_cons, ih]
    by_cases hx : x ∈ ids
    · rw [if_pos hx, if_pos (mem_cons_of_mem _ hx)]
    · rw [if_neg hx]
      by_cases he : x = id
      · rw [he, if_pos mem_cons_self, Function.update_self]
      · rw [if_neg (not_mem_cons_of_ne_of_not_mem he hx), Function.update_of_ne he]

theorem foldl_loadBatch (n : ℕ) :
    (range' 0 n f.kLocsPerRead).foldl f.loadBatch (buf, fun _ => none) =
      (f.bufAfter buf n, fun loc => if loc < f.npoints ∧ loc < n * f.kLocsPerRead then
        some (f.takeNode (f.bufAfter buf (loc / f.kLocsPerRead + 1))
          (loc / f.kLocsPerRead * f.kLocsPerRead) loc) else none) := by
  induction n with
  | zero =>
    refine Prod.ext rfl (funext fun loc => ?_)
    dsimp only
    rw [if_neg (by omega)]
    rfl
  | succ n ih =>
    have hn : (n + 1) * f.kLocsPerRead = n * f.kLocsPerRead + f.kLocsPerRead := succ_mul ..
    rw [range'_concat, foldl_append, ih, zero_add, mul_comm f.kLocsPerRead n,
      foldl_cons, foldl_nil, loadBatch]
    refine Prod.ext rfl (funext fun loc => ?_)
    dsimp only
    have hmem : loc ∈ locRange f.npoints f.kLocsPerRead (n * f.kLocsPerRead) ↔
        n * f.kLocsPerRead ≤ loc ∧ loc < (n + 1) * f.kLocsPerRead ∧ loc < f.npoints := by
      rw [locRange, mem_range'_1]
      omega
    rw [foldl_update]
    by_cases hloc : n * f.kLocsPerRead ≤ loc ∧ loc < (n + 1) * f.kLocsPerRead
    · have hdiv : loc / f.kLocsPerRead = n :=
        Nat.div_eq_of_lt_le hloc.1 hloc.2
      by_cases hlt : loc < f.npoints
      · rw [if_pos (hmem.2 ⟨hloc.1, hloc.2, hlt⟩), if_pos ⟨hlt, hloc.2⟩, hdiv]
        rfl
      · rw [if_neg fun h => hlt (hmem.1 h).2.2, if_neg fun h => hlt h.1, if_neg fun h => hlt h.1]
    · rw [if_neg fun h => hloc ⟨(hmem.1 h).1, (hmem.1 h).2.1⟩]
      refine if_congr ?_ rfl rfl
      omega

theorem loadToMem_eq (buf : ByteFile) (hloc : loc < f.npoints) :
    f.loadToMem buf loc = some (f.takeNode (f.bufAfter buf (loc / f.kLocsPerRead + 1))
      (loc / f.kLocsPerRead * f.kLocsPerRead) loc) := by
  rw [loadToMem, locStarts, foldl_loadBatch]
  exact if_pos ⟨hloc, hloc.trans_le (le_chunks_mul f.kLocsPerRead_pos)⟩

theorem loaded_iff (buf : ByteFile) (hloc : loc < f.npoints) :
    f.loadToMem buf loc = some (f.record loc) ↔ ∀ o < f.recordLen loc,
      f.bufAfter buf (loc / f.kLocsPerRead + 1)
        ((f.meta_.sectorNo loc - f.meta_.sectorNo (loc / f.kLocsPerRead * f.kLocsPerRead)) * sectorLen +
          f.meta_.coordsOff loc + o) =
      f.bytes (f.meta_.sectorNo loc * sectorLen + f.meta_.coordsOff loc + o) := by
  rw [loadToMem_eq buf hloc, Option.some_inj]
  exact f.meta_.nodeFromPage_eq_iff

/-! ### Which bytes are read -/

theorem sectorNo_mono {loc loc' : ℕ} (h : loc ≤ loc') : f.meta_.sectorNo loc ≤ f.meta_.sectorNo loc' := by
  show 1 + _ ≤ 1 + _
  refine Nat.add_le_add_left ?_ 1
  split_ifs
  · exact Nat.div_le_div_right h
  · exact mul_le_mul_right _ h

theorem bufAfter_of_lt {n p : ℕ} (hloc : n * f.kLocsPerRead ≤ loc)
    (hp : (f.meta_.sectorNo loc - f.meta_.sectorNo (n * f.kLocsPerRead)) * sectorLen + p <
      f.nSectorsToRead (n * f.kLocsPerRead) * sectorLen) :
    f.bufAfter buf (n + 1)
        ((f.meta_.sectorNo loc - f.meta_.sectorNo (n * f.kLocsPerRead)) * sectorLen + p) =
      f.bytes (f.meta_.sectorNo loc * sectorLen + p) := by
  rw [bufAfter, readBatch_apply, if_pos hp, ← add_assoc, ← add_mul,
    Nat.add_sub_cancel' (sectorNo_mono hloc)]

theorem sectorNo_of_large (hn : f.meta_.nnodesPerSector = 0) (loc : ℕ) :
    f.meta_.sectorNo loc = 1 + loc * f.meta_.layout.sectorsPerNode := by
  show 1 + (if 0 < f.meta_.nnodesPerSector then _ else _) = _
  rw [hn, if_neg (Nat.lt_irrefl 0)]

theorem nSectorsToRead_eq {n : ℕ} (hn : n * f.kLocsPerRead < f.npoints) :
    f.nSectorsToRead (n * f.kLocsPerRead) =
      f.meta_.sectorNo (f.locEd (n * f.kLocsPerRead) - 1) - f.meta_.sectorNo (n * f.kLocsPerRead) + 1 := by
  have hk := f.kLocsPerRead_pos
  have hpos : 0 < f.locEd (n * f.kLocsPerRead) := by
    rw [locEd]
    omega
  rw [nSectorsToRead, if_pos hpos]

theorem first_sector_lt (hloc : loc < f.npoints) {p : ℕ} (hp : p < sectorLen) :
    (f.meta_.sectorNo loc - f.meta_.sectorNo (loc / f.kLocsPerRead * f.kLocsPerRead)) * sectorLen + p <
      f.nSectorsToRead (loc / f.kLocsPerRead * f.kLocsPerRead) * sectorLen := by
  have hst := div_mul_le_self loc f.kLocsPerRead
  have hlt := lt_div_mul_add f.kLocsPerRead_pos (a := loc)
  rw [nSectorsToRead_eq (by omega)]
  have hed : f.meta_.sectorNo loc ≤
      f.meta_.sectorNo (f.locEd (loc / f.kLocsPerRead * f.kLocsPerRead) - 1) :=
    sectorNo_mono (by rw [locEd]; omega)
  have hle : (f.meta_.sectorNo loc - f.meta_.sectorNo (loc / f.kLocsPerRead * f.kLocsPerRead) + 1) *
      sectorLen ≤ (f.meta_.sectorNo (f.locEd (loc / f.kLocsPerRead * f.kLocsPerRead) - 1) -
        f.meta_.sectorNo (loc / f.kLocsPerRead * f.kLocsPerRead) + 1) * sectorLen :=
    mul_le_mul_right _ (by omega)
  rw [succ_mul] at hle
  omega

/-! ### Records of several sectors -/

section Large

variable (hn : f.meta_.nnodesPerSector = 0)

include hn

theorem sectorNo_sub (n d : ℕ) :
    f.meta_.sectorNo (n * f.kLocsPerRead + d) - f.meta_.sectorNo (n * f.kLocsPerRead) =
      d * f.meta_.layout.sectorsPerNode := by
  rw [sectorNo_of_large hn, sectorNo_of_large hn, add_mul]
  omega

theorem all_sectors_lt {n d p : ℕ} (hd : n * f.kLocsPerRead + d + 1 < f.locEd (n * f.kLocsPerRead))
    (hp : p < f.meta_.layout.sectorsPerNode * sectorLen) :
    d * f.meta_.layout.sectorsPerNode * sectorLen + p <
      f.nSectorsToRead (n * f.kLocsPerRead) * sectorLen := by
  have hlt : n * f.kLocsPerRead < f.npoints := by
    rw [locEd] at hd
    omega
  obtain ⟨e, he⟩ := Nat.exists_eq_add_of_le (show n * f.kLocsPerRead + (d + 1) ≤
    f.locEd (n * f.kLocsPerRead) - 1 by omega)
  rw [nSectorsToRead_eq hlt, he, Nat.add_assoc, sectorNo_sub hn]
  have hle : (d + 1) * f.meta_.layout.sectorsPerNode ≤ (d + 1 + e) * f.meta_.layout.sectorsPerNode :=
    mul_le_mul_right _ (by omega)
  have hle' := mul_le_mul_right sectorLen hle
  rw [succ_mul (d : ℕ), add_mul] at hle'
  rw [succ_mul]
  omega

theorem last_sectors_ge {n d : ℕ} (hd : n * f.kLocsPerRead + d + 1 = f.locEd (n * f.kLocsPerRead)) :
    f.nSectorsToRead (n * f.kLocsPerRead) * sectorLen =
      d * f.meta_.layout.sectorsPerNode * sectorLen + sectorLen := by
  have hlt : n * f.kLocsPerRead < f.npoints := by
    rw [locEd] at hd
    omega
  rw [nSectorsToRead_eq hlt, ← hd, Nat.add_sub_cancel, sectorNo_sub hn, succ_mul]

theorem bufAfter_of_full {n p : ℕ} (hfull : n * f.kLocsPerRead ≤ f.npoints)
    (hp : (f.kLocsPerRead - 1) * f.meta_.layout.sectorsPerNode * sectorLen + sectorLen ≤ p) :
    f.bufAfter buf n p = buf p := by
  have hk := f.kLocsPerRead_pos
  induction n with
  | zero => rfl
  | succ n ih =>
    rw [succ_mul] at hfull
    have hd : n * f.kLocsPerRead + (f.kLocsPerRead - 1) + 1 = f.locEd (n * f.kLocsPerRead) := by
      rw [locEd]
      omega
    rw [bufAfter, readBatch_apply, last_sectors_ge hn hd, if_neg (not_lt.2 hp)]
    exact ih (by omega)

end Large

/-! ### The condition -/

/-- Behind its first sector the record has the bytes of the other one. -/
def TailAgrees (f : IndexFile) (loc loc' : ℕ) : Prop :=
  ∀ o, sectorLen ≤ o → o < f.recordLen loc →
    f.bytes (f.meta_.sectorNo loc * sectorLen + o) = f.bytes (f.meta_.sectorNo loc' * sectorLen + o)

/-- Where a record takes several sectors, the last record of each full batch ends in its first one;
so does that of a shorter batch, or it goes on like the record `kLocsPerRead` locations before. -/
def LastsOk (f : IndexFile) : Prop :=
  f.meta_.nnodesPerSector = 0 → ∀ loc < f.npoints,
    (f.kLocsPerRead ∣ loc + 1 → f.recordLen loc ≤ sectorLen) ∧
    (loc + 1 = f.npoints → f.recordLen loc ≤ sectorLen ∨
      f.kLocsPerRead ≤ loc ∧ f.TailAgrees loc (loc - f.kLocsPerRead))

theorem coordsOff_of_large (hn : f.meta_.nnodesPerSector = 0) (loc : ℕ) : f.meta_.coordsOff loc = 0 :=
  if_pos hn

theorem loaded_of_lt (hloc : loc < f.npoints) (h : ∀ o < f.recordLen loc,
    (f.meta_.sectorNo loc - f.meta_.sectorNo (loc / f.kLocsPerRead * f.kLocsPerRead)) * sectorLen +
      (f.meta_.coordsOff loc + o) <
      f.nSectorsToRead (loc / f.kLocsPerRead * f.kLocsPerRead) * sectorLen) :
    f.loadToMem buf loc = some (f.record loc) := by
  refine (loaded_iff buf hloc).2 fun o ho => ?_
  rw [add_assoc, add_assoc]
  exact bufAfter_of_lt (div_mul_le_self loc f.kLocsPerRead) (h o ho)

theorem loaded_of_short (hloc : loc < f.npoints)
    (hshort : f.meta_.coordsOff loc + f.recordLen loc ≤ sectorLen) :
    f.loadToMem buf loc = some (f.record loc) :=
  loaded_of_lt hloc fun o ho => first_sector_lt hloc (by omega)

theorem recordLen_le_sectors (hloc : loc < f.npoints) :
    f.recordLen loc ≤ f.meta_.layout.sectorsPerNode * sectorLen := by
  refine (recordLen_le hloc).trans ?_
  rw [mul_comm]
  exact SSDIndexMetadata.le_divRoundUp_mul _ (by decide)

theorem bufAfter_last (hn : f.meta_.nnodesPerSector = 0) {n d o : ℕ}
    (hd : n * f.kLocsPerRead + d + 1 = f.locEd (n * f.kLocsPerRead)) (hdk : d < f.kLocsPerRead)
    (ho : sectorLen ≤ o) (hospn : o < f.meta_.layout.sectorsPerNode * sectorLen) :
    f.bufAfter buf (n + 1) (d * f.meta_.layout.sectorsPerNode * sectorLen + o) =
      if 0 < n ∧ d + 1 < f.kLocsPerRead then
        f.bytes (f.meta_.sectorNo (n * f.kLocsPerRead + d - f.kLocsPerRead) * sectorLen + o)
      else buf (d * f.meta_.layout.sectorsPerNode * sectorLen + o) := by
  have hlt : n * f.kLocsPerRead < f.npoints := by
    rw [locEd] at hd
    omega
  rw [bufAfter, readBatch_apply, last_sectors_ge hn hd, if_neg (by omega)]
  split_ifs with hshort
  · -- the batch before is full, and its record `d` is not the last one
    obtain ⟨n, rfl⟩ := exists_eq_succ_of_ne_zero hshort.1.ne'
    have hn1 : n.succ * f.kLocsPerRead = n * f.kLocsPerRead + f.kLocsPerRead := succ_mul ..
    have hprev : n * f.kLocsPerRead + d + 1 < f.locEd (n * f.kLocsPerRead) := by
      rw [locEd]
      omega
    have hread := @bufAfter_of_lt f buf (n * f.kLocsPerRead + d) n o (le_add_right _ _) (by
      rw [sectorNo_sub hn]
      exact all_sectors_lt hn hprev hospn)
    rw [sectorNo_sub hn] at hread
    rw [hread, show n.succ * f.kLocsPerRead + d - f.kLocsPerRead = n * f.kLocsPerRead + d by omega]
  · rcases Nat.eq_zero_or_pos n with rfl | hpos
    · rfl
    · obtain rfl : d = f.kLocsPerRead - 1 := by omega
      exact bufAfter_of_full hn hlt.le (by omega)

/-! ### The last record of a batch -/

theorem sectorNo_sub_div (hn : f.meta_.nnodesPerSector = 0) (loc : ℕ) :
    f.meta_.sectorNo loc - f.meta_.sectorNo (loc / f.kLocsPerRead * f.kLocsPerRead) =
      loc % f.kLocsPerRead * f.meta_.layout.sectorsPerNode := by
  have h := sectorNo_sub hn (loc / f.kLocsPerRead) (loc % f.kLocsPerRead)
  rwa [div_add_mod'] at h

theorem dvd_succ_iff (loc : ℕ) : f.kLocsPerRead ∣ loc + 1 ↔ loc % f.kLocsPerRead + 1 = f.kLocsPerRead := by
  have hlt := mod_lt loc f.kLocsPerRead_pos
  have hsplit : loc + 1 = loc / f.kLocsPerRead * f.kLocsPerRead + (loc % f.kLocsPerRead + 1) := by
    rw [← add_assoc, div_add_mod']
  rw [hsplit, Nat.dvd_add_right (dvd_mul_left _ _)]
  exact ⟨fun h => le_antisymm hlt (le_of_dvd (succ_pos _) h), fun h => dvd_of_eq h.symm⟩

theorem loaded_of_not_last (hn : f.meta_.nnodesPerSector = 0) (hloc : loc + 1 < f.npoints)
    (hdvd : ¬ f.kLocsPerRead ∣ loc + 1) : f.loadToMem buf loc = some (f.record loc) := by
  have hmod := mod_lt loc f.kLocsPerRead_pos
  have hdiv := div_add_mod' loc f.kLocsPerRead
  rw [dvd_succ_iff] at hdvd
  refine loaded_of_lt (by omega) fun o ho => ?_
  rw [sectorNo_sub_div hn, coordsOff_of_large hn, zero_add]
  refine all_sectors_lt hn ?_ (ho.trans_le (recordLen_le_sectors (by omega)))
  rw [locEd]
  omega

/-- The last record of a batch is loaded whatever the buffer holds if it ends in its first sector,
or if the batch is shorter than the one before, which has the same bytes there. -/
theorem forall_loaded_last_iff (hn : f.meta_.nnodesPerSector = 0) (hloc : loc < f.npoints)
    (hlast : f.kLocsPerRead ∣ loc + 1 ∨ loc + 1 = f.npoints) :
    (∀ buf, f.loadToMem buf loc = some (f.record loc)) ↔ f.recordLen loc ≤ sectorLen ∨
      (f.kLocsPerRead ≤ loc ∧ ¬ f.kLocsPerRead ∣ loc + 1) ∧
        f.TailAgrees loc (loc - f.kLocsPerRead) := by
  have hk := f.kLocsPerRead_pos
  have hmod := mod_lt loc hk
  have hdiv := div_add_mod' loc f.kLocsPerRead
  have hshort : (f.kLocsPerRead ≤ loc ∧ ¬ f.kLocsPerRead ∣ loc + 1) ↔
      0 < loc / f.kLocsPerRead ∧ loc % f.kLocsPerRead + 1 < f.kLocsPerRead := by
    rw [dvd_succ_iff, Nat.div_pos_iff]
    omega
  have hd : loc / f.kLocsPerRead * f.kLocsPerRead + loc % f.kLocsPerRead + 1 =
      f.locEd (loc / f.kLocsPerRead * f.kLocsPerRead) := by
    rw [dvd_succ_iff] at hlast
    rw [locEd]
    omega
  -- the bytes of the record behind its first sector
  have htail : ∀ buf o, sectorLen ≤ o → o < f.recordLen loc →
      f.bufAfter buf (loc / f.kLocsPerRead + 1) ((f.meta_.sectorNo loc -
        f.meta_.sectorNo (loc / f.kLocsPerRead * f.kLocsPerRead)) * sectorLen +
          f.meta_.coordsOff loc + o) =
      if f.kLocsPerRead ≤ loc ∧ ¬ f.kLocsPerRead ∣ loc + 1 then
        f.bytes (f.meta_.sectorNo (loc - f.kLocsPerRead) * sectorLen + o)
      else buf (loc % f.kLocsPerRead * f.meta_.layout.sectorsPerNode * sectorLen + o) := by
    intro buf o ho hlen
    have hsectors := hlen.trans_le (recordLen_le_sectors hloc)
    rw [sectorNo_sub_div hn, coordsOff_of_large hn, add_assoc _ 0, zero_add,
      bufAfter_last hn hd hmod ho hsectors, hdiv]
    exact if_congr hshort.symm rfl rfl
  constructor
  · intro h
    refine or_iff_not_imp_left.2 fun hlong => ?_
    have hbytes : ∀ buf o, o < f.recordLen loc → _ := fun buf => (loaded_iff buf hloc).1 (h buf)
    simp only [coordsOff_of_large hn, add_zero] at hbytes htail
    by_cases hcase : f.kLocsPerRead ≤ loc ∧ ¬ f.kLocsPerRead ∣ loc + 1
    · refine ⟨hcase, fun o ho hlen => ?_⟩
      have hbyte := hbytes f.bytes o hlen
      rw [htail f.bytes o ho hlen, if_pos hcase] at hbyte
      exact hbyte.symm
    · -- another byte than that of the record
      have hbyte := hbytes (fun _ => f.bytes (f.meta_.sectorNo loc * sectorLen + sectorLen) + 1)
        sectorLen (by omega)
      rw [htail _ sectorLen (le_refl _) (by omega), if_neg hcase] at hbyte
      simp at hbyte
  · intro h buf
    refine (loaded_iff buf hloc).2 fun o ho => ?_
    rcases Nat.lt_or_ge o sectorLen with hfirst | hge
    · rw [add_assoc, add_assoc]
      refine bufAfter_of_lt (div_mul_le_self loc f.kLocsPerRead) (first_sector_lt hloc ?_)
      rwa [coordsOff_of_large hn, zero_add]
    · obtain ⟨hcase, hagrees⟩ := h.resolve_left (by omega)
      rw [htail buf o hge ho, if_pos hcase, coordsOff_of_large hn, add_zero]
      exact (hagrees o hge ho).symm

/-- `load_to_mem` loads the nodes as they are on disk exactly when the last records of the batches
do not go on behind what is read of them. -/
theorem loads_iff (f : IndexFile) : f.Loads ↔ f.LastsOk := by
  by_cases hn : f.meta_.nnodesPerSector = 0
  swap
  · refine iff_of_true (fun buf loc hloc => loaded_of_short hloc ?_) fun h => absurd h hn
    have hfit := f.meta_.coordsOff_fit loc
    have hlen := recordLen_le hloc
    rw [SSDIndexMetadata.sizePerIo, if_pos (pos_of_ne_zero hn), mul_one] at hfit
    omega
  constructor
  · intro h _ loc hloc
    have hiff := fun hlast => (forall_loaded_last_iff hn hloc hlast).1 fun buf => h buf loc hloc
    refine ⟨fun hdvd => ?_, fun hend => ?_⟩
    · exact (hiff (.inl hdvd)).resolve_right fun hcase => hcase.1.2 hdvd
    · exact (hiff (.inr hend)).imp_right fun hcase => ⟨hcase.1.1, hcase.2⟩
  · intro h buf loc hloc
    obtain ⟨hfull, hend⟩ := h hn loc hloc
    by_cases hdvd : f.kLocsPerRead ∣ loc + 1
    · exact (forall_loaded_last_iff hn hloc (.inl hdvd)).2 (.inl (hfull hdvd)) buf
    by_cases hlast : loc + 1 = f.npoints
    · refine (forall_loaded_last_iff hn hloc (.inr hlast)).2 ?_ buf
      exact (hend hlast).imp_right fun hcase => ⟨⟨hcase.1, hdvd⟩, hcase.2⟩
    · exact loaded_of_not_last hn (by omega) hdvd

theorem floats_fit : 1100 * 4 + 0 + 4 ≤ 4408 := by decide

theorem no_node_fits : 0 * 4408 ≤ sectorLen := by decide

/-- Coordinates of 1100 floats, and room for one neighbour. -/
def largeMeta : SSDIndexMetadata where
  dataDim := 1100
  sizeofT := 4
  maxNodeLen := 4408
  nnodesPerSector := 0
  labelSize := 0
  node_fits := floats_fit
  sector_fits := no_node_fits

theorem zeros_nnbrs_le : ∀ loc < 1,
    ByteFile.le 4 (fun _ => 0) (largeMeta.sectorNo loc * sectorLen + largeMeta.nnbrsOff loc) ≤
      largeMeta.range := by
  intro loc _
  rw [ByteFile.le_eq_zero fun _ _ _ => rfl]
  exact zero_le _

theorem one_le_two_pow_32 : 1 ≤ 2 ^ 32 := Nat.one_le_two_pow

/-- One point, at zero, without neighbours. -/
def largeFile : IndexFile where
  meta_ := largeMeta
  npoints := 1
  npoints_le := one_le_two_pow_32
  bytes := fun _ => 0
  nnbrs_le := zeros_nnbrs_le

/-- The last 304 bytes of the coordinates are what the buffer holds. -/
theorem largeFile_not_loaded :
    largeFile.loadToMem (fun _ => 1) 0 ≠ some (largeFile.record 0) ∧ ¬ largeFile.Loads := by
  have hne : largeFile.loadToMem (fun _ => 1) 0 ≠ some (largeFile.record 0) := by
    intro h
    have hlen : sectorLen < largeFile.recordLen 0 := by
      rw [recordLen, SSDIndexMetadata.usedLen, show largeFile.meta_.coordsLen = 4400 from rfl,
        sectorLen]
      omega
    have hk : largeFile.kLocsPerRead = 131072 := rfl
    have hbyte := (loaded_iff (f := largeFile) (fun _ => 1) one_pos).1 h sectorLen hlen
    have hlast := @bufAfter_last largeFile (fun _ => 1) rfl 0 0 sectorLen (by rw [hk]; rfl)
      (by rw [hk]; omega) (le_refl _) (by decide)
    rw [if_neg fun hcase => absurd hcase.1 (Nat.lt_irrefl 0)] at hlast
    rw [sectorNo_sub_div rfl, coordsOff_of_large rfl, zero_mod, Nat.zero_div, zero_mul,
      zero_mul, zero_add, zero_add] at hbyte
    rw [zero_mul, zero_mul, zero_add] at hlast
    exact absurd (hlast.symm.trans hbyte) (by decide)
  exact ⟨hne, fun h => hne (h _ 0 one_pos)⟩

end IndexFile

end DiskANNEval.PipeANN
