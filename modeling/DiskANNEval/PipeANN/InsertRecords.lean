import DiskANNEval.PipeANN.AllocReads
import DiskANNEval.PipeANN.NodeBytes
import DiskANNEval.PipeANN.PruneNeighbors

/-!
# InsertRecords — the records that `insert_in_place` moves

The target and each of its neighbours get a new location, and a page that gets one is written as a
whole.  Such a page is read first if `alloc_loc` says so; the buffer of another one is as
`aligned_alloc` gives it.  The record of a neighbour is then made from the old one, with the target
in its list.

The new record has the coordinates of the old one, but the label bytes of the buffer: the copy leaves
the labels out.
-/

namespace DiskANNEval.PipeANN

open Lib List Option

variable {D : Type}

/-- A call of `insert_in_place`, after the search and the pruning.  `updateBuf` is what the pages of
`update_buf` hold before they are read. -/
structure InsertInPlace (D : Type) where
  meta_ : SSDIndexMetadata
  pruning : Pruning D
  R_eq : pruning.R = meta_.range
  maps : LocMaps
  maps_wf : maps.Wf meta_.layout
  disk : Pages
  disk_ok : meta_.PagesOk disk
  updateBuf : Pages
  updateBuf_ok : meta_.PagesOk updateBuf
  targetId : ℕ
  point : List UInt8
  length_point : point.length = meta_.coordsLen
  newNhood : List ℕ
  located : ∀ nbr ∈ newNhood, ∃ loc < maps.curLoc, maps.id2loc[nbr]? = some loc ∧
    maps.loc2id[loc]? = some (.id nbr) ∧ meta_.nnbrs disk loc ≤ meta_.range
  length_newNhood : newNhood.length ≤ meta_.range
  pageRef : List ℕ
  pageRef_ok : ∀ p ∈ pageRef, ∃ loc < maps.curLoc, p = meta_.sectorNo loc

/-- The locations of the neighbours and, last, of the target, and the disk afterwards. -/
structure Inserted where
  locs : List ℕ
  disk : Pages

namespace InsertInPlace

variable (c : InsertInPlace D)

/-- The pages of `page_buf_map` after the reads. -/
def pageBufs (locs reads : List ℕ) : Pages := fun s =>
  if s ∈ locs.map c.meta_.sectorNo then if s ∈ reads then c.disk s else c.updateBuf s
  else c.disk s

/-- The list of a neighbour with the target. -/
def newList (nbr : ℕ) (nbrs : List ℕ) : List ℕ :=
  let nhood := nbrs ++ [c.targetId]
  if c.pruning.R < nhood.length then c.pruning.deltaPruneNeighbors nhood nbr c.targetId else nhood

/-- The body of the loop over the neighbours: `r_nbr_node` is at `rLoc` and `w_nbr_node` at
`wLoc`. -/
def rewriteNeighbor (pages : Pages) (x : ℕ × ℕ) : Option Pages := do
  let (nbr, wLoc) := x
  let rLoc ← c.maps.id2loc[nbr]?
  let nhood := c.newList nbr (c.meta_.nbrs pages rLoc)
  let pages ← pages.put (c.meta_.sectorNo wLoc) (c.meta_.nnbrsOff wLoc) (leBytes 4 nhood.length)
  let pages ← pages.put (c.meta_.sectorNo wLoc) (c.meta_.coordsOff wLoc) (c.meta_.coords pages rLoc)
  pages.put (c.meta_.sectorNo wLoc) (c.meta_.nbrsOff wLoc) (leList 4 nhood)

def allocated : Option (List ℕ × List ℕ) :=
  (allocLoc c.meta_.layout (c.newNhood.length + 1) c.maps c.pageRef).toOption.map (·.2)

def run : Option Inserted := do
  let (locs, reads) ← c.allocated
  let target ← locs[c.newNhood.length]?
  let pages := c.pageBufs locs reads
  let pages ← c.meta_.writeNode pages (c.meta_.sectorNo target) target c.point c.newNhood
  let pages ← (c.newNhood.zip locs).foldlM c.rewriteNeighbor pages
  return ⟨locs, fun s => if s ∈ locs.map c.meta_.sectorNo then pages s else c.disk s⟩

/-- The call returns, and the new record of each neighbour has the coordinates and the labels of the
old one. -/
def KeepsRecords : Prop :=
  ∃ out, c.run = some out ∧ ∀ x ∈ c.newNhood.zip out.locs, ∀ loc, c.maps.id2loc[x.1]? = some loc →
    c.meta_.coords out.disk x.2 = c.meta_.coords c.disk loc ∧
      c.meta_.labels out.disk x.2 = c.meta_.labels c.disk loc

/-- At the place of each new record the page buffer happens to hold the old labels. -/
def LabelsAgree : Prop :=
  ∀ locs reads, c.allocated = some (locs, reads) → ∀ x ∈ c.newNhood.zip locs, ∀ loc,
    c.maps.id2loc[x.1]? = some loc →
      c.meta_.labels (c.pageBufs locs reads) x.2 = c.meta_.labels c.disk loc

/-! ### One neighbour -/

variable {c}

theorem length_newList {nbr : ℕ} {nbrs : List ℕ} (h : nbrs.length ≤ c.meta_.range) :
    (c.newList nbr nbrs).length ≤ c.meta_.range := by
  have hlen : (nbrs ++ [c.targetId]).length = nbrs.length + 1 := by simp
  rw [newList]
  split_ifs with hR
  · rw [c.pruning.length_deltaPrune (by simp)]
    omega
  · rw [← c.R_eq]
    omega

theorem rewriteNeighbor_spec {pages : Pages} {nbr wLoc rLoc : ℕ} (h : c.meta_.PagesOk pages)
    (hid : c.maps.id2loc[nbr]? = some rLoc) (hn : c.meta_.nnbrs pages rLoc ≤ c.meta_.range)
    (hne : rLoc ≠ wLoc) :
    ∃ pages', c.rewriteNeighbor pages (nbr, wLoc) = some pages' ∧ c.meta_.PagesOk pages' ∧
      c.meta_.Rewritten pages pages' (c.meta_.sectorNo wLoc) wLoc (c.meta_.coords pages rLoc) := by
  have hfit := c.meta_.node_fits
  set nhood := c.newList nbr (c.meta_.nbrs pages rLoc) with hnhood
  have hlen : nhood.length ≤ c.meta_.range := length_newList (by
    rwa [SSDIndexMetadata.nbrs, length_map, length_range])
  obtain ⟨p1, hput1, hok1, hs1, hs1'⟩ := @SSDIndexMetadata.put_in_record c.meta_ _
    (c.meta_.sectorNo wLoc) wLoc h (c.meta_.nnbrsOff wLoc) (leBytes 4 nhood.length)
    (by rw [SSDIndexMetadata.nnbrsOff]; omega)
    (by rw [length_leBytes, SSDIndexMetadata.nnbrsOff, SSDIndexMetadata.labelsOff]; omega)
  -- the count of the new record is outside of the old one
  have hcoords : c.meta_.coords p1 rLoc = c.meta_.coords pages rLoc := by
    refine hs1'.slice_eq _ _ _ fun hs => ?_
    have hdisj := c.meta_.coordsOff_disjoint hs hne
    have hl := c.meta_.labels_fit
    rw [SSDIndexMetadata.labelsOff] at *
    omega
  have hclen : (c.meta_.coords pages rLoc).length = c.meta_.coordsLen := by
    refine length_slice ?_
    have := c.meta_.coordsOff_fit rLoc
    rw [h, SSDIndexMetadata.coordsLen]
    omega
  obtain ⟨p2, hput2, hok2, -, hs2'⟩ := @SSDIndexMetadata.put_in_record c.meta_ _
    (c.meta_.sectorNo wLoc) wLoc hok1 (c.meta_.coordsOff wLoc) (c.meta_.coords pages rLoc) le_rfl
    (by rw [SSDIndexMetadata.labelsOff]; omega)
  obtain ⟨p3, hput3, hok3, hs3, hs3'⟩ := @SSDIndexMetadata.put_in_record c.meta_ _
    (c.meta_.sectorNo wLoc) wLoc hok2 (c.meta_.nbrsOff wLoc) (leList 4 nhood)
    (by rw [SSDIndexMetadata.nbrsOff]; omega)
    (by rw [length_leList, SSDIndexMetadata.nbrsOff, SSDIndexMetadata.labelsOff]; omega)
  refine ⟨p3, ?_, hok3, hs3'.trans (hs2'.trans hs1'), ?_⟩
  · simp only [rewriteNeighbor, hid, ← hnhood, hput1, hcoords, hput2, hput3, bind_eq_bind,
      bind_some]
  · have hsame := Pages.slice_put_same hput2
    rw [hclen] at hsame
    rw [hs3.slice_eq _ _ _ fun _ => .inl (by rw [SSDIndexMetadata.nbrsOff]; omega), hsame]

/-! ### All neighbours -/

/-- The neighbours `xs` have records in `pages` that can be moved: no old place is a new one. -/
structure Movable (c : InsertInPlace D) (pages : Pages) (xs : List (ℕ × ℕ)) : Prop where
  nodup : (xs.map (·.2)).Nodup
  located : ∀ x ∈ xs, ∃ rLoc, c.maps.id2loc[x.1]? = some rLoc ∧
    c.meta_.nnbrs pages rLoc ≤ c.meta_.range ∧ rLoc ∉ xs.map (·.2)

theorem foldlM_rewriteNeighbor {xs : List (ℕ × ℕ)} {pages : Pages} (h : c.meta_.PagesOk pages)
    (hm : c.Movable pages xs) :
    ∃ pages', xs.foldlM c.rewriteNeighbor pages = some pages' ∧
      (∀ loc ∉ xs.map (·.2), c.meta_.coords pages' loc = c.meta_.coords pages loc ∧
        c.meta_.labels pages' loc = c.meta_.labels pages loc) ∧
      ∀ x ∈ xs, ∀ rLoc, c.maps.id2loc[x.1]? = some rLoc →
        c.meta_.coords pages' x.2 = c.meta_.coords pages rLoc ∧
          c.meta_.labels pages' x.2 = c.meta_.labels pages x.2 := by
  induction xs generalizing pages with
  | nil => exact ⟨pages, rfl, fun _ _ => ⟨rfl, rfl⟩, by simp⟩
  | cons x xs ih =>
    obtain ⟨nbr, wLoc⟩ := x
    obtain ⟨hnd, hloc⟩ := hm
    rw [map_cons, nodup_cons] at hnd
    rw [forall_mem_cons] at hloc
    obtain ⟨⟨rLoc, hid, hnn, hnot⟩, hloc⟩ := hloc
    rw [map_cons, mem_cons, not_or] at hnot
    obtain ⟨p1, heq1, hok1, hw⟩ := rewriteNeighbor_spec h hid hnn hnot.1
    have hm1 : c.Movable p1 xs := by
      refine ⟨hnd.2, fun y hy => ?_⟩
      obtain ⟨r, hr, hrn, hrnot⟩ := hloc y hy
      rw [map_cons, mem_cons, not_or] at hrnot
      exact ⟨r, hr, hw.nnbrs_other hrnot.1 ▸ hrn, hrnot.2⟩
    obtain ⟨p2, heq2, hother, hall⟩ := ih hok1 hm1
    refine ⟨p2, ?_, fun loc hl => ?_, ?_⟩
    · rw [foldlM_cons, heq1, bind_eq_bind, bind_some, heq2]
    · rw [map_cons, mem_cons, not_or] at hl
      rw [(hother loc hl.2).1, (hother loc hl.2).2, hw.coords_other hl.1, hw.labels_other hl.1]
      exact ⟨rfl, rfl⟩
    · rw [forall_mem_cons]
      refine ⟨fun r hr => ?_, fun y hy r hr => ?_⟩
      · obtain rfl := Option.some.inj (hid.symm.trans hr)
        obtain ⟨h1, h2⟩ := hother wLoc hnd.1
        exact ⟨h1.trans hw.coords_eq, h2.trans hw.labels_eq⟩
      · obtain ⟨h1, h2⟩ := hall y hy r hr
        have hyw : y.2 ≠ wLoc := by
          rintro he
          exact hnd.1 (mem_map.2 ⟨y, hy, he⟩)
        obtain ⟨r', hr', -, hrnot⟩ := hloc y hy
        obtain rfl := Option.some.inj (hr.symm.trans hr')
        rw [map_cons, mem_cons, not_or] at hrnot
        exact ⟨h1.trans (hw.coords_other hrnot.1), h2.trans (hw.labels_other hyw)⟩

/-! ### The call -/

variable (c)

theorem allocated_spec : ∃ maps locs reads,
    allocLoc c.meta_.layout (c.newNhood.length + 1) c.maps c.pageRef = .ok (maps, locs, reads) ∧
      c.allocated = some (locs, reads) ∧
      Allocated c.meta_.layout (c.newNhood.length + 1) c.maps maps locs := by
  obtain ⟨maps, locs, reads, heq, hall⟩ := @allocLoc_spec _ _ _ c.pageRef c.maps_wf
    (Nat.succ_pos c.newNhood.length) fun p hp => by
      obtain ⟨loc, hloc, rfl⟩ := c.pageRef_ok p hp
      exact (PageLayout.sectorToLoc_le loc).trans_lt hloc
  refine ⟨maps, locs, reads, heq, ?_, hall⟩
  rw [allocated, heq]
  rfl

theorem pagesOk_pageBufs (locs reads : List ℕ) : c.meta_.PagesOk (c.pageBufs locs reads) := by
  intro s
  rw [pageBufs]
  split_ifs
  · exact c.disk_ok s
  · exact c.updateBuf_ok s
  · exact c.disk_ok s

variable {c}

theorem pageBufs_of_live {maps : LocMaps} {locs reads : List ℕ} {loc id : ℕ}
    (heq : allocLoc c.meta_.layout (c.newNhood.length + 1) c.maps c.pageRef = .ok (maps, locs, reads))
    (hloc : loc < c.maps.curLoc) (hid : c.maps.loc2id[loc]? = some (.id id)) :
    c.pageBufs locs reads (c.meta_.sectorNo loc) = c.disk (c.meta_.sectorNo loc) := by
  have hs : SectorsOk c.meta_.layout c.pageRef := fun p hp =>
    (c.pageRef_ok p hp).imp fun _ h => h.2
  rw [pageBufs]
  split_ifs with hmem hread
  · rfl
  · obtain ⟨l, hl, hsec⟩ := mem_map.1 hmem
    have hfree := page_free_of_not_read c.maps_wf hs heq hl
      (fun h => hread (hsec ▸ h)) hloc hsec.symm
    rw [hid] at hfree
    cases hfree
  · rfl

theorem run_spec (c : InsertInPlace D) :
    ∃ locs reads out, c.allocated = some (locs, reads) ∧ c.run = some out ∧ out.locs = locs ∧
      ∀ x ∈ c.newNhood.zip locs, ∀ loc, c.maps.id2loc[x.1]? = some loc →
        c.meta_.coords out.disk x.2 = c.meta_.coords c.disk loc ∧
          c.meta_.labels out.disk x.2 = c.meta_.labels (c.pageBufs locs reads) x.2 := by
  obtain ⟨maps, locs, reads, heq, halloc, hall⟩ := c.allocated_spec
  have hlen : locs.length = c.newNhood.length + 1 := hall.length_eq
  have hok := c.pagesOk_pageBufs locs reads
  have hlt : c.newNhood.length < locs.length := by omega
  obtain ⟨target, htarget⟩ : ∃ target, locs[c.newNhood.length]? = some target :=
    ⟨_, getElem?_eq_getElem hlt⟩
  obtain ⟨p1, heq1, hok1, hw⟩ := @SSDIndexMetadata.writeNode_spec
    c.meta_ _ (c.meta_.sectorNo target) target _ _ hok c.length_point c.length_newNhood
  have hsnd : (c.newNhood.zip locs).map (·.2) = locs.take c.newNhood.length := by
    rw [zip_eq_zip_take_min, Nat.min_eq_left (by omega), take_length]
    exact map_snd_zip (by rw [List.length_take]; omega)
  have htake : locs = locs.take c.newNhood.length ++ [target] := by
    conv_lhs => rw [← take_append_drop c.newNhood.length locs]
    rw [drop_eq_getElem_cons hlt, drop_eq_nil_of_le (by omega)]
    rw [getElem?_eq_getElem hlt, Option.some.injEq] at htarget
    rw [htarget]
  have hnd := hall.nodup
  rw [htake, nodup_append] at hnd
  have hnot : target ∉ locs.take c.newNhood.length := fun hm => hnd.2.2 target hm target (by simp) rfl
  -- the old records are live, so no new one is put over them
  have hold : ∀ x ∈ c.newNhood.zip locs, ∃ rLoc, c.maps.id2loc[x.1]? = some rLoc ∧
      c.meta_.nnbrs c.disk rLoc ≤ c.meta_.range ∧ rLoc ∉ locs ∧
      c.pageBufs locs reads (c.meta_.sectorNo rLoc) = c.disk (c.meta_.sectorNo rLoc) := by
    intro x hx
    obtain ⟨rLoc, hlt, hid, hcell, hn⟩ := c.located x.1 (of_mem_zip hx).1
    refine ⟨rLoc, hid, hn, fun hmem => ?_, pageBufs_of_live heq hlt hcell⟩
    rw [hall.free rLoc hmem hlt] at hcell
    cases hcell
  have hm : c.Movable p1 (c.newNhood.zip locs) := by
    refine ⟨hsnd ▸ hnd.1, fun x hx => ?_⟩
    obtain ⟨rLoc, hid, hn, hnot', hpage⟩ := hold x hx
    refine ⟨rLoc, hid, ?_, fun hmem => hnot' ?_⟩
    · have hne : rLoc ≠ target := fun he => hnot' (he ▸ mem_of_getElem? htarget)
      rw [hw.nnbrs_other hne, SSDIndexMetadata.nnbrs, hpage]
      exact hn
    · exact mem_of_mem_take (hsnd ▸ hmem)
  obtain ⟨p2, heq2, hother, hmoved⟩ := foldlM_rewriteNeighbor hok1 hm
  refine ⟨locs, reads,
    ⟨locs, fun s => if s ∈ locs.map c.meta_.sectorNo then p2 s else c.disk s⟩, halloc, ?_, rfl, ?_⟩
  · simp only [run, halloc, htarget, heq1, heq2, bind_eq_bind, bind_some]
    rfl
  · intro x hx loc hid
    obtain ⟨rLoc, hid', -, hnot', hpage⟩ := hold x hx
    obtain rfl := Option.some.inj (hid.symm.trans hid')
    obtain ⟨h1, h2⟩ := hmoved x hx loc hid
    have hmem : x.2 ∈ locs := (of_mem_zip hx).2
    have hw1 : c.meta_.sectorNo x.2 ∈ locs.map c.meta_.sectorNo := mem_map_of_mem hmem
    have hne : loc ≠ target := fun he => hnot' (he ▸ mem_of_getElem? htarget)
    have hne' : x.2 ≠ target := fun he =>
      hnot (he ▸ hsnd ▸ mem_map_of_mem hx)
    rw [hw.coords_other hne] at h1
    rw [hw.labels_other hne'] at h2
    rw [SSDIndexMetadata.coords, SSDIndexMetadata.labels]
    dsimp only
    rw [if_pos hw1]
    refine ⟨h1.trans ?_, h2⟩
    rw [SSDIndexMetadata.coords, hpage]
    rfl

/-- The moved records are as they were exactly when the new places have their labels already. -/
theorem keepsRecords_iff_labelsAgree (c : InsertInPlace D) : c.KeepsRecords ↔ c.LabelsAgree := by
  obtain ⟨locs, reads, out, halloc, hrun, rfl, hall⟩ := c.run_spec
  constructor
  · rintro ⟨out', hrun', hkeep⟩ locs' reads' halloc' x hx loc hid
    obtain rfl := Option.some.inj (hrun.symm.trans hrun')
    rw [halloc] at halloc'
    obtain ⟨rfl, rfl⟩ := halloc'
    rw [← (hall x hx loc hid).2, (hkeep x hx loc hid).2]
  · intro h
    refine ⟨out, hrun, fun x hx loc hid => ?_⟩
    obtain ⟨h1, h2⟩ := hall x hx loc hid
    exact ⟨h1, h2.trans (h _ _ halloc x hx loc hid)⟩

end InsertInPlace

end DiskANNEval.PipeANN
