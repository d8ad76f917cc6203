import DiskANNEval.FreshDiskANN.MergedFile

/-!
# MergeLayout — the header that a merge writes

The header is for lists of at most `range`, and the records of `process_deletes` are where the input
file has them.  So the header is right when the input file is for lists of the same length; and when
it is for shorter ones, but one record is alone in its sector or in the index (`headerDescribes_iff`).
-/

namespace DiskANNEval.FreshDiskANN

open Lib List

namespace IndexMerger

variable {D Code Tag : Type} [DecidableEq Tag] {m : IndexMerger D Code Tag}

/-- A reader with the header finds the nodes that `process_deletes` and `process_merges` have written,
and no list is too long for a record of the header. -/
structure HeaderDescribes (m : IndexMerger D Code Tag) : Prop where
  sectors : 0 < m.outLayout.nnodesPerSector
  deletes : ∀ id < m.diskNpts, m.outLayout.readNode m.consolidatedFile id =
    ⟨(m.diskNode id).coords, m.repaired id⟩ ∧ m.outLayout.Room (m.repaired id).length
  merges : ∀ out, m.merge = some out → ∀ id < out.npts,
    m.mergedNode out.medoid id = some (out.layout.readNode out.file id) ∧
      out.layout.Room (out.layout.readNode out.file id).nbrs.length

/-- The lists of the file are in their records. -/
def RecordsOk (m : IndexMerger D Code Tag) : Prop :=
  ∀ id < m.diskNpts, m.layout.Room (m.diskNode id).nbrs.length

/-- The header's records fit into a sector, and the file is for lists as long as the header's, or it
is for shorter ones and no record comes behind another in its sector. -/
def LayoutsAgree (m : IndexMerger D Code Tag) : Prop :=
  0 < m.outLayout.nnodesPerSector ∧ (m.degree = m.pruning.range ∨
    m.degree < m.pruning.range ∧ (m.diskNpts = 1 ∨ m.layout.nnodesPerSector = 1))

/-- Another file and other deletes. -/
def withFile (m : IndexMerger D Code Tag) (disk : ByteFile) (deletedTags : Finset Tag) :
    IndexMerger D Code Tag :=
  { m with disk, deletedTags }

section

omit [DecidableEq Tag]

@[simp] theorem outLayout_withFile {f : ByteFile} {T : Finset Tag} :
    (m.withFile f T).outLayout = m.outLayout := rfl

@[simp] theorem diskNode_withFile {f : ByteFile} {T : Finset Tag} {id : ℕ} :
    (m.withFile f T).diskNode id = m.layout.readNode f id := rfl

theorem LayoutsAgree.samePlaces (h : m.LayoutsAgree) : m.SamePlaces := by
  obtain ⟨hpos, hdeg | ⟨hdeg, hone | hone⟩⟩ := h
  · intro id _
    rw [layout, outLayout, hdeg]
  · intro id hid
    obtain rfl : id = 0 := by omega
    simp [Layout.nodeOff]
  · intro id _
    have hout : m.outLayout.nnodesPerSector = 1 := by
      have h1 : sectorLen / (m.coordsLen + 4 + m.degree * 4) = 1 := hone
      have h2 : 0 < sectorLen / (m.coordsLen + 4 + m.pruning.range * 4) := hpos
      have h3 : sectorLen / (m.coordsLen + 4 + m.pruning.range * 4) ≤
          sectorLen / (m.coordsLen + 4 + m.degree * 4) :=
        Nat.div_le_div_left (by omega) (by omega)
      show sectorLen / (m.coordsLen + 4 + m.pruning.range * 4) = 1
      omega
    rw [Layout.nodeOff, Layout.nodeOff, hone, hout]
    simp [Nat.mod_one]

end

theorem LayoutsAgree.headerDescribes (h : m.LayoutsAgree) (hrec : m.RecordsOk) :
    m.HeaderDescribes := by
  have hfit : m.ListsFit := by
    intro id hid
    have hlen := Layout.room_ofRange.1 (hrec id hid)
    obtain ⟨-, hdeg | ⟨hdeg, -⟩⟩ := h
    · omega
    · omega
  have hgraph := fun id (hid : id < m.diskNpts) => graph_eq h.1 h.samePlaces hfit hid
  have hlen := fun id (hid : id < m.diskNpts) => consolidateDeletes_length (hfit id hid)
  refine ⟨h.1, fun id hid => ⟨hgraph id hid, Layout.room_ofRange.2 (hlen id hid)⟩, ?_⟩
  intro out hout id hid
  obtain ⟨hnode, hroom⟩ := readNode_merge hout hid fun hr => by
    have hlt := lt_diskNpts hout hid hr
    rw [hgraph id hlt]
    exact hlen id hlt
  refine ⟨hnode, ?_⟩
  obtain ⟨-, -, -, -, -, hlayout, -⟩ := merge_eq_some hout
  rw [hlayout] at hroom ⊢
  exact Layout.room_ofRange.2 hroom

/-! ### Files that a wrong header does not describe -/

theorem repaired_of_empty {f : ByteFile} (id : ℕ) : (m.withFile f ∅).repaired id =
    ((m.withFile f ∅).diskNode id).nbrs := by
  have hdel : (m.withFile f ∅).diskDeletedIds = ∅ := by
    exact Finset.filter_false_of_mem fun _ _ => Finset.notMem_empty _
  rw [repaired, consolidateDeletes, hdel]
  split_ifs with h1 h2
  · obtain h1 | h1 := h1
    · exact h1.symm
    · exact absurd h1 (Finset.notMem_empty id)
  · rfl
  · exact absurd (fun nbr _ => Finset.notMem_empty nbr) h2
  · exact absurd (fun nbr _ => Finset.notMem_empty nbr) h2

omit [DecidableEq Tag] in
theorem layout_ok (h : 0 < m.layout.nnodesPerSector) : m.layout.Ok :=
  ⟨h, Nat.div_mul_le_self _ _⟩

omit [DecidableEq Tag] in
theorem nbrs_of_le {l : Layout} {f : ByteFile} {id : ℕ} (h : f.le 4 (l.nhoodOff id) = 0) :
    (l.readNode f id).nbrs = [] := by
  refine eq_nil_of_length_eq_zero ?_
  rw [← h]
  exact ByteFile.length_leArray ..

/-- A list of `degree` ids at node `0`, and zeros. -/
def listFile (m : IndexMerger D Code Tag) : ByteFile :=
  m.layout.writeNbrs (fun _ => 0) 0 (List.replicate m.degree 0)

/-- One byte of the coordinates of node `1`, and zeros. -/
def coordFile (m : IndexMerger D Code Tag) : ByteFile :=
  Function.update (fun _ => 0) (m.layout.nodeOff 1) 255

section

omit [DecidableEq Tag]

theorem nbrs_zeros {l : Layout} {id : ℕ} : (l.readNode (fun _ => 0) id).nbrs = [] :=
  nbrs_of_le (ByteFile.le_eq_zero fun _ _ _ => rfl)

theorem room_zero : m.layout.Room 0 := Layout.room_ofRange.2 (Nat.zero_le _)

theorem nbrs_listFile (hpos : 0 < m.layout.nnodesPerSector) :
    ((m.withFile m.listFile ∅).diskNode 0).nbrs = replicate m.degree 0 := by
  have hrec : m.coordsLen + 4 + m.degree * 4 ≤ 4096 := (Nat.div_pos_iff.1 hpos).2
  have h := @Layout.readNode_writeNbrs_same m.layout (fun _ => 0) 0 (replicate m.degree 0)
    (by rw [length_replicate]; omega) fun n hn => by
      rw [eq_of_mem_replicate hn]
      norm_num
  exact congrArg DiskNode.nbrs h

theorem recordsOk_listFile (hpos : 0 < m.layout.nnodesPerSector) :
    (m.withFile m.listFile ∅).RecordsOk := by
  intro id _
  by_cases hid : id = 0
  · rw [hid, nbrs_listFile hpos, length_replicate]
    exact Layout.room_ofRange.2 le_rfl
  · have hzeros : (m.layout.readNode (fun _ => 0) id).nbrs.length = 0 := by
      rw [nbrs_zeros]
      rfl
    have h := @Layout.readNode_writeNbrs_of_ne m.layout (fun _ => 0) 0 id
      (replicate m.degree 0) (layout_ok hpos) hid
      (by rw [length_replicate]; exact Layout.room_ofRange.2 le_rfl)
      (by rw [hzeros]; exact room_zero)
    show m.layout.Room (m.layout.readNode m.listFile id).nbrs.length
    rw [listFile, h, hzeros]
    exact room_zero

theorem coordFile_nhood (hpos : 0 < m.layout.nnodesPerSector) (hc : 0 < m.coordsLen) {id o : ℕ}
    (h1 : m.layout.nhoodOff id ≤ o) (h2 : o < m.layout.nhoodOff id + 4) : m.coordFile o = 0 := by
  have hroom : m.layout.coordsLen + 4 + 0 * 4 ≤ m.layout.maxNodeLen := room_zero
  have hc' : 0 < m.layout.coordsLen := hc
  have hoff : m.layout.nhoodOff id = m.layout.nodeOff id + m.layout.coordsLen := rfl
  refine Function.update_of_ne ?_ ..
  by_cases hid : id = 1
  · subst hid
    omega
  · have hdisj := (layout_ok hpos).disjoint hid
    omega

theorem nbrs_coordFile (hpos : 0 < m.layout.nnodesPerSector) (hc : 0 < m.coordsLen) (id : ℕ) :
    (m.layout.readNode m.coordFile id).nbrs = [] :=
  nbrs_of_le (ByteFile.le_eq_zero fun _ h1 h2 => coordFile_nhood hpos hc h1 h2)

end

theorem consolidated_coordFile (hpos : 0 < m.layout.nnodesPerSector) (hc : 0 < m.coordsLen) :
    (m.withFile m.coordFile ∅).consolidatedFile = m.coordFile := by
  refine foldl_fixed' (fun id => ?_) _
  have hnil : (m.withFile m.coordFile ∅).repaired id = [] :=
    (repaired_of_empty id).trans (nbrs_coordFile hpos hc id)
  rw [hnil]
  split_ifs
  · funext o
    show m.layout.writeNbrs m.coordFile id [] o = m.coordFile o
    rw [Layout.writeNbrs, ByteFile.put_of_not_mem (by rw [length_leList, length_nil]; omega)]
    by_cases ho : m.layout.nhoodOff id ≤ o ∧ o < m.layout.nhoodOff id + 4
    · obtain ⟨i, rfl⟩ := Nat.exists_eq_add_of_le ho.1
      have hi : i < (leBytes 4 0).length := by
        rw [length_leBytes]
        omega
      rw [coordFile_nhood hpos hc ho.1 ho.2, length_nil, ByteFile.put_of_mem hi]
      have h4 : i < 4 := by omega
      interval_cases i <;> rfl
    · refine ByteFile.put_of_not_mem ?_
      rw [length_leBytes]
      omega
  · rfl

omit [DecidableEq Tag] in
theorem nodeOff_one_ne (hpos : 0 < m.outLayout.nnodesPerSector) (hdeg : m.degree < m.pruning.range)
    (hne : m.layout.nnodesPerSector ≠ 1) (hin : 0 < m.layout.nnodesPerSector) :
    m.layout.nodeOff 1 ≠ m.outLayout.nodeOff 1 := by
  have hin2 : 2 ≤ m.layout.nnodesPerSector := by omega
  have hlen : 2 * m.layout.maxNodeLen ≤ 4096 :=
    (Nat.mul_le_mul_right _ hin2).trans (layout_ok hin).fits
  have h1 : m.layout.nodeOff 1 = 4096 + m.layout.maxNodeLen := by
    rw [Layout.nodeOff, Nat.div_eq_of_lt (by omega), Nat.mod_eq_of_lt (by omega), sectorLen]
    omega
  have hlt : m.layout.maxNodeLen < m.outLayout.maxNodeLen := by
    show m.coordsLen + 4 + m.degree * 4 < m.coordsLen + 4 + m.pruning.range * 4
    omega
  rw [h1]
  by_cases hone : m.outLayout.nnodesPerSector = 1
  · rw [Layout.nodeOff, hone, sectorLen]
    omega
  · rw [Layout.nodeOff, Nat.div_eq_of_lt (by omega), Nat.mod_eq_of_lt (by omega), sectorLen]
    omega

/-- For the files of a length of lists, whatever is in them and is deleted, the header is right
exactly when the layouts agree. -/
theorem headerDescribes_iff (m : IndexMerger D Code Tag) (hin : 0 < m.layout.nnodesPerSector)
    (hc : 0 < m.coordsLen) :
    (∀ f T, (m.withFile f T).RecordsOk → (m.withFile f T).HeaderDescribes) ↔ m.LayoutsAgree := by
  constructor
  · intro h
    have hlist := h m.listFile ∅ (recordsOk_listFile hin)
    have hpos : 0 < m.outLayout.nnodesPerSector := hlist.sectors
    have hle : m.degree ≤ m.pruning.range := by
      have hroom := (hlist.deletes 0 m.npts_pos).2
      rw [repaired_of_empty, nbrs_listFile hin, length_replicate] at hroom
      exact Layout.room_ofRange.1 hroom
    refine ⟨hpos, hle.eq_or_lt.imp_right fun hlt => ⟨hlt, ?_⟩⟩
    by_contra hne
    obtain ⟨hnpts, hone⟩ := not_or.1 hne
    have hcoord := h m.coordFile ∅ fun id _ => by
      show m.layout.Room (m.layout.readNode m.coordFile id).nbrs.length
      rw [nbrs_coordFile hin hc]
      exact room_zero
    have hlt1 : 1 < m.diskNpts := lt_of_le_of_ne m.npts_pos (Ne.symm hnpts)
    have hnode := congrArg DiskNode.coords (hcoord.deletes 1 hlt1).1
    rw [consolidated_coordFile hin hc, outLayout_withFile, diskNode_withFile,
      Layout.coords_readNode, Layout.coords_readNode] at hnode
    have hbyte : m.coordFile (m.outLayout.nodeOff 1) = m.coordFile (m.layout.nodeOff 1) := by
      have hhead := congrArg head? hnode
      have hout : 0 < m.outLayout.coordsLen := hc
      have hin' : 0 < m.layout.coordsLen := hc
      rw [ByteFile.head?_bytes hout, ByteFile.head?_bytes hin'] at hhead
      exact Option.some.inj hhead
    rw [coordFile, Function.update_self,
      Function.update_of_ne (nodeOff_one_ne hpos hlt hone hin).symm] at hbyte
    cases hbyte
  · intro h f T hrec
    exact LayoutsAgree.headerDescribes h hrec

def twoNodesDisk : List (DiskNode × ℕ) :=
  [(⟨[1, 0, 0, 0], [1]⟩, 5), (⟨[2, 0, 0, 0], [0]⟩, 6)]

def twoNodesMem : List (List (Vec × ℕ)) := [[([3, 0, 0, 0], 7)]]

theorem twoNodes_ok : SmallOk 4 twoNodesDisk twoNodesMem := by decide

/-- Two nodes with a record for one neighbour each, into lists of at most two. -/
def twoNodes : IndexMerger ℕ Vec ℕ := smallMerger 4 1 2 twoNodesDisk twoNodesMem ∅ twoNodes_ok

/-- The record of node `1` is four bytes before the place that the header tells. -/
theorem twoNodes_header_wrong :
    twoNodes.RecordsOk ∧ twoNodes.merge.isSome = true ∧ ¬ twoNodes.HeaderDescribes := by
  refine ⟨?_, by decide +kernel, fun h => ?_⟩
  · have hlen : ∀ id < twoNodes.diskNpts, (twoNodes.diskNode id).nbrs.length ≤ 1 := by
      decide +kernel
    exact fun id hid => Layout.room_ofRange.2 (hlen id hid)
  · have hread : twoNodes.outLayout.readNode twoNodes.consolidatedFile 1 ≠
        ⟨(twoNodes.diskNode 1).coords, twoNodes.repaired 1⟩ := by
      decide +kernel
    exact hread (h.deletes 1 (by decide)).1

theorem headerDescribes_iff_twoNodes : 0 < twoNodes.layout.nnodesPerSector ∧
    0 < twoNodes.coordsLen ∧
    ((∀ f T, (twoNodes.withFile f T).RecordsOk → (twoNodes.withFile f T).HeaderDescribes) ↔
      twoNodes.LayoutsAgree) :=
  ⟨by decide, by decide, headerDescribes_iff twoNodes (by decide) (by decide)⟩

end IndexMerger

end DiskANNEval.FreshDiskANN
