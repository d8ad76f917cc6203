import DiskANNEval.PipeANN.InsertRecords
import DiskANNEval.PipeANN.MergeRecords

/-!
# RecordUpdates — existing records that an update writes again

`insert_in_place` and `merge_deletes` both make a new record from an old one, field by field, and
neither copies the labels.  The coordinates come over in every case; the labels are kept exactly if
the buffer has them by chance (`keepsRecords_iff`), and always if there are none
(`keepsRecords_of_no_labels`).
-/

namespace DiskANNEval.PipeANN

open Lib List

variable {D Tag : Type} [DecidableEq Tag]

inductive RecordUpdate (D Tag : Type)
  | insert (c : InsertInPlace D)
  | merge (c : MergeRecords D Tag)

namespace RecordUpdate

def meta_ : RecordUpdate D Tag → SSDIndexMetadata
  | insert c => c.meta_
  | merge c => c.meta_

def KeepsRecords : RecordUpdate D Tag → Prop
  | insert c => c.KeepsRecords
  | merge c => c.KeepsRecords

def LabelsAgree : RecordUpdate D Tag → Prop
  | insert c => c.LabelsAgree
  | merge c => c.LabelsAgree

/-- The records written again are as they were exactly when the buffers have their labels. -/
theorem keepsRecords_iff (u : RecordUpdate D Tag) : u.KeepsRecords ↔ u.LabelsAgree := by
  cases u with
  | insert c => exact c.keepsRecords_iff_labelsAgree
  | merge c => exact c.keepsRecords_iff_labelsAgree

/-! ### Labels that are lost -/

/-- 1000 `float`s, one neighbour, and 8 bytes of labels. -/
def labelledMeta : SSDIndexMetadata where
  dataDim := 1000
  sizeofT := 4
  maxNodeLen := 4016
  nnodesPerSector := 1
  labelSize := 8
  node_fits := by decide
  sector_fits := by decide

def constPages (x : UInt8) : Pages := fun _ => List.replicate 4096 x

theorem pagesOk_constPages (x : UInt8) : labelledMeta.PagesOk (constPages x) := fun _ =>
  length_replicate

theorem labels_constPages (x : UInt8) (loc : ℕ) :
    labelledMeta.labels (constPages x) loc = replicate 8 x := by
  have h := labelledMeta.coordsOff_fit loc
  refine slice_replicate x ?_
  change labelledMeta.coordsOff loc + 4016 ≤ 4096 at h
  change labelledMeta.coordsOff loc + 4000 + 8 + 8 ≤ 4096
  omega

/-- The point 1 gets the point 0 as its neighbour; both records go to new pages. -/
def labelledInsert : InsertInPlace ℕ where
  meta_ := labelledMeta
  pruning := { MergeDeletes.natPruning with R := 1 }
  R_eq := rfl
  maps := ⟨[0], [.id 0, .invalid], [], 1⟩
  maps_wf := ⟨by decide, by decide, fun _ => ⟨1, rfl⟩, List.nodup_nil, by simp, by simp⟩
  disk := constPages 0
  disk_ok := pagesOk_constPages 0
  updateBuf := constPages 1
  updateBuf_ok := pagesOk_constPages 1
  targetId := 1
  point := List.replicate 4000 5
  length_point := List.length_replicate
  newNhood := [0]
  located := by
    intro nbr hn
    obtain rfl := List.mem_singleton.1 hn
    refine ⟨0, by decide, rfl, rfl, ?_⟩
    have hslice : slice (constPages 0 (labelledMeta.sectorNo 0)) (labelledMeta.nnbrsOff 0) 4 =
        List.replicate 4 0 := slice_replicate 0 (by decide)
    rw [SSDIndexMetadata.nnbrs, hslice]
    decide
  length_newNhood := by decide
  pageRef := []
  pageRef_ok := by simp

theorem keepAll_subset (_ : ℕ) (l : List ℕ) : ∀ nbr ∈ l, nbr ∈ l := fun _ h => h

/-- One node, which is kept. -/
def labelledMerge : MergeRecords ℕ ℕ where
  meta_ := labelledMeta
  merge :=
    { index :=
        { nnodesPerSector := 1
          curLoc := 1
          loc2id := some
          id2tag := id
          node := fun loc =>
            ⟨labelledMeta.coords (constPages 0) loc, labelledMeta.nbrs (constPages 0) loc⟩
          loc2id_inj := by
            rintro loc - loc' - id h h'
            exact Option.some.inj (h.trans h'.symm)
          nbrs_located := by
            intro loc hloc id hid nbr hn
            obtain rfl : loc = 0 := by omega
            have hslice : slice (constPages 0 (labelledMeta.sectorNo 0)) (labelledMeta.nnbrsOff 0) 4 =
                List.replicate 4 0 := slice_replicate 0 (by decide)
            have hnn : labelledMeta.nnbrs (constPages 0) 0 = 0 := by
              rw [SSDIndexMetadata.nnbrs, hslice]
              decide
            simp [SSDIndexMetadata.nbrs, hnn] at hn }
      deletedNodesSet := ∅
      nSampledNbrs := 64
      R := 1
      setOrder := id
      setOrder_perm := List.Perm.refl
      pruneNeighbors := fun _ l => l
      prune_subset := keepAll_subset
      populateOrder := locRange 1 locPerPopulate
      populate_perm := fun _ => .refl _
      mergeOrder := locRange 1 (locPerMerge 1)
      merge_perm := fun _ => .refl _ }
  pruning := { MergeDeletes.natPruning with R := 1 }
  R_eq := rfl
  nnodesPerSector_eq := rfl
  disk := constPages 0
  disk_ok := pagesOk_constPages 0
  node_eq := fun _ _ => rfl
  wbuf := constPages 1
  wbuf_ok := pagesOk_constPages 1

/-- The labels of the moved record are the bytes of the buffer, after an insert and after a merge. -/
theorem labels_lost : ¬ (insert labelledInsert : RecordUpdate ℕ ℕ).KeepsRecords ∧
    ¬ (merge labelledMerge : RecordUpdate ℕ ℕ).KeepsRecords := by
  have hne : replicate 8 (1 : UInt8) ≠ replicate 8 0 := by decide
  constructor
  · intro h
    have hagree := labelledInsert.keepsRecords_iff_labelsAgree.1 h [1, 2] [] rfl (0, 1)
      (by decide) 0 rfl
    apply hne
    rw [← labels_constPages 1 1, ← labels_constPages 0 0]
    exact hagree
  · intro h
    have hagree := labelledMerge.keepsRecords_iff_labelsAgree.1 h
    have hbuf := @MergeRecords.LabelsAgree.bufLabels_eq _ _ _ _ hagree
      (MergeDeletes.inWindow_of_dvd _ (by decide)) 0 0 (by decide) rfl (by decide)
    have hidx : labelledMerge.call.handOut.idxOf 0 = 0 := by decide
    rw [hidx] at hbuf
    apply hne
    rw [← labels_constPages 1 0, ← labels_constPages 0 0]
    exact hbuf

end RecordUpdate

end DiskANNEval.PipeANN
