import DiskANNEval.FreshDiskANN.MergedTags
import DiskANNEval.Lib.While

/-!
# MergeEntry — the start node of a merged index

`process_deletes` goes from a deleted medoid to the first node of `disk_deleted_nhoods`, which has
no deleted one, so the loop ends after a step.  But the list may be empty: a surviving node is found
exactly when the old medoid, or one of its neighbours, survives (`entrySurvives_iff`).
-/

namespace DiskANNEval.FreshDiskANN

open Lib

namespace IndexMerger

variable {D Code Tag : Type} [DecidableEq Tag] (m : IndexMerger D Code Tag)

/-- `disk_deleted_nhoods.find` -/
def findNhood (id : ℕ) : Option (List ℕ) :=
  if id ∈ m.diskDeletedIds then some (m.deletedNhood id) else none

/-- The body of the loop; `none`: no list is found, or it has no first element. -/
def nextMedoid (medoid : ℕ) : Option ℕ := do
  let nhood ← m.findNhood medoid
  nhood[0]?

/-- The loop, from `init_ids[0]` on. -/
def chooseMedoid (fuel : ℕ) : Option ℕ :=
  whileM (fun medoid => medoid ∈ m.diskDeletedIds) m.nextMedoid fuel m.initId

def Survives (id : ℕ) : Prop := id < m.diskNpts ∧ id ∉ m.diskDeletedIds

/-- The loop returns a node that is not deleted. -/
def EntrySurvives : Prop := ∃ fuel medoid, m.chooseMedoid fuel = some medoid ∧ m.Survives medoid

/-- The medoid and the neighbours are nodes. -/
structure IsGraph : Prop where
  init : m.initId < m.diskNpts
  nbrs : ∀ id < m.diskNpts, ∀ nbr ∈ (m.diskNode id).nbrs, nbr < m.diskNpts

variable {m}

theorem nextMedoid_eq {medoid : ℕ} (h : medoid ∈ m.diskDeletedIds) :
    m.nextMedoid medoid = (m.deletedNhood medoid).head? := by
  rw [nextMedoid, findNhood, if_pos h, Option.bind_eq_bind, Option.bind_some,
    List.head?_eq_getElem?]

theorem mem_deletedNhood {id nbr : ℕ} :
    nbr ∈ m.deletedNhood id ↔ nbr ∈ (m.scannedNode id).nbrs ∧ nbr ∉ m.diskDeletedIds := by
  rw [deletedNhood, List.mem_filter, decide_eq_true_eq]

/-- The step of the loop leads to a node that is not deleted, so there is no second one. -/
theorem chooseMedoid_succ (fuel : ℕ) : m.chooseMedoid (fuel + 1) = m.newMedoid := by
  rw [chooseMedoid, whileM, newMedoid]
  by_cases hdel : m.initId ∈ m.diskDeletedIds
  · rw [if_pos (decide_eq_true hdel), if_pos hdel, nextMedoid_eq hdel]
    cases hhead : (m.deletedNhood m.initId).head? with
    | none => rfl
    | some nbr =>
      have hnbr := (mem_deletedNhood.1 (List.mem_of_mem_head? hhead)).2
      refine whileM_of_false ?_ fuel
      exact decide_eq_false hnbr
  · rw [if_neg (by simpa using hdel), if_neg hdel]

theorem exists_chooseMedoid {medoid : ℕ} :
    (∃ fuel, m.chooseMedoid fuel = some medoid) ↔ m.newMedoid = some medoid := by
  refine ⟨fun ⟨fuel, h⟩ => ?_, fun h => ⟨1, (chooseMedoid_succ 0).trans h⟩⟩
  rw [← chooseMedoid_succ fuel]
  exact whileM_mono (Nat.le_succ fuel) h

omit [DecidableEq Tag] in
theorem IsGraph.nbr_lt (h : m.IsGraph) {nbr : ℕ} (hnbr : nbr ∈ (m.scannedNode m.initId).nbrs) :
    nbr < m.diskNpts :=
  h.nbrs _ ((Nat.mod_le _ _).trans_lt h.init) nbr hnbr

/-- The medoid that is written survives exactly when the old one does, or a neighbour of it. -/
theorem entrySurvives_iff (m : IndexMerger D Code Tag) (h : m.IsGraph) :
    m.EntrySurvives ↔
      m.Survives m.initId ∨ ∃ nbr ∈ (m.scannedNode m.initId).nbrs, m.Survives nbr := by
  constructor
  · rintro ⟨fuel, medoid, hrun, hsurv⟩
    have hnew := exists_chooseMedoid.1 ⟨fuel, hrun⟩
    rw [newMedoid] at hnew
    split_ifs at hnew with hdel
    · exact .inr ⟨medoid, (mem_deletedNhood.1 (List.mem_of_mem_head? hnew)).1, hsurv⟩
    · exact .inl ⟨h.init, hdel⟩
  · intro hcond
    have hsome : m.newMedoid.isSome = true := by
      refine isSome_newMedoid.2 fun hdel => ?_
      obtain hinit | ⟨nbr, hnbr, hsurv⟩ := hcond
      · exact absurd hdel hinit.2
      · exact ⟨nbr, hnbr, hsurv.2⟩
    obtain ⟨medoid, hnew⟩ := Option.isSome_iff_exists.1 hsome
    obtain ⟨fuel, hrun⟩ := exists_chooseMedoid.2 hnew
    refine ⟨fuel, medoid, hrun, ?_⟩
    rw [newMedoid] at hnew
    split_ifs at hnew with hdel
    · have hnbr := mem_deletedNhood.1 (List.mem_of_mem_head? hnew)
      exact ⟨h.nbr_lt hnbr.1, hnbr.2⟩
    · obtain rfl := Option.some.inj hnew
      exact ⟨h.init, hdel⟩

def twoPairsDisk : List (DiskNode × ℕ) :=
  [(⟨[1, 0, 0, 0], [1]⟩, 5), (⟨[2, 0, 0, 0], [0]⟩, 6), (⟨[3, 0, 0, 0], [3]⟩, 7),
    (⟨[4, 0, 0, 0], [2]⟩, 8)]

def noMem : List (List (Vec × ℕ)) := []

theorem twoPairs_ok : SmallOk 4 twoPairsDisk noMem := by decide

/-- Two pairs of nodes; the pair of the medoid is deleted. -/
def twoPairs : IndexMerger ℕ Vec ℕ := smallMerger 4 2 2 twoPairsDisk noMem {5, 6} twoPairs_ok

/-- The medoid of the first pair only is deleted. -/
def onePair : IndexMerger ℕ Vec ℕ := smallMerger 4 2 2 twoPairsDisk noMem {5} twoPairs_ok

theorem onePair_isGraph : onePair.IsGraph := ⟨by decide, by decide +kernel⟩

theorem entrySurvives_onePair : onePair.IsGraph ∧ onePair.EntrySurvives := by
  refine ⟨onePair_isGraph, (entrySurvives_iff onePair onePair_isGraph).2 (.inr ⟨1, ?_, ?_⟩)⟩
  · decide +kernel
  · exact ⟨by decide, by decide⟩

/-- The first of no neighbours is taken, although two nodes survive and no repair stops. -/
theorem not_entrySurvives_twoPairs : twoPairs.IsGraph ∧ twoPairs.Survives 2 ∧
    (∀ id < twoPairs.diskNpts, (twoPairs.consolidateDeletes id).isSome) ∧
    ¬ twoPairs.EntrySurvives := by
  refine ⟨⟨by decide, by decide +kernel⟩, ⟨by decide, by decide⟩, by decide +kernel, ?_⟩
  rintro ⟨fuel, medoid, hrun, -⟩
  have hnew := exists_chooseMedoid.1 ⟨fuel, hrun⟩
  have hnone : twoPairs.newMedoid = none := by decide +kernel
  rw [hnone] at hnew
  cases hnew

end IndexMerger

end DiskANNEval.FreshDiskANN
