import DiskANNEval.PipeANN.MergedLists
import DiskANNEval.Lib.While

/-!
# MergeEntry — the entry point that `merge_deletes` writes

While the entry point is deleted the first neighbour that was kept for it takes its place.  The lists
that are kept have surviving nodes only, so one replacement is enough; but a list may be empty, and
its first element is read all the same.
-/

namespace DiskANNEval.PipeANN

open Lib

/-- The entry point of an index: one of its nodes. -/
structure EntryPoint {T Tag : Type} (index : DiskIndex T Tag) where
  id : ℕ
  loc : ℕ
  loc_lt : loc < index.curLoc
  located : index.loc2id loc = some id

namespace MergeDeletes

variable {T Tag : Type} [DecidableEq Tag] (m : MergeDeletes T Tag)

/-- `nhoods[0]` of the list that is kept for the entry point. -/
def replacement (p : Populated) (entryPoint : ℕ) : Option ℕ :=
  (p.deletedNhoods entryPoint).bind fun nhoods => nhoods[0]?

/-- `meta_.entry_point` after the merge, of an index with this entry point before it. -/
def entryAfter (fuel entryPoint : ℕ) : Option ℕ := do
  let out ← m.run
  let entryPoint ← whileM (fun id => decide (m.isDeleted id)) (replacement m.populate) fuel entryPoint
  out.idMap entryPoint

/-- What is written is the new id of a surviving node. -/
def EntryKept (e : EntryPoint m.index) : Prop :=
  ∃ fuel newId, m.entryAfter fuel e.id = some newId ∧
    ∃ id, m.LiveId id ∧ m.populate.idMap id = some newId

/-- The entry point survives, or one of its neighbours does and neighbours are sampled. -/
def EntryFound (e : EntryPoint m.index) : Prop :=
  ¬ m.isDeleted e.id ∨
    0 < m.nSampledNbrs ∧ ∃ nbr ∈ (m.index.node e.loc).nbrs, ¬ m.isDeleted nbr

variable {m} {e : EntryPoint m.index}

theorem entryAfter_eq_some {fuel entryPoint newId : ℕ} :
    m.entryAfter fuel entryPoint = some newId ↔
      ∃ id, whileM (fun id => decide (m.isDeleted id)) (replacement m.populate) fuel entryPoint =
        some id ∧ m.populate.idMap id = some newId := by
  rw [entryAfter, m.run_eq, Option.bind_eq_bind, Option.bind_some]
  exact Option.bind_eq_some_iff

theorem liveId_of_replacement {id : ℕ} (hd : m.isDeleted e.id)
    (h : replacement m.populate e.id = some id) : m.LiveId id ∧ 0 < m.nSampledNbrs ∧
      id ∈ (m.index.node e.loc).nbrs := by
  rw [replacement, m.deletedNhoods_populate e.loc_lt e.located hd] at h
  have hmem := List.mem_of_getElem? h
  have hpos : 0 < m.nSampledNbrs := by
    by_contra hn
    rw [sampledNhood, Nat.eq_zero_of_not_pos hn] at hmem
    cases hmem
  obtain ⟨hnbr, hlive⟩ := List.mem_filter.1 (List.mem_of_mem_take hmem)
  refine ⟨m.liveId_of_nbr e.loc_lt e.located hnbr (by simpa using hlive), hpos, hnbr⟩

theorem exists_replacement (hd : m.isDeleted e.id) (hpos : 0 < m.nSampledNbrs) {nbr : ℕ}
    (hnbr : nbr ∈ (m.index.node e.loc).nbrs) (hlive : ¬ m.isDeleted nbr) :
    ∃ id, replacement m.populate e.id = some id := by
  rw [replacement, m.deletedNhoods_populate e.loc_lt e.located hd]
  have hmem : nbr ∈ (m.index.node e.loc).nbrs.filter fun nbr => ¬ m.isDeleted nbr :=
    List.mem_filter.2 ⟨hnbr, by simpa using hlive⟩
  have hlen : 0 < (m.sampledNhood (m.index.node e.loc)).length := by
    rw [sampledNhood, List.length_take]
    exact lt_min hpos (List.length_pos_of_mem hmem)
  exact ⟨_, List.getElem?_eq_getElem hlen⟩

theorem entryKept_of_liveId (fuel : ℕ) {id : ℕ} (hlive : m.LiveId id)
    (h : whileM (fun id => decide (m.isDeleted id)) (replacement m.populate) fuel e.id = some id) :
    m.EntryKept e := by
  obtain ⟨newId, hnew⟩ := m.idMap_of_liveId hlive
  exact ⟨fuel, newId, entryAfter_eq_some.2 ⟨id, h, hnew⟩, id, hlive, hnew⟩

theorem entryKept_of_found (h : m.EntryFound e) : m.EntryKept e := by
  by_cases hd : m.isDeleted e.id
  · obtain ⟨hpos, nbr, hnbr, hnd⟩ := h.resolve_left (not_not.2 hd)
    obtain ⟨id, hid⟩ := exists_replacement hd hpos hnbr hnd
    obtain ⟨hlive, -, -⟩ := liveId_of_replacement hd hid
    have hstop : ¬ m.isDeleted id := by
      obtain ⟨-, -, -, hnot⟩ := hlive
      exact hnot
    refine entryKept_of_liveId 1 hlive ?_
    rw [whileM, if_pos (decide_eq_true hd), hid, Option.bind_some, whileM_of_false]
    exact decide_eq_false hstop
  · refine entryKept_of_liveId 0 ⟨e.loc, e.loc_lt, e.located, hd⟩ ?_
    rw [whileM_of_false]
    exact decide_eq_false hd

theorem found_of_entryKept (h : m.EntryKept e) : m.EntryFound e := by
  obtain ⟨fuel, newId, hafter, -⟩ := h
  obtain ⟨id, hloop, -⟩ := entryAfter_eq_some.1 hafter
  by_cases hd : m.isDeleted e.id
  · -- the loop is entered, so there is a first neighbour
    cases fuel with
    | zero =>
      rw [whileM, if_pos (decide_eq_true hd)] at hloop
      cases hloop
    | succ fuel =>
      rw [whileM, if_pos (decide_eq_true hd)] at hloop
      obtain ⟨nbr, hrep, -⟩ := Option.bind_eq_some_iff.1 hloop
      obtain ⟨⟨_, -, -, hlive⟩, hpos, hmem⟩ := liveId_of_replacement hd hrep
      exact Or.inr ⟨hpos, nbr, hmem, hlive⟩
  · exact Or.inl hd

theorem entryKept_iff_found (m : MergeDeletes T Tag) (e : EntryPoint m.index) :
    m.EntryKept e ↔ m.EntryFound e :=
  ⟨found_of_entryKept, entryKept_of_found⟩

theorem perm_setOrder_id (nhood : List ℕ) : (id nhood).Perm nhood := .refl nhood

/-- Three nodes in a row; the entry point, at one end, is deleted together with its neighbour. -/
def cutMerge : MergeDeletes Unit ℕ where
  index :=
    { nnodesPerSector := 4
      curLoc := 3
      loc2id := some
      id2tag := id
      node := fun loc => ⟨(), if loc = 1 then [0, 2] else [1]⟩
      loc2id_inj := by
        rintro loc - loc' - id h h'
        exact Option.some.inj (h.trans h'.symm)
      nbrs_located := by
        rintro loc - id - nbr hnbr
        refine ⟨nbr, ?_, rfl⟩
        dsimp only at hnbr
        split_ifs at hnbr
        all_goals
          simp at hnbr
          omega }
  deletedNodesSet := {0, 1}
  nSampledNbrs := 64
  R := 32
  setOrder := id
  setOrder_perm := perm_setOrder_id
  pruneNeighbors := fun _ l => l
  prune_subset := fun _ _ _ h => h
  populateOrder := locRange 3 locPerPopulate
  populate_perm := fun _ => .refl _
  mergeOrder := locRange 3 (locPerMerge 4)
  merge_perm := fun _ => .refl _

def cutEntry : EntryPoint cutMerge.index := ⟨0, 0, by decide, rfl⟩

/-- Node 2 survives, and yet no surviving node becomes the entry point. -/
theorem cutMerge_loses_entry : cutMerge.LiveId 2 ∧ ¬ cutMerge.EntryKept cutEntry := by
  refine ⟨⟨2, by decide, rfl, by decide⟩, ?_⟩
  intro hkept
  rcases found_of_entryKept hkept with h | ⟨-, nbr, hnbr, h⟩
  · exact h (by decide)
  · obtain rfl := List.mem_singleton.1 hnbr
    exact h (by decide)

end MergeDeletes

end DiskANNEval.PipeANN
