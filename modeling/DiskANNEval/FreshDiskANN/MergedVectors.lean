import DiskANNEval.FreshDiskANN.MergedFile

/-!
# MergedVectors — the vectors of an inserted point

`process_inserts` and `process_inserts_pq` take the row of a point from `_data_load`, and
`process_merges` takes it from the point's own index.  Each point has its own rename pair, so nothing
else is searched for, or encoded, under its ids (`insertVec_eq`, `pqVec_eq`).
-/

namespace DiskANNEval.FreshDiskANN

open Lib List

theorem foldl_apply_eq {α β ι : Type} {step : (ι → β) → α → ι → β} {xs : List α} {v : ι → β} {a : α}
    {k : ι} {b : β} (ha : a ∈ xs) (hset : ∀ v, step v a k = b)
    (hkeep : ∀ v, ∀ x ∈ xs, v k = b → step v x k = b) : xs.foldl step v k = b := by
  have hdone : ∀ ys ⊆ xs, ∀ v, v k = b → ys.foldl step v k = b := by
    intro ys
    induction ys with
    | nil => exact fun _ _ hv => hv
    | cons y ys ih =>
      intro hsub v hv
      exact ih (subset_of_cons_subset hsub) _ (hkeep v y (hsub mem_cons_self) hv)
  obtain ⟨l, r, rfl⟩ := append_of_mem ha
  rw [foldl_append]
  refine hdone r (fun x hx => ?_) _ (hset _)
  exact mem_append_right _ (mem_cons_of_mem a hx)

namespace IndexMerger

variable {D Code Tag : Type} [DecidableEq Tag] {m : IndexMerger D Code Tag} {i j o id : ℕ}
  {pts : List (Vec × Tag)} {p : Vec × Tag}

/-- The points that are inserted, at their places. -/
structure IsInsert (m : IndexMerger D Code Tag) (i j : ℕ) (pts : List (Vec × Tag))
    (p : Vec × Tag) : Prop where
  index : m.mem[i]? = some pts
  row : pts[j]? = some p
  live : p.2 ∉ m.deletedTags

theorem IsInsert.mem (h : m.IsInsert i j pts p) : (m.offsetId i + j, j) ∈ m.inserts :=
  mem_inserts.2 ⟨i, pts, p, h.index, h.row, h.live, rfl⟩

theorem IsInsert.memPoint (h : m.IsInsert i j pts p) : m.memPoint (m.offsetId i + j) = some p := by
  have hj : j ∈ m.survivors pts := mem_survivors.2 ⟨p, h.row, h.live⟩
  rw [memPoint_offsetId h.index (lt_of_mem_survivors h.index hj), h.row]

theorem eq_of_mem_inserts {j' : ℕ} (h : (o, j) ∈ m.inserts) (h' : (o, j') ∈ m.inserts) : j = j' := by
  have hnd : (m.inserts.map Prod.fst).Nodup := pairwise_inserts.imp fun hlt => hlt.ne
  exact congrArg Prod.snd (inj_on_of_nodup_map hnd h h' rfl)

theorem find?_inserts (h : (o, j) ∈ m.inserts) :
    (m.inserts.find? fun x => x.1 = o) = some (o, j) := by
  cases hx : m.inserts.find? fun x => x.1 = o with
  | none =>
    have := find?_eq_none.1 hx (o, j) h
    simp at this
  | some x =>
    have ho : x.1 = o := by simpa using find?_some hx
    have hmem : (o, x.2) ∈ m.inserts := by
      rw [← ho]
      exact mem_of_find?_eq_some hx
    rw [eq_of_mem_inserts h hmem, ← ho]

theorem insertVec_eq (h : (o, j) ∈ m.inserts) : m.insertVec o = m.dataLoad[j]? := by
  rw [insertVec, find?_inserts h, Option.bind_some]

theorem pqVec_eq (h : (o, j) ∈ m.inserts) (hid : m.rename o = some id) :
    m.pqVec id = m.dataLoad[j]? := by
  have hmine : ∀ x ∈ m.inserts, m.rename x.1 = some id → x.2 = j := by
    intro x hx hr
    have ho : x.1 = o := Option.some.inj ((rename_eq_some.1 hr).symm.trans (rename_eq_some.1 hid))
    refine eq_of_mem_inserts ?_ h
    rw [← ho]
    exact hx
  refine foldl_apply_eq h (fun vecs => ?_) fun vecs x hx hv => ?_
  · rw [hid]
    exact Function.update_self ..
  · cases hr : m.rename x.1 with
    | none => exact hv
    | some id' =>
      by_cases he : id = id'
      · subst he
        rw [hmine x hx hr]
        exact Function.update_self ..
      · exact (Function.update_of_ne he ..).trans hv

theorem coords_merge {out : Merged Code Tag} (hout : m.merge = some out)
    (h : m.IsInsert i j pts p) (hid : m.rename (m.offsetId i + j) = some id) :
    (out.layout.readNode out.file id).coords = p.1 := by
  have hinv := rename_eq_some.1 hid
  have hlt : id < out.npts :=
    (newNpts_eq_some (merge_eq_some hout).2.2.1).2.2.1 id (mem_usedIds.2 ⟨_, hinv⟩)
  have hnode := (readNode_merge hout hlt fun hnone => by rw [hinv] at hnone; cases hnone).1
  rw [mergedNode, hinv] at hnode
  dsimp only at hnode
  rw [memData, h.memPoint] at hnode
  rw [← Option.some.inj hnode]

/-- What is searched for and pruned, what is encoded under the new id, and the coordinates of the
new record, are the row of the point's own index. -/
def OwnRows (m : IndexMerger D Code Tag) : Prop :=
  ∀ i j pts p id, m.IsInsert i j pts p → m.rename (m.offsetId i + j) = some id →
    m.insertVec (m.offsetId i + j) = some p.1 ∧ m.pqVec id = some p.1 ∧
      ∀ out, m.merge = some out → (out.layout.readNode out.file id).coords = p.1

/-- The last index has the row at the point's place. -/
def RowsInLast (m : IndexMerger D Code Tag) : Prop :=
  ∀ i j pts p, m.IsInsert i j pts p → m.dataLoad[j]? = some p.1

theorem ownRows_iff (m : IndexMerger D Code Tag) : m.OwnRows ↔ m.RowsInLast := by
  constructor
  · intro h i j pts p hp
    obtain ⟨id, hid⟩ := exists_rename hp.mem
    rw [← insertVec_eq hp.mem]
    exact (h i j pts p id hp hid).1
  · intro h i j pts p id hp hid
    have hrow := h i j pts p hp
    refine ⟨?_, ?_, fun out hout => coords_merge hout hp hid⟩
    · rw [insertVec_eq hp.mem, hrow]
    · rw [pqVec_eq hp.mem hid, hrow]

def twoIndicesDisk : List (DiskNode × ℕ) :=
  [(⟨[1, 0, 0, 0], [1]⟩, 5), (⟨[2, 0, 0, 0], [0]⟩, 6)]

def twoIndicesMem : List (List (Vec × ℕ)) := [[([3, 0, 0, 0], 7)], [([4, 0, 0, 0], 8)]]

theorem twoIndices_ok : SmallOk 4 twoIndicesDisk twoIndicesMem := by decide

/-- One point in each of two memory indices. -/
def twoIndices : IndexMerger ℕ Vec ℕ := smallMerger 4 2 2 twoIndicesDisk twoIndicesMem ∅ twoIndices_ok

/-- The first point is searched for, and encoded, with the vector of the second. -/
theorem twoIndices_row_wrong : twoIndices.IsInsert 0 0 [([3, 0, 0, 0], 7)] ([3, 0, 0, 0], 7) ∧
    twoIndices.merge.isSome = true ∧ twoIndices.rename (twoIndices.offsetId 0) = some 2 ∧
    twoIndices.insertVec (twoIndices.offsetId 0) = some [4, 0, 0, 0] ∧
    twoIndices.pqVec 2 = some [4, 0, 0, 0] ∧ ¬ twoIndices.OwnRows := by
  have hrow : twoIndices.IsInsert 0 0 [([3, 0, 0, 0], 7)] ([3, 0, 0, 0], 7) :=
    ⟨by decide, by decide, by decide⟩
  have hvec : twoIndices.insertVec (twoIndices.offsetId 0) = some [4, 0, 0, 0] := by decide +kernel
  have hid : twoIndices.rename (twoIndices.offsetId 0) = some 2 := by decide +kernel
  refine ⟨hrow, by decide +kernel, hid, hvec, by decide +kernel, fun h => ?_⟩
  have hown := (h 0 0 _ _ 2 hrow hid).1
  rw [Nat.add_zero, hvec] at hown
  exact absurd hown (by decide)

end IndexMerger

end DiskANNEval.FreshDiskANN
