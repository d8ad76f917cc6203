import DiskANNEval.AiSAQ.FrozenMoves

/-!
# LabelFiles — `save` and `load` of a filtered index

The label file has one line for each slot below `_nd + _num_frozen_pts`, and `parse_label_file` makes
`_location_to_labels` as long as the file has lines.  The frozen points are then moved to the end of the
index, which is further up whenever there is room for more points than were saved
(`load_after_save_undefined`).
-/

namespace DiskANNEval.AiSAQ

open Lib List Option

variable {Vec Tag Label D : Type}

namespace FilteredIndex

/-- The files of `save`.  `_raw_labels.txt`, which `load` does not read, is left out. -/
structure Saved (Vec Tag Label : Type) extends Index.Saved Vec Tag where
  labels : Option (List (List Label))
  labelsToMedoids : Option (List (Label × ℕ))
  universalLabel : Option Label

section Ops

variable (cfg : FilterConfig Vec D)

/-! ### `save` -/

/-- The lines of the label file; `none`: `_location_to_labels` is shorter. -/
def labelLines (s : FilteredIndex Vec Tag Label) : Option (List (List Label)) :=
  (List.range (s.nd + cfg.numFrozenPts)).mapM fun i => s.locationToLabels[i]?

def savedFiles [Zero Tag] (order : SetOrder) (s : FilteredIndex Vec Tag Label) :
    Option (Saved Vec Tag Label) :=
  let files := s.toIndex.savedFiles cfg.toConfig order
  if cfg.filteredIndex then
    (if 0 < s.locationToLabels.length then (s.labelLines cfg).map some else some none).map
      fun labels => { files with
        labels
        labelsToMedoids :=
          if 0 < s.labelToStartId.entries.length then
            some (s.labelToStartId.entries.map fun e => (e.1, e.2))
          else none
        universalLabel := s.universal }
  else some { files with labels := none, labelsToMedoids := none, universalLabel := none }

variable [DecidableEq Tag] [Zero Tag]

/-- The outcome, the index afterwards and the files, if they are written. -/
def save (compactBeforeSave : Bool) (order : SetOrder) (s : FilteredIndex Vec Tag Label) :
    Option (Outcome Tag × FilteredIndex Vec Tag Label × Option (Saved Vec Tag Label)) :=
  if compactBeforeSave then
    match s.compactData cfg with
    | none => none
    | some (.threw msg, s) => some (.threw msg, s, none)
    | some (_, s) =>
      (s.compactFrozenPoint cfg).bind fun s => (s.savedFiles cfg order).bind fun files =>
        (s.repositionFrozenPointToEnd cfg).map fun s => (.void, s, some files)
  else if s.dataCompacted then
    (s.savedFiles cfg order).bind fun files =>
      (s.repositionFrozenPointToEnd cfg).map fun s => (.void, s, some files)
  else some (.threw "Index save for non-compacted index is not yet implemented", s, none)

/-! ### `load` -/

variable [LinearOrder Label]

/-- `parse_label_file` -/
def parseLabels (lines : List (List Label)) (s : FilteredIndex Vec Tag Label) :
    FilteredIndex Vec Tag Label :=
  { s with
    labels := s.labels ∪ lines.flatten.toFinset
    locationToLabels := lines.map (List.insertionSort (· ≤ ·)) }

/-- The label files; `narrow` is the conversion of a medoid to `LabelT`. -/
def loadLabels (narrow : ℕ → ℕ) (f : Saved Vec Tag Label) (s : FilteredIndex Vec Tag Label) :
    FilteredIndex Vec Tag Label :=
  match f.labels with
  | none => s
  | some lines =>
    let s := parseLabels lines s
    let labelToStartId :=
      match f.labelsToMedoids with
      | none => s.labelToStartId
      | some medoids => mapOf (medoids.map fun e => (e.1, narrow e.2))
    { s with
      labelToStartId
      useUniversalLabel := s.useUniversalLabel || f.universalLabel.isSome
      universalLabel := f.universalLabel.getD s.universalLabel }

/-- `load` up to the move of the frozen points, into an index that has room for the saved one and as
many frozen points. -/
def loadFiles (narrow : ℕ → ℕ) (f : Saved Vec Tag Label) (s : FilteredIndex Vec Tag Label) :
    Outcome Tag × FilteredIndex Vec Tag Label :=
  let idx := { s.toIndex with
    emptySlots := .empty
    data := fun k => (f.data[k]?).getD (s.data k)
    deleteSet := s.deleteSet ∪ (f.deleteList.getD []).toFinset }
  let tags := idx.loadTags cfg.toConfig f.tags
  let idx := { idx with tagToLocation := tags.1, locationToTag := tags.2 }
  match loadGraph f.graph with
  | none => (.threw "basic_ios::clear", { s with toIndex := idx })
  | some lists =>
    let idx := { idx with
      graph := fun k => (lists[k]?).getD (s.graph k)
      start := f.graph.start }
    if f.data.length ≠ lists.length ∨ f.data.length ≠ f.tags.length then
      (.threw "ERROR: When loading index", { s with toIndex := idx })
    else
      let s := loadLabels narrow f { s with toIndex := idx }
      let nd := f.data.length - cfg.numFrozenPts
      (.void, { s with
        nd
        emptySlots := NaturalNumberSet.empty.insertAll (List.range' nd (cfg.maxPoints - nd)) })

def load (narrow : ℕ → ℕ) (f : Saved Vec Tag Label) (s : FilteredIndex Vec Tag Label) :
    Option (Outcome Tag × FilteredIndex Vec Tag Label) :=
  if cfg.totalPoints < f.data.length ∨ f.graph.numFrozenPts ≠ cfg.numFrozenPts then none
  else
    match loadFiles cfg narrow f s with
    | (.void, s) => (s.repositionFrozenPointToEnd cfg).map fun s => (.void, s)
    | r => some r

end Ops

variable {cfg cfg' : FilterConfig Vec D} {s s' : FilteredIndex Vec Tag Label}
  {f : Saved Vec Tag Label}

/-- The move is undefined where the labels end before the place the frozen points are to go to. -/
theorem repositionFrozenPointToEnd_eq_none (hf : cfg.filteredIndex = true)
    (hnd : s.nd < cfg.maxPoints) (hlen : s.locationToLabels.length ≤ s.nd + cfg.numFrozenPts) :
    s.repositionFrozenPointToEnd cfg = none := by
  have hpos := cfg.numFrozenPts_pos
  have hlabels : repositionLabels s.nd cfg.maxPoints cfg.numFrozenPts s.locationToLabels = none := by
    unfold repositionLabels
    rw [if_neg (by omega)]
    apply foldlM_swapCells_eq_none
    -- the last frozen point
    refine ⟨_, Index.mem_movePairs.2 ⟨cfg.numFrozenPts - 1, by omega, rfl⟩, ?_⟩
    omega
  unfold repositionFrozenPointToEnd repositionPoints
  rw [if_neg (by omega), if_pos hf, hlabels]
  rfl

/-! ### What is written -/

theorem length_labelLines {lines : List (List Label)} (h : s.labelLines cfg = some lines) :
    lines.length = s.nd + cfg.numFrozenPts := by
  rw [← (forall₂_of_mapM h).length_eq, length_range]

variable {order : SetOrder}

theorem savedFiles_cases [Zero Tag] (hf : cfg.filteredIndex = true)
    (hlen : 0 < s.locationToLabels.length) (h : s.savedFiles cfg order = some f) :
    f.toSaved = s.toIndex.savedFiles cfg.toConfig order ∧
      ∃ lines, f.labels = some lines ∧ lines.length = s.nd + cfg.numFrozenPts := by
  unfold savedFiles at h
  rw [if_pos hf, if_pos hlen] at h
  obtain ⟨labels, hlabels, rfl⟩ := map_eq_some_iff.1 h
  obtain ⟨lines, hlines, rfl⟩ := map_eq_some_iff.1 hlabels
  exact ⟨rfl, lines, rfl, length_labelLines hlines⟩

variable [DecidableEq Tag] [Zero Tag] [LinearOrder Label]

/-- The files of `save` are those of the compacted index with the frozen points behind the points. -/
theorem save_cases {out : Outcome Tag} (h : Inv cfg s) (hf : cfg.filteredIndex = true)
    (hsave : s.save cfg true order = some (out, s', some f)) :
    ∃ idx : Index Vec Tag, idx.nd = s.nd ∧ f.toSaved = idx.savedFiles cfg.toConfig order ∧
      ∃ lines, f.labels = some lines ∧ lines.length = s.nd + cfg.numFrozenPts := by
  have hpos := cfg.numFrozenPts_pos
  unfold save at hsave
  rw [if_pos rfl] at hsave
  split at hsave
  · cases hsave
  · cases hsave
  · rename_i s1 hthrew hcompact
    have hnd1 : s1.nd = s.nd := by
      unfold FilteredIndex.compactData at hcompact
      split_ifs at hcompact
      · cases hcompact
        rfl
      · cases hcompact
        exact absurd rfl (hthrew _)
      · cases hcompact
        exact absurd rfl (hthrew _)
      all_goals
        obtain ⟨ls, -, heq⟩ := map_eq_some_iff.1 hcompact
        cases heq
        rfl
    obtain ⟨⟨held, hslots⟩, hlen, -⟩ := h.compactData hcompact
    obtain ⟨s2, hs2, hsave⟩ := bind_eq_some_iff.1 hsave
    obtain ⟨files, hfiles, hsave⟩ := bind_eq_some_iff.1 hsave
    obtain ⟨s3, -, heq⟩ := map_eq_some_iff.1 hsave
    cases heq
    have hs2' : s2.nd = s1.nd ∧ s2.locationToLabels.length = s1.locationToLabels.length := by
      rcases Nat.eq_or_lt_of_le hslots.nd_le with hfull | hlt
      · unfold compactFrozenPoint at hs2
        rw [if_neg (by omega)] at hs2
        cases hs2
        exact ⟨rfl, rfl⟩
      · obtain ⟨moved, hmoved, hlenm, -⟩ := compactFrozenPoint_eq hlt hlen
        rw [hmoved] at hs2
        cases hs2
        exact ⟨(Index.compactFrozenPoint_eq cfg.toConfig s1.toIndex).1, hlenm⟩
    have hroom : 0 < s2.locationToLabels.length := by
      rw [hs2'.2, hlen hf]
      exact hpos.trans_le (Nat.le_add_left _ _)
    have hnd2 := hs2'.1.trans hnd1
    obtain ⟨hidx, lines, hlines, hlen2⟩ := savedFiles_cases hf hroom hfiles
    exact ⟨s2.toIndex, hnd2, hidx, lines, hlines, hnd2 ▸ hlen2⟩

/-! ### What is read -/

theorem loadFiles_savedFiles {idx : Index Vec Tag} (hF : cfg'.numFrozenPts = cfg.numFrozenPts)
    (hfiles : f.toSaved = idx.savedFiles cfg.toConfig order) {lines : List (List Label)}
    (hlines : f.labels = some lines) (narrow : ℕ → ℕ) (s0 : FilteredIndex Vec Tag Label) :
    ∃ s1, loadFiles cfg' narrow f s0 = (.void, s1) ∧ s1.nd = idx.nd ∧
      s1.locationToLabels.length = lines.length := by
  have hdata : f.data.length = idx.nd + cfg.numFrozenPts := by
    rw [hfiles]
    exact (length_map _).trans length_range
  have htags : f.tags.length = idx.nd + cfg.numFrozenPts := by
    rw [hfiles]
    exact (length_map _).trans length_range
  have hgraph : loadGraph f.graph =
      some ((List.range (idx.nd + cfg.numFrozenPts)).map idx.graph) := by
    rw [hfiles]
    exact loadGraph_saveGraph _ _ _ _
  unfold loadFiles
  rw [hgraph]
  dsimp only
  rw [if_neg (by rw [hdata, htags]; simp)]
  refine ⟨_, rfl, ?_, ?_⟩
  · show f.data.length - cfg'.numFrozenPts = idx.nd
    omega
  · show (loadLabels narrow f _).locationToLabels.length = _
    unfold loadLabels
    rw [hlines]
    exact length_map _

/-! ### There and back -/

/-- Every tag has the labels it had. -/
def KeepsLabels (s s2 : FilteredIndex Vec Tag Label) : Prop :=
  ∀ tag p, s.tagToLocation.lookup tag = some p → ∃ p2, s2.tagToLocation.lookup tag = some p2 ∧
    s2.locationToLabels[p2]? = s.locationToLabels[p]?

/-- `load` returns with an index that has the labels of the saved one. -/
def LoadsLabels (cfg : FilterConfig Vec D) (narrow : ℕ → ℕ) (f : Saved Vec Tag Label)
    (s s0 : FilteredIndex Vec Tag Label) : Prop :=
  ∃ s2, load cfg narrow f s0 = some (.void, s2) ∧ KeepsLabels s s2

/-- Into an index with room for more points than were saved the files are read, and then the frozen
points are to go to slots behind the labels. -/
theorem load_after_save_undefined (h : Reachable cfg s) (hf : cfg.filteredIndex = true)
    (hf' : cfg'.filteredIndex = true) (hF : cfg'.numFrozenPts = cfg.numFrozenPts)
    (hcap : s.nd < cfg'.maxPoints) {order : SetOrder} {out : Outcome Tag}
    (hsave : s.save cfg true order = some (out, s', some f)) (narrow : ℕ → ℕ)
    (s0 : FilteredIndex Vec Tag Label) :
    (∃ s1, loadFiles cfg' narrow f s0 = (.void, s1) ∧ s1.nd = s.nd ∧
      s1.locationToLabels.length = s.nd + cfg'.numFrozenPts ∧
      s1.repositionFrozenPointToEnd cfg' = none) ∧
    ¬ LoadsLabels cfg' narrow f s' s0 := by
  obtain ⟨idx, hidx, hfiles, lines, hlines, hlen⟩ := save_cases (Inv.of_reachable h) hf hsave
  obtain ⟨s1, hs1, hnd1, hlen1⟩ := loadFiles_savedFiles hF hfiles hlines narrow s0
  have hnd : s1.nd = s.nd := hnd1.trans hidx
  have hlabels : s1.locationToLabels.length = s.nd + cfg'.numFrozenPts := by
    rw [hlen1, hlen, hF]
  have hnone : s1.repositionFrozenPointToEnd cfg' = none :=
    repositionFrozenPointToEnd_eq_none hf' (hnd ▸ hcap) (hnd ▸ hlabels.le)
  refine ⟨⟨s1, hs1, hnd, hlabels, hnone⟩, ?_⟩
  rintro ⟨s2, hload, -⟩
  unfold load at hload
  rw [hs1] at hload
  dsimp only at hload
  rw [hnone] at hload
  split_ifs at hload
  cases hload

theorem saved_one : ∃ s s' : FilteredIndex ℕ ℕ ℕ, ∃ f, Reachable labelConfig s ∧ s.nd = 1 ∧
    s.save labelConfig true .asIs = some (.void, s', some f) ∧
      (load labelConfig id f (init labelConfig id false 0)).isNone := by
  have h : ((init labelConfig id false 0 : FilteredIndex ℕ ℕ ℕ).insertPoint labelConfig 7 5 [1]
      20).bind (fun r => ((r.2.lazyDelete 9).2.save labelConfig true .asIs).bind fun r' =>
        r'.2.2.map fun f => ((r.2.lazyDelete 9).2.nd, r'.1.isVoid,
          (load labelConfig id f (init labelConfig id false 0)).isNone)) = some (1, true, true) := by
    decide +kernel
  obtain ⟨⟨out, s⟩, hi, h⟩ := bind_eq_some_iff.1 h
  obtain ⟨⟨out', s', files⟩, hsave, h⟩ := bind_eq_some_iff.1 h
  obtain ⟨f, rfl, hv⟩ := map_eq_some_iff.1 h
  simp only [Prod.mk.injEq] at hv
  obtain ⟨hnd, hout, hload⟩ := hv
  rw [Outcome.eq_void_of_isVoid hout] at hsave
  have h1 : Reachable labelConfig s :=
    .next (a := .insertPoint 7 5 [1] 20) (.start ⟨id, false, 0, rfl⟩) ⟨out, hi⟩
  exact ⟨_, s', f, .next (a := .lazyDelete 9) h1 ⟨(s.lazyDelete 9).1, rfl⟩, hnd, hsave, hload⟩

/-- One point saved, into an index with room for two. -/
theorem load_undefined_one : ∃ s' : FilteredIndex ℕ ℕ ℕ, ∃ f,
    ¬ LoadsLabels labelConfig id f s' (init labelConfig id false 0) := by
  obtain ⟨s, s', f, hr, hnd, hsave, -⟩ := saved_one
  exact ⟨s', f, (load_after_save_undefined hr rfl rfl rfl (hnd ▸ one_lt_two) hsave id _).2⟩

/-- The saved point is not there after `load`, which does not return. -/
theorem load_loses_labels : ∃ s s' : FilteredIndex ℕ ℕ ℕ, ∃ f, Reachable labelConfig s ∧ s.nd = 1 ∧
    labelConfig.maxPoints = 2 ∧ s.save labelConfig true .asIs = some (.void, s', some f) ∧
      load labelConfig id f (init labelConfig id false 0) = none ∧
        ¬ LoadsLabels labelConfig id f s' (init labelConfig id false 0) := by
  obtain ⟨s, s', f, hr, hnd, hsave, hnone⟩ := saved_one
  have hload := isNone_iff_eq_none.1 hnone
  refine ⟨s, s', f, hr, hnd, rfl, hsave, hload, ?_⟩
  rintro ⟨s2, hs2, -⟩
  rw [hload] at hs2
  cases hs2

end FilteredIndex

end DiskANNEval.AiSAQ
