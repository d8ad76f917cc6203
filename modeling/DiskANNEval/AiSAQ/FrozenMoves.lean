import DiskANNEval.AiSAQ.FilteredRuns
import DiskANNEval.AiSAQ.SaveInPlace

/-!
# FrozenMoves — the frozen points on their way to `_nd` and back

`compact_frozen_point` swaps the frozen points to the slots from `_nd` on, one after the other,
`reposition_frozen_point_to_end` swaps them back in the opposite order.  So the second sequence of swaps
undoes the first whether the two ranges overlap or not (`swapPerm_back`), and the ids in the lists
follow both ways (`repositionFrozenPointToEnd_compactFrozenPoint`).
-/

namespace DiskANNEval.AiSAQ

open Lib List

variable {Vec Tag Label D : Type}

/-! ### The swaps of a move -/

namespace Index

/-- The swaps of `reposition_points`, in their order. -/
def movePairs (old new num : ℕ) : List (ℕ × ℕ) :=
  (moveOffsets old new num).map fun off => (new + off, old + off)

variable {old new num : ℕ}

theorem mem_movePairs {p : ℕ × ℕ} :
    p ∈ movePairs old new num ↔ ∃ off < num, p = (new + off, old + off) := by
  unfold movePairs
  rw [mem_map]
  simp only [mem_moveOffsets, eq_comm]

theorem foldl_swapNeighbours_eq_comp (old new num : ℕ) (g : Graph) :
    (moveOffsets old new num).foldl (fun g off => swapNeighbours g (new + off) (old + off)) g =
      g ∘ swapPerm (movePairs old new num) := by
  rw [← foldl_comp_swap, movePairs, foldl_map]
  simp only [swapNeighbours_eq]

theorem swapPerm_movePairs_new {j : ℕ} (hne : old ≠ new) (hj : j < num) :
    swapPerm (movePairs old new num) (new + j) = old + j := by
  have hmoved := (foldl_swapNeighbours hne (pairwise_moveOffsets old new num) fun i => [i]).1 j
    ((mem_moveOffsets old new num j).2 hj)
  rw [foldl_swapNeighbours_eq_comp] at hmoved
  exact head_eq_of_cons_eq hmoved

theorem swapPerm_movePairs_other {k : ℕ} (hne : old ≠ new) (hnew : ¬ (new ≤ k ∧ k < new + num))
    (hold : ¬ (old ≤ k ∧ k < old + num)) : swapPerm (movePairs old new num) k = k := by
  have hother := (foldl_swapNeighbours hne (pairwise_moveOffsets old new num) fun i => [i]).2 k
    fun a ha => by
      rw [mem_moveOffsets] at ha
      omega
  rw [foldl_swapNeighbours_eq_comp] at hother
  exact head_eq_of_cons_eq hother

theorem swapPerm_back (h : new < old) (num : ℕ) :
    swapPerm (movePairs new old num) = (swapPerm (movePairs old new num))⁻¹ := by
  have hpairs : movePairs new old num = ((movePairs old new num).map Prod.swap).reverse := by
    unfold movePairs moveOffsets
    rw [if_pos h, if_neg (not_lt.2 h.le), map_reverse, map_map]
    rfl
  rw [hpairs, swapPerm_reverse, swapPerm_map_swap]

/-! ### Lists and vectors -/

section Moves

variable {cfg : Config Vec D} {s s1 : Index Vec Tag} {old new num : ℕ}

theorem graph_repositionPoints (h : ¬ (num = 0 ∨ old = new)) :
    (s.repositionPoints cfg old new num).graph =
      (fun i => if i < cfg.totalPoints then (s.graph i).map (shift old new num) else s.graph i) ∘
        swapPerm (movePairs old new num) := by
  rw [repositionPoints, if_neg h]
  exact foldl_swapNeighbours_eq_comp old new num _

theorem repositionPoints_eq (h : ¬ (num = 0 ∨ old = new)) :
    s.repositionPoints cfg old new num = { s with
      graph := (s.repositionPoints cfg old new num).graph
      data := moveVectors cfg old new num s.data } := by
  unfold repositionPoints
  rw [if_neg h]

theorem shift_back (h : new < old) {k : ℕ} (hk : ¬ (new ≤ k ∧ k < old)) :
    shift new old num (shift old new num k) = k := by
  unfold shift
  split_ifs <;> omega

theorem graph_back (h : new < old) (hnum : 0 < num) (hfit : old + num ≤ cfg.totalPoints)
    (hs1 : s1.graph = (s.repositionPoints cfg old new num).graph)
    (hunnamed : ∀ i < cfg.totalPoints, ∀ k ∈ s.graph i, ¬ (new ≤ k ∧ k < old)) :
    (s1.repositionPoints cfg new old num).graph = s.graph := by
  have hlt : ∀ p ∈ movePairs new old num, p.1 < cfg.totalPoints ∧ p.2 < cfg.totalPoints := by
    intro p hp
    obtain ⟨off, hoff, rfl⟩ := mem_movePairs.1 hp
    exact ⟨by dsimp only; omega, by dsimp only; omega⟩
  rw [graph_repositionPoints (by omega), hs1, graph_repositionPoints (by omega)]
  ext1 i
  have hback : swapPerm (movePairs old new num) (swapPerm (movePairs new old num) i) = i := by
    rw [swapPerm_back h]
    exact Equiv.apply_symm_apply _ i
  simp only [Function.comp_apply, hback, swapPerm_lt_iff hlt]
  split_ifs with hi
  · rw [map_map]
    conv_rhs => rw [← map_id (s.graph i)]
    exact map_congr_left fun k hk => shift_back h (hunnamed i hi k hk)
  · rfl

theorem moveVectors_back (h : new < old) (data : DataStore Vec) :
    moveVectors cfg new old num (moveVectors cfg old new num data) =
      fun k => if new ≤ k ∧ k < old ∧ k < new + num then cfg.zeroVec else data k := by
  ext1 k
  unfold moveVectors
  by_cases hold : old ≤ k ∧ k < old + num
  · rw [if_pos hold, if_pos (by omega), if_neg (by omega)]
    congr 1
    omega
  · rw [if_neg hold]
    by_cases hnew : new ≤ k ∧ k < old ∧ k < new + num
    · rw [if_pos hnew, if_pos (by split_ifs <;> omega)]
    · rw [if_neg hnew, if_neg (by split_ifs <;> omega), if_neg (by omega),
        if_neg (by split_ifs <;> omega)]

end Moves

end Index

namespace FilteredIndex

section Ops

variable (cfg : FilterConfig Vec D)

/-- The swaps of the labels in `reposition_points`. -/
def repositionLabels (old new num : ℕ) (labels : List (List Label)) : Option (List (List Label)) :=
  if num = 0 ∨ old = new then some labels
  else (Index.movePairs old new num).foldlM (fun ls p => swapCells ls p.1 p.2) labels

def repositionPoints (old new num : ℕ) (s : FilteredIndex Vec Tag Label) :
    Option (FilteredIndex Vec Tag Label) :=
  (if cfg.filteredIndex then repositionLabels old new num s.locationToLabels
    else some s.locationToLabels).map fun locationToLabels =>
      { s with toIndex := s.toIndex.repositionPoints cfg.toConfig old new num, locationToLabels }

/-- `new + (medoid_id - old)` in `uint32_t` arithmetic. -/
def movedStartId (old new medoidId : ℕ) : ℕ :=
  (new + (medoidId + 4294967296 - old) % 4294967296) % 4294967296

/-- `_label_to_start_id` after a move of the frozen points. -/
def movedStartIds (old new : ℕ) (m : AList (fun _ : Label => ℕ)) : AList (fun _ : Label => ℕ) :=
  if cfg.filteredIndex then mapValues (movedStartId old new) m else m

def compactFrozenPoint (s : FilteredIndex Vec Tag Label) : Option (FilteredIndex Vec Tag Label) :=
  if s.nd < cfg.maxPoints ∧ 0 < cfg.numFrozenPts then
    (s.repositionPoints cfg cfg.maxPoints s.nd cfg.numFrozenPts).map fun s' =>
      { s' with
        start := s'.nd
        labelToStartId := movedStartIds cfg cfg.maxPoints s'.nd s'.labelToStartId }
  else some s

def repositionFrozenPointToEnd (s : FilteredIndex Vec Tag Label) :
    Option (FilteredIndex Vec Tag Label) :=
  if cfg.numFrozenPts = 0 ∨ s.nd = cfg.maxPoints then some s
  else
    (s.repositionPoints cfg s.nd cfg.maxPoints cfg.numFrozenPts).map fun s' =>
      { s' with
        start := cfg.maxPoints
        labelToStartId := movedStartIds cfg s'.nd cfg.maxPoints s'.labelToStartId }

end Ops

variable {cfg : FilterConfig Vec D} {s s1 : FilteredIndex Vec Tag Label} {old new num : ℕ}

/-! ### One move -/

theorem exists_repositionLabels {labels : List (List Label)} (hold : old + num ≤ labels.length)
    (hnew : new + num ≤ labels.length) (hne : ¬ (num = 0 ∨ old = new)) :
    ∃ moved, repositionLabels old new num labels = some moved ∧ moved.length = labels.length ∧
      ∀ i, moved[i]? = labels[swapPerm (Index.movePairs old new num) i]? := by
  unfold repositionLabels
  rw [if_neg hne]
  apply exists_foldlM_swapCells
  intro p hp
  obtain ⟨off, hoff, rfl⟩ := Index.mem_movePairs.1 hp
  exact ⟨by dsimp only; omega, by dsimp only; omega⟩

theorem exists_repositionPoints (s : FilteredIndex Vec Tag Label) (old new num : ℕ)
    (hlen : cfg.filteredIndex = true → s.locationToLabels.length = cfg.totalPoints)
    (hold : old + num ≤ cfg.totalPoints) (hnew : new + num ≤ cfg.totalPoints)
    (hne : ¬ (num = 0 ∨ old = new)) :
    ∃ moved, s.repositionPoints cfg old new num = some { s with
        toIndex := s.toIndex.repositionPoints cfg.toConfig old new num, locationToLabels := moved } ∧
      moved.length = s.locationToLabels.length ∧
      (cfg.filteredIndex = false → moved = s.locationToLabels) ∧
      (cfg.filteredIndex = true →
        ∀ i, moved[i]? = s.locationToLabels[swapPerm (Index.movePairs old new num) i]?) := by
  unfold repositionPoints
  by_cases hf : cfg.filteredIndex = true
  · have h := hlen hf
    obtain ⟨moved, hmoved, hlen', hget⟩ :=
      exists_repositionLabels (hold.trans h.ge) (hnew.trans h.ge) hne
    rw [if_pos hf, hmoved]
    exact ⟨moved, rfl, hlen', fun hf' => absurd hf (by rw [hf']; exact Bool.false_ne_true),
      fun _ => hget⟩
  · rw [if_neg hf]
    exact ⟨s.locationToLabels, rfl, rfl, fun _ => rfl, fun hf' => absurd hf' hf⟩

theorem movedStartId_back {id : ℕ} (hid : id < 4294967296) (hold : old < 4294967296)
    (hnew : new < 4294967296) : movedStartId new old (movedStartId old new id) = id := by
  unfold movedStartId
  omega

theorem movedStartIds_back [DecidableEq Label] {m : AList (fun _ : Label => ℕ)}
    (hm : ∀ label id, m.lookup label = some id → id < 4294967296) (hold : old < 4294967296)
    (hnew : new < 4294967296) : movedStartIds cfg new old (movedStartIds cfg old new m) = m := by
  unfold movedStartIds
  split_ifs
  · rw [mapValues_mapValues]
    apply mapValues_eq_self
    intro label id hid
    rw [Function.comp_apply, movedStartId_back (hm label id hid) hold hnew]
  · rfl

/-! ### There and back -/

/-- Where a slot is after `compact_frozen_point`. -/
def atNd (cfg : FilterConfig Vec D) (s : FilteredIndex Vec Tag Label) (k : ℕ) : ℕ :=
  Index.shift cfg.maxPoints s.nd cfg.numFrozenPts k

/-- The frozen points of `s` are in the slots from `_nd` on, and every list names them there. -/
structure FrozenAtNd (cfg : FilterConfig Vec D) (s s1 : FilteredIndex Vec Tag Label) : Prop where
  start_eq : s1.start = s.nd
  lists : ∀ i < cfg.totalPoints, ∃ k < cfg.totalPoints, s1.graph i = (s.graph k).map (atNd cfg s)
  graph_eq : ∀ k < cfg.totalPoints, k < s.nd ∨ cfg.maxPoints ≤ k →
    s1.graph (atNd cfg s k) = (s.graph k).map (atNd cfg s)
  data_eq : ∀ k < cfg.totalPoints, k < s.nd ∨ cfg.maxPoints ≤ k →
    s1.data (atNd cfg s k) = s.data k
  labels_eq : cfg.filteredIndex = true → ∀ k < cfg.totalPoints, k < s.nd ∨ cfg.maxPoints ≤ k →
    s1.locationToLabels[atNd cfg s k]? = s.locationToLabels[k]?

theorem atNd_point {k : ℕ} (hnd : s.nd ≤ cfg.maxPoints) (hk : k < s.nd) : atNd cfg s k = k := by
  unfold atNd Index.shift
  rw [if_neg (by omega)]

theorem atNd_frozen {j : ℕ} (hj : j < cfg.numFrozenPts) :
    atNd cfg s (cfg.maxPoints + j) = s.nd + j := by
  unfold atNd Index.shift
  rw [if_pos (by omega)]
  omega

theorem compactFrozenPoint_eq (hnd : s.nd < cfg.maxPoints)
    (hlen : cfg.filteredIndex = true → s.locationToLabels.length = cfg.totalPoints) :
    ∃ moved, s.compactFrozenPoint cfg = some { s with
        toIndex := s.toIndex.compactFrozenPoint cfg.toConfig
        locationToLabels := moved
        labelToStartId := movedStartIds cfg cfg.maxPoints s.nd s.labelToStartId } ∧
      moved.length = s.locationToLabels.length ∧
      (cfg.filteredIndex = false → moved = s.locationToLabels) ∧
      (cfg.filteredIndex = true → ∀ i, moved[i]? =
        s.locationToLabels[swapPerm (Index.movePairs cfg.maxPoints s.nd cfg.numFrozenPts) i]?) := by
  have hpos := cfg.numFrozenPts_pos
  have hne : ¬ (cfg.numFrozenPts = 0 ∨ cfg.maxPoints = s.nd) := by omega
  obtain ⟨moved, hmoved, hrest⟩ := exists_repositionPoints s cfg.maxPoints s.nd cfg.numFrozenPts
    hlen le_rfl (Nat.add_le_add_right hnd.le _) hne
  refine ⟨moved, ?_, hrest⟩
  unfold compactFrozenPoint Index.compactFrozenPoint
  rw [if_pos ⟨hnd, hpos⟩, if_pos ⟨hnd, hpos⟩, hmoved, Index.repositionPoints_eq hne]
  rfl

theorem frozenAtNd_self (hnd : s.nd = cfg.maxPoints) (hstart : s.start = cfg.maxPoints) :
    FrozenAtNd cfg s s := by
  have hid : atNd cfg s = id := by
    ext1 k
    unfold atNd Index.shift
    rw [id_eq]
    split_ifs <;> omega
  refine ⟨hstart.trans hnd.symm, ?_, ?_, ?_, ?_⟩
  · intro i hi
    exact ⟨i, hi, by rw [hid, map_id]⟩
  · intro k _ _
    rw [hid, map_id, id_eq]
  · intro k _ _
    rw [hid, id_eq]
  · intro _ k _ _
    rw [hid, id_eq]

theorem frozenAtNd_compactFrozenPoint (hnd : s.nd < cfg.maxPoints)
    (hstart : s.start = cfg.maxPoints) {moved : List (List Label)}
    {m : AList (fun _ : Label => ℕ)} (hmoved : cfg.filteredIndex = true → ∀ i, moved[i]? =
      s.locationToLabels[swapPerm (Index.movePairs cfg.maxPoints s.nd cfg.numFrozenPts) i]?) :
    FrozenAtNd cfg s { s with
      toIndex := s.toIndex.compactFrozenPoint cfg.toConfig
      locationToLabels := moved
      labelToStartId := m } := by
  have hpos := cfg.numFrozenPts_pos
  have hne : ¬ (cfg.numFrozenPts = 0 ∨ cfg.maxPoints = s.nd) := by omega
  refine ⟨Index.compactFrozenPoint_start hstart hnd.le, ?_, ?_, ?_, ?_⟩
  · intro i hi
    have hlt : ∀ p ∈ Index.movePairs cfg.maxPoints s.nd cfg.numFrozenPts,
        p.1 < cfg.totalPoints ∧ p.2 < cfg.totalPoints := by
      intro p hp
      obtain ⟨off, hoff, rfl⟩ := Index.mem_movePairs.1 hp
      unfold Config.totalPoints
      exact ⟨by dsimp only; omega, by dsimp only; omega⟩
    have hi' := (swapPerm_lt_iff hlt i).2 hi
    refine ⟨_, hi', ?_⟩
    show (s.toIndex.compactFrozenPoint cfg.toConfig).graph i = _
    unfold Index.compactFrozenPoint
    rw [if_pos ⟨hnd, hpos⟩]
    show (s.toIndex.repositionPoints cfg.toConfig _ _ _).graph i = _
    rw [Index.graph_repositionPoints hne, Function.comp_apply, if_pos hi']
    rfl
  · intro k hk hkk
    rcases hkk with hpt | hfz
    · rw [atNd_point hnd.le hpt]
      exact (Index.compactFrozenPoint_point hnd.le hpt).1
    · obtain ⟨j, rfl⟩ := Nat.exists_eq_add_of_le hfz
      have hj : j < cfg.numFrozenPts := Nat.lt_of_add_lt_add_left hk
      rw [atNd_frozen hj]
      exact (Index.compactFrozenPoint_frozen hnd.le hj).1
  · intro k hk hkk
    rcases hkk with hpt | hfz
    · rw [atNd_point hnd.le hpt]
      exact (Index.compactFrozenPoint_point hnd.le hpt).2
    · obtain ⟨j, rfl⟩ := Nat.exists_eq_add_of_le hfz
      have hj : j < cfg.numFrozenPts := Nat.lt_of_add_lt_add_left hk
      rw [atNd_frozen hj]
      exact (Index.compactFrozenPoint_frozen hnd.le hj).2
  · intro hf k hk hkk
    show moved[_]? = _
    rw [hmoved hf]
    rcases hkk with hpt | hfz
    · rw [atNd_point hnd.le hpt, Index.swapPerm_movePairs_other hnd.ne' (by omega) (by omega)]
    · obtain ⟨j, rfl⟩ := Nat.exists_eq_add_of_le hfz
      have hj : j < cfg.numFrozenPts := Nat.lt_of_add_lt_add_left hk
      rw [atNd_frozen hj, Index.swapPerm_movePairs_new hnd.ne' hj]

/-- The vectors after both moves: the part of the gap that the frozen points have covered is zero. -/
def cleared (cfg : FilterConfig Vec D) (s : FilteredIndex Vec Tag Label) : DataStore Vec := fun k =>
  if s.nd ≤ k ∧ k < cfg.maxPoints ∧ k < s.nd + cfg.numFrozenPts then cfg.zeroVec else s.data k

theorem index_back (hnd : s.nd < cfg.maxPoints) (hstart : s.start = cfg.maxPoints)
    (hunnamed : ∀ i < cfg.totalPoints, ∀ k ∈ s.graph i, ¬ (s.nd ≤ k ∧ k < cfg.maxPoints)) :
    { (s.toIndex.compactFrozenPoint cfg.toConfig).repositionPoints cfg.toConfig s.nd cfg.maxPoints
        cfg.numFrozenPts with start := cfg.maxPoints } = { s.toIndex with data := cleared cfg s } := by
  have hpos := cfg.numFrozenPts_pos
  have hne : ¬ (cfg.numFrozenPts = 0 ∨ cfg.maxPoints = s.nd) := by omega
  have hcompact : s.toIndex.compactFrozenPoint cfg.toConfig = { s.toIndex with
      graph := (s.toIndex.repositionPoints cfg.toConfig cfg.maxPoints s.nd cfg.numFrozenPts).graph
      data := Index.moveVectors cfg.toConfig cfg.maxPoints s.nd cfg.numFrozenPts s.data
      start := s.nd } := by
    unfold Index.compactFrozenPoint
    rw [if_pos ⟨hnd, hpos⟩, Index.repositionPoints_eq hne]
  rw [Index.repositionPoints_eq (by omega), Index.graph_back hnd hpos le_rfl (by rw [hcompact]) hunnamed,
    hcompact]
  rw [Index.moveVectors_back hnd, Index.mk.injEq]
  exact ⟨rfl, hstart.symm, rfl, rfl, rfl, rfl, rfl, rfl, rfl⟩

theorem labels_back {moved moved' : List (List Label)} (hnd : s.nd < cfg.maxPoints)
    (h : ∀ i, moved[i]? =
      s.locationToLabels[swapPerm (Index.movePairs cfg.maxPoints s.nd cfg.numFrozenPts) i]?)
    (h' : ∀ i, moved'[i]? =
      moved[swapPerm (Index.movePairs s.nd cfg.maxPoints cfg.numFrozenPts) i]?) :
    moved' = s.locationToLabels := by
  apply ext_getElem?
  intro i
  rw [h', h, Index.swapPerm_back hnd]
  congr 1
  exact Equiv.apply_symm_apply _ i

theorem exists_back [DecidableEq Label] (hnd : s.nd ≤ cfg.maxPoints) (hstart : s.start = cfg.maxPoints)
    (hlen : cfg.filteredIndex = true → s.locationToLabels.length = cfg.totalPoints)
    (hids : ∀ label id, s.labelToStartId.lookup label = some id → id < 4294967296)
    (hunnamed : ∀ i < cfg.totalPoints, ∀ k ∈ s.graph i, ¬ (s.nd ≤ k ∧ k < cfg.maxPoints)) :
    ∃ s1, s.compactFrozenPoint cfg = some s1 ∧ FrozenAtNd cfg s s1 ∧
      s1.repositionFrozenPointToEnd cfg =
        some { s with toIndex := { s.toIndex with data := cleared cfg s } } := by
  have hpos := cfg.numFrozenPts_pos
  have htotal := cfg.totalPoints_lt
  rcases Nat.eq_or_lt_of_le hnd with hfull | hlt
  · refine ⟨s, ?_, frozenAtNd_self hfull hstart, ?_⟩
    · unfold compactFrozenPoint
      rw [if_neg (by omega)]
    · have hdata : cleared cfg s = s.data := by
        ext1 k
        unfold cleared
        rw [if_neg (by omega)]
      unfold repositionFrozenPointToEnd
      rw [if_pos (Or.inr hfull), hdata]
  · obtain ⟨moved, hcompact, hlenm, hsame, hmoved⟩ := compactFrozenPoint_eq hlt hlen
    refine ⟨_, hcompact, frozenAtNd_compactFrozenPoint hlt hstart hmoved, ?_⟩
    have hnd1 : (s.toIndex.compactFrozenPoint cfg.toConfig).nd = s.nd :=
      (Index.compactFrozenPoint_eq cfg.toConfig s.toIndex).1
    unfold repositionFrozenPointToEnd
    rw [hnd1, if_neg (by omega)]
    obtain ⟨moved', hmove, -, hsame', hmoved'⟩ := exists_repositionPoints
      { s with
        toIndex := s.toIndex.compactFrozenPoint cfg.toConfig
        locationToLabels := moved
        labelToStartId := movedStartIds cfg cfg.maxPoints s.nd s.labelToStartId }
      s.nd cfg.maxPoints cfg.numFrozenPts (fun hf => hlenm.trans (hlen hf)) (Nat.add_le_add_right hlt.le _) le_rfl (by omega)
    have hlabels : moved' = s.locationToLabels := by
      by_cases hf : cfg.filteredIndex = true
      · exact labels_back hlt (hmoved hf) (hmoved' hf)
      · rw [Bool.not_eq_true] at hf
        rw [hsame' hf]
        exact hsame hf
    have hnd2 : ((s.toIndex.compactFrozenPoint cfg.toConfig).repositionPoints cfg.toConfig s.nd
        cfg.maxPoints cfg.numFrozenPts).nd = s.nd := by
      rw [Index.repositionPoints_eq (by omega)]
      exact hnd1
    rw [hmove, hlabels]
    show some (FilteredIndex.mk { Index.repositionPoints cfg.toConfig _ _ _ _ with
      start := cfg.maxPoints } s.locationToLabels s.labels (movedStartIds cfg
        (Index.repositionPoints cfg.toConfig _ _ _ _).nd cfg.maxPoints (movedStartIds cfg _ _ _))
          s.frozenPtsUsed s.useUniversalLabel s.universalLabel) = _
    rw [index_back hlt hstart hunnamed, hnd2, movedStartIds_back hids (by omega) (by omega)]

/-- `compact_frozen_point` puts the frozen points behind the points, with every list naming them there,
and `reposition_frozen_point_to_end` restores the index, up to vectors in the gap that were not zero. -/
theorem repositionFrozenPointToEnd_compactFrozenPoint [DecidableEq Label]
    (hnd : s.nd ≤ cfg.maxPoints) (hstart : s.start = cfg.maxPoints)
    (hlen : cfg.filteredIndex = true → s.locationToLabels.length = cfg.totalPoints)
    (hids : ∀ label id, s.labelToStartId.lookup label = some id → id < 4294967296)
    (hunnamed : ∀ i < cfg.totalPoints, ∀ k ∈ s.graph i, ¬ (s.nd ≤ k ∧ k < cfg.maxPoints)) :
    ∃ s1 data, s.compactFrozenPoint cfg = some s1 ∧ FrozenAtNd cfg s s1 ∧
      s1.repositionFrozenPointToEnd cfg = some { s with toIndex := { s.toIndex with data } } ∧
      (∀ k, k < s.nd ∨ cfg.maxPoints ≤ k → data k = s.data k) ∧
      ((∀ k, s.nd ≤ k → k < cfg.maxPoints → s.data k = cfg.zeroVec) → data = s.data) := by
  obtain ⟨s1, hcompact, hmoved, hback⟩ := exists_back hnd hstart hlen hids hunnamed
  refine ⟨s1, cleared cfg s, hcompact, hmoved, hback, ?_, ?_⟩
  · intro k hk
    unfold cleared
    rw [if_neg (by omega)]
  · intro hzero
    ext1 k
    unfold cleared
    split_ifs with hk
    · exact (hzero k hk.1 hk.2.1).symm
    · rfl

/-- One point and two frozen points, capacity `2`: the ranges `[1, 3)` and `[2, 4)` overlap. -/
theorem frozenPoints_back_overlap : ∃ s s1 : FilteredIndex ℕ ℕ ℕ, ∃ data, s.nd = 1 ∧
    s.graph 0 = [2, 3] ∧ s.compactFrozenPoint twoLabelConfig = some s1 ∧ s1.graph 0 = [1, 2] ∧
      s1.repositionFrozenPointToEnd twoLabelConfig =
        some { s with toIndex := { s.toIndex with data } } := by
  have h : (((init twoLabelConfig id false 0 : FilteredIndex ℕ ℕ ℕ).insertPoint twoLabelConfig 7 5
      [2, 1] 20).bind fun r => (r.2.lazyDelete 9).2.compactData twoLabelConfig).map
        (fun r => (r.2.nd, r.2.graph 0, (List.range 4).all fun i => !(r.2.graph i).contains 1)) =
          some (1, [2, 3], true) := by decide +kernel
  obtain ⟨⟨out, s⟩, hs, hv⟩ := Option.map_eq_some_iff.1 h
  obtain ⟨⟨out1, s1⟩, hi, hc⟩ := Option.bind_eq_some_iff.1 hs
  simp only [Prod.mk.injEq, all_eq_true, List.mem_range, Bool.not_eq_true',
    contains_eq_mem, decide_eq_false_iff_not] at hv
  obtain ⟨hnd, hgraph, hunnamed⟩ := hv
  have h1 : Reachable twoLabelConfig s1 :=
    .next (a := .insertPoint 7 5 [2, 1] 20) (.start ⟨id, false, 0, rfl⟩) ⟨out1, hi⟩
  have h2 : Reachable twoLabelConfig (s1.lazyDelete 9).2 :=
    .next (a := .lazyDelete 9) h1 ⟨(s1.lazyDelete 9).1, rfl⟩
  have h3 : Reachable twoLabelConfig s := .next (a := .compactData) h2 ⟨out, hc⟩
  obtain ⟨⟨held, hslots⟩, hlen, hids⟩ := Inv.of_reachable h3
  have hgap : ∀ i < twoLabelConfig.totalPoints, ∀ k ∈ s.graph i,
      ¬ (s.nd ≤ k ∧ k < twoLabelConfig.maxPoints) := by
    rintro i hi k hk ⟨hle, hlt⟩
    have hk1 : k = 1 := Nat.le_antisymm (Nat.le_of_lt_succ hlt) (hnd ▸ hle)
    exact hunnamed i hi (hk1 ▸ hk)
  obtain ⟨s', data, hcompact, hat, hback, -⟩ := repositionFrozenPointToEnd_compactFrozenPoint
    hslots.nd_le hslots.start_eq hlen (fun label id hid => (hids label id hid).trans (by decide))
      hgap
  refine ⟨s, s', data, hnd, hgraph, hcompact, ?_, hback⟩
  have hpt : 0 < s.nd := by omega
  have h0 := hat.graph_eq 0 (by decide) (Or.inl hpt)
  rw [atNd_point hslots.nd_le hpt, hgraph] at h0
  rw [h0]
  unfold atNd
  rw [hnd]
  rfl

end FilteredIndex

end DiskANNEval.AiSAQ
