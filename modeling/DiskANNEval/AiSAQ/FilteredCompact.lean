import DiskANNEval.AiSAQ.FilteredRuns

/-!
# FilteredCompact — `compact_data` as a renumbering

`compact_data` renames the slots by `newLocation`: each live or frozen slot is found under its new
number with its vector, its labels and its renamed list, and the tags follow.  The live slots come to
be `[0, _nd)` exactly when `_nd` counts them, which it does not after an `insert_point` has left a slot
reserved (`compactData_renumbers_iff`).
-/

namespace DiskANNEval.AiSAQ

open Lib Option

variable {Vec Tag Label D : Type} [LinearOrder Label]

namespace FilteredIndex

variable [DecidableEq Tag] [Zero Tag] {cfg : FilterConfig Vec D}
  {s s' : FilteredIndex Vec Tag Label} {held : Finset ℕ}

/-- `s'` is `s` with its slots renumbered by `ρ`. -/
structure IsRenumbering (cfg : FilterConfig Vec D) (s s' : FilteredIndex Vec Tag Label) (ρ : ℕ → ℕ) :
    Prop where
  nd_eq : s'.nd = s.nd
  start_eq : s'.start = ρ s.start
  live_iff : ∀ k, s'.Live k ↔ k < s'.nd
  live_bij : Set.BijOn ρ {k | s.Live k} {k | s'.Live k}
  frozen : ∀ k, cfg.maxPoints ≤ k → ρ k = k
  lookup_eq : ∀ tag, s'.tagToLocation.lookup tag = (s.tagToLocation.lookup tag).map ρ
  inverse : ∀ tag k, s'.tagToLocation.lookup tag = some k ↔ s'.locationToTag.tryGet k = some tag
  data_eq : ∀ k < cfg.totalPoints, s.toIndex.Kept cfg.toConfig k → s'.data (ρ k) = s.data k
  labels_eq : cfg.filteredIndex = true → ∀ k < cfg.totalPoints, s.toIndex.Kept cfg.toConfig k →
    s'.locationToLabels[ρ k]? = s.locationToLabels[k]?
  graph_eq : ∀ k < cfg.totalPoints, s.toIndex.Kept cfg.toConfig k →
    s'.graph (ρ k) = ((s.graph k).filter fun j => ¬ (j < cfg.maxPoints ∧ ¬ s.Live j)).map ρ

/-! ### The labels -/

/-- Before round `m` the labels of the kept slots below `m` have moved and the others are as they
were. -/
structure LabelsTo (cfg : FilterConfig Vec D) (s : Index Vec Tag) (labels : List (List Label)) (m : ℕ)
    (moved : List (List Label)) : Prop where
  length_eq : moved.length = labels.length
  done : ∀ k < m, s.Kept cfg.toConfig k → moved[s.newLocation cfg.toConfig k]? = labels[k]?
  rest : ∀ k, m ≤ k → moved[k]? = labels[k]?

variable {idx : Index Vec Tag} {labels : List (List Label)}

section

omit [LinearOrder Label]

theorem LabelsTo.step (h : Index.Slots cfg.toConfig held idx) {moved : List (List Label)}
    (hlen : labels.length = cfg.totalPoints) {m : ℕ} (hm : m < cfg.totalPoints)
    (hto : LabelsTo cfg idx labels m moved) :
    ∃ moved', compactLabelsAt cfg idx moved m = some moved' ∧
      LabelsTo cfg idx labels (m + 1) moved' := by
  unfold compactLabelsAt
  by_cases hmove : (idx.newLocation cfg.toConfig m < cfg.maxPoints ∨ cfg.maxPoints ≤ m) ∧
      idx.newLocation cfg.toConfig m ≠ m
  · rw [if_pos hmove]
    have hkept := (Index.kept_iff h.newLocation_lt_max m).1 hmove.1
    have hle := Index.newLocation_le hkept
    obtain ⟨moved', hswap, hlen', hget⟩ := exists_swapCells
      (a := idx.newLocation cfg.toConfig m) (by rw [hto.length_eq]; omega)
      (by rw [hto.length_eq, hlen]; exact hm)
    refine ⟨moved', hswap, hlen'.trans hto.length_eq, ?_, ?_⟩
    · intro k hk hkk
      rw [hget]
      rcases Nat.lt_succ_iff_lt_or_eq.1 hk with hk | rfl
      · -- no kept slot below `m` has the new location of `m`
        have h2 := Index.newLocation_lt hkk hkept hk
        rw [Equiv.swap_apply_of_ne_of_ne (by omega) (by omega)]
        exact hto.done k hk hkk
      · rw [Equiv.swap_apply_left]
        exact hto.rest k le_rfl
    · intro k hk
      rw [hget, Equiv.swap_apply_of_ne_of_ne (by omega) (by omega)]
      exact hto.rest k (by omega)
  · rw [if_neg hmove]
    refine ⟨moved, rfl, hto.length_eq, ?_, ?_⟩
    · intro k hk hkk
      rcases Nat.lt_succ_iff_lt_or_eq.1 hk with hk | rfl
      · exact hto.done k hk hkk
      · have hstay : idx.newLocation cfg.toConfig k = k := by
          by_contra hne
          exact hmove ⟨(Index.kept_iff h.newLocation_lt_max k).2 hkk, hne⟩
        rw [hstay]
        exact hto.rest k le_rfl
    · exact fun k hk => hto.rest k (by omega)

theorem labelsTo_range (h : Index.Slots cfg.toConfig held idx)
    (hlen : labels.length = cfg.totalPoints) {m : ℕ} (hm : m ≤ cfg.totalPoints) :
    ∃ moved, (List.range m).foldlM (compactLabelsAt cfg idx) labels = some moved ∧
      LabelsTo cfg idx labels m moved := by
  induction m with
  | zero =>
    exact ⟨labels, rfl, rfl, fun k hk => absurd hk (Nat.not_lt_zero k), fun k _ => rfl⟩
  | succ m ih =>
    obtain ⟨moved, hfold, hto⟩ := ih (Nat.le_of_succ_le hm)
    obtain ⟨moved', hstep, hto'⟩ := hto.step h hlen hm
    refine ⟨moved', ?_, hto'⟩
    rw [List.range_succ, List.foldlM_append, hfold]
    show (List.foldlM (compactLabelsAt cfg idx) moved [m]) = _
    rw [List.foldlM_cons, hstep]
    rfl

theorem compactLabels_kept (h : Index.Slots cfg.toConfig held idx)
    (hlen : labels.length = cfg.totalPoints) : ∃ moved, compactLabels cfg idx labels = some moved ∧
      ∀ k < cfg.totalPoints, idx.Kept cfg.toConfig k →
        moved[idx.newLocation cfg.toConfig k]? = labels[k]? := by
  obtain ⟨moved, hfold, hto⟩ := labelsTo_range h hlen le_rfl
  have hroom : ¬ (idx.nd < cfg.maxPoints ∧ moved.length < cfg.maxPoints) := by
    rw [hto.length_eq, hlen]
    unfold Config.totalPoints
    omega
  refine ⟨moved.mapIdx fun k l => if idx.nd ≤ k ∧ k < cfg.maxPoints then [] else l, ?_, ?_⟩
  · unfold compactLabels
    rw [hfold, bind_some, if_neg hroom]
  · intro k hk hkk
    have hnot : ¬ (idx.nd ≤ idx.newLocation cfg.toConfig k ∧
        idx.newLocation cfg.toConfig k < cfg.maxPoints) := by
      rcases hkk with ⟨hl, -⟩ | hfz
      · have := h.newLocation_lt_size hl
        have := h.size_le_nd
        omega
      · rw [Index.newLocation_frozen hfz]
        omega
    rw [List.getElem?_mapIdx, ← hto.done k hk hkk]
    simp only [if_neg hnot, map_id_fun', id_eq]

end

/-! ### The whole call -/

theorem compactData_eq (h : Inv cfg s) (hd : s.deleteSet = ∅) (hc : s.dataCompacted = false) :
    ∃ labels, s.compactData cfg = some (.void, { s with
        toIndex := s.toIndex.compactSlots cfg.toConfig, locationToLabels := labels }) ∧
      (cfg.filteredIndex = true → ∀ k < cfg.totalPoints, s.toIndex.Kept cfg.toConfig k →
        labels[s.toIndex.newLocation cfg.toConfig k]? = s.locationToLabels[k]?) := by
  obtain ⟨⟨held, hslots⟩, hlen, -⟩ := h
  have hstart : ¬ (s.start < cfg.maxPoints ∧ ¬ s.toIndex.Live s.start) := by
    rw [hslots.start_eq]
    exact fun hlt => lt_irrefl _ hlt.1
  unfold compactData
  rw [hc, hd, if_neg hstart]
  by_cases hf : cfg.filteredIndex = true
  · obtain ⟨moved, hmoved, hkept⟩ := compactLabels_kept hslots (hlen hf)
    rw [if_pos hf, hmoved]
    exact ⟨moved, rfl, fun _ => hkept⟩
  · rw [if_neg hf]
    exact ⟨s.locationToLabels, rfl, fun hf' => absurd hf' hf⟩

omit [LinearOrder Label] in
theorem isRenumbering_newLocation (h : Index.Slots cfg.toConfig held s.toIndex)
    (hsize : s.locationToTag.size = s.nd)
    (hlabels : cfg.filteredIndex = true → ∀ k < cfg.totalPoints, s.toIndex.Kept cfg.toConfig k → labels[s.toIndex.newLocation cfg.toConfig k]? = s.locationToLabels[k]?) :
    IsRenumbering cfg s { s with
      toIndex := s.toIndex.compactSlots cfg.toConfig, locationToLabels := labels }
        (s.toIndex.newLocation cfg.toConfig) where
  nd_eq := rfl
  start_eq := by
    rw [h.start_eq, Index.newLocation_frozen le_rfl]
    exact h.start_eq
  live_iff k := by
    show (s.toIndex.compactSlots cfg.toConfig).Live k ↔ k < s.nd
    rw [h.live_compactSlots_iff, hsize]
  live_bij := by
    refine ⟨?_, ?_, ?_⟩
    · intro k hk
      exact (h.live_compactSlots_iff _).2 (h.newLocation_lt_size hk)
    · intro i hi j hj hij
      exact Index.newLocation_inj (h.kept hi) (h.kept hj) hij
    · intro j hj
      exact h.exists_newLocation_of_lt ((h.live_compactSlots_iff j).1 hj)
  frozen k hk := Index.newLocation_frozen hk
  lookup_eq tag := by
    apply Option.ext
    intro k
    refine (h.lookup_compactSlots tag k).trans ?_
    rw [map_eq_some_iff]
    simp only [h.inverse]
  inverse tag k := (h.tryGet_compactSlots k tag).symm
  data_eq k hk hkk := (h.compactSlots_kept hkk hk).2
  labels_eq := hlabels
  graph_eq k hk hkk := (h.compactSlots_kept hkk hk).1

/-- `compact_data` runs to its end on a reachable index without deleted slots, and is then a
renumbering exactly when `_nd` is the number of live slots. -/
theorem compactData_renumbers_iff (h : Reachable cfg s) (hd : s.deleteSet = ∅)
    (hc : s.dataCompacted = false) :
    ∃ s', s.compactData cfg = some (.void, s') ∧
      ((∃ ρ, IsRenumbering cfg s s' ρ) ↔ s.locationToTag.size = s.nd) := by
  have hinv := Inv.of_reachable h
  obtain ⟨labels, hcall, hlabels⟩ := compactData_eq hinv hd hc
  obtain ⟨⟨held, hslots⟩, -, -⟩ := hinv
  refine ⟨_, hcall, ?_⟩
  constructor
  · rintro ⟨ρ, hρ⟩
    -- both `_nd` and the number of live slots bound the live slots afterwards
    have hlive : ∀ k, k < s.locationToTag.size ↔ k < s.nd := fun k =>
      (hslots.live_compactSlots_iff k).symm.trans (hρ.live_iff k)
    rcases lt_trichotomy s.locationToTag.size s.nd with hlt | heq | hgt
    · exact absurd ((hlive _).2 hlt) (lt_irrefl _)
    · exact heq
    · exact absurd ((hlive _).1 hgt) (lt_irrefl _)
  · intro hsize
    exact ⟨_, isRenumbering_newLocation hslots hsize hlabels⟩

/-- A point, and the deletion of a tag that is not there: `compact_data` renumbers the one slot. -/
theorem compactData_renumbers_one : ∃ s s' : FilteredIndex ℕ ℕ ℕ, s.nd = 1 ∧
    s.compactData labelConfig = some (.void, s') ∧ ∃ ρ, IsRenumbering labelConfig s s' ρ := by
  have h : ((init labelConfig id false 0 : FilteredIndex ℕ ℕ ℕ).insertPoint labelConfig 7 5 [1] 20).map
      (fun r => ((r.2.lazyDelete 9).2.nd, (r.2.lazyDelete 9).2.deleteSet,
        (r.2.lazyDelete 9).2.dataCompacted, (r.2.lazyDelete 9).2.locationToTag.size)) =
          some (1, ∅, false, 1) := by decide +kernel
  obtain ⟨⟨out, s⟩, hi, hv⟩ := map_eq_some_iff.1 h
  simp only [Prod.mk.injEq] at hv
  obtain ⟨hnd, hd, hc, hsize⟩ := hv
  have h1 : Reachable labelConfig s :=
    .next (a := .insertPoint 7 5 [1] 20) (.start ⟨id, false, 0, rfl⟩) ⟨out, hi⟩
  have h2 : Reachable labelConfig (s.lazyDelete 9).2 :=
    .next (a := .lazyDelete 9) h1 ⟨(s.lazyDelete 9).1, rfl⟩
  obtain ⟨s', hcall, hiff⟩ := compactData_renumbers_iff h2 hd hc
  exact ⟨_, s', hnd, hcall, hiff.2 (hsize.trans hnd.symm)⟩

/-- An insert that throws for want of a frozen point: `_nd` is `2` and only slot `0` is live. -/
theorem compactData_not_renumbering : ∃ s s' : FilteredIndex ℕ ℕ ℕ, Reachable labelConfig s ∧
    s.deleteSet = ∅ ∧ s.dataCompacted = false ∧ s.compactData labelConfig = some (.void, s') ∧
      s'.nd = 2 ∧ s'.Live 0 ∧ ¬ s'.Live 1 ∧ ¬ ∃ ρ, IsRenumbering labelConfig s s' ρ := by
  have h : (((init labelConfig id false 0 : FilteredIndex ℕ ℕ ℕ).insertPoint labelConfig 7 5 [1]
      20).bind fun r => r.2.insertPoint labelConfig 8 6 [2] 20).bind (fun r =>
        ((r.2.lazyDelete 9).2.compactData labelConfig).map fun r' =>
          ((r.2.lazyDelete 9).2.deleteSet, (r.2.lazyDelete 9).2.dataCompacted, r'.1.isVoid, r'.2.nd,
            decide (r'.2.Live 0), decide (r'.2.Live 1))) = some (∅, false, true, 2, true, false) := by
    decide +kernel
  obtain ⟨⟨out, s⟩, hs, h⟩ := bind_eq_some_iff.1 h
  obtain ⟨⟨out1, s1⟩, hi1, hi⟩ := bind_eq_some_iff.1 hs
  obtain ⟨⟨out', s'⟩, hcall, hv⟩ := map_eq_some_iff.1 h
  simp only [Prod.mk.injEq, decide_eq_true_eq, decide_eq_false_iff_not] at hv
  obtain ⟨hd, hc, hout, hnd, hl0, hl1⟩ := hv
  have h1 : Reachable labelConfig s1 :=
    .next (a := .insertPoint 7 5 [1] 20) (.start ⟨id, false, 0, rfl⟩) ⟨out1, hi1⟩
  have h2 : Reachable labelConfig s := .next (a := .insertPoint 8 6 [2] 20) h1 ⟨out, hi⟩
  have h3 : Reachable labelConfig (s.lazyDelete 9).2 :=
    .next (a := .lazyDelete 9) h2 ⟨(s.lazyDelete 9).1, rfl⟩
  rw [Outcome.eq_void_of_isVoid hout] at hcall
  refine ⟨_, s', h3, hd, hc, hcall, hnd, hl0, hl1, ?_⟩
  rintro ⟨ρ, hρ⟩
  exact hl1 ((hρ.live_iff 1).2 (hnd ▸ one_lt_two))

end FilteredIndex

end DiskANNEval.AiSAQ
