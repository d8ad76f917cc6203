import DiskANNEval.AiSAQ.RoundTrip

/-!
# SaveInPlace — what `save` without compaction does to the index in memory

`save(filename, false)` does not move the frozen points to `_nd`, but it ends with the move back to
`_max_points`, which takes whatever is in the slots from `_nd` on for the frozen points
(`repositionFrozenPointToEnd`).  The index is as before exactly when it is full, or when these slots
and the frozen ones cannot be told apart and no list names them (`Blank`).  That no list may name them
is seen from the sum of all ids: the swaps keep it and `shift` only makes it larger.
-/

namespace DiskANNEval.AiSAQ

open Lib List Function Finset

variable {Vec Tag D : Type}

namespace Index

section Shift

variable {old new num : ℕ}

theorem le_shift (h : old ≤ new) (k : ℕ) : k ≤ shift old new num k := by
  unfold shift
  split_ifs <;> omega

theorem shift_eq_self_iff (h : old < new) {k : ℕ} :
    shift old new num k = k ↔ ¬ (old ≤ k ∧ k < old + num) := by
  unfold shift
  split_ifs with hk
  · exact iff_of_false (by omega) (not_not_intro hk)
  · exact iff_of_true rfl hk

theorem sum_le_sum_shift (h : old ≤ new) (l : List ℕ) : l.sum ≤ (l.map (shift old new num)).sum := by
  induction l with
  | nil => exact le_rfl
  | cons k l ih =>
    exact Nat.add_le_add (le_shift h k) ih

theorem sum_shift_eq_iff (h : old < new) (l : List ℕ) :
    (l.map (shift old new num)).sum = l.sum ↔ ∀ k ∈ l, ¬ (old ≤ k ∧ k < old + num) := by
  induction l with
  | nil => simp
  | cons k l ih =>
    have hk := @le_shift old new num h.le k
    have hl := @sum_le_sum_shift old new num h.le l
    rw [List.map_cons, List.sum_cons, List.sum_cons, List.forall_mem_cons, ← ih,
      ← shift_eq_self_iff h]
    omega

theorem map_shift_eq_self (h : old < new) {l : List ℕ}
    (hl : ∀ k ∈ l, ¬ (old ≤ k ∧ k < old + num)) : l.map (shift old new num) = l := by
  conv_rhs => rw [← map_id l]
  exact map_congr_left fun k hk => (shift_eq_self_iff h).2 (hl k hk)

end Shift

/-! ### The swaps -/

theorem swapNeighbours_eq (g : Graph) (a b : ℕ) : swapNeighbours g a b = g ∘ Equiv.swap a b := by
  ext1 i
  by_cases hb : i = b
  · rw [hb, swapNeighbours_right, comp_apply, Equiv.swap_apply_right]
  · by_cases ha : i = a
    · rw [ha, swapNeighbours_left g (fun hab => hb (ha.trans hab)), comp_apply,
        Equiv.swap_apply_left]
    · rw [swapNeighbours_of_ne g ha hb, comp_apply, Equiv.swap_apply_of_ne_of_ne ha hb]

/-- The sum of the ids in the lists of the first `n` slots. -/
def idSum (n : ℕ) (g : Graph) : ℕ := ∑ i ∈ Finset.range n, (g i).sum

theorem idSum_swapNeighbours {n a b : ℕ} (ha : a < n) (hb : b < n) (g : Graph) :
    idSum n (swapNeighbours g a b) = idSum n g := by
  rw [swapNeighbours_eq]
  apply Equiv.Perm.sum_comp (Equiv.swap a b) (Finset.range n) fun i => (g i).sum
  intro i hi
  rw [coe_range, Set.mem_Iio]
  by_contra hn
  exact hi (Equiv.swap_apply_of_ne_of_ne (by omega) (by omega))

theorem idSum_foldl_swapNeighbours {n old new : ℕ} {offs : List ℕ}
    (h : ∀ off ∈ offs, new + off < n ∧ old + off < n) (g : Graph) :
    idSum n (offs.foldl (fun g off => swapNeighbours g (new + off) (old + off)) g) = idSum n g := by
  induction offs generalizing g with
  | nil => rfl
  | cons off offs ih =>
    obtain ⟨hnew, hold⟩ := h off mem_cons_self
    rw [foldl_cons, ih fun o ho => h o (mem_cons_of_mem _ ho),
      idSum_swapNeighbours hnew hold]

theorem foldl_swapNeighbours_eq {old new : ℕ} {offs : List ℕ} {g : Graph}
    (h : ∀ off ∈ offs, g (new + off) = g (old + off)) :
    offs.foldl (fun g off => swapNeighbours g (new + off) (old + off)) g = g := by
  induction offs with
  | nil => rfl
  | cons off offs ih =>
    have heq := h off mem_cons_self
    have hswap : swapNeighbours g (new + off) (old + off) = g := by
      rw [swapNeighbours, ← heq, update_eq_self, heq, update_eq_self]
    rw [foldl_cons, hswap]
    exact ih fun o ho => h o (mem_cons_of_mem _ ho)

/-! ### The index after the move -/

section Blank

variable (cfg : Config Vec D)

/-- The slots from `_nd` on and the frozen ones are cleared vectors with the same lists, and no list
names one of the former. -/
structure Blank (s : Index Vec Tag) : Prop where
  slots_zero : ∀ j < cfg.numFrozenPts, s.data (s.nd + j) = cfg.zeroVec
  frozen_zero : ∀ j < cfg.numFrozenPts, s.data (cfg.maxPoints + j) = cfg.zeroVec
  lists_eq : ∀ j < cfg.numFrozenPts, s.graph (cfg.maxPoints + j) = s.graph (s.nd + j)
  unnamed : ∀ i < cfg.totalPoints, ∀ k ∈ s.graph i, ¬ (s.nd ≤ k ∧ k < s.nd + cfg.numFrozenPts)

variable {cfg} {s : Index Vec Tag}

theorem moveVectors_eq_self_iff {old new num : ℕ} (h : old < new) {data : DataStore Vec} :
    moveVectors cfg old new num data = data ↔
      (∀ j < num, data (old + j) = cfg.zeroVec) ∧ ∀ j < num, data (new + j) = cfg.zeroVec := by
  have hval : ∀ k, moveVectors cfg old new num data k =
      if new ≤ k ∧ k < new + num then data (old + (k - new))
      else if old ≤ k ∧ k < old + num then cfg.zeroVec else data k := by
    intro k
    unfold moveVectors
    split_ifs <;> first | rfl | omega
  constructor
  · intro heq
    have hval' := fun k => (congrFun heq k).symm.trans (hval k)
    -- the slot before the new block has been cleared, a later one is a copy of an earlier one
    have hold : ∀ j < num, data (old + j) = cfg.zeroVec := by
      intro j
      induction j using Nat.strong_induction_on with
      | _ j ih =>
        intro hj
        have hk := hval' (old + j)
        by_cases hin : new ≤ old + j
        · rw [if_pos (by omega)] at hk
          rw [hk]
          exact ih (old + j - new) (by omega) (by omega)
        · rwa [if_neg (by omega), if_pos (by omega)] at hk
    refine ⟨hold, fun j hj => ?_⟩
    have hk := hval' (new + j)
    rw [if_pos (by omega), Nat.add_sub_cancel_left] at hk
    rw [hk, hold j hj]
  · rintro ⟨hold, hnew⟩
    ext1 k
    rw [hval]
    split_ifs with h1 h2
    · have hk := hnew (k - new) (by omega)
      rw [Nat.add_sub_cancel' h1.1] at hk
      rw [hk, hold (k - new) (by omega)]
    · have hk := hold (k - old) (by omega)
      rw [Nat.add_sub_cancel' h2.1] at hk
      exact hk.symm
    · rfl

theorem graph_repositionPoints_eq_self_iff {old new num : ℕ} (hnum : 0 < num) (h : old < new)
    (hfit : new + num ≤ cfg.totalPoints) :
    (s.repositionPoints cfg old new num).graph = s.graph ↔
      (∀ j < num, s.graph (new + j) = s.graph (old + j)) ∧
        ∀ i < cfg.totalPoints, ∀ k ∈ s.graph i, ¬ (old ≤ k ∧ k < old + num) := by
  have hmoved := fun j (hj : j < num) =>
    (@repositionPoints_moved _ _ _ cfg s old new num j hj (by omega)).1
  have hgraph : (s.repositionPoints cfg old new num).graph =
      (moveOffsets old new num).foldl (fun g off => swapNeighbours g (new + off) (old + off))
        fun i => if i < cfg.totalPoints then (s.graph i).map (shift old new num) else s.graph i := by
    rw [repositionPoints, if_neg (by omega)]
  have hoffs : ∀ off ∈ moveOffsets old new num,
      new + off < cfg.totalPoints ∧ old + off < cfg.totalPoints := by
    intro off hoff
    rw [mem_moveOffsets] at hoff
    omega
  constructor
  · intro heq
    -- the sum over all lists is as before, so it is in each of them
    have hsum : ∑ i ∈ Finset.range cfg.totalPoints, ((s.graph i).map (shift old new num)).sum =
        ∑ i ∈ Finset.range cfg.totalPoints, (s.graph i).sum := by
      have hid := congrArg (idSum cfg.totalPoints) (hgraph.symm.trans heq)
      rw [idSum_foldl_swapNeighbours hoffs] at hid
      refine Eq.trans (sum_congr rfl fun i hi => ?_) hid
      dsimp only
      rw [if_pos (Finset.mem_range.1 hi)]
    have heach := (sum_eq_sum_iff_of_le fun i _ =>
      @sum_le_sum_shift old new num h.le (s.graph i)).1 hsum.symm
    have hunnamed : ∀ i < cfg.totalPoints, ∀ k ∈ s.graph i, ¬ (old ≤ k ∧ k < old + num) :=
      fun i hi => (sum_shift_eq_iff h _).1 (heach i (Finset.mem_range.2 hi)).symm
    refine ⟨fun j hj => ?_, hunnamed⟩
    rw [← map_shift_eq_self h (hunnamed (old + j) (by omega)), ← hmoved j hj, heq]
  · rintro ⟨hlists, hunnamed⟩
    have hsame : (fun i => if i < cfg.totalPoints then (s.graph i).map (shift old new num)
        else s.graph i) = s.graph := by
      ext1 i
      split_ifs with hi
      · exact map_shift_eq_self h (hunnamed i hi)
      · rfl
    rw [hgraph, hsame]
    apply foldl_swapNeighbours_eq
    intro off hoff
    exact hlists off ((mem_moveOffsets ..).1 hoff)

theorem repositionFrozenPointToEnd_eq_self_iff (hnd : s.nd ≤ cfg.maxPoints) :
    s.repositionFrozenPointToEnd cfg = s ↔
      s.nd = cfg.maxPoints ∨ s.start = cfg.maxPoints ∧ s.Blank cfg := by
  have hfrozen := cfg.numFrozenPts_pos
  unfold repositionFrozenPointToEnd
  by_cases hfull : s.nd = cfg.maxPoints
  · rw [if_pos (Or.inr hfull)]
    exact iff_of_true rfl (Or.inl hfull)
  · have hlt : s.nd < cfg.maxPoints := by omega
    have hgraph := @graph_repositionPoints_eq_self_iff _ _ _ cfg s s.nd cfg.maxPoints
      cfg.numFrozenPts hfrozen hlt le_rfl
    have hdata := @moveVectors_eq_self_iff _ _ cfg s.nd cfg.maxPoints cfg.numFrozenPts hlt s.data
    rw [if_neg (by omega)]
    constructor
    · intro heq
      have hg : (s.repositionPoints cfg s.nd cfg.maxPoints cfg.numFrozenPts).graph = s.graph := by
        have hgraph := congrArg Index.graph heq
        exact hgraph
      have hd : (s.repositionPoints cfg s.nd cfg.maxPoints cfg.numFrozenPts).data = s.data := by
        have hdata := congrArg Index.data heq
        exact hdata
      have hstart : cfg.maxPoints = s.start := congrArg Index.start heq
      obtain ⟨hlists, hunnamed⟩ := hgraph.1 hg
      have hmove : (s.repositionPoints cfg s.nd cfg.maxPoints cfg.numFrozenPts).data =
          moveVectors cfg s.nd cfg.maxPoints cfg.numFrozenPts s.data := by
        rw [repositionPoints, if_neg (by omega)]
      obtain ⟨hslots, hzero⟩ := hdata.1 (hmove.symm.trans hd)
      exact Or.inr ⟨hstart.symm, hslots, hzero, hlists, hunnamed⟩
    · intro h
      obtain ⟨hstart, hblank⟩ := h.resolve_left hfull
      have hg := hgraph.2 ⟨hblank.lists_eq, hblank.unnamed⟩
      have hd := hdata.2 ⟨hblank.slots_zero, hblank.frozen_zero⟩
      rw [repositionPoints, if_neg (by omega)] at hg ⊢
      dsimp only at hg ⊢
      rw [hg, hd, ← hstart]

end Blank

section Save

variable [DecidableEq Tag] [Zero Tag] {cfg : Config Vec D}

end Save

end Index

end DiskANNEval.AiSAQ
