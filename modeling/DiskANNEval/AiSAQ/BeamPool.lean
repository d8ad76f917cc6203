import DiskANNEval.AiSAQ.BeamFrame

/-!
# BeamPool — the scratch memory after `aisaq_cached_beam_search`

An offset goes back to the pool when its candidate is expanded or leaves the queue.  The loop can
also be left by the I/O limit, while a candidate that has been read ahead waits, or by the exception
for a pool without offsets, and nothing puts the offsets in use back then.
-/

namespace DiskANNEval.AiSAQ.BeamLoop

open Lib PriorityQueue List

variable {C P D : Type} {fl : FloatOps D} {ix : BeamIndex C P} {q : BeamQuery C P D}
  {pool₀ : List ℕ} {f f' : BeamFrame D}

theorem pool_of_visit {s : Choice D} {n : Neighbor D} (h : BeamLoop.visit ix q s n = none) :
    s.pool = [] := by
  rw [BeamLoop.visit] at h
  split_ifs at h
  rcases hlookup : s.frontier.lookup n.id with _ | buf
  · rcases hpool : s.pool with _ | ⟨buf, pool⟩
    · rfl
    · rw [hlookup, hpool] at h
      cases h
  · rw [hlookup] at h
    cases h

theorem pool_of_choose {fuel position : ℕ} {s : Choice D}
    (h : (BeamLoop.choose fl ix q fuel position s).2 = true) :
    (BeamLoop.choose fl ix q fuel position s).1.pool = [] := by
  induction fuel generalizing position s with
  | zero => cases h
  | succ fuel ih =>
    rw [BeamLoop.choose] at h ⊢
    rcases hvisit : BeamLoop.visit ix q s (s.retset.data.getD position ⟨0, fl.zero, false⟩) with
      _ | ⟨t, b⟩
    · exact pool_of_visit hvisit
    · rw [hvisit] at h
      cases b with
      | true => cases h
      | false =>
        dsimp only at h ⊢
        split_ifs at h ⊢
        exact ih h

theorem pool_of_select (h : (BeamLoop.select fl ix q f).2 = true) :
    (BeamLoop.select fl ix q f).1.pool = [] := by
  rw [BeamLoop.select] at h ⊢
  split_ifs at h ⊢
  exact pool_of_choose h

theorem pool_of_threw (h : Reach (Init fl q pool₀) (Step fl ix q) f) (hthrew : f.threw = true) :
    f.pool = [] := by
  have hall : f.threw = true → f.pool = [] := by
    refine h.invariant (P := fun f => f.threw = true → f.pool = []) ?_ ?_
    · rintro f ⟨mem, rfl⟩ hfalse
      cases hfalse
    · intro f _ f' _ hstep hthrew'
      rcases step_cases hstep with ⟨-, -, hsel, rfl⟩ | ⟨-, -, -, rfl⟩
      · exact pool_of_select hsel
      · cases hthrew'
  exact hall hthrew

/-- The pool has the offsets that it had on entry when none belongs to a candidate. -/
theorem pool_perm_iff_frontier (h : Inv ix q pool₀ f) : f.pool.Perm pool₀ ↔ f.frontier = [] := by
  constructor
  · intro hperm
    have hlen := h.1.length_eq
    rw [length_append, hperm.length_eq, length_map] at hlen
    exact length_eq_zero_iff.1 (by omega)
  · intro hnil
    have hperm := h.1
    rw [hnil, map_nil, append_nil] at hperm
    exact hperm

/-- When the loop is left because no candidate waits, the pool is as it was on entry.  When the I/O
limit ends it, it is if and only if no candidate that waits has been read ahead; after the exception
it is if and only if it had no offsets. -/
theorem pool_perm_iff (h : Reach (Init fl q pool₀) (Step fl ix q) f) :
    (f.threw = false → f.retset.hasUnexpandedNode = false → f.pool.Perm pool₀) ∧
      (f.threw = false → f.retset.hasUnexpandedNode = true →
        (f.pool.Perm pool₀ ↔ ∀ id, f.retset.Waiting id → f.frontier.lookup id = none)) ∧
      (f.threw = true → (f.pool.Perm pool₀ ↔ pool₀ = [])) := by
  have hinv := inv_of_reach h
  refine ⟨fun hthrew hend => ?_, fun hthrew _ => ?_, fun hthrew => ?_⟩
  · refine (pool_perm_iff_frontier hinv).2 (eq_nil_iff_forall_not_mem.2 fun x hx => ?_)
    have hok := hinv.2 hthrew
    have hlt := hok.shape.hasUnexpandedNode_iff.2 ⟨x.1, hok.frontier x hx⟩
    rw [hend] at hlt
    cases hlt
  · rw [pool_perm_iff_frontier hinv]
    constructor
    · intro hnil id _
      rw [hnil]
      rfl
    · intro hnone
      refine eq_nil_iff_forall_not_mem.2 fun x hx => ?_
      have hlookup := hnone x.1 ((hinv.2 hthrew).frontier x hx)
      exact absurd (lookup_eq_none_iff.1 hlookup x hx) (by simp)
  · rw [pool_of_threw h hthrew, nil_perm]

/-- The points `1` and `2` are the neighbours of `0`. -/
def twoNeighbours : BeamIndex ℕ ℕ where
  record _ id := ⟨id, if id = 0 then 2 else 0, fun m => m + 1, fun _ => 0, id⟩
  cache _ := none
  inlinePqVectors := 0
  pqCache _ := none
  pqVector := id

/-- Two records are read at a time, and one candidate is expanded. -/
def readsAhead (ioLimit : ℕ) : BeamQuery ℕ ℕ ℕ where
  entry := 0
  entryDist := 0
  beamWidth := 2
  bv := 1
  lSearch := 3
  ioLimit
  pqDist := id
  fullDist := id
  usesPqDist := false
  passes _ := true
  lSearch_pos := threeCands_pos
  lSearch_lt := threeCands_lt
  bv_pos := Nat.one_pos

/-- The frame at the end of the search with a limit on the reads. -/
def readsAheadEnd (ioLimit : ℕ) : BeamFrame ℕ :=
  afterTurns natConfig.fl twoNeighbours (readsAhead ioLimit) 5
    (start natConfig.fl (readsAhead ioLimit) [0, 1, 2] id)

theorem reach_readsAheadEnd (ioLimit : ℕ) :
    Reach (Init natConfig.fl (readsAhead ioLimit) [0, 1, 2])
      (Step natConfig.fl twoNeighbours (readsAhead ioLimit)) (readsAheadEnd ioLimit) :=
  reach_afterTurns 5 (.start ⟨id, rfl⟩)

theorem pool_perm_iff_readsAhead :
    BeamLoop.step natConfig.fl twoNeighbours (readsAhead 100) (readsAheadEnd 100) = none ∧
      (readsAheadEnd 100).numIos = 3 ∧ (readsAheadEnd 100).pool.Perm [0, 1, 2] :=
  ⟨Option.isNone_iff_eq_none.1 (by decide +kernel), by decide +kernel,
    (pool_perm_iff (reach_readsAheadEnd 100)).1 (by decide +kernel) (by decide +kernel)⟩

/-- With two reads the search ends when the point `2` has been read and not expanded: its offset is
lost. -/
theorem readsAhead_loses_offset :
    Reach (Init natConfig.fl (readsAhead 2) [0, 1, 2])
        (Step natConfig.fl twoNeighbours (readsAhead 2)) (readsAheadEnd 2) ∧
      BeamLoop.step natConfig.fl twoNeighbours (readsAhead 2) (readsAheadEnd 2) = none ∧
      (readsAheadEnd 2).threw = false ∧ (readsAheadEnd 2).pool.length = 2 ∧
      ¬ (readsAheadEnd 2).pool.Perm [0, 1, 2] :=
  ⟨reach_readsAheadEnd 2, Option.isNone_iff_eq_none.1 (by decide +kernel), by decide +kernel,
    by decide +kernel, by decide +kernel⟩

end DiskANNEval.AiSAQ.BeamLoop
