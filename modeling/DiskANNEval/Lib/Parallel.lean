import DiskANNEval.Lib.Run
import Mathlib

/-!
# Lib.Parallel — iterations that run side by side

An iteration reads cells, one after the other, and writes its own cell last.  When no iteration reads
a cell that another one writes, what is in the cells at the end does not depend on the order of the
steps: each iteration has written what it computes from the cells as they were (`cells_of_reach`).
-/

namespace DiskANNEval.Lib

open Function

variable {ι α : Type*}

/-- What is left of an iteration. -/
inductive Iteration (ι α : Type*)
  | read (j : ι) (next : α → Iteration ι α)
  | write (a : α)

namespace Iteration

/-- What an iteration writes when the cells do not change. -/
def result (cells : ι → α) : Iteration ι α → α
  | read j next => (next (cells j)).result cells
  | write a => a

/-- All cells that the iteration may read are in `S`. -/
def ReadsIn (S : Set ι) : Iteration ι α → Prop
  | read j next => j ∈ S ∧ ∀ a, (next a).ReadsIn S
  | write _ => True

end Iteration

/-- `running i` is what is left of the iteration that writes cell `i`. -/
structure Parallel (ι α : Type*) where
  cells : ι → α
  running : ι → Option (Iteration ι α)

namespace Parallel

variable [DecidableEq ι]

/-- A step of iteration `i`. -/
def step (s : Parallel ι α) (i : ι) : Option (Parallel ι α) :=
  match s.running i with
  | none => none
  | some (.read j next) =>
    some { s with running := Function.update s.running i (some (next (s.cells j))) }
  | some (.write a) => some ⟨Function.update s.cells i a, Function.update s.running i none⟩

/-- The cells that no iteration of `s` writes, and the own one. -/
def Own (s : Parallel ι α) (i : ι) : Set ι := {j | j = i ∨ s.running j = none}

variable {s₀ s s' : Parallel ι α}

/-- An iteration that is running has its result before it, and one that has ended has written it. -/
structure Follows (s₀ s : Parallel ι α) : Prop where
  idle : ∀ i, s₀.running i = none → s.running i = none ∧ s.cells i = s₀.cells i
  running : ∀ i it₀ it, s₀.running i = some it₀ → s.running i = some it →
    it.ReadsIn (s₀.Own i) ∧ s.cells i = s₀.cells i ∧ it.result s₀.cells = it₀.result s₀.cells
  ended : ∀ i it₀, s₀.running i = some it₀ → s.running i = none →
    s.cells i = it₀.result s₀.cells

omit [DecidableEq ι] in
theorem Follows.refl (h : ∀ i it, s₀.running i = some it → it.ReadsIn (s₀.Own i)) :
    Follows s₀ s₀ where
  idle _ hi := ⟨hi, rfl⟩
  running i it₀ it h₀ hit := by
    obtain rfl : it₀ = it := Option.some.inj (h₀.symm.trans hit)
    exact ⟨h i it₀ h₀, rfl, rfl⟩
  ended i it₀ h₀ hnone := by
    rw [h₀] at hnone
    cases hnone

theorem Follows.step (h : Follows s₀ s) {i : ι} (hs : s.step i = some s') : Follows s₀ s' := by
  rw [Parallel.step] at hs
  split at hs
  · cases hs
  · rename_i j next hrun
    cases hs
    refine ⟨fun k hk => ?_, fun k it₀ it h₀ hit => ?_, fun k it₀ h₀ hnone => ?_⟩
    · obtain ⟨hnone, hcell⟩ := h.idle k hk
      have hki : k ≠ i := by
        rintro rfl
        rw [hnone] at hrun
        cases hrun
      exact ⟨(update_of_ne hki ..).trans hnone, hcell⟩
    · dsimp only at hit ⊢
      by_cases hki : k = i
      · subst hki
        rw [update_self, Option.some.injEq] at hit
        obtain ⟨⟨hj, hnext⟩, hcell, hres⟩ := h.running k it₀ _ h₀ hrun
        have hread : s.cells j = s₀.cells j := by
          rcases hj with rfl | hj
          · exact hcell
          · exact (h.idle j hj).2
        subst hit
        refine ⟨hnext _, hcell, ?_⟩
        rw [hread]
        exact hres
      · rw [update_of_ne hki] at hit
        exact h.running k it₀ it h₀ hit
    · dsimp only at hnone ⊢
      by_cases hki : k = i
      · subst hki
        rw [update_self] at hnone
        cases hnone
      · rw [update_of_ne hki] at hnone
        exact h.ended k it₀ h₀ hnone
  · rename_i a hrun
    cases hs
    refine ⟨fun k hk => ?_, fun k it₀ it h₀ hit => ?_, fun k it₀ h₀ hnone => ?_⟩
    · obtain ⟨hnone, hcell⟩ := h.idle k hk
      have hki : k ≠ i := by
        rintro rfl
        rw [hnone] at hrun
        cases hrun
      exact ⟨(update_of_ne hki ..).trans hnone, (update_of_ne hki ..).trans hcell⟩
    · dsimp only at hit ⊢
      by_cases hki : k = i
      · subst hki
        rw [update_self] at hit
        cases hit
      · rw [update_of_ne hki] at hit
        rw [update_of_ne hki]
        exact h.running k it₀ it h₀ hit
    · dsimp only at hnone ⊢
      by_cases hki : k = i
      · subst hki
        rw [update_self]
        exact (h.running k it₀ _ h₀ hrun).2.2
      · rw [update_of_ne hki] at hnone ⊢
        exact h.ended k it₀ h₀ hnone

/-- At the end of the loop, in whatever order its iterations have taken their steps. -/
theorem cells_of_reach (hreads : ∀ i it, s₀.running i = some it → it.ReadsIn (s₀.Own i))
    (h : Reach (· = s₀) (ofFn step) s) (hend : ∀ i, s.running i = none) (i : ι) :
    s.cells i = ((s₀.running i).map (Iteration.result s₀.cells)).getD (s₀.cells i) := by
  have hf : Follows s₀ s := by
    refine h.invariant (fun s hs => ?_) fun _ _ _ hs hstep => hs.step hstep
    rw [hs]
    exact .refl hreads
  cases hi : s₀.running i with
  | none => exact (hf.idle i hi).2
  | some it => exact hf.ended i it hi (hend i)

end Parallel

end DiskANNEval.Lib
