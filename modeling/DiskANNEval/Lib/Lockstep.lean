import Mathlib.Data.Option.Basic

/-!
# Lib.Lockstep — two machines that take the same calls

A call either fails or gives a new state, and a call that fails ends the run.  `trace` is what the
calls of a run hand out, `left` the state it leaves.  When the steps of two machines keep a relation
between their states, and fail together, then runs hand out the same (`trace_eq`), and leave related
states (`left_rel`).
-/

namespace DiskANNEval.Lib

variable {σ τ α β : Type*}

/-- The results of the calls before the first that fails, and whether none of them fails. -/
def trace (f : σ → α → Option (β × σ)) : σ → List α → List β × Bool
  | _, [] => ([], true)
  | s, a :: as =>
    match f s a with
    | none => ([], false)
    | some r => (r.1 :: (trace f r.2 as).1, (trace f r.2 as).2)

theorem trace_eq {f : σ → α → Option (β × σ)} {g : τ → α → Option (β × τ)} {R : σ → τ → Prop}
    (hstep : ∀ s t a, R s t → f s a = none ∧ g t a = none ∨
      ∃ b s' t', f s a = some (b, s') ∧ g t a = some (b, t') ∧ R s' t')
    {s : σ} {t : τ} (h : R s t) (as : List α) : trace f s as = trace g t as := by
  induction as generalizing s t with
  | nil => rfl
  | cons a as ih =>
    rw [trace, trace]
    rcases hstep s t a h with ⟨hf, hg⟩ | ⟨b, s', t', hf, hg, h'⟩
    · rw [hf, hg]
    · rw [hf, hg]
      dsimp only
      rw [ih h']

/-- The state after the calls before the first that fails. -/
def left (f : σ → α → Option σ) : σ → List α → σ
  | s, [] => s
  | s, a :: as =>
    match f s a with
    | none => s
    | some s' => left f s' as

theorem left_rel {f : σ → α → Option σ} {g : τ → α → Option τ} {R : σ → τ → Prop}
    (hstep : ∀ s t a, R s t → f s a = none ∧ g t a = none ∨
      ∃ s' t', f s a = some s' ∧ g t a = some t' ∧ R s' t')
    {s : σ} {t : τ} (h : R s t) (as : List α) : R (left f s as) (left g t as) := by
  induction as generalizing s t with
  | nil => exact h
  | cons a as ih =>
    rw [left, left]
    rcases hstep s t a h with ⟨hf, hg⟩ | ⟨s', t', hf, hg, h'⟩
    · rw [hf, hg]
      exact h
    · rw [hf, hg]
      exact ih h'

end DiskANNEval.Lib
