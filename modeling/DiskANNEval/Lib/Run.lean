import Mathlib.Logic.Function.Basic
import Mathlib.Data.Option.Basic
import Mathlib.Order.WellFounded
import Mathlib.Tactic.SplitIfs

/-!
# Lib.Run — finite runs of a labelled state machine

`Reach init step s`: `s` is the last state of a finite run that starts in an `init` state.
`Reach.invariant` is the one induction over runs: a property of the initial states that every step
keeps holds in every reachable state.  `guarded ok step` restricts the steps to those that meet
`ok`, so `Reach init (guarded ok step)` speaks of the runs all of whose steps meet `ok`.
For a machine given by a partial function, `runs` executes a list of actions and `reach_of_runs`
turns an executed list into a reachable state; `runsGuarded` also checks `ok` at each step.
`Reach.simulate`: each step is one of another machine, or it leaves the relation as it is.
`Reach.exists_halted`: from each state that can be left there is a step that decreases a measure.
`Steps` keeps the labels of a run, and `Steps.simulate` carries a run to another machine.
-/

namespace DiskANNEval.Lib

variable {σ α : Type*}

/-- The states reached by finite runs of `step` from `init`. -/
inductive Reach (init : σ → Prop) (step : σ → α → σ → Prop) : σ → Prop
  | start {s : σ} (h : init s) : Reach init step s
  | next {s s' : σ} {a : α} (hr : Reach init step s) (h : step s a s') : Reach init step s'

/-- The steps of `step` taken from a state and with a label that meet `ok`. -/
def guarded (ok : σ → α → Prop) (step : σ → α → σ → Prop) (s : σ) (a : α) (s' : σ) : Prop :=
  ok s a ∧ step s a s'

variable {τ β ι : Type*} {init : σ → Prop} {step : σ → α → σ → Prop} {s : σ}

theorem Reach.invariant {P : σ → Prop} (h0 : ∀ s, init s → P s)
    (hstep : ∀ s a s', P s → step s a s' → P s') {s : σ} (h : Reach init step s) : P s := by
  induction h with
  | start h => exact h0 _ h
  | next _ h ih => exact hstep _ _ _ ih h

theorem Reach.mono {step' : σ → α → σ → Prop} (hle : ∀ s a s', step s a s' → step' s a s') {s : σ}
    (h : Reach init step s) : Reach init step' s := by
  induction h with
  | start h => exact .start h
  | next _ h ih => exact .next ih (hle _ _ _ h)

theorem Reach.of_guarded {ok : σ → α → Prop} {s : σ} (h : Reach init (guarded ok step) s) :
    Reach init step s :=
  h.mono fun _ _ _ h' => h'.2

theorem Reach.simulate {init' : τ → Prop} {step' : τ → β → τ → Prop} {R : σ → τ → Prop}
    (hinit : ∀ s, init s → ∃ t, init' t ∧ R s t)
    (hstep : ∀ s a s' t, Reach init step s → R s t → step s a s' →
      R s' t ∨ ∃ b t', step' t b t' ∧ R s' t')
    (h : Reach init step s) : ∃ t, Reach init' step' t ∧ R s t := by
  induction h with
  | start h =>
    obtain ⟨t, ht, hR⟩ := hinit _ h
    exact ⟨t, .start ht, hR⟩
  | next hr h ih =>
    obtain ⟨t, ht, hR⟩ := ih
    rcases hstep _ _ _ t hr hR h with hR | ⟨b, t', ht', hR⟩
    · exact ⟨t, ht, hR⟩
    · exact ⟨t', .next ht ht', hR⟩

theorem Reach.exists_halted {r : ι → ι → Prop} (hr : WellFounded r) (μ : σ → ι)
    (hdec : ∀ s, Reach init step s →
      (∀ a s', ¬ step s a s') ∨ ∃ a s', step s a s' ∧ r (μ s') (μ s))
    (h : Reach init step s) : ∃ s, Reach init step s ∧ ∀ a s', ¬ step s a s' := by
  induction hm : μ s using hr.induction generalizing s with
  | h m ih =>
    rcases hdec s h with hhalt | ⟨a, s', hstep, hlt⟩
    · exact ⟨s, h, hhalt⟩
    · exact ih (μ s') (hm ▸ hlt) (.next h hstep) rfl

/-- The step relation of a partial transition function. -/
def ofFn (f : σ → α → Option σ) (s : σ) (a : α) (s' : σ) : Prop := f s a = some s'

/-- Execute a list of actions. -/
def runs (f : σ → α → Option σ) : σ → List α → Option σ
  | s, [] => some s
  | s, a :: as => (f s a).bind fun s' => runs f s' as

theorem reach_of_runs {f : σ → α → Option σ} {as : List α} {s s' : σ}
    (hs : Reach init (ofFn f) s) (h : runs f s as = some s') : Reach init (ofFn f) s' := by
  induction as generalizing s with
  | nil =>
    rw [runs, Option.some.injEq] at h
    exact h ▸ hs
  | cons a as ih =>
    rw [runs, Option.bind_eq_some_iff] at h
    obtain ⟨s1, h1, h2⟩ := h
    exact ih (.next hs h1) h2

/-- Execute a list of actions that all meet `ok`. -/
def runsGuarded (ok : σ → α → Prop) [∀ s a, Decidable (ok s a)] (f : σ → α → Option σ)
    (s : σ) (as : List α) : Option σ :=
  runs (fun s a => if ok s a then f s a else none) s as

theorem reach_of_runsGuarded {ok : σ → α → Prop} [∀ s a, Decidable (ok s a)]
    {f : σ → α → Option σ} {as : List α} {s s' : σ} (hs : init s)
    (h : runsGuarded ok f s as = some s') : Reach init (guarded ok (ofFn f)) s' := by
  refine (reach_of_runs (.start hs) h).mono fun s a s' hstep => ?_
  rw [ofFn] at hstep
  split_ifs at hstep with hok
  exact ⟨hok, hstep⟩

/-- The labels `as` lead from the first state to the second. -/
inductive Steps (step : σ → α → σ → Prop) : σ → List α → σ → Prop
  | nil (s : σ) : Steps step s [] s
  | cons {s s1 s' : σ} {a : α} {as : List α} (h : step s a s1) (hs : Steps step s1 as s') :
      Steps step s (a :: as) s'

/-- A run from a state that meets an invariant, seen through `view`. -/
theorem Steps.simulate {R : σ → Prop} {view : σ → τ} {step' : τ → α → τ → Prop}
    (hstep : ∀ s a s', R s → step s a s' → R s' ∧ step' (view s) a (view s')) {s s' : σ} {as : List α}
    (hs : Steps step s as s') (h : R s) : Steps step' (view s) as (view s') := by
  induction hs with
  | nil s => exact .nil _
  | cons hfirst _ ih =>
    obtain ⟨h1, hview⟩ := hstep _ _ _ h hfirst
    exact .cons hview (ih h1)

end DiskANNEval.Lib
