import Mathlib.Data.Option.Basic
import Mathlib.Logic.Function.Iterate
import Mathlib.Tactic.SplitIfs

/-!
# Lib.While — loops with a test

`whileM cond body fuel s` runs the loop `while (cond) body` from `s` for at most `fuel` rounds;
`none` when they are not enough, or when the body ends the process.  A loop whose body keeps an
invariant and lowers a measure returns (`exists_whileM`); a loop whose body is a function returns
exactly when the test fails after some number of rounds (`exists_whileM_iff`); two loops in step
return together (`whileM_bind_rel`).
-/

namespace DiskANNEval.Lib

variable {σ : Type*}

def whileM (cond : σ → Bool) (body : σ → Option σ) : ℕ → σ → Option σ
  | 0, s => if cond s then none else some s
  | n + 1, s => if cond s then (body s).bind (whileM cond body n) else some s

variable {cond : σ → Bool} {body : σ → Option σ} {f : σ → σ}

variable {s s' : σ}

theorem whileM_of_false (h : cond s = false) (n : ℕ) : whileM cond body n s = some s := by
  cases n with
  | zero => rw [whileM, if_neg (by rw [h]; exact Bool.false_ne_true)]
  | succ n => rw [whileM, if_neg (by rw [h]; exact Bool.false_ne_true)]

variable {n : ℕ}

theorem whileM_le {body' : σ → Option σ} (hbody : ∀ s s', body s = some s' → body' s = some s')
    {m : ℕ} (hnm : n ≤ m) (h : whileM cond body n s = some s') :
    whileM cond body' m s = some s' := by
  induction n generalizing m s with
  | zero =>
    rw [whileM] at h
    split_ifs at h with hc
    rw [whileM_of_false (by simpa using hc)]
    exact h
  | succ n ih =>
    obtain ⟨m, rfl⟩ := Nat.exists_eq_add_of_le' (Nat.one_le_iff_ne_zero.2 (by omega : m ≠ 0))
    rw [whileM] at h ⊢
    split_ifs at h ⊢ with hc
    · obtain ⟨s₁, h₁, h₂⟩ := Option.bind_eq_some_iff.1 h
      rw [hbody s s₁ h₁]
      exact ih (by omega) h₂
    · exact h

theorem whileM_mono {m : ℕ} (hnm : n ≤ m) (h : whileM cond body n s = some s') :
    whileM cond body m s = some s' :=
  whileM_le (fun _ _ h => h) hnm h

theorem exists_whileM (cond : σ → Bool) (body : σ → Option σ) (P : σ → Prop) (μ : σ → ℕ)
    (hbody : ∀ s, P s → cond s = true → ∃ s', body s = some s' ∧ P s' ∧ μ s' < μ s) (hs : P s)
    (hn : μ s ≤ n) : ∃ s', whileM cond body n s = some s' ∧ P s' ∧ cond s' = false := by
  induction n generalizing s with
  | zero =>
    have hc : cond s = false := by
      by_contra hne
      obtain ⟨s', -, -, hlt⟩ := hbody s hs (by simpa using hne)
      omega
    exact ⟨s, whileM_of_false hc 0, hs, hc⟩
  | succ n ih =>
    by_cases hc : cond s = true
    · obtain ⟨s', hb, hs', hlt⟩ := hbody s hs hc
      rw [whileM, if_pos hc, hb]
      exact ih hs' (by omega)
    · have hc' : cond s = false := by simpa using hc
      exact ⟨s, whileM_of_false hc' _, hs, hc'⟩

theorem whileM_keeps {P : σ → Prop}
    (hbody : ∀ s, P s → cond s = true → ∀ s', body s = some s' → P s') (hs : P s)
    (h : whileM cond body n s = some s') : P s' ∧ cond s' = false := by
  induction n generalizing s with
  | zero =>
    rw [whileM] at h
    split_ifs at h with hc
    cases h
    exact ⟨hs, by simpa using hc⟩
  | succ n ih =>
    rw [whileM] at h
    split_ifs at h with hc
    · obtain ⟨s₁, h₁, h₂⟩ := Option.bind_eq_some_iff.1 h
      exact ih (hbody s hs hc s₁ h₁) h₂
    · cases h
      exact ⟨hs, by simpa using hc⟩

theorem exists_whileM_iff :
    (∃ n, (whileM cond (fun s => some (f s)) n s).isSome) ↔ ∃ k, cond (f^[k] s) = false := by
  constructor
  · rintro ⟨n, hn⟩
    induction n generalizing s with
    | zero =>
      rw [whileM] at hn
      split_ifs at hn with hc
      · cases hn
      · exact ⟨0, by simpa using hc⟩
    | succ n ih =>
      rw [whileM] at hn
      split_ifs at hn with hc
      · obtain ⟨k, hk⟩ := ih hn
        exact ⟨k + 1, hk⟩
      · exact ⟨0, by simpa using hc⟩
  · rintro ⟨k, hk⟩
    refine ⟨k, ?_⟩
    induction k generalizing s with
    | zero =>
      have hs : cond s = false := hk
      rw [whileM_of_false hs]
      rfl
    | succ k ih =>
      rw [whileM]
      split_ifs with hc
      · exact ih hk
      · rfl

/-- Two loops in step, each with what comes after it.  Where a pass of the first ends the process, the
second may go on to a state from which it does not return. -/
theorem whileM_bind_rel {τ α β : Type*} {cond' : τ → Bool} {body' : τ → Option τ}
    {fin : σ → Option α} {fin' : τ → Option β} {R : σ → τ → Prop} {Q : α → β → Prop}
    (Dead : τ → Prop) (hcond : ∀ s t, R s t → cond s = cond' t)
    (hstep : ∀ s t, R s t → ∀ s₁, body s = some s₁ → ∃ t₁, body' t = some t₁ ∧ R s₁ t₁)
    (hstop : ∀ s t, R s t → body s = none → ∀ t₁, body' t = some t₁ → Dead t₁)
    (hdead : ∀ t, Dead t → body' t = none ∧ fin' t = none)
    (hfin : ∀ s t, R s t → Option.Rel Q (fin s) (fin' t)) (n : ℕ) {t : τ} (h : R s t) :
    Option.Rel Q ((whileM cond body n s).bind fin) ((whileM cond' body' n t).bind fin') := by
  have hnone : ∀ (n : ℕ) (t : τ), Dead t → (whileM cond' body' n t).bind fin' = none := by
    intro n t ht
    obtain ⟨hb, hf⟩ := hdead t ht
    cases n with
    | zero =>
      rw [whileM]
      split_ifs
      · rfl
      · exact hf
    | succ n =>
      rw [whileM, hb]
      split_ifs
      · rfl
      · exact hf
  induction n generalizing s t with
  | zero =>
    rw [whileM, whileM, hcond s t h]
    split_ifs
    · exact Option.Rel.none
    · exact hfin s t h
  | succ n ih =>
    rw [whileM, whileM, hcond s t h]
    split_ifs
    · cases hs : body s with
      | some s₁ =>
        obtain ⟨t₁, ht₁, h₁⟩ := hstep s t h s₁ hs
        rw [ht₁]
        exact ih h₁
      | none =>
        -- the second loop notices in the next pass, or after the last one
        have hn : ((body' t).bind (whileM cond' body' n)).bind fin' = none := by
          cases ht : body' t with
          | none => rfl
          | some t₁ => exact hnone n t₁ (hstop s t h hs t₁ ht)
        rw [hn]
        exact Option.Rel.none
    · exact hfin s t h

end DiskANNEval.Lib
