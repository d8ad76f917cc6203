import Mathlib.Data.List.Basic
import Mathlib.Data.Option.Basic
import Mathlib.Data.List.Forall2
import Mathlib.Data.List.Induction

/-!
# Lib.Loops — loops that may end the process

`mapM` and `foldlM` in `Option`: what a loop over a list has collected, and what its body keeps.
-/

namespace DiskANNEval.Lib

open List Option

variable {α β : Type*}

variable {f : α → Option β} {l : List α}

theorem mapM_eq_some_map {g : α → β} (h : ∀ a ∈ l, f a = some (g a)) :
    l.mapM f = some (l.map g) := by
  induction l with
  | nil => rfl
  | cons a l ih =>
    rw [forall_mem_cons] at h
    rw [mapM_cons, h.1, ih h.2]
    rfl

variable {r : List β}

theorem exists_of_mapM_cons {a : α} (h : (a :: l).mapM f = some r) :
    ∃ b r', f a = some b ∧ l.mapM f = some r' ∧ r = b :: r' := by
  rw [mapM_cons, bind_eq_bind, bind_eq_some_iff] at h
  obtain ⟨b, hb, h⟩ := h
  rw [bind_eq_bind, bind_eq_some_iff] at h
  obtain ⟨r', hr', h⟩ := h
  exact ⟨b, r', hb, hr', (Option.some.inj h).symm⟩

theorem forall₂_of_mapM (h : l.mapM f = some r) : Forall₂ (fun a b => f a = some b) l r := by
  induction l generalizing r with
  | nil =>
    cases h
    exact .nil
  | cons a l ih =>
    obtain ⟨b, r', hb, hr', rfl⟩ := exists_of_mapM_cons h
    exact .cons hb (ih hr')

theorem length_of_mapM (h : l.mapM f = some r) :
    l.length = r.length := (forall₂_of_mapM h).length_eq

variable {b : β}

theorem exists_of_mem_mapM (h : l.mapM f = some r) (hb : b ∈ r) : ∃ a ∈ l, f a = some b := by
  have hall := forall₂_of_mapM h
  clear h
  induction hall with
  | nil => exact absurd hb not_mem_nil
  | cons hab _ ih =>
    obtain rfl | hb := mem_cons.1 hb
    · exact ⟨_, mem_cons_self, hab⟩
    · obtain ⟨a, ha, hf⟩ := ih hb
      exact ⟨a, mem_cons_of_mem _ ha, hf⟩

theorem getElem?_of_mapM (h : l.mapM f = some r) {k : ℕ} {a : α} (hk : l[k]? = some a) :
    ∃ b, r[k]? = some b ∧ f a = some b := by
  have hall := forall₂_of_mapM h
  clear h
  induction hall generalizing k with
  | nil => exact absurd hk (by simp)
  | cons hab _ ih =>
    cases k with
    | zero =>
      cases hk
      exact ⟨_, rfl, hab⟩
    | succ k => exact ih hk

theorem exists_mapM (h : ∀ a ∈ l, ∃ b, f a = some b) : ∃ r, l.mapM f = some r := by
  induction l with
  | nil => exact ⟨[], rfl⟩
  | cons a l ih =>
    obtain ⟨b, hb⟩ := h a mem_cons_self
    obtain ⟨r, hr⟩ := ih fun a' ha => h a' (mem_cons_of_mem a ha)
    refine ⟨b :: r, ?_⟩
    rw [mapM_cons, hb, hr]
    rfl

theorem mapM_range_eq_some {f : ℕ → Option β} {n : ℕ} {l : List β}
    (h : (List.range n).mapM f = some l) : l.length = n ∧ ∀ i < n, l[i]? = f i := by
  induction n generalizing l with
  | zero =>
    cases h
    exact ⟨rfl, fun i hi => absurd hi (Nat.not_lt_zero i)⟩
  | succ n ih =>
    rw [range_succ, mapM_append] at h
    obtain ⟨l₁, hl₁, h⟩ := bind_eq_some_iff.mp h
    obtain ⟨l₂, hl₂, h⟩ := bind_eq_some_iff.mp h
    obtain ⟨a, ha, hl₂⟩ := bind_eq_some_iff.mp hl₂
    cases hl₂
    cases h
    obtain ⟨hlen, hall⟩ := ih hl₁
    refine ⟨by simp [hlen], ?_⟩
    intro i hi
    by_cases heq : i = n
    · subst heq
      rw [getElem?_append_right (by omega), hlen, Nat.sub_self, ha]
      rfl
    · rw [getElem?_append_left (by omega), hall i (by omega)]

theorem mapM_range_of_getElem? {f : ℕ → Option β} {l : List β}
    (h : ∀ i < l.length, f i = l[i]?) : (List.range l.length).mapM f = some l := by
  induction l using reverseRecOn with
  | nil => rfl
  | append_singleton l a ih =>
    have hl : (List.range l.length).mapM f = some l := by
      apply ih
      intro i hi
      rw [h i (by rw [length_append]; omega), getElem?_append_left hi]
    have ha : f l.length = some a := by
      rw [h l.length (by simp), getElem?_append_right (Nat.le_refl _), Nat.sub_self]
      rfl
    rw [length_append, length_singleton, range_succ, mapM_append, hl,
      mapM_cons, ha]
    rfl

theorem foldlM_keeps {P : β → Prop} {f : β → α → Option β} {b' : β} (hb : P b)
    (hf : ∀ b, P b → ∀ a ∈ l, ∀ b', f b a = some b' → P b') (h : l.foldlM f b = some b') :
    P b' := by
  induction l generalizing b with
  | nil =>
    cases h
    exact hb
  | cons a l ih =>
    rw [foldlM_cons, bind_eq_bind, bind_eq_some_iff] at h
    obtain ⟨b₁, h₁, h⟩ := h
    exact ih (hf b hb a mem_cons_self b₁ h₁)
      (fun b hb a ha => hf b hb a (mem_cons_of_mem _ ha)) h

theorem foldlM_ok_keeps {ε : Type*} {P : β → Prop} {f : β → α → Except ε β} {b' : β} (hb : P b)
    (hf : ∀ b, P b → ∀ a ∈ l, ∀ b', f b a = .ok b' → P b') (h : l.foldlM f b = .ok b') : P b' := by
  induction l generalizing b with
  | nil =>
    cases h
    exact hb
  | cons a l ih =>
    rw [foldlM_cons] at h
    cases hfa : f b a with
    | error e =>
      rw [hfa] at h
      exact nomatch h
    | ok b1 =>
      rw [hfa] at h
      exact ih (hf b hb a mem_cons_self b1 hfa)
        (fun b hb a' ha => hf b hb a' (mem_cons_of_mem a ha)) h

theorem exists_of_map_eq_ok {ε : Type*} {f : α → β} {x : Except ε α} (h : x.map f = .ok b) :
    ∃ a, x = .ok a ∧ b = f a := by
  cases x with
  | error e => cases h
  | ok a =>
    cases h
    exact ⟨a, rfl, rfl⟩

/-! ### Loops with a condition on each step -/

/-- Each step of the loop meets a condition on the state before it. -/
def StepsMeet (P : β → α → Prop) (f : β → α → β) : List α → β → Prop
  | [], _ => True
  | a :: l, b => P b a ∧ StepsMeet P f l (f b a)

theorem StepsMeet.keeps {P : β → α → Prop} {I : β → Prop} {f : β → α → β} (h : StepsMeet P f l b)
    (hf : ∀ b, I b → ∀ a ∈ l, P b a → I (f b a)) (hb : I b) : I (l.foldl f b) := by
  induction l generalizing b with
  | nil => exact hb
  | cons a l ih =>
    exact ih h.2 (fun b hb a' ha => hf b hb a' (mem_cons_of_mem a ha))
      (hf b hb a mem_cons_self h.1)

theorem foldl_of_not_stepsMeet {P : β → α → Prop} {I : β → Prop} {f : β → α → β}
    (h : ¬ StepsMeet P f l b) (hkeep : ∀ b a, I b → I (f b a))
    (hbad : ∀ b, ∀ a ∈ l, ¬ P b a → I (f b a)) : I (l.foldl f b) := by
  induction l generalizing b with
  | nil => exact absurd trivial h
  | cons a l ih =>
    by_cases ha : P b a
    · exact ih (fun hl => h ⟨ha, hl⟩) fun b a' ha' => hbad b a' (mem_cons_of_mem a ha')
    · exact foldlRecOn l f (hbad b a mem_cons_self ha) fun b hb a' _ => hkeep b a' hb

end DiskANNEval.Lib
