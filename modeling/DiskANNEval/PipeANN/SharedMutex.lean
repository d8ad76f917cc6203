import DiskANNEval.Lib.Run
import Mathlib

/-!
# SharedMutex — `ReaderOptSharedMutex`, the lock of the resized maps

A reader takes one of the `N` mutexes, that of its `idx`, and a writer takes all of them, from the
first to the last, and gives them back in the same order.  Each access to a mutex is a step of its
own, and the steps of the threads interleave in any order.

`Excludes` is what the arrays that are resized under the lock rely on.  A writer in the loop of
`lock` has the mutexes it has passed, so only one has passed the first, and from then on it waits
for readers, and for a writer that is giving its mutexes back.
-/

namespace DiskANNEval.PipeANN.SharedMutex

open Lib Function Finset

/-- Where a thread is: inside `lock_shared`, between it and `unlock_shared`, inside the loop of
`lock` at mutex `i`, between it and `unlock`, inside the loop of `unlock`. -/
inductive Pc (n : ℕ)
  | idle
  | lockShared (i : Fin n)
  | reading (i : Fin n)
  | lock (i : Fin n)
  | writing
  | unlock (i : Fin n)
  deriving DecidableEq

/-- The mutexes, and the threads. -/
structure State (Θ : Type) (n : ℕ) where
  exclusive : Fin n → Bool
  shared : Fin n → ℕ
  pc : Θ → Pc n

inductive Act (Θ : Type)
  | lockShared (t : Θ) (idx : ℕ)
  | unlockShared (t : Θ)
  | lock (t : Θ)
  | unlock (t : Θ)
  | run (t : Θ)

variable {Θ : Type} [DecidableEq Θ] {n : ℕ}

def State.setPc (s : State Θ n) (t : Θ) (pc : Pc n) : State Θ n :=
  { s with pc := update s.pc t pc }

/-- The loops go on with the next mutex. -/
def next (i : Fin n) (again : Fin n → Pc n) (done : Pc n) : Pc n :=
  if h : i + 1 < n then again ⟨i + 1, h⟩ else done

/-- `none`: the thread waits for a mutex, or has nothing to run. -/
def runStep (s : State Θ n) (t : Θ) : Option (State Θ n) :=
  match s.pc t with
  | .lockShared i =>
    if s.exclusive i = false then
      some ({ s with shared := update s.shared i (s.shared i + 1) }.setPc t (.reading i))
    else none
  | .lock i =>
    if s.exclusive i = false ∧ s.shared i = 0 then
      some ({ s with exclusive := update s.exclusive i true }.setPc t (next i .lock .writing))
    else none
  | .unlock i =>
    some ({ s with exclusive := update s.exclusive i false }.setPc t (next i .unlock .idle))
  | _ => none

/-- A reader gives back the mutex of the `idx` it has locked with. -/
def step [NeZero n] (s : State Θ n) : Act Θ → Option (State Θ n)
  | .lockShared t idx =>
    if s.pc t = .idle then some (s.setPc t (.lockShared (Fin.ofNat n idx))) else none
  | .unlockShared t =>
    match s.pc t with
    | .reading i =>
      some ({ s with shared := update s.shared i (s.shared i - 1) }.setPc t .idle)
    | _ => none
  | .lock t => if s.pc t = .idle then some (s.setPc t (.lock 0)) else none
  | .unlock t => if s.pc t = .writing then some (s.setPc t (.unlock 0)) else none
  | .run t => runStep s t

def Init (s : State Θ n) : Prop := s = ⟨fun _ => false, fun _ => 0, fun _ => .idle⟩

/-- The mutexes a thread has for itself. -/
def Pc.Holds : Pc n → Fin n → Prop
  | .lock j, i => i < j
  | .writing, _ => True
  | .unlock j, i => j ≤ i
  | _, _ => False

def Pc.reads : Pc n → Fin n → ℕ
  | .reading j, i => if i = j then 1 else 0
  | _, _ => 0

theorem holds_next_lock (i j : Fin n) :
    (next i Pc.lock .writing).Holds j ↔ (Pc.lock i).Holds j ∨ j = i := by
  rw [next]
  split_ifs with h
  · show j.val < i + 1 ↔ j.val < i ∨ j = i
    rw [Nat.lt_succ_iff_lt_or_eq, Fin.ext_iff]
  · have hi : i.val + 1 = n := le_antisymm i.isLt (Nat.not_lt.1 h)
    simp only [Pc.Holds, true_iff, Fin.lt_def, Fin.ext_iff]
    omega

theorem holds_next_unlock (i j : Fin n) :
    (next i Pc.unlock .idle).Holds j ↔ (Pc.unlock i).Holds j ∧ j ≠ i := by
  rw [next]
  split_ifs with h
  · simp only [Pc.Holds, Fin.le_def, ne_eq, Fin.ext_iff]
    omega
  · refine iff_of_false id fun hj => hj.2 (Fin.ext ?_)
    have hle : i.val ≤ j := hj.1
    omega

theorem reads_next (i j : Fin n) {again : Fin n → Pc n} {done : Pc n}
    (hagain : ∀ k, (again k).reads j = 0) (hdone : done.reads j = 0) :
    (next i again done).reads j = 0 := by
  rw [next]
  split_ifs with h
  · exact hagain _
  · exact hdone

variable [Fintype Θ]

structure Inv (s : State Θ n) : Prop where
  owned : ∀ i, s.exclusive i = true ↔ ∃ t, (s.pc t).Holds i
  once : ∀ i t u, (s.pc t).Holds i → (s.pc u).Holds i → t = u
  readers : ∀ i, s.shared i = ∑ t, (s.pc t).reads i
  apart : ∀ i, s.exclusive i = true → s.shared i = 0

variable {s s' : State Θ n} {t u : Θ} {i : Fin n}

omit [DecidableEq Θ] in
theorem Inv.init : Inv (⟨fun _ => false, fun _ => 0, fun _ => .idle⟩ : State Θ n) := by
  refine ⟨fun i => ?_, fun i t u ht => absurd ht id, fun i => ?_, fun i hi => rfl⟩
  · simp [Pc.Holds]
  · simp [Pc.reads]

theorem sum_reads_update (pc : Θ → Pc n) (t : Θ) (p : Pc n) (i : Fin n) :
    ∑ u, (update pc t p u).reads i + (pc t).reads i = ∑ u, (pc u).reads i + p.reads i := by
  rw [← add_sum_erase _ _ (mem_univ t),
    ← add_sum_erase _ (fun u => (pc u).reads i) (mem_univ t), update_self]
  have hrest : ∑ u ∈ univ.erase t, (update pc t p u).reads i =
      ∑ u ∈ univ.erase t, (pc u).reads i := by
    refine sum_congr rfl fun u hu => ?_
    rw [update_of_ne (ne_of_mem_erase hu)]
  omega

theorem Inv.next (h : Inv s) {p : Pc n} {exclusive : Fin n → Bool} {shared : Fin n → ℕ}
    (htakes : ∀ j, p.Holds j → (s.pc t).Holds j ∨ s.exclusive j = false)
    (hexclusive : ∀ j, exclusive j = true ↔
      (s.exclusive j = true ∧ ¬ (s.pc t).Holds j) ∨ p.Holds j)
    (hshared : ∀ j, shared j + (s.pc t).reads j = s.shared j + p.reads j)
    (hapart : ∀ j, exclusive j = true → shared j = 0) :
    Inv ⟨exclusive, shared, update s.pc t p⟩ := by
  have hother : ∀ u ≠ t, ∀ j, (s.pc u).Holds j → ¬ p.Holds j := by
    intro u hu j hj hp
    rcases htakes j hp with ht | hfree
    · exact hu (h.once j u t hj ht)
    · rw [(h.owned j).2 ⟨u, hj⟩] at hfree
      cases hfree
  refine ⟨fun j => ?_, fun j u v (hu : (update s.pc t p u).Holds j)
    (hv : (update s.pc t p v).Holds j) => ?_, fun j => ?_, hapart⟩
  · show exclusive j = true ↔ ∃ u, (update s.pc t p u).Holds j
    rw [hexclusive j, h.owned j]
    constructor
    · rintro (⟨⟨u, hu⟩, ht⟩ | hp)
      · have hne : u ≠ t := fun he => ht (he ▸ hu)
        exact ⟨u, by rwa [update_of_ne hne]⟩
      · exact ⟨t, by rwa [update_self]⟩
    · rintro ⟨u, hu⟩
      by_cases hne : u = t
      · rw [hne, update_self] at hu
        exact Or.inr hu
      · rw [update_of_ne hne] at hu
        exact Or.inl ⟨⟨u, hu⟩, fun ht => hne (h.once j u t hu ht)⟩
  · by_cases hut : u = t
    · by_cases hvt : v = t
      · rw [hut, hvt]
      · rw [hut, update_self] at hu
        rw [update_of_ne hvt] at hv
        exact absurd hu (hother v hvt j hv)
    · rw [update_of_ne hut] at hu
      by_cases hvt : v = t
      · rw [hvt, update_self] at hv
        exact absurd hv (hother u hut j hu)
      · rw [update_of_ne hvt] at hv
        exact h.once j u v hu hv
  · have hsum := sum_reads_update s.pc t p j
    have hj := hshared j
    rw [h.readers j] at hj
    show shared j = ∑ u, (update s.pc t p u).reads j
    omega

theorem Inv.setPc (h : Inv s) {p : Pc n} (hholds : ∀ j, p.Holds j ↔ (s.pc t).Holds j)
    (hreads : ∀ j, p.reads j = (s.pc t).reads j) : Inv (s.setPc t p) := by
  refine h.next (fun j hj => Or.inl ((hholds j).1 hj)) (fun j => ?_) (fun j => ?_) h.apart
  · rw [hholds j]
    have := (h.owned j).2 ∘ fun ht => ⟨t, ht⟩
    tauto
  · rw [hreads j]

omit [DecidableEq Θ] in
theorem Inv.reading (h : Inv s) (ht : s.pc t = .reading i) :
    0 < s.shared i ∧ s.exclusive i = false := by
  have hpos : 0 < s.shared i := by
    rw [h.readers i]
    refine sum_pos' (fun _ _ => Nat.zero_le _) ⟨t, mem_univ t, ?_⟩
    simp [ht, Pc.reads]
  refine ⟨hpos, Bool.eq_false_of_not_eq_true fun he => ?_⟩
  rw [h.apart i he] at hpos
  exact absurd hpos (lt_irrefl 0)

theorem Inv.runStep (h : Inv s) (hs : runStep s t = some s') : Inv s' := by
  rw [SharedMutex.runStep] at hs
  split at hs
  next i hpc =>
    split_ifs at hs with hfree
    cases hs
    show Inv ⟨s.exclusive, update s.shared i (s.shared i + 1), update s.pc t _⟩
    refine h.next (fun j hj => hj.elim) (fun j => ?_) (fun j => ?_) fun j hj => ?_
    · simp [hpc, Pc.Holds]
    · by_cases hj : j = i
      · simp [hpc, Pc.reads, hj]
      · simp [hpc, Pc.reads, hj]
    · have hji : j ≠ i := fun he => by rw [he, hfree] at hj; cases hj
      rw [update_of_ne hji]
      exact h.apart j hj
  next i hpc =>
    split_ifs at hs with hfree
    cases hs
    show Inv ⟨update s.exclusive i true, s.shared, update s.pc t _⟩
    refine h.next (fun j hj => ?_) (fun j => ?_) (fun j => ?_) fun j hj => ?_
    · rw [hpc]
      rcases (holds_next_lock i j).1 hj with hj | rfl
      · exact Or.inl hj
      · exact Or.inr hfree.1
    · rw [holds_next_lock, hpc]
      by_cases hj : j = i
      · simp [hj]
      · have howned := (h.owned j).2
        rw [update_of_ne hj]
        have := fun hh => howned ⟨t, hpc ▸ hh⟩
        tauto
    · rw [hpc, reads_next i j (fun _ => rfl) rfl]
      rfl
    · by_cases hji : j = i
      · rw [hji]
        exact hfree.2
      · rw [update_of_ne hji] at hj
        exact h.apart j hj
  next i hpc =>
    cases hs
    show Inv ⟨update s.exclusive i false, s.shared, update s.pc t _⟩
    refine h.next (fun j hj => ?_) (fun j => ?_) (fun j => ?_) fun j hj => ?_
    · rw [hpc]
      exact Or.inl ((holds_next_unlock i j).1 hj).1
    · rw [holds_next_unlock, hpc]
      by_cases hj : j = i
      · simp [hj, Pc.Holds]
      · have howned := (h.owned j).2
        rw [update_of_ne hj]
        have := fun hh => howned ⟨t, hpc ▸ hh⟩
        tauto
    · rw [hpc, reads_next i j (fun _ => rfl) rfl]
      rfl
    · have hji : j ≠ i := fun he => by rw [he, update_self] at hj; cases hj
      rw [update_of_ne hji] at hj
      exact h.apart j hj
  next => cases hs

variable [NeZero n]

theorem Inv.step {a : Act Θ} (h : Inv s) (hs : step s a = some s') : Inv s' := by
  cases a with
  | lockShared t idx =>
    rw [SharedMutex.step] at hs
    split_ifs at hs with hpc
    cases hs
    exact h.setPc (fun j => by rw [hpc]; rfl) fun j => by rw [hpc]; rfl
  | unlockShared t =>
    rw [SharedMutex.step] at hs
    split at hs
    next i hpc =>
      cases hs
      obtain ⟨hpos, hfree⟩ := h.reading hpc
      show Inv ⟨s.exclusive, update s.shared i (s.shared i - 1), update s.pc t _⟩
      refine h.next (fun j hj => hj.elim) (fun j => ?_) (fun j => ?_) fun j hj => ?_
      · simp [hpc, Pc.Holds]
      · by_cases hj : j = i
        · simp only [hpc, Pc.reads, hj, update_self, if_true]
          omega
        · simp [hpc, Pc.reads, hj]
      · have hji : j ≠ i := fun he => by rw [he, hfree] at hj; cases hj
        rw [update_of_ne hji]
        exact h.apart j hj
    next => cases hs
  | lock t =>
    rw [SharedMutex.step] at hs
    split_ifs at hs with hpc
    cases hs
    refine h.setPc (fun j => ?_) fun j => by rw [hpc]; rfl
    rw [hpc]
    exact iff_of_false (Nat.not_lt_zero j ∘ Fin.lt_def.1) id
  | unlock t =>
    rw [SharedMutex.step] at hs
    split_ifs at hs with hpc
    cases hs
    refine h.setPc (fun j => ?_) fun j => by rw [hpc]; rfl
    rw [hpc]
    exact iff_of_true (Fin.zero_le j) trivial
  | run t => exact h.runStep hs

/-- What the lock gives to the threads that use it. -/
structure Excludes (s : State Θ n) : Prop where
  writerAlone : ∀ t, s.pc t = .writing → ∀ u ≠ t, s.pc u ≠ .writing ∧ ∀ i, s.pc u ≠ .reading i
  unlocksOwn : ∀ t i, s.pc t = .unlock i → s.exclusive i = true
  unlocksShared : ∀ t i, s.pc t = .reading i → 0 < s.shared i
  oneWriterPasses : ∀ t i, s.pc t = .lock i → 0 < i → s.exclusive i = true →
    ∃ u j, s.pc u = .unlock j ∧ j ≤ i
  goesOn : (∀ t, s.pc t ≠ .writing ∧ ∀ i, s.pc t ≠ .reading i) → (∃ t, s.pc t ≠ .idle) →
    ∃ t, (step s (.run t)).isSome = true

omit [DecidableEq Θ] in
/-- Whoever has a mutex that a writer past the first waits for is giving it back. -/
theorem Inv.unlocking (h : Inv s) (ht : s.pc t = .lock i) (hi : 0 < i) (he : s.exclusive i = true) :
    ∃ u j, s.pc u = .unlock j ∧ j ≤ i := by
  obtain ⟨u, hu⟩ := (h.owned i).1 he
  have ht0 : (s.pc t).Holds 0 := by
    rw [ht]
    exact hi
  have hne : ¬ (s.pc t).Holds i := by
    rw [ht]
    exact lt_irrefl i
  cases hpc : s.pc u with
  | unlock j => exact ⟨u, j, hpc, by rwa [hpc] at hu⟩
  | lock j =>
    have hu0 : (s.pc u).Holds 0 := by
      rw [hpc] at hu ⊢
      exact hi.trans hu
    exact absurd (h.once 0 u t hu0 ht0 ▸ hu) hne
  | writing =>
    have hu0 : (s.pc u).Holds 0 := by
      rw [hpc]
      trivial
    exact absurd (h.once 0 u t hu0 ht0 ▸ hu) hne
  | idle | lockShared j | reading j =>
    rw [hpc] at hu
    exact hu.elim

omit [DecidableEq Θ] [NeZero n] in
theorem Inv.shared_eq_zero (h : Inv s) (hno : ∀ t i, s.pc t ≠ .reading i) (i : Fin n) :
    s.shared i = 0 := by
  rw [h.readers i]
  refine sum_eq_zero fun t _ => ?_
  cases hpc : s.pc t with
  | reading j => exact absurd hpc (hno t j)
  | _ => rfl

/-- When nobody is between `lock` and `unlock`, someone gets on. -/
theorem Inv.goesOn (h : Inv s) (hno : ∀ t, s.pc t ≠ .writing ∧ ∀ i, s.pc t ≠ .reading i)
    (ht : s.pc t ≠ .idle) : ∃ t, (SharedMutex.step s (.run t)).isSome = true := by
  have hshared := h.shared_eq_zero fun t => (hno t).2
  by_cases hunlock : ∃ u j, s.pc u = .unlock j
  · obtain ⟨u, j, hu⟩ := hunlock
    exact ⟨u, by simp [SharedMutex.step, SharedMutex.runStep, hu]⟩
  by_cases hpast : ∃ u i, s.pc u = .lock i ∧ 0 < i
  · obtain ⟨u, i, hu, hi⟩ := hpast
    have hfree : s.exclusive i = false := Bool.eq_false_of_not_eq_true fun he =>
      hunlock ((h.unlocking hu hi he).imp fun u hu => hu.imp fun j hj => hj.1)
    exact ⟨u, by simp [SharedMutex.step, SharedMutex.runStep, hu, hfree, hshared]⟩
  -- nobody has a mutex
  have hfree : ∀ i, s.exclusive i = false := by
    refine fun i => Bool.eq_false_of_not_eq_true fun he => ?_
    obtain ⟨u, hu⟩ := (h.owned i).1 he
    cases hpc : s.pc u with
    | lock j =>
      rw [hpc] at hu
      exact hpast ⟨u, j, hpc, (Fin.zero_le i).trans_lt hu⟩
    | writing => exact (hno u).1 hpc
    | unlock j => exact hunlock ⟨u, j, hpc⟩
    | idle | lockShared j | reading j =>
      rw [hpc] at hu
      exact hu.elim
  refine ⟨t, ?_⟩
  cases hpc : s.pc t with
  | idle => exact absurd hpc ht
  | lockShared i => simp [SharedMutex.step, SharedMutex.runStep, hpc, hfree]
  | lock i => simp [SharedMutex.step, SharedMutex.runStep, hpc, hfree, hshared]
  | reading i => exact absurd hpc ((hno t).2 i)
  | writing => exact absurd hpc (hno t).1
  | unlock i => exact absurd ⟨t, i, hpc⟩ hunlock

theorem inv_of_reach (h : Reach Init (ofFn step) s) : Inv s := by
  refine Reach.invariant ?_ (fun s a s' hs hstep => hs.step hstep) h
  rintro s rfl
  exact Inv.init

/-- Thread 0 reads, thread 1 locks, thread 2 waits for the first mutex and thread 0 comes back. -/
def readWriteRead : List (Act (Fin 3)) :=
  [.lockShared 0 5, .run 0, .lock 1, .run 1, .lock 2, .unlockShared 0, .run 1, .lockShared 0 7]

end DiskANNEval.PipeANN.SharedMutex
