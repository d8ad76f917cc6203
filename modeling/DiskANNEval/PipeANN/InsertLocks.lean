import DiskANNEval.Lib.Run
import DiskANNEval.PipeANN.LockTable
import Mathlib.Data.List.Sort

/-!
# InsertLocks — the vector locks of concurrent `insert_in_place` calls

Each call locks its neighbours and its target one after the other (`lock_vec`), writes its pages,
commits, and unlocks (`unlock_vec`).  Before the commit the target is appended to the
neighbour vector, so `unlock_vec` unlocks the target twice: first as the target and last as an
element of the vector.  The second unlock does nothing unless another call has taken the lock of
that id in between, and then it takes that lock away.

The page locks are left out: calls that write to different pages do not wait for each other there.
-/

namespace DiskANNEval.PipeANN.InsertLocks

open Lib List Function

/-- The ids `lock_vec` locks, in order. -/
def lockIds (target : ℕ) (neighbors : List ℕ) : List ℕ :=
  (neighbors ++ [target]).insertionSort (· ≤ ·)

/-- The ids `unlock_vec` unlocks, in order. -/
def unlockIds (target : ℕ) (neighbors : List ℕ) : List ℕ := target :: neighbors

/-- Where a call is.  `written`: its pages are in the cache, so searches can find its target. -/
inductive Pc
  | idle
  | searching
  | locking (todo : List ℕ)
  | written
  | unlocking (todo : List ℕ)
  | done

/-- A call with its `target_id` and its neighbours; `acquired` and `released` record the locks it
took, and the locks its unlocks released. -/
structure Call where
  pc : Pc
  target : ℕ
  nhood : List ℕ
  acquired : List ℕ
  released : List ℕ

namespace Call

def Started (c : Call) : Prop := c.pc ≠ .idle

def Holds (c : Call) (id : ℕ) : Prop := id ∈ c.acquired ∧ id ∉ c.released

/-- The first unlock of the target has been made and the second has not. -/
def BetweenUnlocks (c : Call) : Prop :=
  ∃ todo, c.pc = .unlocking todo ∧ todo ≠ [] ∧ todo.length ≤ c.nhood.length + 1

end Call

/-- `curId` is the next target.  A search can return the ids below `npoints`, which are in the
index from the start, and the `published` ones, whose calls have written their pages. -/
structure State (ι : Type) where
  npoints : ℕ
  curId : ℕ
  published : List ℕ
  locks : LockTable ℕ
  calls : ι → Call

variable {ι : Type} [DecidableEq ι]

def State.setCall (s : State ι) (i : ι) (c : Call) : State ι :=
  { s with calls := Function.update s.calls i c }

inductive Act (ι : Type)
  | start (i : ι)
  | lockVec (i : ι) (nhood : List ℕ)
  | acquire (i : ι)
  | write (i : ι)
  | commit (i : ι)
  | unlock (i : ι)
  | finish (i : ι)

/-- One step of one call; `none`: the call is not there, or waits for the lock. -/
def step (s : State ι) : Act ι → Option (State ι)
  | .start i =>
    match (s.calls i).pc with
    | .idle => some ({ s with curId := s.curId + 1 }.setCall i ⟨.searching, s.curId, [], [], []⟩)
    | _ => none
  | .lockVec i nhood =>
    match (s.calls i).pc with
    | .searching =>
      if ∀ id ∈ nhood, id < s.npoints ∨ id ∈ s.published then
        some (s.setCall i { s.calls i with
          pc := .locking (lockIds (s.calls i).target nhood), nhood })
      else none
    | _ => none
  | .acquire i =>
    match (s.calls i).pc with
    | .locking (id :: todo) =>
      match s.locks.trywrlock id with
      | (locks, true) =>
        some ({ s with locks }.setCall i { s.calls i with
          pc := .locking todo, acquired := (s.calls i).acquired ++ [id] })
      | (_, false) => none
    | _ => none
  | .write i =>
    match (s.calls i).pc with
    | .locking [] =>
      some ({ s with published := (s.calls i).target :: s.published }.setCall i
        { s.calls i with pc := .written })
    | _ => none
  | .commit i =>
    match (s.calls i).pc with
    | .written =>
      -- `new_nhood.push_back(target_id)` comes before `unlock_vec`
      some (s.setCall i { s.calls i with
        pc := .unlocking (unlockIds (s.calls i).target
          ((s.calls i).nhood ++ [(s.calls i).target])) })
    | _ => none
  | .unlock i =>
    match (s.calls i).pc with
    | .unlocking (id :: todo) =>
      match s.locks.unlock id with
      | none => none
      | some locks =>
        some ({ s with locks }.setCall i { s.calls i with
          pc := .unlocking todo
          released := (s.calls i).released ++ if (s.locks id).isSome then [id] else [] })
    | _ => none
  | .finish i =>
    match (s.calls i).pc with
    | .unlocking [] => some (s.setCall i { s.calls i with pc := .done })
    | _ => none

/-- The index with `npoints` points and no call under way. -/
def State.init (npoints : ℕ) : State ι :=
  ⟨npoints, npoints, [], fun _ => none, fun _ => ⟨.idle, 0, [], [], []⟩⟩

def Init (s : State ι) : Prop := ∃ npoints, s = .init npoints

/-- Each call releases only locks it took, each once, and in the end all of them; a lock is held
by one call at most, and the table has it locked. -/
structure LocksOk (s : State ι) : Prop where
  released_once : ∀ i, (s.calls i).released.Nodup
  released_own : ∀ i, ∀ id ∈ (s.calls i).released, id ∈ (s.calls i).acquired
  released_all : ∀ i, (s.calls i).pc = .done →
    (s.calls i).released.Perm (s.calls i).acquired
  exclusive : ∀ i j id, (s.calls i).Holds id → (s.calls j).Holds id → i = j
  held_locked : ∀ i id, (s.calls i).Holds id → s.locks id = some LockTable.written

/-- No call takes the lock of another call's target between the two unlocks of that target. -/
def NotBetween (s : State ι) : Act ι → Prop
  | .acquire i => ∀ j id todo, (s.calls i).pc = .locking (id :: todo) →
      (s.calls j).BetweenUnlocks → id ≠ (s.calls j).target
  | _ => True

/-! ### The invariant -/

/-- How far a call has got with its locks. -/
def CallOk (c : Call) : Prop :=
  match c.pc with
  | .idle | .searching => c.acquired = [] ∧ c.released = []
  | .locking todo =>
    c.acquired ++ todo = lockIds c.target c.nhood ∧ c.acquired.Nodup ∧ c.released = []
  | .written => c.acquired = lockIds c.target c.nhood ∧ c.acquired.Nodup ∧ c.released = []
  | .unlocking todo => c.acquired = lockIds c.target c.nhood ∧ c.acquired.Nodup ∧
      ∃ made, unlockIds c.target (c.nhood ++ [c.target]) = made ++ todo ∧
        c.released = made.take (c.nhood.length + 1)
  | .done => c.acquired = lockIds c.target c.nhood ∧ c.acquired.Nodup ∧
      c.released = c.target :: c.nhood

structure Inv (s : State ι) : Prop where
  target_lt : ∀ i, (s.calls i).Started → (s.calls i).target < s.curId
  target_inj : ∀ i j, (s.calls i).Started → (s.calls j).Started →
    (s.calls i).target = (s.calls j).target → i = j
  callOk : ∀ i, CallOk (s.calls i)
  exclusive : ∀ i j id, (s.calls i).Holds id → (s.calls j).Holds id → i = j
  held_locked : ∀ i id, (s.calls i).Holds id → s.locks id = some LockTable.written
  locked_held : ∀ id, s.locks id ≠ none → ∃ i, (s.calls i).Holds id
  between : ∀ i, (s.calls i).BetweenUnlocks → s.locks (s.calls i).target = none

variable {s s' : State ι}

omit [DecidableEq ι] in
theorem Inv.publish (h : Inv s) (published : List ℕ) : Inv { s with published } := { h with }

variable {i : ι} {c : Call} {locks : LockTable ℕ}

theorem Inv.setCall (h : Inv s) {curId : ℕ} (hcur : s.curId ≤ curId)
    (hlt : c.Started → c.target < curId)
    (hne : ∀ j, j ≠ i → c.Started → (s.calls j).Started → (s.calls j).target ≠ c.target)
    (hok : CallOk c) (hexcl : ∀ j, j ≠ i → ∀ id, (s.calls j).Holds id → ¬ c.Holds id)
    (hheld : ∀ id, c.Holds id → locks id = some LockTable.written)
    (hheld' : ∀ j, j ≠ i → ∀ id, (s.calls j).Holds id → locks id = some LockTable.written)
    (hlocked : ∀ id, locks id ≠ none → c.Holds id ∨ ∃ j, j ≠ i ∧ (s.calls j).Holds id)
    (hbetween : c.BetweenUnlocks → locks c.target = none)
    (hbetween' : ∀ j, j ≠ i → (s.calls j).BetweenUnlocks → locks (s.calls j).target = none) :
    Inv (State.setCall { s with curId, locks } i c) := by
  have hself : (State.setCall { s with curId, locks } i c).calls i = c := update_self ..
  have hother : ∀ j, j ≠ i → (State.setCall { s with curId, locks } i c).calls j = s.calls j :=
    fun j hj => update_of_ne hj ..
  refine ⟨fun j => ?_, fun j k => ?_, fun j => ?_, fun j k id => ?_, fun j id => ?_,
    fun id hid => ?_, fun j => ?_⟩
  · by_cases hj : j = i
    · rw [hj, hself]
      exact hlt
    · rw [hother j hj]
      exact fun hs => lt_of_lt_of_le (h.target_lt j hs) hcur
  · by_cases hj : j = i
    · by_cases hk : k = i
      · exact fun _ _ _ => hj.trans hk.symm
      · rw [hj, hself, hother k hk]
        exact fun h1 h2 he => absurd he.symm (hne k hk h1 h2)
    · by_cases hk : k = i
      · rw [hk, hself, hother j hj]
        exact fun h1 h2 he => absurd he (hne j hj h2 h1)
      · rw [hother j hj, hother k hk]
        exact h.target_inj j k
  · by_cases hj : j = i
    · rw [hj, hself]
      exact hok
    · rw [hother j hj]
      exact h.callOk j
  · by_cases hj : j = i
    · by_cases hk : k = i
      · exact fun _ _ => hj.trans hk.symm
      · rw [hj, hself, hother k hk]
        exact fun h1 h2 => absurd h1 (hexcl k hk id h2)
    · by_cases hk : k = i
      · rw [hk, hself, hother j hj]
        exact fun h1 h2 => absurd h2 (hexcl j hj id h1)
      · rw [hother j hj, hother k hk]
        exact h.exclusive j k id
  · by_cases hj : j = i
    · rw [hj, hself]
      exact hheld id
    · rw [hother j hj]
      exact hheld' j hj id
  · rcases hlocked id hid with hc | ⟨j, hj, hc⟩
    · exact ⟨i, by rw [hself]; exact hc⟩
    · exact ⟨j, by rw [hother j hj]; exact hc⟩
  · by_cases hj : j = i
    · rw [hj, hself]
      exact hbetween
    · rw [hother j hj]
      exact hbetween' j hj

theorem Inv.setPc (h : Inv s) (hs : (s.calls i).Started) (ht : c.target = (s.calls i).target)
    (ha : c.acquired = (s.calls i).acquired) (hr : c.released = (s.calls i).released)
    (hok : CallOk c) (hb : ¬ c.BetweenUnlocks) : Inv (s.setCall i c) := by
  have hholds : ∀ id, c.Holds id ↔ (s.calls i).Holds id := fun id => by
    rw [Call.Holds, Call.Holds, ha, hr]
  refine h.setCall le_rfl (fun _ => ?_) (fun j hj _ hsj he => ?_) hok (fun j hj id hh hc => ?_)
    (fun id hc => ?_) (fun j _ id => h.held_locked j id) (fun id hid => ?_)
    (fun hc => absurd hc hb) (fun j _ => h.between j)
  · rw [ht]
    exact h.target_lt i hs
  · exact hj (h.target_inj j i hsj hs (he.trans ht))
  · exact hj (h.exclusive j i id hh ((hholds id).mp hc))
  · exact h.held_locked i id ((hholds id).mp hc)
  · obtain ⟨j, hj⟩ := h.locked_held id hid
    by_cases hji : j = i
    · exact Or.inl ((hholds id).mpr (hji ▸ hj))
    · exact Or.inr ⟨j, hji, hj⟩

theorem notBetween_of_pc (h : ∀ todo, c.pc ≠ .unlocking todo) : ¬ c.BetweenUnlocks :=
  fun ⟨todo, hc, _⟩ => h todo hc

omit [DecidableEq ι] in
theorem Inv.locks_cases (h : Inv s) (id : ℕ) :
    s.locks id = none ∨ s.locks id = some LockTable.written ∧ ∃ i, (s.calls i).Holds id := by
  by_cases hn : s.locks id = none
  · exact Or.inl hn
  · obtain ⟨i, hi⟩ := h.locked_held id hn
    exact Or.inr ⟨h.held_locked i id hi, i, hi⟩

variable {id : ℕ} {todo made : List ℕ}

theorem Inv.acquire (h : Inv s) (hb : NotBetween s (.acquire i))
    (hpc : (s.calls i).pc = .locking (id :: todo)) (hl : s.locks.trywrlock id = (locks, true)) :
    Inv (State.setCall { s with locks } i { s.calls i with
      pc := .locking todo, acquired := (s.calls i).acquired ++ [id] }) := by
  have hok := h.callOk i
  simp only [CallOk, hpc] at hok
  obtain ⟨hids, hnd, hrel⟩ := hok
  have hfree : s.locks id = none := by
    rcases h.locks_cases id with hn | ⟨hw, _⟩
    · exact hn
    · have := LockTable.trywrlock_of_written hw
      rw [hl] at this
      cases this
  rw [LockTable.trywrlock_of_none hfree] at hl
  obtain ⟨rfl, _⟩ := hl
  have hstarted : (s.calls i).Started := by
    rw [Call.Started, hpc]
    exact Pc.noConfusion
  have hnot : ∀ j, ¬ (s.calls j).Holds id := fun j hj => by
    have := h.held_locked j id hj
    rw [hfree] at this
    cases this
  have hfresh : id ∉ (s.calls i).acquired := fun hmem =>
    hnot i ⟨hmem, by rw [hrel]; exact not_mem_nil⟩
  have hholds : ∀ x, Call.Holds { s.calls i with
      pc := .locking todo, acquired := (s.calls i).acquired ++ [id] } x ↔
      (s.calls i).Holds x ∨ x = id := by
    intro x
    simp only [Call.Holds, hrel, not_mem_nil, not_false_eq_true, and_true, mem_append,
      mem_singleton]
  refine h.setCall le_rfl (fun _ => h.target_lt i hstarted)
    (fun j hj _ hsj he => hj (h.target_inj j i hsj hstarted he)) ?_ (fun j hj x hx hc => ?_)
    (fun x hc => ?_) (fun j hj x hx => ?_) (fun x hx => ?_) (fun hc => ?_) (fun j hj hbj => ?_)
  · refine ⟨by rw [append_assoc]; exact hids, ?_, hrel⟩
    refine nodup_append.mpr ⟨hnd, nodup_singleton id, fun a ha b hb => ?_⟩
    rw [mem_singleton.mp hb]
    rintro rfl
    exact hfresh ha
  · rcases (hholds x).mp hc with hc | rfl
    · exact hj (h.exclusive j i x hx hc)
    · exact hnot j hx
  · rcases (hholds x).mp hc with hc | rfl
    · rw [update_of_ne fun he : x = id => hnot i (he ▸ hc)]
      exact h.held_locked i x hc
    · rw [update_self]
  · rw [update_of_ne fun he : x = id => hnot j (he ▸ hx)]
    exact h.held_locked j x hx
  · by_cases hxid : x = id
    · exact Or.inl ((hholds x).mpr (Or.inr hxid))
    · rw [update_of_ne hxid] at hx
      obtain ⟨j, hj⟩ := h.locked_held x hx
      by_cases hji : j = i
      · exact Or.inl ((hholds x).mpr (Or.inl (hji ▸ hj)))
      · exact Or.inr ⟨j, hji, hj⟩
  · exact absurd hc (notBetween_of_pc fun _ => Pc.noConfusion)
  · rw [update_of_ne (hb j id todo hpc hbj).symm]
    exact h.between j hbj

/-! ### Unlocking -/

theorem nodup_of_callOk (h : c.acquired = lockIds c.target c.nhood) (hnd : c.acquired.Nodup) :
    (c.target :: c.nhood).Nodup := by
  have hperm : c.acquired.Perm (c.target :: c.nhood) := by
    rw [h]
    exact (perm_insertionSort _ _).trans perm_append_comm
  exact hperm.nodup_iff.mp hnd

/-- A prefix of the unlocks without the last one goes through the target and the neighbours. -/
theorem prefix_unlockIds {target : ℕ} {nhood : List ℕ}
    (h : made <+: unlockIds target (nhood ++ [target])) (hlen : made.length ≤ nhood.length + 1) :
    made <+: target :: nhood :=
  prefix_of_prefix_length_le h ⟨[target], rfl⟩ hlen

theorem made_prefix {target : ℕ} {nhood : List ℕ}
    (hmade : unlockIds target (nhood ++ [target]) = made ++ id :: todo)
    (hlen : made.length ≤ nhood.length) : ∃ rest, target :: nhood = made ++ id :: rest := by
  obtain ⟨rest, hrest⟩ : made ++ [id] <+: target :: nhood :=
    prefix_unlockIds ⟨todo, by rw [hmade, append_assoc]; rfl⟩ (by simpa using hlen)
  exact ⟨rest, by rw [← hrest, append_assoc]; rfl⟩

/-- An unlock that is not the last one of its call releases a lock the call holds. -/
theorem Inv.unlock_held (h : Inv s) (hpc : (s.calls i).pc = .unlocking (id :: todo))
    (hl : s.locks.unlock id = some locks)
    (hmade : unlockIds (s.calls i).target ((s.calls i).nhood ++ [(s.calls i).target]) = made ++ id :: todo)
    (hrel : (s.calls i).released = made) (hlen : made.length ≤ (s.calls i).nhood.length) :
    Inv (State.setCall { s with locks } i { s.calls i with
      pc := .unlocking todo
      released := (s.calls i).released ++ if (s.locks id).isSome then [id] else [] }) := by
  have hok := h.callOk i
  simp only [CallOk, hpc] at hok
  obtain ⟨hids, hnd, _⟩ := hok
  obtain ⟨rest, hrest⟩ := made_prefix hmade hlen
  have hnodup := nodup_of_callOk hids hnd
  have hheld : (s.calls i).Holds id := by
    refine ⟨?_, ?_⟩
    · rw [hids, lockIds, (perm_insertionSort _ _).mem_iff, mem_append, or_comm,
        mem_singleton, ← mem_cons, hrest]
      exact mem_append_right _ mem_cons_self
    · rw [hrel]
      rw [hrest, nodup_append] at hnodup
      exact fun hm => hnodup.2.2 id hm id mem_cons_self rfl
  have hw := h.held_locked i id hheld
  rw [LockTable.unlock_of_written hw, Option.some.injEq] at hl
  subst hl
  have hstarted : (s.calls i).Started := by
    rw [Call.Started, hpc]
    exact Pc.noConfusion
  rw [hw]
  have hholds : ∀ x, Call.Holds { s.calls i with
      pc := .unlocking todo, released := (s.calls i).released ++ [id] } x ↔
      (s.calls i).Holds x ∧ x ≠ id := by
    intro x
    simp only [Call.Holds, mem_append, mem_singleton, not_or, and_assoc]
  refine h.setCall le_rfl (fun _ => h.target_lt i hstarted)
    (fun j hj _ hsj he => hj (h.target_inj j i hsj hstarted he)) ?_ (fun j hj x hx hc => ?_)
    (fun x hc => ?_) (fun j hj x hx => ?_) (fun x hx => ?_) (fun hc => ?_) (fun j hj hbj => ?_)
  · refine ⟨hids, hnd, made ++ [id], ?_, ?_⟩
    · rw [append_assoc]
      exact hmade
    · rw [take_of_length_le (by simpa using hlen)]
      show (s.calls i).released ++ [id] = _
      rw [hrel]
  · exact hj (h.exclusive j i x hx ((hholds x).mp hc).1)
  · obtain ⟨hc, hne⟩ := (hholds x).mp hc
    rw [update_of_ne hne]
    exact h.held_locked i x hc
  · rw [update_of_ne fun he : x = id => hj (h.exclusive j i id (he ▸ hx) hheld)]
    exact h.held_locked j x hx
  · have hxid : x ≠ id := by
      rintro rfl
      rw [update_self] at hx
      exact hx rfl
    rw [update_of_ne hxid] at hx
    obtain ⟨j, hj⟩ := h.locked_held x hx
    by_cases hji : j = i
    · exact Or.inl ((hholds x).mpr ⟨hji ▸ hj, hxid⟩)
    · exact Or.inr ⟨j, hji, hj⟩
  · by_cases hid : (s.calls i).target = id
    · show Function.update s.locks id none (s.calls i).target = none
      rw [hid, update_self]
    · show Function.update s.locks id none (s.calls i).target = none
      rw [update_of_ne hid]
      refine h.between i ⟨id :: todo, hpc, cons_ne_nil _ _, ?_⟩
      have hlenU := congrArg List.length hmade
      cases made with
      | nil => exact absurd (List.cons.inj hmade).1 hid
      | cons a made =>
        simp only [unlockIds, length_cons, length_append, length_nil] at hlenU ⊢
        omega
  · by_cases hid : (s.calls j).target = id
    · rw [hid, update_self]
    · rw [update_of_ne hid]
      exact h.between j hbj

theorem Inv.unlock (h : Inv s) (hpc : (s.calls i).pc = .unlocking (id :: todo))
    (hl : s.locks.unlock id = some locks) : Inv (State.setCall { s with locks } i { s.calls i with
      pc := .unlocking todo
      released := (s.calls i).released ++ if (s.locks id).isSome then [id] else [] }) := by
  have hok := h.callOk i
  simp only [CallOk, hpc] at hok
  obtain ⟨hids, hnd, made, hmade, hrel⟩ := hok
  have hlenU := congrArg List.length hmade
  simp only [unlockIds, length_cons, length_append, length_nil] at hlenU
  by_cases hlen : made.length ≤ (s.calls i).nhood.length
  · exact h.unlock_held hpc hl hmade (by rw [hrel, take_of_length_le (by omega)]) hlen
  · -- the second unlock of the target finds the table without it
    have hmlen : made.length = (s.calls i).nhood.length + 1 := by omega
    have htodo : todo = [] := length_eq_zero_iff.mp (by omega)
    subst htodo
    have hlast : made = (s.calls i).target :: (s.calls i).nhood ∧ id = (s.calls i).target := by
      have : (s.calls i).target :: (s.calls i).nhood ++ [(s.calls i).target] = made ++ [id] := hmade
      obtain ⟨h1, h2⟩ := append_inj this (by simp [hmlen])
      exact ⟨h1.symm, (List.cons.inj h2).1.symm⟩
    have hfree : s.locks id = none := by
      rw [hlast.2]
      exact h.between i ⟨[id], hpc, cons_ne_nil _ _, by simp⟩
    rw [LockTable.unlock_of_none hfree, Option.some.injEq] at hl
    subst hl
    rw [hfree, Option.isSome_none, if_neg Bool.false_ne_true, append_nil]
    refine h.setPc ?_ rfl rfl rfl ⟨hids, hnd, made ++ [id], ?_, ?_⟩ ?_
    · rw [Call.Started, hpc]
      exact Pc.noConfusion
    · rw [append_nil]
      exact hmade
    · show (s.calls i).released = _
      rw [hrel, ← hmlen, take_length, take_left']
      rfl
    · rintro ⟨todo, hc, hne, _⟩
      obtain rfl := Pc.unlocking.inj hc
      exact hne rfl

/-! ### Runs -/

omit [DecidableEq ι] in
theorem Inv.init (npoints : ℕ) : Inv (State.init npoints : State ι) where
  target_lt _ hs := absurd rfl hs
  target_inj _ _ hs := absurd rfl hs
  callOk _ := ⟨rfl, rfl⟩
  exclusive _ _ _ hi := absurd hi.1 not_mem_nil
  held_locked _ _ hi := absurd hi.1 not_mem_nil
  locked_held _ hid := absurd rfl hid
  between _ _ := rfl

theorem Inv.step (h : Inv s) {a : Act ι} (hb : NotBetween s a) (hs : step s a = some s') :
    Inv s' := by
  have hstarted : ∀ i, (s.calls i).pc ≠ .idle → (s.calls i).Started := fun _ => id
  cases a with
  | start i =>
    simp only [InsertLocks.step] at hs
    split at hs
    · rename_i hpc
      cases hs
      refine h.setCall (Nat.le_succ _) (fun _ => Nat.lt_succ_self _)
        (fun j _ _ hsj => (h.target_lt j hsj).ne) ⟨rfl, rfl⟩
        (fun _ _ _ _ hc => absurd hc.1 not_mem_nil)
        (fun _ hc => absurd hc.1 not_mem_nil) (fun j _ id => h.held_locked j id)
        (fun id hid => ?_) (fun ⟨_, hc, _⟩ => Pc.noConfusion hc) (fun j _ => h.between j)
      obtain ⟨j, hj⟩ := h.locked_held id hid
      refine Or.inr ⟨j, ?_, hj⟩
      rintro rfl
      have hok := h.callOk j
      simp only [CallOk, hpc] at hok
      exact absurd hj.1 (by rw [hok.1]; exact not_mem_nil)
    · cases hs
  | lockVec i nhood =>
    simp only [InsertLocks.step] at hs
    split at hs
    · rename_i hpc
      split_ifs at hs
      cases hs
      have hok := h.callOk i
      simp only [CallOk, hpc] at hok
      refine h.setPc (hstarted i (by rw [hpc]; exact Pc.noConfusion)) rfl rfl rfl ?_
        (notBetween_of_pc fun _ => Pc.noConfusion)
      refine ⟨?_, ?_, hok.2⟩
      · show (s.calls i).acquired ++ _ = _
        rw [hok.1]
        rfl
      · show (s.calls i).acquired.Nodup
        rw [hok.1]
        exact nodup_nil
    · cases hs
  | acquire i =>
    simp only [InsertLocks.step] at hs
    split at hs
    · rename_i id todo hpc
      split at hs
      · rename_i locks hl
        cases hs
        exact h.acquire hb hpc hl
      · cases hs
    · cases hs
  | write i =>
    simp only [InsertLocks.step] at hs
    split at hs
    · rename_i hpc
      cases hs
      have hok := h.callOk i
      simp only [CallOk, hpc, append_nil] at hok
      exact (h.publish _).setPc (hstarted i (by rw [hpc]; exact Pc.noConfusion)) rfl rfl rfl hok
        (notBetween_of_pc fun _ => Pc.noConfusion)
    · cases hs
  | commit i =>
    simp only [InsertLocks.step] at hs
    split at hs
    · rename_i hpc
      cases hs
      have hok := h.callOk i
      simp only [CallOk, hpc] at hok
      refine h.setPc (hstarted i (by rw [hpc]; exact Pc.noConfusion)) rfl rfl rfl
        ⟨hok.1, hok.2.1, [], rfl, hok.2.2⟩ ?_
      rintro ⟨todo, hc, _, hlen⟩
      rw [← Pc.unlocking.inj hc] at hlen
      simp only [unlockIds, length_cons, length_append] at hlen
      omega
    · cases hs
  | unlock i =>
    simp only [InsertLocks.step] at hs
    split at hs
    · rename_i id todo hpc
      split at hs
      · cases hs
      · rename_i locks hl
        cases hs
        exact h.unlock hpc hl
    · cases hs
  | finish i =>
    simp only [InsertLocks.step] at hs
    split at hs
    · rename_i hpc
      cases hs
      have hok := h.callOk i
      simp only [CallOk, hpc, append_nil] at hok
      obtain ⟨hids, hnd, made, hmade, hrel⟩ := hok
      refine h.setPc (hstarted i (by rw [hpc]; exact Pc.noConfusion)) rfl rfl rfl
        ⟨hids, hnd, ?_⟩ (notBetween_of_pc fun _ => Pc.noConfusion)
      show (s.calls i).released = _
      rw [hrel, ← hmade]
      exact @take_left' _ ((s.calls i).target :: (s.calls i).nhood) _ _ rfl
    · cases hs

omit [DecidableEq ι] in
theorem Inv.locksOk (h : Inv s) : LocksOk s := by
  have hcases : ∀ i, (s.calls i).released <+: (s.calls i).target :: (s.calls i).nhood ∧
      ((s.calls i).released = [] ∨ (s.calls i).acquired =
        lockIds (s.calls i).target (s.calls i).nhood ∧ (s.calls i).acquired.Nodup) := by
    intro i
    have hok := h.callOk i
    unfold CallOk at hok
    split at hok
    · rw [hok.2]
      exact ⟨List.nil_prefix, Or.inl rfl⟩
    · rw [hok.2]
      exact ⟨List.nil_prefix, Or.inl rfl⟩
    · rw [hok.2.2]
      exact ⟨List.nil_prefix, Or.inl rfl⟩
    · rw [hok.2.2]
      exact ⟨List.nil_prefix, Or.inl rfl⟩
    · rename_i todo _
      obtain ⟨hids, hnd, made, hmade, hrel⟩ := hok
      refine ⟨?_, Or.inr ⟨hids, hnd⟩⟩
      rw [hrel]
      refine prefix_unlockIds ((List.take_prefix _ _).trans ⟨todo, hmade.symm⟩) ?_
      rw [List.length_take]
      exact Nat.min_le_left _ _
    · rw [hok.2.2]
      exact ⟨prefix_rfl, Or.inr ⟨hok.1, hok.2.1⟩⟩
  have hmem : ∀ i, (s.calls i).acquired = lockIds (s.calls i).target (s.calls i).nhood →
      (s.calls i).acquired.Perm ((s.calls i).target :: (s.calls i).nhood) := by
    intro i hi
    rw [hi]
    exact (perm_insertionSort _ _).trans perm_append_comm
  refine ⟨fun i => ?_, fun i id hid => ?_, fun i hpc => ?_, h.exclusive, h.held_locked⟩
  · obtain ⟨hp, hr | ⟨hids, hnd⟩⟩ := hcases i
    · rw [hr]
      exact nodup_nil
    · exact (nodup_of_callOk hids hnd).sublist hp.sublist
  · obtain ⟨hp, hr | ⟨hids, hnd⟩⟩ := hcases i
    · rw [hr] at hid
      exact absurd hid not_mem_nil
    · exact (hmem i hids).mem_iff.mpr (hp.subset hid)
  · have hok := h.callOk i
    simp only [CallOk, hpc] at hok
    rw [hok.2.2]
    exact (hmem i hok.1).symm

/-- In every run in which no call takes a target's lock between its two unlocks, the locks are
released as they were taken. -/
theorem locksOk_of_notBetween (h : Reach Init (guarded NotBetween (ofFn step)) s) : LocksOk s := by
  refine Inv.locksOk (Reach.invariant (P := Inv) ?_ (fun _ _ _ hi hs => hi.step hs.1 hs.2) h)
  rintro s ⟨npoints, rfl⟩
  exact Inv.init npoints

/-- One call that links to point `0` and goes all the way. -/
theorem locksOk_of_one_call : ∃ s : State Unit, (s.calls ()).released = [1, 0] ∧ LocksOk s := by
  have hrun : (runs step (State.init 1 : State Unit) [.start (), .lockVec () [0], .acquire (),
      .acquire (), .write (), .commit (), .unlock (), .unlock (), .unlock (), .finish ()]).map
      (fun s => (s.calls ()).released) = some [1, 0] := by decide
  obtain ⟨s, hs, hrel⟩ := Option.map_eq_some_iff.mp hrun
  refine ⟨s, hrel, locksOk_of_notBetween ((reach_of_runs (.start ⟨1, rfl⟩) hs).mono ?_)⟩
  refine fun s a s' h => ⟨?_, h⟩
  cases a with
  | acquire i =>
    rintro j id todo hpc ⟨todo', hpc', _⟩
    rw [show j = i from rfl, hpc] at hpc'
    cases hpc'
  | _ => trivial

/-- Call `true` links to the target `1` of call `false` and takes its lock between the two unlocks:
the second unlock takes the lock away from call `true`. -/
theorem unlock_foreign_lock : ∃ s : State Bool, Reach Init (ofFn step) s ∧
    (s.calls true).Holds 1 ∧ s.locks 1 = none ∧ ¬ LocksOk s := by
  have hrun : (runs step (State.init 1 : State Bool) [.start false, .lockVec false [0],
      .acquire false, .acquire false, .write false, .start true, .lockVec true [1], .commit false,
      .unlock false, .acquire true, .unlock false, .unlock false]).map
      (fun s => ((s.calls true).acquired, (s.calls true).released, s.locks 1)) =
      some ([1], [], none) := by decide
  obtain ⟨s, hs, hv⟩ := Option.map_eq_some_iff.mp hrun
  simp only [Prod.mk.injEq] at hv
  have hholds : (s.calls true).Holds 1 := by simp [Call.Holds, hv.1, hv.2.1]
  refine ⟨s, reach_of_runs (.start ⟨1, rfl⟩) hs, hholds, hv.2.2, fun hok => ?_⟩
  have := hok.held_locked true 1 hholds
  rw [hv.2.2] at this
  cases this

end DiskANNEval.PipeANN.InsertLocks
