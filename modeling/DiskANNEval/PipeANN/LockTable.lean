import Mathlib.Logic.Function.Basic
import Mathlib.Data.Nat.Notation

/-!
# LockTable — `SparseLockTable`

A map from keys to reader/writer locks that holds a key only while the lock is in use.  The `try`
operations are what `rdlock` and `wrlock` repeat until they succeed.  `unlock` asks only the table:
a key that is not in it is left alone, and a key that is in it is unlocked whoever holds it.
-/

namespace DiskANNEval.PipeANN

open Function

/-- A `pthread_rwlock_t` and the counter stored with it. -/
structure LockEntry where
  writer : Bool
  readers : ℕ
  count : ℕ
  deriving DecidableEq

abbrev LockTable (K : Type) := K → Option LockEntry

namespace LockTable

variable {K : Type} [DecidableEq K]

/-- The entry `upsert` finds or makes. -/
def entry (t : LockTable K) (key : K) : LockEntry := (t key).getD ⟨false, 0, 0⟩

/-- The table afterwards, and whether the lock was taken. -/
def tryrdlock (t : LockTable K) (key : K) : LockTable K × Bool :=
  let e := t.entry key
  if e.writer then (Function.update t key (some e), false)
  else (Function.update t key (some { e with readers := e.readers + 1, count := e.count + 1 }), true)

def trywrlock (t : LockTable K) (key : K) : LockTable K × Bool :=
  let e := t.entry key
  if e.writer || 0 < e.readers then (Function.update t key (some e), false)
  else (Function.update t key (some { e with writer := true, count := e.count + 1 }), true)

/-- `pthread_rwlock_unlock` -/
def release (e : LockEntry) : LockEntry :=
  if e.writer then { e with writer := false } else { e with readers := e.readers - 1 }

/-- `none`: "unlock a non-locked key", `__builtin_trap`. -/
def unlock (t : LockTable K) (key : K) : Option (LockTable K) :=
  match t key with
  | none => some t
  | some e =>
    if e.count = 0 then none
    else
      let e' := { release e with count := e.count - 1 }
      some (Function.update t key (if e'.count = 0 then none else some e'))

/-- A lock that one writer holds. -/
def written : LockEntry := ⟨true, 0, 1⟩

theorem trywrlock_of_none {t : LockTable K} {key : K} (h : t key = none) :
    t.trywrlock key = (Function.update t key (some written), true) := by
  simp [trywrlock, entry, h, written]

theorem trywrlock_of_written {t : LockTable K} {key : K} (h : t key = some written) :
    (t.trywrlock key).2 = false := by
  simp [trywrlock, entry, h, written]

theorem unlock_of_none {t : LockTable K} {key : K} (h : t key = none) : t.unlock key = some t := by
  rw [unlock, h]

theorem unlock_of_written {t : LockTable K} {key : K} (h : t key = some written) :
    t.unlock key = some (Function.update t key none) := by
  simp [unlock, h, written]

/-! ### Writers only -/

/-- The locks that are taken are those that `holds` says, each held by one writer. -/
structure Owned {ι : Type} (t : LockTable K) (holds : ι → K → Prop) : Prop where
  exclusive : ∀ i j key, holds i key → holds j key → i = j
  held : ∀ i key, holds i key → t key = some written
  locked : ∀ key, t key ≠ none → ∃ i, holds i key

variable {ι : Type} {t t' : LockTable K} {holds holds' : ι → K → Prop} {i : ι} {key : K}

theorem Owned.acquire (h : Owned t holds) (ht : t.trywrlock key = (t', true)) :
    t key = none ∧ t' = Function.update t key (some written) := by
  have hnone : t key = none := by
    by_contra hne
    obtain ⟨i, hi⟩ := h.locked key hne
    have := trywrlock_of_written (h.held i key hi)
    rw [ht] at this
    cases this
  rw [trywrlock_of_none hnone] at ht
  exact ⟨hnone, (congrArg Prod.fst ht).symm⟩

theorem Owned.take (h : Owned t holds) (hkey : t key = none)
    (h' : ∀ j k, holds' j k ↔ holds j k ∨ j = i ∧ k = key) :
    Owned (Function.update t key (some written)) holds' := by
  have hfree : ∀ j, ¬ holds j key := by
    intro j hj
    have := h.held j key hj
    rw [hkey] at this
    cases this
  refine ⟨fun j k x hj hk => ?_, fun j x hj => ?_, fun x hx => ?_⟩
  · obtain hj | ⟨rfl, rfl⟩ := (h' j x).1 hj
    · obtain hk | ⟨rfl, rfl⟩ := (h' k x).1 hk
      · exact h.exclusive j k x hj hk
      · exact absurd hj (hfree j)
    · obtain hk | ⟨rfl, -⟩ := (h' k x).1 hk
      · exact absurd hk (hfree k)
      · rfl
  · by_cases hx : x = key
    · rw [hx, update_self]
    · rw [update_of_ne hx]
      exact h.held j x (((h' j x).1 hj).resolve_right fun hh => hx hh.2)
  · by_cases hxk : x = key
    · exact ⟨i, (h' i x).2 (.inr ⟨rfl, hxk⟩)⟩
    · rw [update_of_ne hxk] at hx
      exact (h.locked x hx).imp fun j hj => (h' j x).2 (.inl hj)

theorem Owned.release (h : Owned t holds) (hi : holds i key)
    (h' : ∀ j k, holds' j k ↔ holds j k ∧ ¬ (j = i ∧ k = key)) :
    t.unlock key = some (Function.update t key none) ∧
      Owned (Function.update t key none) holds' := by
  refine ⟨unlock_of_written (h.held i key hi), fun j k x hj hk => ?_, fun j x hj => ?_,
    fun x hx => ?_⟩
  · exact h.exclusive j k x ((h' j x).1 hj).1 ((h' k x).1 hk).1
  · obtain ⟨hj, hne⟩ := (h' j x).1 hj
    have hx : x ≠ key := by
      rintro rfl
      exact hne ⟨h.exclusive j i x hj hi, rfl⟩
    rw [update_of_ne hx]
    exact h.held j x hj
  · have hxk : x ≠ key := by
      rintro rfl
      exact hx (update_self ..)
    rw [update_of_ne hxk] at hx
    exact (h.locked x hx).imp fun j hj => (h' j x).2 ⟨hj, fun hh => hxk hh.2⟩

end LockTable

end DiskANNEval.PipeANN
