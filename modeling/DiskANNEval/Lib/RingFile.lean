import Mathlib.Logic.Function.Basic
import Mathlib.Data.Option.Basic
import Mathlib.Data.List.Nodup

/-!
# Lib.RingFile — a ring buffer in front of a file

Entries are put into a ring of `M` cells at their key modulo `M`; `flush` copies the keys from the
low-water mark `low` on to the file and moves the mark.  An entry put below the mark is never
written, and two entries above the mark whose keys agree modulo `M` overwrite each other.

`Has M k a` says that `a` is where it should be: in the file once the mark has passed `k`, in the
ring before.  Flushing does not change it, and putting other entries can only lose it.
-/

namespace DiskANNEval.Lib

variable {α : Type*}

structure RingFile (α : Type*) where
  ring : ℕ → Option α
  file : ℕ → Option α
  low : ℕ

namespace RingFile

def put (r : RingFile α) (M k : ℕ) (a : α) : RingFile α :=
  { r with ring := Function.update r.ring (k % M) (some a) }

/-- Write the cells of the keys in `[low, upTo)` and move the mark by `n`. -/
def flush (r : RingFile α) (M n upTo : ℕ) : RingFile α :=
  { r with
    file := fun k => if r.low ≤ k ∧ k < upTo then r.ring (k % M) else r.file k
    low := r.low + n }

/-- Put a list of entries in order, each at its own key. -/
def putAll (M : ℕ) (key : α → ℕ) (r : RingFile α) (as : List α) : RingFile α :=
  as.foldl (fun r a => r.put M (key a) a) r

def Has (r : RingFile α) (M k : ℕ) (a : α) : Prop :=
  if k < r.low then r.file k = some a else r.ring (k % M) = some a

def Absent (r : RingFile α) (a : α) : Prop := ∀ k, r.ring k ≠ some a ∧ r.file k ≠ some a

variable {r : RingFile α} {M n upTo k k' : ℕ} {a b : α} {key : α → ℕ} {as : List α}

theorem has_of_lt (h : k < r.low) : r.Has M k a ↔ r.file k = some a := by rw [Has, if_pos h]

theorem has_of_le (h : r.low ≤ k) : r.Has M k a ↔ r.ring (k % M) = some a := by
  rw [Has, if_neg (Nat.not_lt.2 h)]

@[simp] theorem ring_put :
    (r.put M k a).ring = Function.update r.ring (k % M) (some a) := rfl
@[simp] theorem low_put : (r.put M k a).low = r.low := rfl
@[simp] theorem file_put : (r.put M k a).file = r.file := rfl
@[simp] theorem low_flush : (r.flush M n upTo).low = r.low + n := rfl
@[simp] theorem ring_flush : (r.flush M n upTo).ring = r.ring := rfl

theorem has_put (hab : a ≠ b) :
    (r.put M k a).Has M k' b ↔ r.Has M k' b ∧ (r.low ≤ k' → k % M ≠ k' % M) := by
  obtain h | h := Nat.lt_or_ge k' r.low
  · rw [has_of_lt (r := r.put M k a) h, has_of_lt h]
    exact (and_iff_left fun h' => absurd h' (by omega)).symm
  · rw [has_of_le (r := r.put M k a) h, has_of_le h, ring_put]
    by_cases hk : k % M = k' % M
    · simp [hk, hab, h]
    · rw [Function.update_of_ne (Ne.symm hk)]
      exact (and_iff_left fun _ => hk).symm

theorem has_put_self (h : r.low ≤ k) : (r.put M k a).Has M k a := by
  rw [has_of_le (by exact h), ring_put, Function.update_self]

theorem has_flush (h : r.low + n ≤ upTo) : (r.flush M n upTo).Has M k a ↔ r.Has M k a := by
  have hfile : (r.flush M n upTo).file k =
      if r.low ≤ k ∧ k < upTo then r.ring (k % M) else r.file k := rfl
  obtain hk | hk := Nat.lt_or_ge k r.low
  · rw [has_of_lt (by rw [low_flush]; omega), has_of_lt hk, hfile, if_neg (by omega)]
  · rw [has_of_le hk]
    obtain hn | hn := Nat.lt_or_ge k (r.low + n)
    · rw [has_of_lt (by exact hn), hfile, if_pos ⟨hk, by omega⟩]
    · rw [has_of_le (by exact hn), ring_flush]

theorem Absent.put (h : r.Absent b) (hab : a ≠ b) : (r.put M k a).Absent b := by
  intro j
  refine ⟨?_, (h j).2⟩
  by_cases hj : j = k % M
  · simpa [hj] using hab
  · simpa [hj] using (h j).1

theorem Absent.flush (h : r.Absent a) : (r.flush M n upTo).Absent a := by
  intro j
  refine ⟨(h j).1, ?_⟩
  unfold RingFile.flush
  dsimp only
  split
  · exact (h _).1
  · exact (h j).2

/-! ### Putting a list -/

@[simp] theorem putAll_nil : putAll M key r [] = r := rfl

@[simp] theorem putAll_cons : putAll M key r (a :: as) = putAll M key (r.put M (key a) a) as := rfl

@[simp] theorem low_putAll : (putAll M key r as).low = r.low := by
  induction as generalizing r with
  | nil => rfl
  | cons a as ih => rw [putAll_cons, ih, low_put]

@[simp] theorem file_putAll : (putAll M key r as).file = r.file := by
  induction as generalizing r with
  | nil => rfl
  | cons a as ih => rw [putAll_cons, ih, file_put]

theorem Absent.putAll (h : r.Absent b) (hb : b ∉ as) : (putAll M key r as).Absent b := by
  induction as generalizing r with
  | nil => exact h
  | cons a as ih =>
    rw [List.mem_cons, not_or] at hb
    exact ih (h.put (Ne.symm hb.1)) hb.2

theorem has_putAll_of_notMem (hb : b ∉ as) :
    (putAll M key r as).Has M k b ↔
      r.Has M k b ∧ (r.low ≤ k → ∀ a ∈ as, key a % M ≠ k % M) := by
  induction as generalizing r with
  | nil => simp
  | cons a as ih =>
    rw [List.mem_cons, not_or] at hb
    rw [putAll_cons, ih hb.2, has_put (Ne.symm hb.1), low_put, and_assoc, ← forall_and]
    simp only [List.forall_mem_cons]

/-- The entries of the list are kept if their cells differ and the mark has not passed them. -/
theorem has_putAll_of_mem (hnd : as.Nodup) (hb : b ∈ as) (hlow : r.low ≤ key b)
    (hne : ∀ a ∈ as, a ≠ b → key a % M ≠ key b % M) : (putAll M key r as).Has M (key b) b := by
  induction as generalizing r with
  | nil => exact absurd hb (by simp)
  | cons a as ih =>
    rw [List.nodup_cons] at hnd
    rw [putAll_cons]
    obtain rfl | hb := List.mem_cons.1 hb
    · rw [has_putAll_of_notMem hnd.1]
      refine ⟨has_put_self hlow, fun _ c hc => ?_⟩
      exact hne c (List.mem_cons_of_mem _ hc) fun h => hnd.1 (h ▸ hc)
    · exact ih hnd.2 hb hlow fun c hc => hne c (List.mem_cons_of_mem _ hc)

theorem not_has_putAll_of_lt (h : r.Absent b) (hlow : k < r.low) :
    ¬ (putAll M key r as).Has M k b := by
  rw [has_of_lt (by rw [low_putAll]; exact hlow), file_putAll]
  exact (h k).2

theorem eq_of_has_of_has (ha : r.Has M k a) (hb : r.Has M k' b) (hk : r.low ≤ k)
    (hk' : r.low ≤ k') (h : k % M = k' % M) : a = b := by
  rw [has_of_le hk, h] at ha
  rw [has_of_le hk'] at hb
  exact Option.some.inj (ha.symm.trans hb)

end RingFile

end DiskANNEval.Lib
