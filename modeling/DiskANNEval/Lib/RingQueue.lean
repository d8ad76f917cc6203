import Mathlib.Data.List.Basic
import Mathlib.Data.List.Nodup
import Mathlib.Logic.Function.Basic

/-!
# Lib.RingQueue — a queue in a ring, and a ring of buffers

`RingQueue` has a place for the next entry and one for the oldest, and no test whether it is full.
`Holds n q xs`: its entries are `xs`, which is kept as long as there are no more than `n`.

Buffers that are handed out in turn are numbered by how many have been handed out before; number `s`
is buffer `s % n`.  `Behind` says how far back the numbers of a queue can be.
-/

namespace DiskANNEval.Lib

open List

/-- `head` is where the next entry goes, `tail` where the oldest is. -/
structure RingQueue (α : Type*) where
  data : ℕ → α
  head : ℕ
  tail : ℕ

namespace RingQueue

variable {α : Type*} {n : ℕ} {q : RingQueue α} {x : α} {xs : List α}

def push (n : ℕ) (q : RingQueue α) (x : α) : RingQueue α :=
  { q with data := Function.update q.data q.head x, head := (q.head + 1) % n }

/-- The oldest entry, and the queue without it. -/
def get (n : ℕ) (q : RingQueue α) : α × RingQueue α :=
  (q.data q.tail, { q with tail := (q.tail + 1) % n })

structure Holds (n : ℕ) (q : RingQueue α) (xs : List α) : Prop where
  length_le : xs.length ≤ n
  tail_lt : q.tail < n
  head_eq : q.head = (q.tail + xs.length) % n
  data_eq : ∀ i (h : i < xs.length), q.data ((q.tail + i) % n) = xs[i]

theorem add_mod_ne {t i j : ℕ} (hij : i < j) (hj : j < i + n) : (t + i) % n ≠ (t + j) % n := by
  intro h
  have hzero : (t + j - (t + i)) % n = 0 := Nat.sub_mod_eq_zero_of_mod_eq h.symm
  rw [Nat.mod_eq_of_lt (by omega)] at hzero
  omega

theorem holds_nil (hn : 0 < n) (data : ℕ → α) : Holds n ⟨data, 0, 0⟩ [] where
  length_le := Nat.zero_le n
  tail_lt := hn
  head_eq := (Nat.zero_mod n).symm
  data_eq i h := absurd h (Nat.not_lt_zero i)

theorem Holds.push (h : Holds n q xs) (x : α) (hlt : xs.length < n) :
    Holds n (q.push n x) (xs ++ [x]) where
  length_le := by
    rw [length_append]
    exact hlt
  tail_lt := h.tail_lt
  head_eq := by
    show (q.head + 1) % n = _
    rw [h.head_eq, Nat.mod_add_mod, length_append]
    rfl
  data_eq i hi := by
    show Function.update q.data q.head x ((q.tail + i) % n) = _
    rw [length_append, length_singleton] at hi
    rw [h.head_eq]
    obtain hi' | rfl := Nat.lt_succ_iff_lt_or_eq.1 hi
    · rw [Function.update_of_ne (add_mod_ne hi' (by omega)), h.data_eq i hi',
        getElem_append_left hi']
    · rw [Function.update_self, getElem_concat_length rfl]

theorem Holds.get_fst (h : Holds n q (x :: xs)) : (q.get n).1 = x := by
  have hx := h.data_eq 0 (Nat.succ_pos _)
  rwa [Nat.add_zero, Nat.mod_eq_of_lt h.tail_lt] at hx

theorem Holds.get_snd (h : Holds n q (x :: xs)) : Holds n (q.get n).2 xs where
  length_le := Nat.le_of_succ_le h.length_le
  tail_lt := Nat.mod_lt _ (Nat.lt_of_le_of_lt (Nat.zero_le _) h.tail_lt)
  head_eq := by
    show q.head = ((q.tail + 1) % n + xs.length) % n
    rw [h.head_eq, length_cons, Nat.mod_add_mod]
    congr 1
    omega
  data_eq i hi := by
    show q.data (((q.tail + 1) % n + i) % n) = _
    rw [Nat.mod_add_mod, show q.tail + 1 + i = q.tail + (i + 1) by omega,
      h.data_eq (i + 1) (Nat.succ_lt_succ hi), getElem_cons_succ]

theorem Holds.foldl_push {ys : List α} (h : Holds n q xs) (hle : xs.length + ys.length ≤ n) :
    Holds n (ys.foldl (RingQueue.push n) q) (xs ++ ys) := by
  induction ys generalizing q xs with
  | nil => rwa [append_nil]
  | cons y ys ih =>
    rw [length_cons] at hle
    have hpush := h.push y (by omega)
    rw [append_cons]
    exact ih hpush (by rw [length_append, length_singleton]; omega)

end RingQueue

/-! ### Buffers handed out in turn -/

variable {n t m k s : ℕ} {qs : List ℕ}

theorem turn_ne (hs : s < t) (ht : t < s + n) : s % n ≠ t % n := by
  have h := @RingQueue.add_mod_ne n 0 s t hs ht
  rwa [Nat.zero_add, Nat.zero_add] at h

/-- `t` buffers have been handed out.  A number of the queue is among the last `m`, or as many more as
there are numbers behind it and others (`k`). -/
def Behind (t m k : ℕ) : List ℕ → Prop
  | [] => True
  | s :: qs => s < t ∧ t ≤ s + m + qs.length + k ∧ Behind t m k qs

namespace Behind

theorem handOut (h : Behind t m k qs) : Behind (t + 1) m (k + 1) qs := by
  induction qs with
  | nil => trivial
  | cons s qs ih => exact ⟨Nat.lt_succ_of_lt h.1, by have := h.2.1; omega, ih h.2.2⟩

theorem concat (h : Behind t m (k + 1) qs) (hs : s < t) (ht : t ≤ s + m) :
    Behind t m k (qs ++ [s]) := by
  induction qs with
  | nil => exact ⟨hs, Nat.le_trans ht (Nat.le_add_right ..), trivial⟩
  | cons s' qs ih =>
    refine ⟨h.1, ?_, ih h.2.2⟩
    show t ≤ s' + m + (qs ++ [s]).length + k
    rw [length_append, length_singleton]
    have hle := h.2.1
    omega

theorem of_mem (h : Behind t m k qs) (hs : s ∈ qs) : s < t ∧ t + 1 ≤ s + m + qs.length + k := by
  induction qs with
  | nil => exact absurd hs not_mem_nil
  | cons s' qs ih =>
    rw [length_cons]
    obtain rfl | hs := mem_cons.1 hs
    · exact ⟨h.1, by have := h.2.1; omega⟩
    · obtain ⟨hlt, hle⟩ := ih h.2.2 hs
      exact ⟨hlt, by omega⟩

end Behind

end DiskANNEval.Lib
