import DiskANNEval.Lib.Bytes
import Mathlib.Tactic.SplitIfs

/-!
# Lib.Streams — files read and written at a position

An `InStream` reads a file from a position on, an `OutStream` writes bytes over a file from a position
on, which may lengthen it.  What comes next in a file is read (`read_of_drop`, `Ahead.read`), two
writes one after the other are one write (`write_append`), and a write over the front leaves the rest
(`write_front`).
-/

namespace DiskANNEval.Lib

open List

/-! ### Reading -/

structure InStream where
  file : List UInt8
  pos : ℕ

namespace InStream

variable {s s' : InStream} {n : ℕ} {bs : List UInt8}

/-- `n` bytes from the position on; `none`: the file ends before. -/
def read (n : ℕ) (s : InStream) : Option (List UInt8 × InStream) :=
  if n ≤ s.file.length - s.pos then some (slice s.file s.pos n, { s with pos := s.pos + n })
  else none

def seek (pos : ℕ) (s : InStream) : InStream := { s with pos }

theorem read_of_le (h : n ≤ s.file.length - s.pos) :
    s.read n = some (slice s.file s.pos n, { s with pos := s.pos + n }) :=
  if_pos h

theorem read_of_lt (h : s.file.length - s.pos < n) : s.read n = none := if_neg (by omega)

theorem read_of_drop {post : List UInt8} (h : s.file.drop s.pos = bs ++ post) (hn : n = bs.length) :
    s.read n = some (bs, { s with pos := s.pos + n }) ∧ s.file.drop (s.pos + n) = post := by
  have hlen := congrArg List.length h
  rw [length_drop, length_append] at hlen
  subst hn
  constructor
  · rw [read_of_le (by omega), slice, h, take_left]
  · rw [← drop_drop, h, drop_left]

/-- The next `w` bytes as a number. -/
def readNat (w : ℕ) (s : InStream) : Option (ℕ × InStream) :=
  (s.read w).map fun (bs, s) => (leNat bs, s)

/-- What comes next in the file. -/
def Ahead (s : InStream) (bs : List UInt8) : Prop := s.file.drop s.pos = bs

variable {post : List UInt8}

theorem Ahead.read (h : s.Ahead (bs ++ post)) (hn : n = bs.length) :
    ∃ s', s.read n = some (bs, s') ∧ s'.Ahead post :=
  ⟨_, read_of_drop h hn⟩

theorem Ahead.readNat {w k : ℕ} (h : s.Ahead (leBytes w k ++ post)) (hk : k < 256 ^ w) :
    ∃ s', s.readNat w = some (k, s') ∧ s'.Ahead post := by
  obtain ⟨s', hread, hpost⟩ := h.read (length_leBytes w k).symm
  refine ⟨s', ?_, hpost⟩
  rw [InStream.readNat, hread, Option.map_some]
  dsimp only
  rw [leNat_leBytes, Nat.mod_eq_of_lt hk]

theorem Ahead.skip (h : s.Ahead (bs ++ post)) (hn : n = bs.length) :
    (s.seek (s.pos + n)).Ahead post :=
  (read_of_drop h hn).2

end InStream

/-! ### Writing -/

structure OutStream where
  file : List UInt8
  pos : ℕ

namespace OutStream

variable {s : OutStream} {bs cs : List UInt8}

/-- The bytes are written over the file from the position on. -/
def write (bs : List UInt8) (s : OutStream) : OutStream where
  file := s.file.take s.pos ++ bs ++ s.file.drop (s.pos + bs.length)
  pos := s.pos + bs.length

def seek (pos : ℕ) (s : OutStream) : OutStream := { s with pos }

/-- The position is in the file or at its end. -/
def Ok (s : OutStream) : Prop := s.pos ≤ s.file.length

theorem Ok.length_take (h : s.Ok) : (s.file.take s.pos).length = s.pos := by
  rw [List.length_take]
  exact Nat.min_eq_left h

theorem Ok.write (h : s.Ok) (bs : List UInt8) : (s.write bs).Ok := by
  show s.pos + bs.length ≤ (s.file.take s.pos ++ bs ++ _).length
  rw [length_append, length_append, h.length_take]
  omega

theorem ok_seek_zero (s : OutStream) : (s.seek 0).Ok := Nat.zero_le _

theorem write_nil (s : OutStream) : s.write [] = s := by
  rw [OutStream.write, append_nil, length_nil, Nat.add_zero, take_append_drop]

theorem write_append (h : s.Ok) : s.write (bs ++ cs) = (s.write bs).write cs := by
  have hlen : (s.file.take s.pos ++ bs).length = s.pos + bs.length := by
    rw [length_append, h.length_take]
  unfold OutStream.write
  rw [length_append, ← Nat.add_assoc, ← hlen, take_left, drop_length_add_append,
    drop_drop, ← append_assoc]

theorem write_front {old rest : List UInt8} (h : bs.length = old.length) :
    (OutStream.mk (old ++ rest) 0).write bs = ⟨bs ++ rest, bs.length⟩ := by
  simp [OutStream.write, h]

end OutStream

end DiskANNEval.Lib
