import DiskANNEval.Lib.Bytes
import Mathlib

/-!
# Lib.ByteFile — a file as a byte at each offset

`bytes` reads a part of the file and `put` writes over a part of it; there is no end of file.  What is
read depends on the bytes of its part alone (`bytes_congr`), and `put` changes those of its part
alone (`put_of_not_mem`).
-/

namespace DiskANNEval.Lib

open List

abbrev ByteFile := ℕ → UInt8

namespace ByteFile

variable {f g : ByteFile} {off len : ℕ} {bs : List UInt8}

/-- `len` bytes from `off` on. -/
def bytes (f : ByteFile) (off len : ℕ) : List UInt8 := (List.range len).map fun i => f (off + i)

/-- The bytes are written over the file from `off` on. -/
def put (f : ByteFile) (off : ℕ) (bs : List UInt8) : ByteFile :=
  fun o => if o < off then f o else bs.getD (o - off) (f o)

@[simp] theorem length_bytes (f : ByteFile) (off len : ℕ) : (f.bytes off len).length = len := by
  rw [bytes, List.length_map, List.length_range]

theorem bytes_congr (h : ∀ o, off ≤ o → o < off + len → f o = g o) :
    f.bytes off len = g.bytes off len := by
  apply map_congr_left
  intro i hi
  rw [List.mem_range] at hi
  exact h (off + i) (by omega) (by omega)

theorem getElem_bytes {i : ℕ} (hi : i < (f.bytes off len).length) :
    (f.bytes off len)[i] = f (off + i) := by
  simp [bytes]

theorem head?_bytes (h : 0 < len) : (f.bytes off len).head? = some (f off) := by
  obtain ⟨n, rfl⟩ := Nat.exists_eq_succ_of_ne_zero h.ne'
  rw [bytes, range_succ_eq_map]
  rfl

variable {o a w n b : ℕ}

theorem put_of_not_mem (h : o < off ∨ off + bs.length ≤ o) : f.put off bs o = f o := by
  rw [put]
  split_ifs with ho
  · rfl
  · exact getD_eq_default _ _ (by omega)

theorem put_of_mem {i : ℕ} (hi : i < bs.length) : f.put off bs (off + i) = bs[i] := by
  rw [put, if_neg (by omega), Nat.add_sub_cancel_left, getD_eq_getElem _ _ hi]

theorem bytes_put_same : (f.put off bs).bytes off bs.length = bs := by
  apply ext_getElem (by simp)
  intro i h1 h2
  rw [getElem_bytes h1, put_of_mem h2]

theorem bytes_put_of_disjoint {l : ℕ} (h : o + l ≤ off ∨ off + bs.length ≤ o) :
    (f.put off bs).bytes o l = f.bytes o l :=
  bytes_congr fun o' h1 h2 => put_of_not_mem (by omega)

theorem put_bytes_of_lt {p : ℕ} (hp : p < len) :
    f.put off (g.bytes a len) (off + p) = g (a + p) := by
  rw [put_of_mem (by rwa [length_bytes]), getElem_bytes]

/-- The number in `w` bytes. -/
def le (w : ℕ) (f : ByteFile) (off : ℕ) : ℕ := leNat (f.bytes off w)

/-- `n` numbers of `w` bytes each. -/
def leArray (w : ℕ) (f : ByteFile) (off n : ℕ) : List ℕ :=
  (List.range n).map fun i => le w f (off + i * w)

@[simp] theorem length_leArray (w : ℕ) (f : ByteFile) (off n : ℕ) :
    (leArray w f off n).length = n := by
  rw [leArray, List.length_map, List.length_range]

theorem le_congr (h : ∀ o, off ≤ o → o < off + w → f o = g o) : le w f off = le w g off := by
  rw [le, le, bytes_congr h]

theorem leArray_congr (h : ∀ o, off ≤ o → o < off + n * w → f o = g o) :
    leArray w f off n = leArray w g off n := by
  apply map_congr_left
  intro i hi
  have hmul : (i + 1) * w ≤ n * w := Nat.mul_le_mul_right w (List.mem_range.1 hi)
  rw [Nat.succ_mul] at hmul
  exact le_congr fun o h1 h2 => h o (by omega) (by omega)

theorem leNat_lt (bs : List UInt8) : leNat bs < 256 ^ bs.length := by
  induction bs with
  | nil => simp [leNat]
  | cons b bs ih =>
    have hb : b.toNat < 256 := b.toNat_lt
    rw [leNat, length_cons]
    omega

theorem le_lt (w : ℕ) (f : ByteFile) (off : ℕ) : le w f off < 256 ^ w := by
  have h := leNat_lt (f.bytes off w)
  rwa [length_bytes] at h

theorem leNat_eq_zero {bs : List UInt8} (h : ∀ b ∈ bs, b = 0) : leNat bs = 0 := by
  induction bs with
  | nil => rfl
  | cons b bs ih =>
    rw [leNat, h b mem_cons_self, ih fun b hb => h b (mem_cons_of_mem _ hb)]
    rfl

theorem le_eq_zero (h : ∀ o, off ≤ o → o < off + w → f o = 0) : le w f off = 0 := by
  refine leNat_eq_zero fun b hb => ?_
  obtain ⟨i, hi, rfl⟩ := mem_map.1 hb
  have := List.mem_range.1 hi
  exact h (off + i) (by omega) (by omega)

theorem le_put_leBytes (hn : n < 256 ^ w) : le w (f.put off (leBytes w n)) off = n := by
  have h := @bytes_put_same f off (leBytes w n)
  rw [length_leBytes] at h
  rw [le, h, leNat_leBytes, Nat.mod_eq_of_lt hn]

theorem bytes_put_sub {l : ℕ} (ho : o + l ≤ bs.length) :
    (f.put off bs).bytes (off + o) l = slice bs o l := by
  apply ext_getElem
  · rw [length_bytes, length_slice ho]
  · intro i h1 h2
    have hi : i < l := by rwa [length_bytes] at h1
    rw [getElem_bytes h1, Nat.add_assoc, put_of_mem (by omega)]
    simp [slice]

theorem leArray_put_leList {ns : List ℕ} (hns : ∀ n ∈ ns, n < 256 ^ w) :
    leArray w (f.put off (leList w ns)) off ns.length = ns := by
  apply ext_getElem (by simp)
  intro i h1 h2
  have hmul : (i + 1) * w ≤ ns.length * w := Nat.mul_le_mul_right w h2
  rw [Nat.succ_mul] at hmul
  simp only [leArray, getElem_map, getElem_range]
  rw [le, bytes_put_sub (by rw [length_leList]; omega), slice_leList h2, leNat_leBytes,
    Nat.mod_eq_of_lt (hns _ (getElem_mem h2))]

/-! ### Equal parts of two files -/

theorem leNat_inj {b c : List UInt8} (hlen : b.length = c.length) (h : leNat b = leNat c) : b = c := by
  induction b generalizing c with
  | nil => exact (length_eq_zero_iff.1 hlen.symm).symm
  | cons x b ih =>
    cases c with
    | nil => cases hlen
    | cons y c =>
      have hx : x.toNat < 256 := x.toNat_lt
      have hy : y.toNat < 256 := y.toNat_lt
      rw [leNat, leNat] at h
      have hxy : x = y := UInt8.toNat_inj.1 (by omega)
      rw [hxy, ih (Nat.succ.inj hlen) (by omega)]

theorem bytes_eq_iff : f.bytes a n = g.bytes b n ↔ ∀ o < n, f (a + o) = g (b + o) := by
  rw [bytes, bytes, map_inj_left]
  simp only [List.mem_range]

theorem le_eq_iff : le w f a = le w g b ↔ ∀ o < w, f (a + o) = g (b + o) := by
  rw [← bytes_eq_iff]
  exact ⟨leNat_inj (by rw [length_bytes, length_bytes]), congrArg leNat⟩

theorem leArray_eq_iff :
    leArray w f a n = leArray w g b n ↔ ∀ o < n * w, f (a + o) = g (b + o) := by
  rw [leArray, leArray, map_inj_left]
  simp only [List.mem_range, le_eq_iff]
  constructor
  · intro h o ho
    have hw : 0 < w := Nat.pos_of_ne_zero fun h0 => by rw [h0] at ho; omega
    have hsplit := h (o / w) (Nat.div_lt_of_lt_mul (by rwa [Nat.mul_comm])) (o % w) (Nat.mod_lt o hw)
    rwa [Nat.add_assoc, Nat.add_assoc, Nat.mul_comm, Nat.div_add_mod] at hsplit
  · intro h i hi o ho
    have hmul : (i + 1) * w ≤ n * w := Nat.mul_le_mul_right w hi
    rw [Nat.succ_mul] at hmul
    rw [Nat.add_assoc, Nat.add_assoc]
    exact h (i * w + o) (by omega)

end ByteFile

end DiskANNEval.Lib
