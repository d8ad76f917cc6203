import DiskANNEval.Lib.Loops
import Mathlib.Algebra.Order.Group.Nat
import Mathlib.Tactic.Ring

/-!
# Lib.Bytes — numbers in little-endian bytes, and buffers written in place

`leBytes` and `leNat` are a number and its bytes.  A buffer is a list of bytes: `slice` reads a part
of it, and `write` puts bytes over a part of it, if they fit.  What is read after a write is what was
written there, or what was there before.
-/

namespace DiskANNEval.Lib

open List Nat

/-- The `w` low bytes of `n`, the lowest first. -/
def leBytes : ℕ → ℕ → List UInt8
  | 0, _ => []
  | w + 1, n => UInt8.ofNat n :: leBytes w (n / 256)

/-- The number with these bytes, the lowest first. -/
def leNat : List UInt8 → ℕ
  | [] => 0
  | b :: bs => b.toNat + 256 * leNat bs

@[simp] theorem length_leBytes (w n : ℕ) : (leBytes w n).length = w := by
  induction w generalizing n with
  | zero => rfl
  | succ w ih => rw [leBytes, List.length_cons, ih]

theorem leNat_leBytes (w n : ℕ) : leNat (leBytes w n) = n % 256 ^ w := by
  induction w generalizing n with
  | zero => rw [leBytes, leNat, pow_zero, mod_one]
  | succ w ih =>
    have hlow : (UInt8.ofNat n).toNat = n % 256 := by simp
    rw [leBytes, leNat, ih, hlow, pow_succ', mod_mul]

/-- `len` bytes of the buffer, from `off` on. -/
def slice (buf : List UInt8) (off len : ℕ) : List UInt8 := (buf.drop off).take len

variable {buf b c buf' : List UInt8} {off len n o l w : ℕ}

theorem length_slice (h : off + len ≤ buf.length) : (slice buf off len).length = len := by
  rw [slice, List.length_take, length_drop]
  omega

theorem slice_zero_length (buf : List UInt8) : slice buf 0 buf.length = buf := by
  rw [slice, drop_zero, take_length]

theorem slice_replicate (x : UInt8) (h : o + l ≤ n) :
    slice (replicate n x) o l = replicate l x := by
  rw [slice, drop_replicate, take_replicate, Nat.min_eq_left (by omega)]

theorem slice_take (h : o + l ≤ n) : slice (buf.take n) o l = slice buf o l := by
  rw [slice, slice, drop_take, take_take, min_eq_left (by omega)]

theorem slice_slice (h : o + l ≤ len) : slice (slice buf off len) o l = slice buf (off + o) l := by
  rw [slice, slice, slice, drop_take, take_take, drop_drop,
    min_eq_left (by omega)]

theorem slice_append_left (h : o + l ≤ b.length) : slice (b ++ c) o l = slice b o l := by
  rw [slice, slice, drop_append_of_le_length (by omega), take_append_of_le_length]
  rw [length_drop]
  omega

theorem slice_append_right (h : b.length ≤ o) : slice (b ++ c) o l = slice c (o - b.length) l := by
  rw [slice, slice, drop_append, drop_eq_nil_of_le h, nil_append]

theorem slice_congr (h : slice b off len = slice c off len) (ho : off ≤ o)
    (hl : o + l ≤ off + len) : slice b o l = slice c o l := by
  have hb := @slice_slice b off len (o - off) l (by omega)
  have hc := @slice_slice c off len (o - off) l (by omega)
  rw [show off + (o - off) = o by omega] at hb hc
  rw [← hb, ← hc, h]

/-- The bytes are written over the buffer from `off` on; `none`: they do not fit. -/
def write (buf : List UInt8) (off : ℕ) (bs : List UInt8) : Option (List UInt8) :=
  if off + bs.length ≤ buf.length then some (buf.take off ++ bs ++ buf.drop (off + bs.length))
  else none

section write

variable {buf buf' bs : List UInt8} {off : ℕ}

theorem write_eq_some (h : write buf off bs = some buf') :
    off + bs.length ≤ buf.length ∧ buf' = buf.take off ++ bs ++ buf.drop (off + bs.length) := by
  rw [write] at h
  split at h
  · rename_i hfit
    cases h
    exact ⟨hfit, rfl⟩
  · cases h

theorem write_isSome (h : off + bs.length ≤ buf.length) : ∃ buf', write buf off bs = some buf' :=
  ⟨_, if_pos h⟩

theorem length_write (h : write buf off bs = some buf') : buf'.length = buf.length := by
  obtain ⟨hfit, rfl⟩ := write_eq_some h
  simp only [length_append, List.length_take, length_drop]
  omega

theorem slice_write_same (h : write buf off bs = some buf') : slice buf' off bs.length = bs := by
  obtain ⟨hfit, rfl⟩ := write_eq_some h
  have hlen : (buf.take off).length = off := by
    rw [List.length_take]
    omega
  rw [append_assoc, slice_append_right (by omega), hlen, Nat.sub_self,
    slice_append_left (by omega), slice_zero_length]

theorem slice_write_before (h : write buf off bs = some buf') {o l : ℕ} (ho : o + l ≤ off) :
    slice buf' o l = slice buf o l := by
  obtain ⟨hfit, rfl⟩ := write_eq_some h
  have hlen : (buf.take off).length = off := by
    rw [List.length_take]
    omega
  rw [append_assoc, slice_append_left (by omega)]
  rw [slice, slice, drop_take, take_take, Nat.min_eq_left (by omega)]

theorem slice_write_after (h : write buf off bs = some buf') {o l : ℕ} (ho : off + bs.length ≤ o) :
    slice buf' o l = slice buf o l := by
  obtain ⟨hfit, rfl⟩ := write_eq_some h
  have hlen : (buf.take off ++ bs).length = off + bs.length := by
    rw [length_append, List.length_take]
    omega
  rw [slice_append_right (by omega), slice, drop_drop]
  congr 2
  omega

end write

/-! ### What a write leaves as it was -/

/-- The buffers have one length, and the same bytes before `lo` and from `hi` on. -/
def AgreesOutside (b c : List UInt8) (lo hi : ℕ) : Prop :=
  b.length = c.length ∧ ∀ o l, o + l ≤ lo ∨ hi ≤ o → slice b o l = slice c o l

theorem AgreesOutside.refl (b : List UInt8) (lo hi : ℕ) : AgreesOutside b b lo hi :=
  ⟨rfl, fun _ _ _ => rfl⟩

theorem AgreesOutside.trans {d : List UInt8} {lo hi : ℕ} (h : AgreesOutside b c lo hi)
    (h' : AgreesOutside c d lo hi) : AgreesOutside b d lo hi := by
  refine ⟨h.1.trans h'.1, ?_⟩
  intro o l ho
  rw [h.2 o l ho, h'.2 o l ho]

theorem AgreesOutside.mono {lo hi lo' hi' : ℕ} (h : AgreesOutside b c lo hi) (hlo : lo' ≤ lo)
    (hhi : hi ≤ hi') : AgreesOutside b c lo' hi' := by
  refine ⟨h.1, ?_⟩
  intro o l ho
  exact h.2 o l (by omega)

theorem agreesOutside_write {bs : List UInt8} (h : write buf off bs = some buf') :
    AgreesOutside buf' buf off (off + bs.length) := by
  refine ⟨length_write h, ?_⟩
  intro o l ho
  rcases ho with ho | ho
  · exact slice_write_before h ho
  · exact slice_write_after h ho

/-- Slots of `w` bytes are written one after the other, each with what `g` makes of the buffer. -/
theorem foldlM_write_spec {g : List UInt8 → ℕ → Option (List UInt8)} {base : ℕ}
    (hg : ∀ b k bs, g b k = some bs → bs.length = w)
    (h : (List.range n).foldlM (fun b k => (g b k).bind fun bs => write b (base + k * w) bs) buf = some buf') :
    AgreesOutside buf' buf base (base + n * w) ∧ ∀ k < n, ∃ b,
      AgreesOutside b buf base (base + k * w) ∧ g b k = some (slice buf' (base + k * w) w) := by
  induction n generalizing buf' with
  | zero =>
    cases h
    exact ⟨AgreesOutside.refl _ _ _, fun k hk => absurd hk (not_lt_zero k)⟩
  | succ n ih =>
    rw [range_succ, foldlM_append] at h
    obtain ⟨b, hb, h⟩ := Option.bind_eq_some_iff.mp h
    obtain ⟨b', hb', hnil⟩ := Option.bind_eq_some_iff.mp h
    cases hnil
    obtain ⟨bs, hbs, hw⟩ := Option.bind_eq_some_iff.mp hb'
    obtain ⟨hagree, hall⟩ := ih hb
    have hlen := hg b n bs hbs
    have hlast := agreesOutside_write hw
    have hnw : (n + 1) * w = n * w + w := succ_mul n w
    refine ⟨(hlast.mono (by omega) (by omega)).trans (hagree.mono le_rfl (by omega)), ?_⟩
    intro k hk
    by_cases heq : k = n
    · subst heq
      refine ⟨b, hagree, ?_⟩
      have hsame := slice_write_same hw
      rw [hlen] at hsame
      rw [hsame, hbs]
    · have hkn : (k + 1) * w ≤ n * w := mul_le_mul_right w (by omega)
      rw [succ_mul] at hkn
      obtain ⟨c, hc, hgc⟩ := hall k (by omega)
      refine ⟨c, hc, ?_⟩
      rw [hlast.2 (base + k * w) w (Or.inl (by omega)), hgc]

/-! ### Writes some bytes apart -/

/-- The parts are written `w` bytes apart from `off` on, each over the rest of the one before. -/
def writeEach (w : ℕ) : List UInt8 → ℕ → List (List UInt8) → Option (List UInt8)
  | buf, _, [] => some buf
  | buf, off, p :: ps => (write buf off p).bind fun buf => writeEach w buf (off + w) ps

theorem exists_writeEach {ps : List (List UInt8)}
    (h : ∀ j p, ps[j]? = some p → off + j * w + p.length ≤ buf.length) :
    ∃ buf', writeEach w buf off ps = some buf' := by
  induction ps generalizing buf off with
  | nil => exact ⟨buf, rfl⟩
  | cons p ps ih =>
    obtain ⟨buf₁, h₁⟩ : ∃ buf₁, write buf off p = some buf₁ :=
      write_isSome (by simpa using h 0 p rfl)
    obtain ⟨buf', h'⟩ : ∃ buf', writeEach w buf₁ (off + w) ps = some buf' := by
      apply ih
      intro j q hq
      have hj := h (j + 1) q hq
      rw [succ_mul] at hj
      rw [length_write h₁]
      omega
    exact ⟨buf', by rw [writeEach, h₁, Option.bind_some, h']⟩

theorem writeEach_spec {ps : List (List UInt8)} (h : writeEach w buf off ps = some buf') :
    buf'.length = buf.length ∧ (∀ o l, o + l ≤ off → slice buf' o l = slice buf o l) ∧
      ∀ j p, ps[j]? = some p → off + j * w + p.length ≤ buf.length ∧
        ∀ k ≤ w, k ≤ p.length → slice buf' (off + j * w) k = p.take k := by
  induction ps generalizing buf off with
  | nil =>
    cases h
    exact ⟨rfl, fun _ _ _ => rfl, fun j p hp => absurd hp (by simp)⟩
  | cons p ps ih =>
    obtain ⟨buf₁, h₁, h₂⟩ := Option.bind_eq_some_iff.1 h
    obtain ⟨hlen, hbefore, heach⟩ := ih h₂
    rw [length_write h₁] at hlen heach
    refine ⟨hlen, fun o l ho => ?_, fun j q hq => ?_⟩
    · rw [hbefore o l (by omega), slice_write_before h₁ ho]
    · cases j with
      | zero =>
        obtain rfl : p = q := Option.some.inj hq
        rw [zero_mul, add_zero]
        refine ⟨(write_eq_some h₁).1, fun k hk hkp => ?_⟩
        have hsame := slice_write_same h₁
        rw [hbefore off k (Nat.add_le_add_left hk off)]
        calc slice buf₁ off k = (slice buf₁ off p.length).take k := by
              rw [slice, slice, take_take, min_eq_left hkp]
          _ = p.take k := by rw [hsame]
      | succ j =>
        have hj := heach j q hq
        rw [succ_mul]
        rw [show off + w + j * w = off + (j * w + w) by omega] at hj
        exact hj

/-- The number in `w` bytes of the buffer; `none`: the bytes are outside of it. -/
def readLe (w : ℕ) (buf : List UInt8) (off : ℕ) : Option ℕ :=
  if off + w ≤ buf.length then some (leNat (slice buf off w)) else none

theorem readLe_congr (hlen : b.length = c.length) (h : slice b off w = slice c off w) :
    readLe w b off = readLe w c off := by
  rw [readLe, readLe, hlen, h]

theorem readLe_of_slice {w n off : ℕ} {buf : List UInt8} (hlen : off + w ≤ buf.length)
    (h : slice buf off w = leBytes w n) : readLe w buf off = some (n % 2 ^ (8 * w)) := by
  rw [readLe, if_pos hlen, h, leNat_leBytes, pow_mul]
  rfl

/-- The part of the buffer; `none`: some of it is outside. -/
def readSlice (buf : List UInt8) (off len : ℕ) : Option (List UInt8) :=
  if off + len ≤ buf.length then some (slice buf off len) else none

theorem readSlice_eq_some {r : List UInt8} :
    readSlice buf off len = some r ↔ off + len ≤ buf.length ∧ slice buf off len = r := by
  rw [readSlice]
  split
  · rename_i hfit
    simp [hfit]
  · rename_i hfit
    simp [hfit]

/-- The numbers one after the other, in `w` bytes each. -/
def leList (w : ℕ) (ns : List ℕ) : List UInt8 := ns.flatMap (leBytes w)

theorem leList_cons (w n : ℕ) (ns : List ℕ) : leList w (n :: ns) = leBytes w n ++ leList w ns := rfl

@[simp] theorem length_leList (w : ℕ) (ns : List ℕ) : (leList w ns).length = ns.length * w := by
  induction ns with
  | nil => simp [leList]
  | cons n ns ih =>
    rw [leList_cons, List.length_append, length_leBytes, ih, List.length_cons]
    ring

theorem slice_flatten {parts : List (List UInt8)} (hw : ∀ p ∈ parts, p.length = w) {k : ℕ}
    (hk : k < parts.length) : slice parts.flatten (k * w) w = parts[k] := by
  induction parts generalizing k with
  | nil => simp at hk
  | cons p parts ih =>
    have hp : p.length = w := hw p (by simp)
    rw [flatten_cons]
    cases k with
    | zero =>
      rw [slice_append_left (by omega), zero_mul, ← hp, slice_zero_length]
      rfl
    | succ k =>
      have hk' : k < parts.length := by
        rw [length_cons] at hk
        omega
      rw [slice_append_right (by rw [succ_mul]; omega), hp,
        show (k + 1) * w - w = k * w by rw [succ_mul]; omega,
        ih (fun q hq => hw q (by simp [hq])) hk']
      rfl

theorem length_flatten_of_length {parts : List (List UInt8)} (hw : ∀ p ∈ parts, p.length = w) :
    parts.flatten.length = parts.length * w := by
  induction parts with
  | nil => simp
  | cons p parts ih =>
    rw [flatten_cons, length_append, hw p (by simp), ih fun q hq => hw q (by simp [hq]),
      length_cons]
    ring

variable {ns : List ℕ}

theorem slice_leList {k : ℕ} (hk : k < ns.length) :
    slice (leList w ns) (k * w) w = leBytes w ns[k] := by
  rw [leList, flatMap_def, slice_flatten (by simp) (by simpa using hk), getElem_map]

theorem slice_add (b : List UInt8) (o l l' : ℕ) :
    slice b o (l + l') = slice b o l ++ slice b (o + l) l' := by
  rw [slice, slice, slice, take_add, drop_drop]

theorem slice_eq_leList {base : ℕ}
    (h : ∀ j, (hj : j < ns.length) → slice b (base + j * w) w = leBytes w ns[j]) :
    slice b base (ns.length * w) = leList w ns := by
  induction ns generalizing base with
  | nil => simp [slice, leList]
  | cons n ns ih =>
    have hhead := h 0 (by simp)
    have htail := @ih (base + w) fun j hj => by
      have hslot := h (j + 1) (by simpa using hj)
      rw [succ_mul] at hslot
      rw [show base + w + j * w = base + (j * w + w) by omega, hslot]
      rfl
    rw [zero_mul, add_zero] at hhead
    rw [length_cons, succ_mul, add_comm (ns.length * w) w, slice_add, hhead, htail]
    rfl

/-- Consecutive numbers of `w` bytes; `none`: outside of the buffer. -/
def readList (w : ℕ) (buf : List UInt8) (off n : ℕ) : Option (List ℕ) :=
  (List.range n).mapM fun i => readLe w buf (off + i * w)

theorem readList_of_slice (hlen : off + ns.length * w ≤ buf.length)
    (h : slice buf off (ns.length * w) = leList w ns) (hns : ∀ n ∈ ns, n < 2 ^ (8 * w)) :
    readList w buf off ns.length = some ns := by
  apply mapM_range_of_getElem?
  intro i hi
  have hend : i * w + w ≤ ns.length * w := by
    rw [← succ_mul]
    exact mul_le_mul_right w hi
  have hslice : slice (slice buf off (ns.length * w)) (i * w) w = slice buf (off + i * w) w :=
    slice_slice hend
  rw [h, slice_leList hi] at hslice
  rw [readLe_of_slice (by omega) hslice.symm, getElem?_eq_getElem hi,
    mod_eq_of_lt (hns _ (getElem_mem hi))]

theorem map_range_eq {α : Type*} {f : ℕ → α} {l : List α}
    (h : ∀ k x, l[k]? = some x → f k = x) : (List.range l.length).map f = l := by
  apply ext_getElem
  · rw [length_map, length_range]
  · intro k _ hk
    rw [getElem_map, getElem_range]
    exact h k _ (getElem?_eq_getElem hk)

theorem map_leNat_eq (h : slice buf off (ns.length * w) = leList w ns)
    (hns : ∀ n ∈ ns, n < 256 ^ w) :
    (List.range ns.length).map (fun k => leNat (slice buf (off + k * w) w)) = ns := by
  refine map_range_eq fun k x hk => ?_
  obtain ⟨hlt, hget⟩ := List.getElem?_eq_some_iff.1 hk
  have hend : k * w + w ≤ ns.length * w := by
    rw [← succ_mul]
    exact mul_le_mul_right w hlt
  have hslice : slice (slice buf off (ns.length * w)) (k * w) w = slice buf (off + k * w) w :=
    slice_slice hend
  rw [h, slice_leList hlt, hget] at hslice
  rw [← hslice, leNat_leBytes]
  exact mod_eq_of_lt (hns x (mem_of_getElem? hk))

end DiskANNEval.Lib
