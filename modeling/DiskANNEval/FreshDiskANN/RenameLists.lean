import DiskANNEval.FreshDiskANN.IndexMerger

/-!
# RenameLists — the ids of the inserted points

The offset ids of the points grow, and so do the ids that are handed out to them; so the two sorted
lists of pairs are each other's inverse (`rename_eq_some`).  Each id behind the old disk index is
handed out (`lt_or_renamed`).
-/

namespace DiskANNEval.FreshDiskANN

open Lib List

/-! ### Sorted pairs -/

theorem lookupId_eq_some {pairs : List (ℕ × ℕ)} (h : pairs.Pairwise fun p q => p.1 < q.1)
    {a b : ℕ} : lookupId pairs a = some b ↔ (a, b) ∈ pairs := by
  induction pairs with
  | nil => simp [lookupId]
  | cons p pairs ih =>
    obtain ⟨hlt, h⟩ := pairwise_cons.1 h
    rw [mem_cons]
    by_cases hp : a ≤ p.1
    · have hnot : (a, b) ∉ pairs := fun hm => absurd (hlt _ hm) (by simpa using hp)
      rw [lookupId, find?_cons_of_pos (by simpa using hp)]
      dsimp only
      split_ifs with ha
      · rw [Option.some.injEq, or_iff_left hnot, Prod.ext_iff]
        exact ⟨fun hb => ⟨ha.symm, hb.symm⟩, fun hb => hb.2.symm⟩
      · refine iff_of_false (by simp) (not_or.2 ⟨fun he => ha ?_, hnot⟩)
        rw [← he]
    · rw [lookupId, find?_cons_of_neg (by simpa using hp)]
      refine (ih h).trans ⟨.inr, fun hm => hm.resolve_left fun he => hp ?_⟩
      rw [← he]

variable {xs ys : List ℕ}

theorem pairwise_zip (h : xs.Pairwise (· < ·)) : (xs.zip ys).Pairwise fun p q => p.1 < q.1 := by
  induction xs generalizing ys with
  | nil => exact Pairwise.nil
  | cons x xs ih =>
    cases ys with
    | nil => exact Pairwise.nil
    | cons y ys =>
      obtain ⟨hlt, h⟩ := pairwise_cons.1 h
      exact pairwise_cons.2 ⟨fun p hp => hlt _ (of_mem_zip hp).1, ih h⟩

theorem mem_zip_comm {a b : ℕ} : (a, b) ∈ xs.zip ys ↔ (b, a) ∈ ys.zip xs := by
  rw [← zip_swap, mem_map]
  constructor
  · rintro ⟨p, hp, he⟩
    obtain rfl : p = (b, a) := by rw [← Prod.swap_swap p, he]; rfl
    exact hp
  · exact fun h => ⟨(b, a), h, rfl⟩

theorem map_fst_zip_eq_take : (xs.zip ys).map Prod.fst = xs.take ys.length := by
  induction xs generalizing ys with
  | nil => simp
  | cons x xs ih =>
    cases ys with
    | nil => rfl
    | cons y ys =>
      rw [zip_cons_cons, map_cons, ih, length_cons, take_succ_cons]

namespace IndexMerger

variable {D Code Tag : Type} [DecidableEq Tag] {m : IndexMerger D Code Tag}

/-! ### Offset ids -/

omit [DecidableEq Tag] in
theorem le_roundUp (x : ℕ) {y : ℕ} (hy : 0 < y) : x ≤ roundUp x y := by
  have h := Nat.div_add_mod x y
  have hlt := Nat.mod_lt x hy
  rw [roundUp, Nat.mul_comm]
  split_ifs with hr
  · rw [Nat.mul_add]
    omega
  · rw [Nat.add_zero]
    omega

variable {pts : List (Vec × Tag)} {j o i id : ℕ}

theorem mem_survivors : j ∈ m.survivors pts ↔ ∃ p, pts[j]? = some p ∧ p.2 ∉ m.deletedTags := by
  simp only [survivors, mem_map, mem_filter, mem_zipIdx_iff_getElem?,
    decide_eq_true_eq]
  constructor
  · rintro ⟨x, ⟨hx, hdel⟩, rfl⟩
    exact ⟨x.1, hx, hdel⟩
  · rintro ⟨p, hp, hdel⟩
    exact ⟨(p, j), ⟨hp, hdel⟩, rfl⟩

theorem pairwise_survivors (pts : List (Vec × Tag)) : (m.survivors pts).Pairwise (· < ·) := by
  have hsub : (m.survivors pts).Sublist (pts.zipIdx.map Prod.snd) := filter_sublist.map _
  refine Pairwise.sublist hsub ?_
  rw [zipIdx_map_snd]
  exact pairwise_lt_range'

theorem mem_inserts : (o, j) ∈ m.inserts ↔
    ∃ i pts p, m.mem[i]? = some pts ∧ pts[j]? = some p ∧ p.2 ∉ m.deletedTags ∧
      o = m.offsetId i + j := by
  simp only [inserts, mem_flatMap, mem_map, mem_survivors, mem_zipIdx_iff_getElem?,
    Prod.mk.injEq]
  constructor
  · rintro ⟨x, hx, j', ⟨p, hp, hdel⟩, rfl, rfl⟩
    exact ⟨x.2, x.1, p, hx, hp, hdel, rfl⟩
  · rintro ⟨i, pts, p, hi, hp, hdel, rfl⟩
    exact ⟨(pts, i), hi, j, ⟨p, hp, hdel⟩, rfl, rfl⟩

theorem lt_of_mem_survivors (hi : m.mem[i]? = some pts) (hj : j ∈ m.survivors pts) :
    j < indexOffset := by
  obtain ⟨p, hp, -⟩ := mem_survivors.1 hj
  have h1 : j < pts.length := (List.getElem?_eq_some_iff.1 hp).1
  have h2 := m.mem_small pts (mem_of_getElem? hi)
  have h3 : maxPtsPerMemIndex ≤ indexOffset := by decide
  omega

omit [DecidableEq Tag] in
theorem offsetId_lt {i' : ℕ} (h : i < i') : m.offsetId i + indexOffset ≤ m.offsetId i' := by
  have hmul := Nat.mul_le_mul_right indexOffset h
  rw [Nat.succ_mul] at hmul
  rw [offsetId, offsetId]
  omega

theorem pairwise_inserts : (m.inserts.map Prod.fst).Pairwise (· < ·) := by
  rw [pairwise_map, inserts, pairwise_flatMap]
  refine ⟨fun x _ => ?_, ?_⟩
  · refine pairwise_map.2 ((pairwise_survivors x.1).imp ?_)
    intro a b hab
    exact Nat.add_lt_add_left hab _
  · have hidx : m.mem.zipIdx.Pairwise fun x y => x.2 < y.2 := by
      have h := @pairwise_lt_range' 0 m.mem.length 1 (by decide)
      rw [← zipIdx_map_snd] at h
      exact pairwise_map.1 h
    refine hidx.imp_of_mem ?_
    rintro x y hx - hxy a ha b hb
    obtain ⟨j, hj, rfl⟩ := mem_map.1 ha
    obtain ⟨j', -, rfl⟩ := mem_map.1 hb
    have h1 := lt_of_mem_survivors (mem_zipIdx_iff_getElem?.1 hx) hj
    have h2 := offsetId_lt (m := m) hxy
    show m.offsetId x.2 + j < m.offsetId y.2 + j'
    omega

omit [DecidableEq Tag] in
theorem npts_le_offsetId (i : ℕ) : m.diskNpts ≤ m.offsetId i :=
  (le_roundUp m.diskNpts (by decide)).trans (Nat.le_add_right _ _)

omit [DecidableEq Tag] in
theorem memPoint_offsetId (hi : m.mem[i]? = some pts) (hj : j < indexOffset) :
    m.memPoint (m.offsetId i + j) = pts[j]? := by
  have hzero : m.offsetId i = m.offsetId 0 + i * indexOffset := by
    rw [offsetId, offsetId, Nat.zero_mul, Nat.add_zero]
  have hidx : m.indexId (m.offsetId i + j) = some i := by
    rw [indexId, if_neg (by omega), hzero,
      show m.offsetId 0 + i * indexOffset + j - m.offsetId 0 = j + i * indexOffset by omega,
      Nat.add_mul_div_right _ _ (by decide), Nat.div_eq_of_lt hj, Nat.zero_add]
  rw [memPoint, hidx, Option.bind_eq_bind, Option.bind_some, hi, Option.bind_eq_bind,
    Option.bind_some, Nat.add_sub_cancel_left]

/-! ### Free ids -/

theorem mem_holes :
    id ∈ m.holes ↔ id < m.diskNpts ∧ (m.repaired id = [] ∨ id ∈ m.diskDeletedIds) := by
  simp [holes]

theorem pairwise_freeIds : m.freeIds.Pairwise (· < ·) := by
  refine pairwise_append.2 ⟨pairwise_lt_range.filter _, pairwise_lt_range', ?_⟩
  intro a ha b hb
  have h1 := (mem_holes.1 ha).1
  have h2 := (mem_range'_1.1 hb).1
  omega

theorem length_inserts_le_mul : m.inserts.length ≤ m.mem.length * maxPtsPerMemIndex := by
  have hsum : ∀ n ∈ m.mem.zipIdx.map fun x => ((m.survivors x.1).map fun j =>
      (m.offsetId x.2 + j, j)).length, n ≤ maxPtsPerMemIndex := by
    intro n hn
    obtain ⟨x, hx, rfl⟩ := mem_map.1 hn
    have hlt := m.mem_small x.1 (mem_of_getElem? (mem_zipIdx_iff_getElem?.1 hx))
    have hle : (m.survivors x.1).length ≤ x.1.length := by
      rw [survivors, length_map]
      exact (length_filter_le _ _).trans (Nat.le_of_eq length_zipIdx)
    rw [length_map]
    exact hle.trans hlt.le
  have hle := sum_le_card_nsmul _ _ hsum
  rw [length_map, length_zipIdx] at hle
  rwa [inserts, length_flatMap]

theorem length_inserts_le : m.inserts.length ≤ m.freeIds.length := by
  rw [freeIds, length_append, length_range']
  omega

/-- The ids that are handed out. -/
def usedIds (m : IndexMerger D Code Tag) : List ℕ := m.freeIds.take m.inserts.length

theorem map_fst_inverseList : m.inverseList.map Prod.fst = m.usedIds := by
  rw [inverseList, map_fst_zip_eq_take, length_map, usedIds]

theorem map_snd_inverseList : m.inverseList.map Prod.snd = m.inserts.map Prod.fst := by
  refine map_snd_zip ?_
  rw [length_map]
  exact length_inserts_le

theorem rename_eq_some_iff : m.rename o = some id ↔ (o, id) ∈ m.renameList :=
  lookupId_eq_some (pairwise_zip pairwise_inserts)

theorem renameInverse_eq_some_iff : m.renameInverse id = some o ↔ (id, o) ∈ m.inverseList :=
  lookupId_eq_some (pairwise_zip pairwise_freeIds)

theorem rename_eq_some : m.rename o = some id ↔ m.renameInverse id = some o :=
  rename_eq_some_iff.trans (mem_zip_comm.trans renameInverse_eq_some_iff.symm)

theorem mem_usedIds : id ∈ m.usedIds ↔ ∃ o, m.renameInverse id = some o := by
  simp only [← map_fst_inverseList, mem_map, renameInverse_eq_some_iff]
  constructor
  · rintro ⟨p, hp, rfl⟩
    exact ⟨p.2, hp⟩
  · rintro ⟨o, ho⟩
    exact ⟨(id, o), ho, rfl⟩

theorem exists_rename (h : (o, j) ∈ m.inserts) : ∃ id, m.rename o = some id := by
  have hmem : o ∈ m.inverseList.map Prod.snd := by
    rw [map_snd_inverseList]
    exact mem_map.2 ⟨(o, j), h, rfl⟩
  obtain ⟨p, hp, rfl⟩ := mem_map.1 hmem
  exact ⟨p.1, rename_eq_some.2 (renameInverse_eq_some_iff.2 hp)⟩

theorem mem_inserts_of_renameInverse (h : m.renameInverse id = some o) :
    ∃ j, (o, j) ∈ m.inserts := by
  have hmem : o ∈ m.inserts.map Prod.fst := by
    rw [← map_snd_inverseList]
    exact mem_map_of_mem (renameInverse_eq_some_iff.1 h)
  obtain ⟨x, hx, rfl⟩ := mem_map.1 hmem
  exact ⟨x.2, hx⟩

theorem rename_eq_none (h : id < m.offsetId 0) : m.rename id = none := by
  rw [Option.eq_none_iff_forall_ne_some]
  intro id' hid
  obtain ⟨j, hj⟩ := mem_inserts_of_renameInverse (rename_eq_some.1 hid)
  obtain ⟨i, -, -, -, -, -, ho⟩ := mem_inserts.1 hj
  have hle : m.offsetId 0 ≤ m.offsetId i := Nat.add_le_add_left (Nat.mul_le_mul_right _ (Nat.zero_le i)) _
  omega

theorem newNpts_eq_some {n : ℕ} (h : m.newNpts = some n) :
    m.inserts ≠ [] ∧ m.diskNpts ≤ n ∧ (∀ id ∈ m.usedIds, id < n) ∧
      ∀ id < n, id < m.diskNpts ∨ id ∈ m.usedIds := by
  obtain ⟨p, hlast, rfl⟩ := Option.map_eq_some_iff.1 h
  have hpw : m.usedIds.Pairwise (· < ·) := pairwise_freeIds.sublist (take_sublist _ _)
  have hlast' : m.usedIds.getLast? = some p.1 := by
    rw [← map_fst_inverseList, getLast?_map, hlast, Option.map_some]
  obtain ⟨used, hused⟩ := getLast?_eq_some_iff.1 hlast'
  have hle : ∀ id ∈ m.usedIds, id ≤ p.1 := by
    intro id hid
    rw [hused] at hid hpw
    obtain hid | hid := mem_append.1 hid
    · exact ((pairwise_append.1 hpw).2.2 id hid p.1 (mem_singleton_self _)).le
    · exact (mem_singleton.1 hid).le
  refine ⟨?_, by omega, fun id hid => by have := hle id hid; omega, fun id hid => ?_⟩
  · intro hnil
    rw [usedIds, hnil] at hlast'
    cases hlast'
  · by_cases hlt : id < m.diskNpts
    · exact .inl hlt
    · -- the ids behind the old index are handed out in order, after all others
      have hpmem : p.1 ∈ m.usedIds := by simp [hused]
      obtain hgt | hle' := Nat.lt_or_ge m.holes.length m.inserts.length
      · have hall : m.usedIds = m.freeIds := by
          rw [usedIds, take_of_length_le]
          rw [freeIds, length_append, length_range']
          omega
        rw [hall] at hpmem ⊢
        obtain hpm | hpm := mem_append.1 hpmem
        · have := (mem_holes.1 hpm).1
          omega
        · have h1 := mem_range'_1.1 hpm
          refine .inr (mem_append_right _ (mem_range'_1.2 ?_))
          omega
      · rw [usedIds, freeIds, take_append_of_le_length hle'] at hpmem
        have := (mem_holes.1 (mem_of_mem_take hpmem)).1
        omega

end IndexMerger

end DiskANNEval.FreshDiskANN
