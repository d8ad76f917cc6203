import DiskANNEval.Gorgeous.PartitionRounds
import DiskANNEval.Lib.KeySet
import DiskANNEval.Lib.Loops

/-!
# ScaledPartition — `graph_partition` with a scale factor

With a scale factor other than one, the first nodes have a partition of their own each, which is
filled with copies of neighbours; the other nodes go into the partitions behind, as in
`GraphPartition`. A neighbour is copied without a look at what is in the partition, and there are
mutexes for the partitions without copies only.  `rightRuns_iff` says when the partitions are what
they should be.
-/

namespace DiskANNEval.Gorgeous

open Lib List Option Function Nat

/-- A partitioner with a scale factor.  With a frequency list the process exits, for a factor other
than one.  `sortByCnt` is `std::sort` by the second component. -/
structure ScaledPartitioner (F : Type) extends GraphPartitioner F where
  two_le : 2 ≤ C
  scaleFactor : ℕ
  accepted : scaleFactor = 1 ∨ freqList = []
  sortByCnt : List (ℕ × ℕ) → List (ℕ × ℕ)
  sort_perm : ∀ l, (sortByCnt l).Perm l
  sort_sorted : ∀ l, (sortByCnt l).Pairwise fun a b => a.2 ≤ b.2

/-- `_partition`, `aux_id2pid` and `store_cnt` -/
structure Copies where
  partition : ℕ → List ℕ
  auxId2pid : ℕ → List ℕ
  storeCnt : ℕ → ℕ

namespace ScaledPartitioner

variable {F : Type} (r : ScaledPartitioner F)

/-! ### The numbers -/

def scale : ℕ := if r.scaleFactor = 0 then r.C else r.scaleFactor

/-- `_partition_number` -/
def partitionCount : ℕ :=
  if r.scale ≠ 1 then
    (r.nd * r.scale / r.C + if r.nd * r.scale % r.C ≠ 0 then 1 else 0) * r.C / r.C
  else r.partitionNumber

/-- `n_primary_partition` -/
def nPrimary : ℕ := if r.scale ≠ 1 then (r.C * r.partitionCount - r.nd) / (r.C - 1) else 0

/-- The constructor adds the mutexes. -/
def mutexCount : ℕ := r.partitionNumber

/-! ### The partitions with copies -/

def copiesStart : Copies where
  partition := fun p => if p < r.nPrimary then [p] else []
  auxId2pid := fun _ => []
  storeCnt := fun i => if i < r.nPrimary then 1 else 0

/-- A neighbour is copied, while there is room. -/
def copyNbr (pid : ℕ) (st : Copies) (s : ℕ) : Copies :=
  if (st.partition pid).length = r.C then st
  else
    { partition := Function.update st.partition pid (st.partition pid ++ [s])
      auxId2pid := Function.update st.auxId2pid s (st.auxId2pid s ++ [pid])
      storeCnt := Function.update st.storeCnt s (st.storeCnt s + 1) }

/-- The neighbours of the `i`th node of a partition, those with few copies first. -/
def nbrsAt (st : Copies) (pid i : ℕ) : List ℕ :=
  match (st.partition pid)[i]? with
  | some node => (r.sortByCnt ((r.fullGraph node).map fun s => (s, st.storeCnt s))).map Prod.fst
  | none => []

def copyNbrs (pid : ℕ) (st : Copies) (i : ℕ) : Copies :=
  (r.nbrsAt st pid i).foldl (r.copyNbr pid) st

/-- The loop over the nodes of a partition while it grows; it has at most `C`. -/
def growPartition (st : Copies) (pid : ℕ) : Copies := (List.range r.C).foldl (r.copyNbrs pid) st

def copies : Copies := (List.range r.nPrimary).foldl r.growPartition r.copiesStart

/-- `id2pid` behind `scaled_graph_partition_primary` -/
def primaryPid (i : ℕ) : Option ℕ := if i < r.nPrimary then some i else none

/-- `none`: a node or a partition that there is not. -/
def partitionPrimary : Option Copies :=
  if r.nd < r.nPrimary ∨ r.partitionCount < r.nPrimary then none else some r.copies

/-! ### The other nodes -/

def initStream : List ℕ :=
  if r.freqList = [] then (List.range r.nd).drop r.nPrimary else r.freqList

/-- A node is put into the partition `pid`; `none` when there is no such partition. -/
def pushNode (s : Packing) (i : ℕ) : Option Packing :=
  if s.pid < r.partitionCount then
    some { s with
      vis := Function.update s.vis i true
      partition := Function.update s.partition s.pid (s.partition s.pid ++ [i])
      id2pid := Function.update s.id2pid i (some s.pid) }
  else none

/-- The loop over the neighbours of a node; the first nodes have their partitions. -/
def packNeighbors : List ℕ → Packing → Option Packing
  | [], s => some s
  | n :: rest, s =>
    if s.vis n ∨ n < r.nPrimary then packNeighbors rest s
    else if (s.partition s.pid).length = r.C then some { s with pid := s.pid + 1 }
    else (r.pushNode s n).bind (packNeighbors rest)

/-- The body of the loop over the stream. -/
def packNode (s : Packing) (i : ℕ) : Option Packing :=
  if s.vis i then some { s with lockNums := s.lockNums - 1 }
  else
    let s := if (s.partition s.pid).length = r.C then { s with pid := s.pid + 1 } else s
    (r.pushNode s i).bind fun s =>
      (r.packNeighbors (r.fullGraph i) (GraphPartitioner.lockPid s)).map fun s =>
        { s with lockNums := if s.lockNums ≠ 0 then s.lockNums - 1 else s.lockNums }

def packStart (st : Copies) (lockNums : ℤ) : Packing :=
  ⟨st.partition, r.primaryPid, fun _ => false, r.nPrimary, lockNums, fun _ => false⟩

def pack (st : Copies) (lockNums : ℤ) : Option Packing :=
  r.initStream.foldlM r.packNode (r.packStart st lockNums)

/-- The partitions behind those with copies. -/
def others : List ℕ := (List.range r.partitionCount).drop r.nPrimary

def lockNodes (s : Packing) (i : ℕ) : Bool :=
  (r.others.takeWhile s.lockPids).any fun p => i ∈ s.partition p

/-- The beginning of a round: the partitions with copies stay. -/
def LdgStart (locks : Locks) (partition : ℕ → List ℕ) (id2pid : ℕ → Option ℕ) (w : LdgState F) :
    Prop :=
  (w.partition = fun p => if p < r.nPrimary ∨ locks.pids p then partition p else []) ∧
    w.id2pid = id2pid ∧ w.freeQ.Perm (r.others.filter fun p => !locks.pids p) ∧
    w.task = fun i =>
      if (r.nPrimary ≤ i ∧ i < r.nd) ∧ locks.nodes i = false then .idle else .done

inductive LdgReach (locks : Locks) (partition : ℕ → List ℕ) (id2pid : ℕ → Option ℕ) :
    LdgState F → Prop where
  | start {w} (h : r.LdgStart locks partition id2pid w) : LdgReach locks partition id2pid w
  | step {w w' i} (hw : LdgReach locks partition id2pid w) (h : r.LdgStep w i w') :
    LdgReach locks partition id2pid w'

inductive Rounds (locks : Locks) (partition : ℕ → List ℕ) (id2pid : ℕ → Option ℕ) :
    ℕ → (ℕ → List ℕ) → (ℕ → Option ℕ) → Prop where
  | zero : Rounds locks partition id2pid 0 partition id2pid
  | succ {k p d w} (hk : Rounds locks partition id2pid k p d) (hw : LdgReach r locks p d w)
    (hdone : ∀ i, w.task i = .done) : Rounds locks partition id2pid (k + 1) w.partition w.id2pid

/-! ### What the partitions should be -/

structure Right (partition : ℕ → List ℕ) (id2pid : ℕ → Option ℕ) (auxId2pid : ℕ → List ℕ) :
    Prop where
  divisors : r.C ≠ 0 ∧ r.C - 1 ≠ 0
  first : ∀ p < r.nPrimary, (partition p).head? = some p
  distinct : ∀ p < r.nPrimary, (partition p).Nodup ∧ (partition p).length ≤ r.C
  own : ∀ p < r.nPrimary, id2pid p = some p
  aux : ∀ s < r.nd, (auxId2pid s).Nodup ∧
    ∀ q, q ∈ auxId2pid s ↔ s ∈ partition q ∧ id2pid s ≠ some q
  rest : ∀ i, r.nPrimary ≤ i → i < r.nd → ∃ q < r.mutexCount, id2pid i = some q ∧ i ∈ partition q ∧
    ∀ q', r.nPrimary ≤ q' → i ∈ partition q' → q' = q

/-- No access is out of bounds, and the partitions are right, after any number of rounds. -/
def RightRuns (lockNums : ℤ) : Prop :=
  ∃ st, r.partitionPrimary = some st ∧
    if r.nPrimary = r.nd then r.Right st.partition r.primaryPid st.auxId2pid
    else ∃ s, r.pack st lockNums = some s ∧
      ∀ k p d, r.Rounds ⟨s.lockPids, r.lockNodes s⟩ s.partition s.id2pid k p d →
        r.Right p d st.auxId2pid

/-- The neighbour is not in the partition yet, or it is not copied. -/
def FreshCopy (pid : ℕ) (st : Copies) (s : ℕ) : Prop :=
  (st.partition pid).length = r.C ∨ s ∉ st.partition pid

instance (pid : ℕ) (st : Copies) (s : ℕ) : Decidable (r.FreshCopy pid st s) :=
  inferInstanceAs (Decidable (_ ∨ _))

/-- Each copy is fresh, for the neighbours of a node, for a partition, and for all of them. -/
def FreshNbrs (pid : ℕ) (st : Copies) (i : ℕ) : Prop :=
  StepsMeet (r.FreshCopy pid) (r.copyNbr pid) (r.nbrsAt st pid i) st

def FreshPartition (st : Copies) (pid : ℕ) : Prop :=
  StepsMeet (r.FreshNbrs pid) (r.copyNbrs pid) (List.range r.C) st

def Fresh : Prop := StepsMeet r.FreshPartition r.growPartition (List.range r.nPrimary) r.copiesStart

/-! ### The copies are fresh -/

variable {r} {st : Copies} {pid : ℕ}

/-- The partitions while they grow, when all copies are fresh. -/
structure Growing (r : ScaledPartitioner F) (st : Copies) : Prop where
  first : ∀ p < r.nPrimary, (st.partition p).head? = some p
  nodup : ∀ p, (st.partition p).Nodup
  length : ∀ p, (st.partition p).length ≤ r.C
  empty : ∀ p, r.nPrimary ≤ p → st.partition p = []
  auxNodup : ∀ s, (st.auxId2pid s).Nodup
  aux : ∀ s q, q ∈ st.auxId2pid s ↔ s ∈ st.partition q ∧ s ≠ q

theorem growing_start : Growing r r.copiesStart := by
  have hC := r.two_le
  have hpart : ∀ p, r.copiesStart.partition p = if p < r.nPrimary then [p] else [] := fun _ => rfl
  refine ⟨fun p hp => ?_, fun p => ?_, fun p => ?_, fun p hp => ?_, fun s => nodup_nil,
    fun s q => ?_⟩
  · rw [hpart, if_pos hp]
    rfl
  · rw [hpart]
    split_ifs
    · exact nodup_singleton p
    · exact nodup_nil
  · rw [hpart]
    split_ifs
    · exact (le_succ 1).trans hC
    · exact zero_le _
  · rw [hpart, if_neg (not_lt.2 hp)]
  · refine iff_of_false not_mem_nil ?_
    rintro ⟨hs, hne⟩
    rw [hpart] at hs
    split_ifs at hs
    · exact hne (mem_singleton.1 hs)
    · exact absurd hs not_mem_nil

theorem Growing.copyNbr (h : Growing r st) (hpid : pid < r.nPrimary) {s : ℕ}
    (hs : r.FreshCopy pid st s) : Growing r (r.copyNbr pid st s) := by
  rw [ScaledPartitioner.copyNbr]
  split_ifs with hfull
  · exact h
  have hnot : s ∉ st.partition pid := hs.resolve_left hfull
  have hlt : (st.partition pid).length < r.C := lt_of_le_of_ne (h.length pid) hfull
  have hfirst := h.first pid hpid
  have hne : s ≠ pid := fun he => hnot (by rw [he]; exact mem_of_mem_head? hfirst)
  have hmem : ∀ q x, x ∈ Function.update st.partition pid (st.partition pid ++ [s]) q ↔
      x ∈ st.partition q ∨ q = pid ∧ x = s := by
    intro q x
    by_cases hq : q = pid
    · subst hq
      rw [update_self, mem_append, mem_singleton]
      exact or_congr_right ⟨fun hx => ⟨rfl, hx⟩, And.right⟩
    · rw [update_of_ne hq]
      exact ⟨Or.inl, fun hx => hx.resolve_right fun hx => hq hx.1⟩
  refine ⟨fun p hp => ?_, fun p => ?_, fun p => ?_, fun p hp => ?_, fun x => ?_, fun x q => ?_⟩
  · show (Function.update st.partition pid _ p).head? = some p
    by_cases hq : p = pid
    · subst hq
      rw [update_self, head?_append, hfirst]
      rfl
    · rw [update_of_ne hq]
      exact h.first p hp
  · show (Function.update st.partition pid _ p).Nodup
    by_cases hq : p = pid
    · subst hq
      rw [update_self, nodup_append]
      refine ⟨h.nodup p, nodup_singleton s, fun a ha b hb hab => ?_⟩
      rw [mem_singleton.1 hb] at hab
      exact hnot (hab ▸ ha)
    · rw [update_of_ne hq]
      exact h.nodup p
  · show (Function.update st.partition pid _ p).length ≤ r.C
    by_cases hq : p = pid
    · subst hq
      rw [update_self, length_append]
      exact hlt
    · rw [update_of_ne hq]
      exact h.length p
  · show Function.update st.partition pid _ p = []
    rw [update_of_ne (by omega)]
    exact h.empty p hp
  · show (Function.update st.auxId2pid s _ x).Nodup
    by_cases hx : x = s
    · subst hx
      rw [update_self, nodup_append]
      refine ⟨h.auxNodup x, nodup_singleton pid, fun a ha b hb hab => ?_⟩
      rw [mem_singleton.1 hb] at hab
      subst hab
      exact hnot ((h.aux x a).1 ha).1
    · rw [update_of_ne hx]
      exact h.auxNodup x
  · show q ∈ Function.update st.auxId2pid s _ x ↔ x ∈ Function.update st.partition pid _ q ∧ x ≠ q
    rw [hmem]
    by_cases hx : x = s
    · subst hx
      rw [update_self, mem_append, mem_singleton, h.aux]
      constructor
      · rintro (⟨hxq, hxne⟩ | rfl)
        · exact ⟨.inl hxq, hxne⟩
        · exact ⟨.inr ⟨rfl, rfl⟩, hne⟩
      · rintro ⟨hxq | ⟨rfl, -⟩, hxne⟩
        · exact .inl ⟨hxq, hxne⟩
        · exact .inr rfl
    · rw [update_of_ne hx, h.aux]
      exact and_congr_left fun _ => ⟨Or.inl, fun hxq => hxq.resolve_right fun hxq => hx hxq.2⟩

theorem Growing.growPartition (h : Growing r st) (hpid : pid < r.nPrimary)
    (hfresh : r.FreshPartition st pid) : Growing r (r.growPartition st pid) :=
  StepsMeet.keeps hfresh (fun _ hst _ _ hnbrs =>
    StepsMeet.keeps hnbrs (fun _ hst _ _ hs => hst.copyNbr hpid hs) hst) h

theorem growing_copies (hfresh : r.Fresh) : Growing r r.copies :=
  StepsMeet.keeps hfresh (fun _ hst _ hp hpart => hst.growPartition (List.mem_range.1 hp) hpart)
    growing_start

/-! ### A copy that is not fresh -/

variable (r) in
/-- A partition with copies has a node twice. -/
def Twice (st : Copies) : Prop := ∃ p < r.nPrimary, ¬ (st.partition p).Nodup

theorem twice_copyNbr {s : ℕ} (h : r.Twice st) : r.Twice (r.copyNbr pid st s) := by
  rw [ScaledPartitioner.copyNbr]
  split_ifs
  · exact h
  obtain ⟨p, hp, hdup⟩ := h
  refine ⟨p, hp, fun hnd => hdup ?_⟩
  dsimp only at hnd
  by_cases hq : p = pid
  · subst hq
    rw [update_self] at hnd
    exact hnd.of_append_left
  · rwa [update_of_ne hq] at hnd

theorem twice_of_not_freshCopy {s : ℕ} (hpid : pid < r.nPrimary) (h : ¬ r.FreshCopy pid st s) :
    r.Twice (r.copyNbr pid st s) := by
  obtain ⟨hroom, hmem⟩ := not_or.1 h
  rw [ScaledPartitioner.copyNbr, if_neg hroom]
  refine ⟨pid, hpid, fun hnd => ?_⟩
  dsimp only at hnd
  rw [update_self, nodup_append] at hnd
  exact hnd.2.2 s (not_not.1 hmem) s (mem_singleton_self s) rfl

theorem twice_copyNbrs {i : ℕ} (h : r.Twice st) : r.Twice (r.copyNbrs pid st i) :=
  foldlRecOn _ _ h fun _ h _ _ => twice_copyNbr h

theorem twice_growPartition (h : r.Twice st) : r.Twice (r.growPartition st pid) :=
  foldlRecOn _ _ h fun _ h _ _ => twice_copyNbrs h

theorem twice_copies (hfresh : ¬ r.Fresh) : r.Twice r.copies := by
  refine foldl_of_not_stepsMeet hfresh (fun _ _ => twice_growPartition) fun st p hp hpart => ?_
  refine foldl_of_not_stepsMeet hpart (fun _ _ => twice_copyNbrs) fun st i _ hnbrs => ?_
  exact foldl_of_not_stepsMeet hnbrs (fun _ _ => twice_copyNbr) fun st s _ =>
    twice_of_not_freshCopy (List.mem_range.1 hp)

/-! ### How many partitions there are -/

theorem roundUp_bounds {x n : ℕ} (hn : 0 < n) :
    x ≤ n * ((x / n + if x % n ≠ 0 then 1 else 0) * n / n) ∧
      n * ((x / n + if x % n ≠ 0 then 1 else 0) * n / n) < x + n := by
  have hdiv := div_add_mod x n
  have hmod := mod_lt x hn
  rw [Nat.mul_div_cancel _ hn, mul_add]
  split_ifs with h
  · omega
  · omega

theorem scale_ge (h : r.scale ≠ 1) : 2 ≤ r.scale := by
  have h2 := r.two_le
  rw [scale] at h ⊢
  split_ifs at h ⊢ with h0
  · exact h2
  · omega

variable (r) in
theorem partitionCount_bounds (h : r.scale ≠ 1) : 2 * r.nd ≤ r.C * r.partitionCount := by
  have hle : r.nd * 2 ≤ r.nd * r.scale := mul_le_mul_left _ (scale_ge h)
  rw [partitionCount, if_pos h]
  have := (roundUp_bounds (x := r.nd * r.scale) r.C_pos).1
  omega

variable (r) in
theorem mutexCount_bounds : r.nd ≤ r.C * r.mutexCount ∧ r.C * r.mutexCount < r.nd + r.C :=
  roundUp_bounds r.C_pos

variable (r) in
theorem nPrimary_bounds (h : r.scale ≠ 1) :
    r.nPrimary * (r.C - 1) ≤ r.C * r.partitionCount - r.nd ∧
      r.C * r.partitionCount - r.nd < (r.nPrimary + 1) * (r.C - 1) := by
  have hC := r.two_le
  rw [nPrimary, if_pos h]
  exact ⟨div_mul_le_self _ _,
    (lt_mul_div_succ _ (by omega)).trans_eq (mul_comm _ _)⟩

/-- When the other nodes have room in the partitions that there are mutexes for, there are no
partitions with copies. -/
theorem nPrimary_eq_zero (hlt : r.nPrimary < r.nd)
    (hroom : r.nd - r.nPrimary ≤ r.C * (r.mutexCount - r.nPrimary)) : r.nPrimary = 0 := by
  by_cases hs : r.scale = 1
  · rw [nPrimary, if_neg (not_not.2 hs)]
  by_contra hne
  have hC := r.two_le
  have hcount := partitionCount_bounds r hs
  obtain ⟨hm, hm'⟩ := mutexCount_bounds r
  obtain ⟨-, hp⟩ := nPrimary_bounds r hs
  generalize r.nPrimary = n at *
  generalize r.mutexCount = m at *
  generalize r.partitionCount = k at *
  generalize r.C = c at *
  obtain ⟨d, rfl⟩ := Nat.exists_eq_add_of_le' (show 1 ≤ c by omega)
  rw [Nat.add_sub_cancel] at hp
  have hnm : n < m := by
    by_contra hle
    rw [Nat.sub_eq_zero_of_le (Nat.le_of_not_lt hle)] at hroom
    omega
  -- one partition with copies, at most
  have hsub : (d + 1) * (m - n) = (d + 1) * m - (d + 1) * n := Nat.mul_sub _ _ _
  have hdn : (d + 1) * n = d * n + n := succ_mul _ _
  have hn : n = 1 := by
    by_contra hn
    have htwo : d * 2 ≤ d * n := mul_le_mul_left _ (by omega)
    omega
  subst hn
  rw [mul_one] at hdn
  -- and two mutexes
  have hm2 : m = 2 := by
    by_contra hm2
    have hthree : (d + 1) * 3 ≤ (d + 1) * m := mul_le_mul_left _ (by omega)
    omega
  subst hm2
  have hk : 3 ≤ k := by
    by_contra hk
    have htwo : (d + 1) * k ≤ (d + 1) * 2 := mul_le_mul_left _ (by omega)
    omega
  have hthree : (d + 1) * 3 ≤ (d + 1) * k := mul_le_mul_left _ hk
  omega

theorem partitionCount_eq (hnd : r.nd ≠ 0) (hzero : r.nPrimary = 0) :
    r.partitionCount = r.mutexCount := by
  by_cases hs : r.scale = 1
  · rw [partitionCount, if_neg (not_not.2 hs)]
    rfl
  have hcount := partitionCount_bounds r hs
  obtain ⟨hm, hm'⟩ := mutexCount_bounds r
  obtain ⟨-, hp⟩ := nPrimary_bounds r hs
  rw [hzero] at hp
  generalize r.mutexCount = m at *
  generalize r.partitionCount = k at *
  have hk : k = 1 := by
    obtain h0 | h2 : k = 0 ∨ k = 1 ∨ 2 ≤ k := by omega
    · rw [h0] at hcount
      omega
    · refine h2.resolve_right fun h2 => ?_
      have htwo : r.C * 2 ≤ r.C * k := mul_le_mul_left _ h2
      omega
  have hm1 : m = 1 := by
    obtain h0 | h2 : m = 0 ∨ m = 1 ∨ 2 ≤ m := by omega
    · rw [h0] at hm
      omega
    · refine h2.resolve_right fun h2 => ?_
      have htwo : r.C * 2 ≤ r.C * m := mul_le_mul_left _ h2
      rw [hk] at hcount hp
      omega
  rw [hk, hm1]

theorem le_partitionCount (heq : r.nPrimary = r.nd) : r.nPrimary ≤ r.partitionCount := by
  by_cases hs : r.scale = 1
  · rw [nPrimary, if_neg (not_not.2 hs)]
    exact zero_le _
  have hC := r.two_le
  have hcount := partitionCount_bounds r hs
  obtain ⟨hp, -⟩ := nPrimary_bounds r hs
  obtain ⟨d, hd⟩ := Nat.exists_eq_add_of_le' (show 1 ≤ r.C by omega)
  rw [heq, hd, Nat.add_sub_cancel] at hp
  rw [heq]
  rw [hd] at hcount
  refine Nat.le_of_mul_le_mul_left (c := d + 1) ?_ (succ_pos d)
  rw [succ_mul, Nat.mul_comm d]
  omega

/-! ### The other nodes behind the partitions with copies -/

theorem copyNbr_partition {s q : ℕ} (hq : q ≠ pid) :
    (r.copyNbr pid st s).partition q = st.partition q := by
  rw [copyNbr]
  split_ifs
  · rfl
  · exact update_of_ne hq _ _

theorem copies_partition {q : ℕ} (hq : r.nPrimary ≤ q) : r.copies.partition q = [] := by
  refine foldlRecOn (motive := fun st : Copies => st.partition q = []) _ _
    (if_neg (not_lt.2 hq)) fun st hst p hp => ?_
  have hne : q ≠ p := by
    have := List.mem_range.1 hp
    omega
  refine foldlRecOn (motive := fun st : Copies => st.partition q = []) _ _ hst
    fun st hst i _ => ?_
  exact foldlRecOn (motive := fun st : Copies => st.partition q = []) _ _ hst
    fun st hst s _ => (copyNbr_partition hne).trans hst

/-- The other nodes fill the partitions from the first one without copies on. -/
structure Behind (r : ScaledPartitioner F) (s : Packing) : Prop where
  pid_le : r.nPrimary ≤ s.pid
  length : ∀ q, r.nPrimary ≤ q → (s.partition q).length ≤ r.C
  empty : ∀ q, s.pid < q → s.partition q = []
  front : ∀ q < r.nPrimary, s.partition q = r.copies.partition q
  ids : ∀ i q, r.nPrimary ≤ i → s.id2pid i = some q → r.nPrimary ≤ q

variable {s s' : Packing}

theorem behind_start (lockNums : ℤ) : Behind r (r.packStart r.copies lockNums) := by
  refine ⟨le_rfl, fun q hq => ?_, fun q hq => copies_partition (le_of_lt hq), fun q _ => rfl,
    fun i q hi hid => ?_⟩
  · show (r.copies.partition q).length ≤ r.C
    rw [copies_partition hq]
    exact zero_le _
  · have hnone : r.primaryPid i = none := if_neg (not_lt.2 hi)
    exact absurd (hnone.symm.trans hid) (some_ne_none q).symm

theorem Behind.next (h : Behind r s) : Behind r { s with pid := s.pid + 1 } where
  pid_le := h.pid_le.trans (le_succ _)
  length := h.length
  empty := fun q hq => h.empty q (lt_of_succ_lt hq)
  front := h.front
  ids := h.ids

theorem Behind.pushNode (h : Behind r s) (hroom : (s.partition s.pid).length ≠ r.C) {i : ℕ}
    (hs : r.pushNode s i = some s') : Behind r s' := by
  rw [ScaledPartitioner.pushNode] at hs
  split_ifs at hs
  cases hs
  have hpid := h.pid_le
  refine ⟨hpid, fun q hq => ?_, fun q hq => ?_, fun q hq => ?_, fun j q hj hid => ?_⟩
  · show (Function.update s.partition s.pid _ q).length ≤ r.C
    by_cases heq : q = s.pid
    · subst heq
      rw [update_self, length_append]
      exact lt_of_le_of_ne (h.length _ hq) hroom
    · rw [update_of_ne heq]
      exact h.length q hq
  · show Function.update s.partition s.pid _ q = []
    have hq' : s.pid < q := hq
    rw [update_of_ne hq'.ne']
    exact h.empty q hq'
  · show Function.update s.partition s.pid _ q = r.copies.partition q
    rw [update_of_ne (hq.trans_le hpid).ne]
    exact h.front q hq
  · have hid' : Function.update s.id2pid i (some s.pid) j = some q := hid
    by_cases heq : j = i
    · rw [heq, update_self, Option.some.injEq] at hid'
      exact hid' ▸ hpid
    · rw [update_of_ne heq] at hid'
      exact h.ids j q hj hid'

theorem Behind.packNeighbors {ns : List ℕ} (h : Behind r s) (hs : r.packNeighbors ns s = some s') :
    Behind r s' := by
  induction ns generalizing s with
  | nil =>
    cases hs
    exact h
  | cons n ns ih =>
    rw [ScaledPartitioner.packNeighbors] at hs
    split_ifs at hs with hvis hfull
    · exact ih h hs
    · cases hs
      exact h.next
    · obtain ⟨s₁, hs₁, hs⟩ := bind_eq_some_iff.1 hs
      exact ih (h.pushNode hfull hs₁) hs

theorem Behind.lockPid (h : Behind r s) : Behind r (GraphPartitioner.lockPid s) := by
  rw [GraphPartitioner.lockPid]
  split_ifs
  · exact ⟨h.pid_le, h.length, h.empty, h.front, h.ids⟩
  · exact h

theorem Behind.packNode (h : Behind r s) {i : ℕ} (hs : r.packNode s i = some s') :
    Behind r s' := by
  rw [ScaledPartitioner.packNode] at hs
  split_ifs at hs with hvis hfull
  · cases hs
    exact ⟨h.pid_le, h.length, h.empty, h.front, h.ids⟩
  · obtain ⟨s₁, hs₁, hs⟩ := bind_eq_some_iff.1 hs
    obtain ⟨s₂, hs₂, rfl⟩ := map_eq_some_iff.1 hs
    have hroom : (s.partition (s.pid + 1)).length ≠ r.C := by
      rw [h.empty _ (lt_succ_self _)]
      exact r.C_pos.ne
    have h₂ := (h.next.pushNode hroom hs₁).lockPid.packNeighbors hs₂
    exact ⟨h₂.pid_le, h₂.length, h₂.empty, h₂.front, h₂.ids⟩
  · obtain ⟨s₁, hs₁, hs⟩ := bind_eq_some_iff.1 hs
    obtain ⟨s₂, hs₂, rfl⟩ := map_eq_some_iff.1 hs
    have h₂ := (h.pushNode hfull hs₁).lockPid.packNeighbors hs₂
    exact ⟨h₂.pid_le, h₂.length, h₂.empty, h₂.front, h₂.ids⟩

theorem behind_of_pack {lockNums : ℤ} (hs : r.pack r.copies lockNums = some s) : Behind r s :=
  foldlM_keeps (behind_start lockNums) (fun _ h _ _ _ hs => h.packNode hs) hs

theorem Behind.room (h : Behind r s)
    (hrest : ∀ i, r.nPrimary ≤ i → i < r.nd → ∃ q < r.mutexCount, s.id2pid i = some q ∧
      i ∈ s.partition q) : r.nd - r.nPrimary ≤ r.C * (r.mutexCount - r.nPrimary) := by
  have hsub : Finset.Ico r.nPrimary r.nd ⊆
      (Finset.Ico r.nPrimary r.mutexCount).biUnion fun q => (s.partition q).toFinset := by
    intro i hi
    obtain ⟨hle, hlt⟩ := Finset.mem_Ico.1 hi
    obtain ⟨q, hq, hid, hmem⟩ := hrest i hle hlt
    exact Finset.mem_biUnion.2 ⟨q, Finset.mem_Ico.2 ⟨h.ids i q hle hid, hq⟩,
      List.mem_toFinset.2 hmem⟩
  have hcard : ∀ q ∈ Finset.Ico r.nPrimary r.mutexCount, (s.partition q).toFinset.card ≤ r.C :=
    fun q hq => (toFinset_card_le _).trans (h.length q (Finset.mem_Ico.1 hq).1)
  have hle := (Finset.card_le_card hsub).trans (Finset.card_biUnion_le_card_mul _ _ _ hcard)
  rw [card_Ico, card_Ico, mul_comm] at hle
  exact hle

/-! ### Without partitions with copies -/

theorem copies_of_zero (hzero : r.nPrimary = 0) :
    r.copies = ⟨fun _ => [], fun _ => [], fun _ => 0⟩ := by
  have hlt : ∀ i, ¬ i < r.nPrimary := fun i => by omega
  have hstart : r.copies = r.copiesStart := by
    rw [copies, hzero]
    rfl
  rw [hstart, copiesStart]
  simp only [hlt, if_false]

theorem pushNode_of_zero (hcount : r.partitionCount = r.mutexCount) :
    r.pushNode = r.toGraphPartitioner.pushNode := by
  funext s i
  rw [pushNode, hcount]
  rfl

theorem packNeighbors_of_zero (hzero : r.nPrimary = 0) (hcount : r.partitionCount = r.mutexCount) :
    r.packNeighbors = r.toGraphPartitioner.packNeighbors := by
  funext ns
  induction ns with
  | nil => rfl
  | cons n ns ih =>
    funext s
    rw [packNeighbors, GraphPartitioner.packNeighbors, hzero, pushNode_of_zero hcount, ih]
    simp only [not_lt_zero, or_false]

theorem packNode_of_zero (hzero : r.nPrimary = 0) (hcount : r.partitionCount = r.mutexCount) :
    r.packNode = r.toGraphPartitioner.packNode := by
  funext s i
  rw [packNode, pushNode_of_zero hcount,
    packNeighbors_of_zero hzero hcount]
  simp only [map_eq_bind]
  rfl

theorem pack_of_zero (hzero : r.nPrimary = 0) (hcount : r.partitionCount = r.mutexCount)
    (lockNums : ℤ) : r.pack r.copies lockNums = r.toGraphPartitioner.pack lockNums := by
  have hstart : r.packStart r.copies lockNums =
      ⟨fun _ => [], fun _ => none, fun _ => false, 0, lockNums, fun _ => false⟩ := by
    have hid : r.primaryPid = fun _ => none := by
      funext i
      exact if_neg (by omega)
    rw [packStart, copies_of_zero hzero, hid, hzero]
  rw [pack, hstart, initStream, packNode_of_zero hzero hcount, hzero]
  rfl

theorem others_of_zero (hzero : r.nPrimary = 0) (hcount : r.partitionCount = r.mutexCount) :
    r.others = List.range r.toGraphPartitioner.partitionNumber := by
  rw [others, hzero, hcount]
  rfl

variable {locks : Locks} {p₀ p : ℕ → List ℕ} {d₀ d : ℕ → Option ℕ} {k : ℕ}

theorem ldgReach_of_zero (hzero : r.nPrimary = 0) (hcount : r.partitionCount = r.mutexCount)
    {w : LdgState F} (h : r.LdgReach locks p₀ d₀ w) :
    r.toGraphPartitioner.LdgReach locks p₀ d₀ w := by
  induction h with
  | start hw =>
    obtain ⟨hpart, hid, hq, htask⟩ := hw
    rw [others_of_zero hzero hcount] at hq
    refine .start ⟨?_, hid, hq, ?_⟩
    · rw [hpart]
      rw [hzero]
      simp only [not_lt_zero, false_or]
    · rw [htask]
      rw [hzero]
      simp only [zero_le, true_and]
  | step _ hstep ih => exact .step ih hstep

theorem rounds_of_zero (hzero : r.nPrimary = 0) (hcount : r.partitionCount = r.mutexCount)
    (h : r.Rounds locks p₀ d₀ k p d) : r.toGraphPartitioner.Rounds locks p₀ d₀ k p d := by
  induction h with
  | zero => exact .zero
  | succ _ hw hdone ih => exact .succ ih (ldgReach_of_zero hzero hcount hw) hdone

/-! ### The result -/

variable (r) in
theorem divisors_ne_zero : r.C ≠ 0 ∧ r.C - 1 ≠ 0 := by
  have hC := r.two_le
  omega

theorem Growing.right (h : Growing r r.copies) (heq : r.nPrimary = r.nd) :
    r.Right r.copies.partition r.primaryPid r.copies.auxId2pid where
  divisors := divisors_ne_zero r
  first := h.first
  distinct := fun p _ => ⟨h.nodup p, h.length p⟩
  own := fun p hp => if_pos hp
  aux := fun s hs => by
    have hown : r.primaryPid s = some s := if_pos (heq ▸ hs)
    refine ⟨h.auxNodup s, fun q => (h.aux s q).trans (and_congr_right fun _ => ?_)⟩
    rw [hown, Ne, Ne, Option.some.injEq]
  rest := fun i hi hlt => absurd hlt (heq ▸ not_lt.2 hi)

theorem right_of_eachOnce (hzero : r.nPrimary = 0)
    (h : GraphPartitioner.EachOnce r.toGraphPartitioner p d) : r.Right p d r.copies.auxId2pid where
  divisors := divisors_ne_zero r
  first := fun q hq => absurd hq (by omega)
  distinct := fun q hq => absurd hq (by omega)
  own := fun q hq => absurd hq (by omega)
  aux := fun s _ => by
    rw [copies_of_zero hzero]
    refine ⟨nodup_nil, fun q => iff_of_false not_mem_nil ?_⟩
    rintro ⟨hs, hne⟩
    exact hne ((h.mem s q).1 hs)
  rest := fun i _ hi => by
    obtain ⟨q, hq⟩ := h.all i hi
    refine ⟨q, (h.lt i q hq).2, hq, (h.mem i q).2 hq, fun q' _ hq' => ?_⟩
    exact Option.some.inj (((h.mem i q').1 hq').symm.trans hq)

/-- The partitions are right exactly when all nodes or none have partitions with copies, and all
copies are fresh. -/
theorem rightRuns_iff (r : ScaledPartitioner F) (lockNums : ℤ) :
    r.RightRuns lockNums ↔ (r.nPrimary = 0 ∨ r.nPrimary = r.nd) ∧ r.Fresh := by
  constructor
  · rintro ⟨st, hst, hright⟩
    rw [partitionPrimary] at hst
    split_ifs at hst with hbound
    obtain rfl := Option.some.inj hst
    by_cases heq : r.nPrimary = r.nd
    · rw [if_pos heq] at hright
      refine ⟨.inr heq, ?_⟩
      by_contra hfresh
      obtain ⟨p, hp, hdup⟩ := twice_copies hfresh
      exact hdup (hright.distinct p hp).1
    · rw [if_neg heq] at hright
      obtain ⟨s, hs, hall⟩ := hright
      have hbehind := behind_of_pack hs
      have hzero := hall 0 _ _ .zero
      refine ⟨.inl (nPrimary_eq_zero (by omega) (hbehind.room fun i hi hlt => ?_)), ?_⟩
      · obtain ⟨q, hq, hid, hmem, -⟩ := hzero.rest i hi hlt
        exact ⟨q, hq, hid, hmem⟩
      · by_contra hfresh
        obtain ⟨p, hp, hdup⟩ := twice_copies hfresh
        rw [← hbehind.front p hp] at hdup
        exact hdup (hzero.distinct p hp).1
  · rintro ⟨hcount, hfresh⟩
    by_cases heq : r.nPrimary = r.nd
    · have hle := le_partitionCount heq
      refine ⟨r.copies, if_neg (by omega), ?_⟩
      rw [if_pos heq]
      exact (growing_copies hfresh).right heq
    · have hzero := hcount.resolve_right heq
      have hpart := partitionCount_eq (by omega) hzero
      refine ⟨r.copies, if_neg (by omega), ?_⟩
      rw [if_neg heq]
      obtain ⟨s, hs, honce, hlocks⟩ := GraphPartitioner.pack_spec r.toGraphPartitioner lockNums
      refine ⟨s, (pack_of_zero hzero hpart lockNums).trans hs, fun k p d hk => ?_⟩
      have hnodes : r.lockNodes s = r.toGraphPartitioner.lockNodes s := by
        funext i
        rw [lockNodes, others_of_zero hzero hpart]
        rfl
      rw [hnodes] at hk
      exact right_of_eachOnce hzero
        (GraphPartitioner.Rounds.eachOnce (rounds_of_zero hzero hpart hk) honce hlocks).1

end ScaledPartitioner

/-! ### Two nodes -/

theorem twoCycle_C_pos : 0 < 3 := by decide

theorem twoCycle_two_le : 2 ≤ 3 := by decide

theorem twoCycle_fullGraph_lt (i : ℕ) : ∀ n ∈ if i = 0 then [1] else [0], n < 2 := by
  intro n hn
  split_ifs at hn with h
  · rw [mem_singleton.1 hn]
    exact one_lt_two
  · rw [mem_singleton.1 hn]
    exact two_pos

theorem twoCycle_freq_perm : ([] : List ℕ) = [] ∨ ([] : List ℕ).Perm (List.range 2) := .inl rfl

theorem twoCycle_accepted : 0 = 1 ∨ ([] : List ℕ) = [] := .inr rfl

/-- A sort by the second component. -/
def sortCnt (l : List (ℕ × ℕ)) : List (ℕ × ℕ) := l.insertionSort fun a b => a.2 ≤ b.2

theorem sortCnt_perm (l : List (ℕ × ℕ)) : (sortCnt l).Perm l := perm_insertionSort _ l

theorem sortCnt_sorted (l : List (ℕ × ℕ)) : (sortCnt l).Pairwise fun a b => a.2 ≤ b.2 :=
  pairwise_insertionSort_key Prod.snd l

/-- Two nodes with an edge in each direction; both have a partition with copies. -/
def twoCycle : ScaledPartitioner ℕ where
  nd := 2
  C := 3
  C_pos := twoCycle_C_pos
  fullGraph := fun i => if i = 0 then [1] else [0]
  directGraph := fun i => if i = 0 then [1] else [0]
  reverseGraph := fun i => if i = 0 then [1] else [0]
  fullGraph_lt := twoCycle_fullGraph_lt
  freqList := []
  freq_perm := twoCycle_freq_perm
  score := fun cnt s => cnt - s
  gt := fun a b => b < a
  zero := 0
  two_le := twoCycle_two_le
  scaleFactor := 0
  accepted := twoCycle_accepted
  sortByCnt := sortCnt
  sort_perm := sortCnt_perm
  sort_sorted := sortCnt_sorted

/-- The first partition has node 0, its neighbour, and the neighbour's neighbour, node 0. -/
theorem not_rightRuns_twoCycle : twoCycle.copies.partition 0 = [0, 1, 0] ∧
    ¬ twoCycle.RightRuns 0 := by
  have hdup : twoCycle.copies.partition 0 = [0, 1, 0] := by decide +kernel
  refine ⟨hdup, ?_⟩
  rintro ⟨st, hst, hright⟩
  have hcopies : twoCycle.partitionPrimary = some twoCycle.copies := if_neg (by decide)
  obtain rfl := Option.some.inj (hcopies.symm.trans hst)
  rw [if_pos (by decide)] at hright
  have hnd := (hright.distinct 0 (by decide)).1
  rw [hdup] at hnd
  exact absurd hnd (by decide)

end DiskANNEval.Gorgeous
