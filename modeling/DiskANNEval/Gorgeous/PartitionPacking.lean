import DiskANNEval.Gorgeous.GraphPartition

/-!
# PartitionPacking — the first packing

The nodes in the order in which they are packed, cut into pieces of `C`, are the partitions
(`Packed`): all before the partition `pid` are full, and there is room in `pid` or the next one while
a node is left.  The locked partitions are the first ones, so all of them are full unless they are all.
-/

namespace DiskANNEval.Gorgeous

open List Function Nat

namespace GraphPartitioner

variable {F : Type} {g : GraphPartitioner F}

theorem nd_le (g : GraphPartitioner F) : g.nd ≤ g.partitionNumber * g.C := by
  have hdiv := div_add_mod g.nd g.C
  have hmod := mod_lt g.nd g.C_pos
  rw [partitionNumber, Nat.mul_div_cancel _ g.C_pos, add_mul, Nat.mul_comm]
  split_ifs <;> omega

/-- Each node is in one partition, which `id2pid` names. -/
structure EachOnce (g : GraphPartitioner F) (partition : ℕ → List ℕ) (id2pid : ℕ → Option ℕ) :
    Prop where
  length : ∀ p, (partition p).length ≤ g.C
  nodup : ∀ p, (partition p).Nodup
  mem : ∀ i p, i ∈ partition p ↔ id2pid i = some p
  lt : ∀ i p, id2pid i = some p → i < g.nd ∧ p < g.partitionNumber
  all : ∀ i < g.nd, ∃ p, id2pid i = some p

/-- A locked partition is full, unless all nodes are locked. -/
structure LocksOk (g : GraphPartitioner F) (locks : Locks) (partition : ℕ → List ℕ) : Prop where
  lt : ∀ p, locks.pids p = true → p < g.partitionNumber
  nodes : ∀ i, locks.nodes i = true ↔ ∃ p, locks.pids p = true ∧ i ∈ partition p
  full : (∀ p, locks.pids p = true → (partition p).length = g.C) ∨ ∀ i < g.nd, locks.nodes i = true

/-- The nodes `placed` are packed. -/
structure Packed (g : GraphPartitioner F) (placed : List ℕ) (s : Packing) : Prop where
  nodup : placed.Nodup
  lt : ∀ i ∈ placed, i < g.nd
  vis : ∀ i, s.vis i = true ↔ i ∈ placed
  chunk : ∀ p, s.partition p = (placed.drop (p * g.C)).take g.C
  low : s.pid * g.C ≤ placed.length
  high : placed.length ≤ (s.pid + 1) * g.C
  id2pid : ∀ i p, s.id2pid i = some p ↔ i ∈ s.partition p

variable {placed : List ℕ} {s : Packing}

theorem Packed.length_partition (h : Packed g placed s) (p : ℕ) :
    (s.partition p).length = min g.C (placed.length - p * g.C) := by
  rw [h.chunk, List.length_take, length_drop]

theorem Packed.length_pid (h : Packed g placed s) :
    (s.partition s.pid).length = placed.length - s.pid * g.C := by
  have hhigh := h.high
  rw [succ_mul] at hhigh
  rw [h.length_partition]
  omega

variable {p i m : ℕ}

theorem Packed.full (h : Packed g placed s) (hp : p < s.pid) : (s.partition p).length = g.C := by
  have hlow := h.low
  have hle : (p + 1) * g.C ≤ s.pid * g.C := mul_le_mul_right _ hp
  rw [succ_mul] at hle
  rw [h.length_partition]
  omega

theorem Packed.empty (h : Packed g placed s) (hp : s.pid < p) : s.partition p = [] := by
  have hhigh := h.high
  have hle : (s.pid + 1) * g.C ≤ p * g.C := mul_le_mul_right _ hp
  rw [h.chunk, drop_eq_nil_of_le (by omega), take_nil]

theorem Packed.next (h : Packed g placed s) (hfull : (s.partition s.pid).length = g.C) :
    Packed g placed { s with pid := s.pid + 1 } ∧ s.partition (s.pid + 1) = [] := by
  have hpid := h.length_pid
  have hpos := g.C_pos
  refine ⟨⟨h.nodup, h.lt, h.vis, h.chunk, ?_, ?_, h.id2pid⟩, h.empty (lt_succ_self _)⟩
  · show (s.pid + 1) * g.C ≤ placed.length
    rw [succ_mul]
    omega
  · show placed.length ≤ (s.pid + 1 + 1) * g.C
    exact h.high.trans (mul_le_mul_right _ (le_succ _))

theorem Packed.pushNode (h : Packed g placed s) (hi : i < g.nd) (hnot : i ∉ placed)
    (hroom : (s.partition s.pid).length ≠ g.C) :
    ∃ s', g.pushNode s i = some s' ∧ Packed g (placed ++ [i]) s' ∧ s'.pid = s.pid ∧
      s'.lockNums = s.lockNums ∧ s'.lockPids = s.lockPids := by
  have hlow := h.low
  have hhigh := h.high
  have hpid := h.length_pid
  have hnodup : (placed ++ [i]).Nodup := nodup_append'.2
    ⟨h.nodup, nodup_singleton i, fun j hj hj' => hnot (mem_singleton.1 hj' ▸ hj)⟩
  have hlt : ∀ j ∈ placed ++ [i], j < g.nd := by
    intro j hj
    obtain hj | hj := mem_append.1 hj
    · exact h.lt j hj
    · exact mem_singleton.1 hj ▸ hi
  rw [succ_mul] at hhigh
  have hpn : s.pid < g.partitionNumber := by
    have hsub : (placed ++ [i]).length ≤ g.nd := by
      have := (hnodup.subperm fun j hj => List.mem_range.2 (hlt j hj)).length_le
      rwa [length_range] at this
    have hnd := g.nd_le
    rw [length_append, length_singleton] at hsub
    by_contra hge
    have hle : g.partitionNumber * g.C ≤ s.pid * g.C := mul_le_mul_right _ (by omega)
    omega
  have hchunk : ∀ p, Function.update s.partition s.pid (s.partition s.pid ++ [i]) p =
      ((placed ++ [i]).drop (p * g.C)).take g.C := by
    intro p
    obtain hp | rfl | hp := Nat.lt_trichotomy p s.pid
    · have hle : (p + 1) * g.C ≤ s.pid * g.C := mul_le_mul_right _ hp
      rw [succ_mul] at hle
      rw [update_of_ne (by omega), h.chunk, drop_append_of_le_length (by omega),
        take_append_of_le_length (by rw [length_drop]; omega)]
    · rw [update_self, h.chunk, drop_append_of_le_length hlow,
        take_of_length_le (by rw [length_drop]; omega),
        take_of_length_le (by
          rw [length_append, length_drop, length_singleton]
          omega)]
    · have hle : (s.pid + 1) * g.C ≤ p * g.C := mul_le_mul_right _ hp
      rw [succ_mul] at hle
      rw [update_of_ne (by omega), h.empty hp, drop_eq_nil_of_le, take_nil]
      rw [length_append, length_singleton]
      omega
  refine ⟨_, if_pos hpn, ⟨hnodup, hlt, fun j => ?_, hchunk, ?_, ?_, fun j p => ?_⟩, rfl, rfl, rfl⟩
  · show Function.update s.vis i true j = true ↔ j ∈ placed ++ [i]
    rw [mem_append, mem_singleton, ← h.vis]
    by_cases hj : j = i
    · rw [hj, update_self]
      exact ⟨fun _ => Or.inr rfl, fun _ => rfl⟩
    · rw [update_of_ne hj]
      exact ⟨Or.inl, fun h' => h'.resolve_right hj⟩
  · show s.pid * g.C ≤ (placed ++ [i]).length
    rw [length_append]
    omega
  · show (placed ++ [i]).length ≤ (s.pid + 1) * g.C
    rw [length_append, length_singleton, succ_mul]
    omega
  · show Function.update s.id2pid i (some s.pid) j = some p ↔
      j ∈ Function.update s.partition s.pid (s.partition s.pid ++ [i]) p
    by_cases hj : j = i
    · subst hj
      rw [update_self, Option.some_inj]
      constructor
      · rintro rfl
        rw [update_self]
        exact mem_append_right _ (mem_singleton_self j)
      · intro hmem
        by_contra hne
        rw [update_of_ne fun he => hne he.symm, h.chunk] at hmem
        exact hnot (mem_of_mem_drop (mem_of_mem_take hmem))
    · rw [update_of_ne hj, h.id2pid]
      by_cases hp : p = s.pid
      · rw [hp, update_self, mem_append, mem_singleton]
        exact ⟨Or.inl, fun h' => h'.resolve_right hj⟩
      · rw [update_of_ne hp]

/-- The neighbours of a node are packed behind it; the next partition may have been opened. -/
theorem Packed.packNeighbors {ns : List ℕ} (h : Packed g placed s) (hns : ∀ n ∈ ns, n < g.nd) :
    ∃ s' placed', g.packNeighbors ns s = some s' ∧ Packed g placed' s' ∧ placed ⊆ placed' ∧
      s'.lockNums = s.lockNums ∧ s'.lockPids = s.lockPids ∧
      (s'.pid = s.pid ∨ s'.pid = s.pid + 1 ∧ s'.partition s'.pid = []) := by
  induction ns generalizing placed s with
  | nil => exact ⟨s, placed, rfl, h, Subset.refl _, rfl, rfl, Or.inl rfl⟩
  | cons n ns ih =>
    have hns' : ∀ n ∈ ns, n < g.nd := fun k hk => hns k (mem_cons_of_mem _ hk)
    rw [GraphPartitioner.packNeighbors]
    by_cases hvis : s.vis n = true
    · rw [if_pos hvis]
      exact ih h hns'
    · rw [if_neg hvis]
      by_cases hfull : (s.partition s.pid).length = g.C
      · rw [if_pos hfull]
        obtain ⟨h', hempty⟩ := h.next hfull
        exact ⟨_, placed, rfl, h', Subset.refl _, rfl, rfl, Or.inr ⟨rfl, hempty⟩⟩
      · rw [if_neg hfull]
        obtain ⟨s₁, hs₁, h₁, hpid, hnums, hpids⟩ := h.pushNode (hns n mem_cons_self)
          (fun hn => hvis ((h.vis n).2 hn)) hfull
        rw [hs₁]
        obtain ⟨s', placed', hs', h', hsub, hnums', hpids', hor⟩ := ih h₁ hns'
        refine ⟨s', placed', hs', h', fun k hk => hsub (mem_append_left _ hk),
          hnums'.trans hnums, hpids'.trans hpids, ?_⟩
        rw [hpid] at hor
        exact hor

/-- The locked partitions are the first `m` ones; while there are nodes to lock the next node goes into
one of them or into the one behind them. -/
structure LockedTo (g : GraphPartitioner F) (placed : List ℕ) (s : Packing) (m : ℕ) : Prop where
  pids : ∀ p, s.lockPids p = true ↔ p < m
  used : ∀ p < m, p * g.C < placed.length
  le : m ≤ s.pid + 1
  next : 0 < s.lockNums → m = s.pid + 1 ∨ m = s.pid ∧ s.partition s.pid = []

theorem Packed.pushLock (h : Packed g placed s) (hl : LockedTo g placed s m) (hi : i < g.nd)
    (hnot : i ∉ placed) : ∃ s₁ s₂ m',
      g.pushNode (if (s.partition s.pid).length = g.C then { s with pid := s.pid + 1 } else s) i =
        some s₁ ∧ lockPid s₁ = s₂ ∧ Packed g (placed ++ [i]) s₂ ∧ s₂.lockNums = s.lockNums ∧
      (∀ p, s₂.lockPids p = true ↔ p < m') ∧ (∀ p < m', p * g.C < (placed ++ [i]).length) ∧
      m' ≤ s₂.pid + 1 ∧
      (0 < s.lockNums → m' = s₂.pid + 1) := by
  have hpos := g.C_pos
  -- the partition with room, and that `m` has not got behind
  obtain ⟨t, ht, ht', hroom, hnums, hpids, hle, hnext⟩ : ∃ t : Packing,
      (if (s.partition s.pid).length = g.C then { s with pid := s.pid + 1 } else s) = t ∧
      Packed g placed t ∧ (t.partition t.pid).length ≠ g.C ∧ t.lockNums = s.lockNums ∧
      t.lockPids = s.lockPids ∧ m ≤ t.pid + 1 ∧ (0 < s.lockNums → t.pid ≤ m) := by
    by_cases hfull : (s.partition s.pid).length = g.C
    · obtain ⟨h', hempty⟩ := h.next hfull
      refine ⟨_, if_pos hfull, h', ?_, rfl, rfl, hl.le.trans (le_succ _), fun hlock => ?_⟩
      · show (s.partition (s.pid + 1)).length ≠ g.C
        rw [hempty, length_nil]
        omega
      · show s.pid + 1 ≤ m
        obtain hm | ⟨-, hnil⟩ := hl.next hlock
        · omega
        · rw [hnil, length_nil] at hfull
          omega
    · refine ⟨s, if_neg hfull, h, hfull, rfl, rfl, hl.le, fun hlock => ?_⟩
      obtain hm | ⟨hm, -⟩ := hl.next hlock <;> omega
  obtain ⟨s₁, hs₁, h₁, hpid₁, hnums₁, hpids₁⟩ := ht'.pushNode hi hnot hroom
  rw [ht]
  by_cases hlock : 0 < s.lockNums
  · have hs₂ : lockPid s₁ = { s₁ with lockPids := Function.update s₁.lockPids s₁.pid true } := by
      rw [lockPid, if_pos (by rw [hnums₁, hnums]; exact hlock)]
    refine ⟨s₁, _, s₁.pid + 1, hs₁, hs₂, ⟨h₁.nodup, h₁.lt, h₁.vis, h₁.chunk, h₁.low, h₁.high,
      h₁.id2pid⟩, hnums₁.trans hnums, fun p => ?_, fun p hp => ?_, le_rfl, fun _ => rfl⟩
    rotate_left
    · have hlow := ht'.low
      have hle : p * g.C ≤ t.pid * g.C := mul_le_mul_right _ (by omega)
      rw [length_append, length_singleton]
      omega
    show Function.update s₁.lockPids s₁.pid true p = true ↔ p < s₁.pid + 1
    by_cases hp : p = s₁.pid
    · rw [hp, update_self]
      exact ⟨fun _ => lt_succ_self _, fun _ => rfl⟩
    · rw [update_of_ne hp, hpids₁, hpids, hl.pids]
      omega
  · have hs₂ : lockPid s₁ = s₁ := by
      rw [lockPid, if_neg (by rw [hnums₁, hnums]; exact hlock)]
    refine ⟨s₁, s₁, m, hs₁, hs₂, h₁, hnums₁.trans hnums, fun p => ?_, fun p hp => ?_, ?_,
      fun hlock' => absurd hlock' hlock⟩
    · rw [hpids₁, hpids, hl.pids]
    · rw [length_append]
      exact (hl.used p hp).trans_le (le_add_right _ _)
    · rw [hpid₁]
      exact hle

theorem Packed.packNode (h : Packed g placed s) (hl : LockedTo g placed s m) (hi : i < g.nd) :
    ∃ s' placed' m', g.packNode s i = some s' ∧ Packed g placed' s' ∧ LockedTo g placed' s' m' ∧
      placed ⊆ placed' ∧ i ∈ placed' := by
  rw [GraphPartitioner.packNode]
  by_cases hvis : s.vis i = true
  · rw [if_pos hvis]
    refine ⟨_, placed, m, rfl, ⟨h.nodup, h.lt, h.vis, h.chunk, h.low, h.high, h.id2pid⟩,
      ⟨hl.pids, hl.used, hl.le, fun hlock => hl.next ?_⟩, Subset.refl _, (h.vis i).1 hvis⟩
    have hlock' : 0 < s.lockNums - 1 := hlock
    omega
  · rw [if_neg hvis]
    obtain ⟨s₁, s₂, m', hs₁, rfl, h₂, hnums₂, hpids₂, hused, hle, hnext⟩ :=
      h.pushLock hl hi fun hm => hvis ((h.vis i).2 hm)
    obtain ⟨s₃, placed', hs₃, h₃, hsub, hnums₃, hpids₃, hor⟩ :=
      h₂.packNeighbors fun n hn => g.fullGraph_lt i n hn
    refine ⟨{ s₃ with lockNums := if s₃.lockNums ≠ 0 then s₃.lockNums - 1 else s₃.lockNums }, placed',
      m', ?_, ⟨h₃.nodup, h₃.lt, h₃.vis, h₃.chunk, h₃.low, h₃.high, h₃.id2pid⟩, ⟨fun p => ?_,
      fun p hp => ?_, ?_, fun hlock => ?_⟩, fun k hk => hsub (mem_append_left _ hk),
      hsub (mem_append_right _ (mem_singleton_self i))⟩
    · show Option.bind _ _ = _
      rw [hs₁]
      show Option.bind (g.packNeighbors (g.fullGraph i) (lockPid s₁)) _ = _
      rw [hs₃]
      rfl
    · show s₃.lockPids p = true ↔ p < m'
      rw [hpids₃]
      exact hpids₂ p
    · exact (hused p hp).trans_le (h₂.nodup.subperm hsub).length_le
    · show m' ≤ s₃.pid + 1
      obtain hpid | ⟨hpid, -⟩ := hor <;> omega
    · have hlock' : 0 < if s₃.lockNums ≠ 0 then s₃.lockNums - 1 else s₃.lockNums := hlock
      have hm := hnext (by rw [← hnums₂]; split_ifs at hlock' <;> omega)
      show m' = s₃.pid + 1 ∨ m' = s₃.pid ∧ s₃.partition s₃.pid = []
      obtain hpid | ⟨hpid, hempty⟩ := hor
      · exact Or.inl (by rw [hm, hpid])
      · exact Or.inr ⟨by rw [hm, hpid], hempty⟩

theorem Packed.foldlM_packNode (stream : List ℕ) (h : Packed g placed s)
    (hl : LockedTo g placed s m) (hlt : ∀ i ∈ stream, i < g.nd) :
    ∃ s' placed' m', stream.foldlM g.packNode s = some s' ∧ Packed g placed' s' ∧ LockedTo g placed' s' m' ∧
      placed ⊆ placed' ∧ ∀ i ∈ stream, i ∈ placed' := by
  induction stream generalizing placed s m with
  | nil => exact ⟨s, placed, m, rfl, h, hl, Subset.refl _, fun i hi => absurd hi not_mem_nil⟩
  | cons i stream ih =>
    obtain ⟨s₁, placed₁, m₁, hs₁, h₁, hl₁, hsub₁, hmem⟩ := h.packNode hl (hlt i mem_cons_self)
    obtain ⟨s', placed', m', hs', h', hl', hsub, hall⟩ :=
      ih h₁ hl₁ fun k hk => hlt k (mem_cons_of_mem _ hk)
    refine ⟨s', placed', m', ?_, h', hl', Subset.trans hsub₁ hsub, fun k hk => ?_⟩
    · rw [foldlM_cons, hs₁]
      exact hs'
    · obtain rfl | hk := mem_cons.1 hk
      · exact hsub hmem
      · exact hall k hk

theorem mem_initStream (g : GraphPartitioner F) (i : ℕ) : i ∈ g.initStream ↔ i < g.nd := by
  rw [initStream]
  split_ifs with hnil
  · exact List.mem_range
  · rw [(g.freq_perm.resolve_left hnil).mem_iff, List.mem_range]

theorem Packed.exists_mem (h : Packed g placed s) (hi : i ∈ placed) : ∃ p, i ∈ s.partition p := by
  obtain ⟨k, hk⟩ := mem_iff_getElem?.1 hi
  refine ⟨k / g.C, mem_iff_getElem?.2 ⟨k % g.C, ?_⟩⟩
  rw [h.chunk, getElem?_take_of_lt (mod_lt k g.C_pos), getElem?_drop, mul_comm,
    div_add_mod]
  exact hk

theorem Packed.mul_lt (h : Packed g placed s) (hi : i ∈ s.partition p) :
    p * g.C < placed.length := by
  have hpos := length_pos_of_mem hi
  rw [h.length_partition] at hpos
  omega

theorem mem_takeWhile_range {f : ℕ → Bool} {n : ℕ} (hf : ∀ p, f p = true ↔ p < m) (p : ℕ) :
    p ∈ (List.range n).takeWhile f ↔ p < n ∧ p < m := by
  constructor
  · intro hp
    exact ⟨List.mem_range.1 ((takeWhile_sublist f).subset hp), (hf p).1 (mem_takeWhile_imp hp)⟩
  · rintro ⟨hn, hm⟩
    obtain ⟨k, rfl⟩ := Nat.exists_eq_add_of_le (succ_le_of_lt hn)
    rw [range_add, takeWhile_append_of_pos]
    · exact mem_append_left _ (List.mem_range.2 (lt_succ_self p))
    · intro q hq
      have hq' := List.mem_range.1 hq
      exact (hf q).2 (by omega)

theorem pack_spec (g : GraphPartitioner F) (lockNums : ℤ) :
    ∃ s, g.pack lockNums = some s ∧ EachOnce g s.partition s.id2pid ∧
      LocksOk g ⟨s.lockPids, g.lockNodes s⟩ s.partition := by
  have hstart : Packed g [] ⟨fun _ => [], fun _ => none, fun _ => false, 0, lockNums,
      fun _ => false⟩ := by
    refine ⟨nodup_nil, fun i hi => absurd hi not_mem_nil, fun i => ?_, fun p => ?_, ?_,
      zero_le _, fun i p => ?_⟩
    · exact ⟨fun h => (Bool.false_ne_true h).elim, fun h => absurd h not_mem_nil⟩
    · show [] = _
      rw [drop_nil, take_nil]
    · show 0 * g.C ≤ 0
      rw [zero_mul]
    · exact ⟨fun h => absurd h (Option.some_ne_none p).symm, fun h => absurd h not_mem_nil⟩
  obtain ⟨s, placed, m, hs, h, hl, -, hall⟩ := hstart.foldlM_packNode g.initStream
    ⟨fun p => ⟨fun h => (Bool.false_ne_true h).elim, fun h => absurd h (not_lt_zero p)⟩,
      fun p hp => absurd hp (not_lt_zero p), zero_le _, fun _ => Or.inr ⟨rfl, rfl⟩⟩ fun i hi => (mem_initStream g i).1 hi
  have hmem : ∀ i, i ∈ placed ↔ i < g.nd := fun i =>
    ⟨h.lt i, fun hi => hall i ((mem_initStream g i).2 hi)⟩
  have hlen : placed.length ≤ g.nd := by
    have := (h.nodup.subperm fun i hi => List.mem_range.2 (h.lt i hi)).length_le
    rwa [length_range] at this
  have hpn : ∀ {p}, p * g.C < placed.length → p < g.partitionNumber := fun {p} hp =>
    Nat.lt_of_mul_lt_mul_right (hp.trans_le (hlen.trans g.nd_le))
  have hpart : ∀ {i p}, i ∈ s.partition p → i ∈ placed := by
    intro i p hi
    rw [h.chunk] at hi
    exact mem_of_mem_drop (mem_of_mem_take hi)
  refine ⟨s, hs, ⟨fun p => ?_, fun p => ?_, fun i p => (h.id2pid i p).symm, fun i p hip => ?_,
    fun i hi => ?_⟩, ⟨fun p hp => hpn (hl.used p ((hl.pids p).1 hp)), fun i => ?_, ?_⟩⟩
  · rw [h.length_partition]
    exact min_le_left _ _
  · rw [h.chunk]
    exact h.nodup.sublist ((take_sublist _ _).trans (drop_sublist _ _))
  · have hi := (h.id2pid i p).1 hip
    exact ⟨h.lt i (hpart hi), hpn (h.mul_lt hi)⟩
  · obtain ⟨p, hp⟩ := h.exists_mem ((hmem i).2 hi)
    exact ⟨p, (h.id2pid i p).2 hp⟩
  · show g.lockNodes s i = true ↔ ∃ p, s.lockPids p = true ∧ i ∈ s.partition p
    rw [lockNodes, any_eq_true]
    constructor
    · rintro ⟨p, hp, hi⟩
      exact ⟨p, (hl.pids p).2 ((mem_takeWhile_range hl.pids p).1 hp).2, of_decide_eq_true hi⟩
    · rintro ⟨p, hp, hi⟩
      exact ⟨p, (mem_takeWhile_range hl.pids p).2 ⟨hpn (h.mul_lt hi), (hl.pids p).1 hp⟩,
        decide_eq_true hi⟩
  · obtain hle | hgt := le_or_gt m s.pid
    · refine Or.inl fun p hp => h.full ?_
      have hpm := (hl.pids p).1 hp
      omega
    · -- the last partition is locked
      refine Or.inr fun i hi => ?_
      obtain ⟨p, hp⟩ := h.exists_mem ((hmem i).2 hi)
      have hpid : p ≤ s.pid := by
        by_contra hlt
        rw [h.empty (by omega)] at hp
        exact absurd hp not_mem_nil
      show g.lockNodes s i = true
      rw [lockNodes, any_eq_true]
      exact ⟨p, (mem_takeWhile_range hl.pids p).2 ⟨hpn (h.mul_lt hp), by omega⟩, decide_eq_true hp⟩

end GraphPartitioner

end DiskANNEval.Gorgeous
