import DiskANNEval.Gorgeous.PartitionPacking

/-!
# PartitionRounds — rounds of parallel `sync` calls

In a round a partition that has room is in the free queue, or a thread that popped it has not put it
back yet (`RoundInv`).  A thread that waits for the queue has not placed its node; so there is room
somewhere, and with an empty queue another thread holds that partition.
-/

namespace DiskANNEval.Gorgeous

open List Function

variable {F : Type}

/-- The node is in no partition yet. -/
def SyncTask.Out : SyncTask F → Prop
  | .placed _ _ _ => False
  | .done => False
  | _ => True

/-- The partitions a thread knows. -/
def SyncTask.pids : SyncTask F → List ℕ
  | .counting _ pcount => pcount.map Prod.fst
  | .looking rest _ res => rest.map Prod.fst ++ res.toList
  | .popped pid => [pid]
  | .selected pid _ => [pid]
  | .placed pid _ _ => [pid]
  | _ => []

/-- The partition that a thread has popped and not put back. -/
def SyncTask.held : SyncTask F → Option ℕ
  | .popped pid => some pid
  | .selected pid true => some pid
  | .placed pid true _ => some pid
  | _ => none

namespace GraphPartitioner

variable {g : GraphPartitioner F} {locks : Locks} {p₀ : ℕ → List ℕ} {d₀ : ℕ → Option ℕ}

/-- Within a round that started with the partitions `p₀`. -/
structure RoundInv (g : GraphPartitioner F) (locks : Locks) (p₀ : ℕ → List ℕ) (w : LdgState F) :
    Prop where
  length : ∀ p, (w.partition p).length ≤ g.C
  nodup : ∀ p, (w.partition p).Nodup
  locked : ∀ p, locks.pids p = true → w.partition p = p₀ p
  mem : ∀ i p, i ∈ w.partition p → w.id2pid i = some p
  lt : ∀ i p, w.id2pid i = some p → i < g.nd ∧ p < g.partitionNumber
  running : ∀ i, w.task i ≠ .done → i < g.nd ∧ locks.nodes i = false
  out : ∀ i, (w.task i).Out → ∀ p, i ∉ w.partition p
  placed : ∀ i < g.nd, ¬ (w.task i).Out → ∃ p, i ∈ w.partition p
  pids : ∀ i, ∀ p ∈ (w.task i).pids, p < g.partitionNumber
  freeQ : ∀ p ∈ w.freeQ, p < g.partitionNumber
  size : ∀ i p b s, w.task i = .placed p b s → s ≤ (w.partition p).length
  free : ∀ p < g.partitionNumber, locks.pids p = false → (w.partition p).length < g.C →
    p ∈ w.freeQ ∨ ∃ i, (w.task i).held = some p

theorem LdgStart.roundInv {w : LdgState F} (h : g.LdgStart locks p₀ d₀ w) (hp : EachOnce g p₀ d₀)
    (hl : LocksOk g locks p₀) : RoundInv g locks p₀ w := by
  obtain ⟨hpart, hid, hq, htask⟩ := h
  have hsub : ∀ i p, i ∈ w.partition p → locks.pids p = true ∧ i ∈ p₀ p := by
    intro i p hi
    rw [hpart] at hi
    dsimp only at hi
    split_ifs at hi with hlock
    · exact ⟨hlock, hi⟩
    · exact absurd hi not_mem_nil
  refine ⟨fun p => ?_, fun p => ?_, fun p hlock => ?_, fun i p hi => ?_, fun i p hi => ?_,
    fun i hi => ?_, fun i hi p hmem => ?_, fun i hi hout => ?_, fun i p hi => ?_, fun p hp => ?_,
    fun i p b s hi => ?_, fun p hpn hlock hroom => Or.inl ?_⟩
  · rw [hpart]
    dsimp only
    split_ifs
    · exact hp.length p
    · exact Nat.zero_le _
  · rw [hpart]
    dsimp only
    split_ifs
    · exact hp.nodup p
    · exact nodup_nil
  · rw [hpart]
    exact if_pos hlock
  · rw [hid]
    exact (hp.mem i p).1 (hsub i p hi).2
  · rw [hid] at hi
    exact hp.lt i p hi
  · rw [htask] at hi
    dsimp only at hi
    split_ifs at hi with hrun
    · exact hrun
    · exact absurd rfl hi
  · rw [htask] at hi
    dsimp only at hi
    split_ifs at hi with hrun
    · have hlocked := (hl.nodes i).2 ⟨p, hsub i p hmem⟩
      rw [hrun.2] at hlocked
      cases hlocked
    · exact hi
  · rw [htask] at hout
    dsimp only at hout
    have hlocked : locks.nodes i = true := by
      by_contra hne
      rw [if_pos ⟨hi, by simpa using hne⟩] at hout
      exact hout trivial
    obtain ⟨p, hlock, hmem⟩ := (hl.nodes i).1 hlocked
    refine ⟨p, ?_⟩
    rw [hpart]
    dsimp only
    rwa [if_pos hlock]
  · rw [htask] at hi
    dsimp only at hi
    split_ifs at hi <;> exact absurd hi not_mem_nil
  · exact List.mem_range.1 (mem_filter.1 (hq.mem_iff.1 hp)).1
  · rw [htask] at hi
    dsimp only at hi
    split_ifs at hi
  · exact hq.mem_iff.2 (mem_filter.2 ⟨List.mem_range.2 hpn, by rw [hlock]; rfl⟩)

variable {w : LdgState F} {i : ℕ} {t : SyncTask F}

theorem setTask_task (w : LdgState F) (i : ℕ) (t : SyncTask F) (j : ℕ) :
    (w.setTask i t).task j = if j = i then t else w.task j :=
  update_apply w.task i t j

/-- A step that leaves the partitions alone, and puts the partition that the thread may have held
back when it has room. -/
theorem RoundInv.setTask {q : List ℕ} (h : RoundInv g locks p₀ w) (hrun : w.task i ≠ .done)
    (hout : t.Out ↔ (w.task i).Out) (hpids : ∀ p ∈ t.pids, p < g.partitionNumber)
    (hq : ∀ p ∈ q, p < g.partitionNumber)
    (hsize : ∀ p b s, t ≠ .placed p b s)
    (hfree : ∀ p, (p ∈ w.freeQ ∨ (w.task i).held = some p) → (w.partition p).length < g.C →
      p ∈ q ∨ t.held = some p) :
    RoundInv g locks p₀ { w.setTask i t with freeQ := q } := by
  have htask : ∀ j, ({ w.setTask i t with freeQ := q } : LdgState F).task j =
      if j = i then t else w.task j := setTask_task w i t
  have hself : ({ w.setTask i t with freeQ := q } : LdgState F).task i = t := by
    rw [htask, if_pos rfl]
  refine ⟨h.length, h.nodup, h.locked, h.mem, h.lt, fun j hj => ?_, fun j hj => ?_,
    fun j hj hnot => ?_, fun j p hj => ?_, hq, fun j p b s hj => ?_, fun p hp hlock hroom => ?_⟩
  · by_cases hji : j = i
    · exact hji ▸ h.running i hrun
    · rw [htask, if_neg hji] at hj
      exact h.running j hj
  · rw [htask] at hj
    split_ifs at hj with hji
    · exact h.out j (hji ▸ hout.1 hj)
    · exact h.out j hj
  · rw [htask] at hnot
    split_ifs at hnot with hji
    · exact h.placed j hj (hji ▸ fun ho => hnot (hout.2 ho))
    · exact h.placed j hj hnot
  · rw [htask] at hj
    split_ifs at hj with hji
    · exact hpids p hj
    · exact h.pids j p hj
  · rw [htask] at hj
    split_ifs at hj with hji
    · exact absurd hj (hsize p b s)
    · exact h.size j p b s hj
  · have hback : (p ∈ w.freeQ ∨ (w.task i).held = some p) →
        p ∈ q ∨ ∃ j, (({ w.setTask i t with freeQ := q } : LdgState F).task j).held = some p := by
      intro hp'
      obtain hpq | ht := hfree p hp' hroom
      · exact Or.inl hpq
      · exact Or.inr ⟨i, by rw [hself]; exact ht⟩
    obtain hp' | ⟨j, hj⟩ := h.free p hp hlock hroom
    · exact hback (Or.inl hp')
    · by_cases hji : j = i
      · exact hback (Or.inr (hji ▸ hj))
      · exact Or.inr ⟨j, by rw [htask, if_neg hji]; exact hj⟩

theorem RoundInv.setTask_of_full (h : RoundInv g locks p₀ w) (hrun : w.task i ≠ .done)
    (hout : t.Out ↔ (w.task i).Out) (hpids : ∀ p ∈ t.pids, p < g.partitionNumber)
    (hsize : ∀ p b s, t ≠ .placed p b s)
    (hheld : ∀ p, (w.task i).held = some p → (w.partition p).length = g.C) :
    RoundInv g locks p₀ (w.setTask i t) := by
  refine h.setTask hrun hout hpids h.freeQ hsize fun p hp hroom => Or.inl (hp.resolve_right ?_)
  intro hp'
  have := hheld p hp'
  omega

theorem mem_fst_countPid {pcount : List (ℕ × ℕ)} {pid p : ℕ}
    (h : p ∈ (countPid pcount pid).map Prod.fst) : p = pid ∨ p ∈ pcount.map Prod.fst := by
  obtain ⟨c, hc, rfl⟩ := mem_map.1 h
  rw [countPid] at hc
  split_ifs at hc
  · obtain ⟨c', hc', rfl⟩ := mem_map.1 hc
    refine Or.inr (mem_map.2 ⟨c', hc', ?_⟩)
    split_ifs <;> rfl
  · obtain hc | hc := mem_append.1 hc
    · exact Or.inr (mem_map_of_mem hc)
    · exact Or.inl (by rw [mem_singleton.1 hc])

theorem held_placed (pid : ℕ) (b : Bool) (s : ℕ) :
    (SyncTask.placed pid b s : SyncTask F).held = (SyncTask.selected pid b : SyncTask F).held := by
  cases b <;> rfl

theorem held_selected {pid p : ℕ} {b : Bool}
    (h : (SyncTask.selected pid b : SyncTask F).held = some p) : p = pid := by
  cases b with
  | false => cases h
  | true => exact (Option.some.inj h).symm

theorem RoundInv.place (h : RoundInv g locks p₀ w) (hl : LocksOk g locks p₀) {pid : ℕ} {b : Bool}
    (hi : w.task i = .selected pid b) (hroom : (w.partition pid).length ≠ g.C) :
    RoundInv g locks p₀ { w.setTask i (.placed pid b ((w.partition pid).length + 1)) with
      partition := Function.update w.partition pid (w.partition pid ++ [i])
      id2pid := Function.update w.id2pid i (some pid) } := by
  have hle := h.length pid
  have hpid : pid < g.partitionNumber := h.pids i pid (by rw [hi]; exact mem_singleton_self pid)
  obtain ⟨hind, hnode⟩ := h.running i (by rw [hi]; intro he; cases he)
  have hnot := h.out i (by rw [hi]; trivial)
  have hlock : locks.pids pid = false := by
    by_contra hne
    have hlocked : locks.pids pid = true := by simpa using hne
    obtain hfull | hall := hl.full
    · rw [h.locked pid hlocked] at hroom
      exact hroom (hfull pid hlocked)
    · rw [hall i hind] at hnode
      cases hnode
  set t : SyncTask F := .placed pid b ((w.partition pid).length + 1) with ht
  set w' : LdgState F := { w.setTask i t with
    partition := Function.update w.partition pid (w.partition pid ++ [i])
    id2pid := Function.update w.id2pid i (some pid) } with hw'
  have htask : ∀ j, w'.task j = if j = i then t else w.task j := setTask_task w i t
  have hpart : ∀ p, w'.partition p = if p = pid then w.partition pid ++ [i] else w.partition p :=
    update_apply w.partition pid _
  have hid : ∀ j, w'.id2pid j = if j = i then some pid else w.id2pid j :=
    update_apply w.id2pid i _
  have hgrow : ∀ p, (w.partition p).length ≤ (w'.partition p).length := by
    intro p
    rw [hpart]
    split_ifs with hp
    · rw [hp, length_append]
      exact Nat.le_add_right _ _
    · exact le_rfl
  have hsub : ∀ j p, j ∈ w'.partition p ↔ j ∈ w.partition p ∨ p = pid ∧ j = i := by
    intro j p
    rw [hpart]
    split_ifs with hp
    · rw [mem_append, mem_singleton, hp]
      exact or_congr_right ⟨fun h' => ⟨rfl, h'⟩, fun h' => h'.2⟩
    · exact ⟨Or.inl, fun h' => h'.resolve_right fun h'' => hp h''.1⟩
  refine ⟨fun p => ?_, fun p => ?_, fun p hp => ?_, fun j p hj => ?_, fun j p hj => ?_,
    fun j hj => ?_, fun j hj p hmem => ?_, fun j hj hout => ?_, fun j p hj => ?_, h.freeQ,
    fun j p b' s hj => ?_, fun p hp hlock' hroom' => ?_⟩
  · rw [hpart]
    split_ifs
    · rw [length_append, length_singleton]
      omega
    · exact h.length p
  · rw [hpart]
    split_ifs
    · exact nodup_append'.2 ⟨h.nodup pid, nodup_singleton i, fun j hj hj' =>
        hnot pid (mem_singleton.1 hj' ▸ hj)⟩
    · exact h.nodup p
  · rw [hpart, if_neg]
    · exact h.locked p hp
    · rintro rfl
      rw [hlock] at hp
      cases hp
  · rw [hid]
    obtain hj' | ⟨rfl, rfl⟩ := (hsub j p).1 hj
    · rw [if_neg fun he : j = i => hnot p (he ▸ hj')]
      exact h.mem j p hj'
    · exact if_pos rfl
  · rw [hid] at hj
    split_ifs at hj with hji
    · cases hj
      exact ⟨hji ▸ hind, hpid⟩
    · exact h.lt j p hj
  · by_cases hji : j = i
    · exact hji ▸ ⟨hind, hnode⟩
    · rw [htask, if_neg hji] at hj
      exact h.running j hj
  · rw [htask] at hj
    split_ifs at hj with hji
    · exact hj
    · obtain hmem | ⟨-, he⟩ := (hsub j p).1 hmem
      · exact h.out j hj p hmem
      · exact hji he
  · by_cases hji : j = i
    · exact ⟨pid, (hsub j pid).2 (Or.inr ⟨rfl, hji⟩)⟩
    · rw [htask, if_neg hji] at hout
      obtain ⟨p, hp⟩ := h.placed j hj hout
      exact ⟨p, (hsub j p).2 (Or.inl hp)⟩
  · rw [htask] at hj
    split_ifs at hj with hji
    · rw [mem_singleton.1 hj]
      exact hpid
    · exact h.pids j p hj
  · rw [htask] at hj
    split_ifs at hj with hji
    · obtain ⟨rfl, -, rfl⟩ : pid = p ∧ b = b' ∧ (w.partition pid).length + 1 = s := by
        injection hj with h₁ h₂ h₃
        exact ⟨h₁, h₂, h₃⟩
      rw [hpart, if_pos rfl, length_append, length_singleton]
    · exact (h.size j p b' s hj).trans (hgrow p)
  · obtain hq | ⟨j, hj⟩ := h.free p hp hlock' ((hgrow p).trans_lt hroom')
    · exact Or.inl hq
    · refine Or.inr ⟨j, ?_⟩
      rw [htask]
      split_ifs with hji
      · rw [hji, hi] at hj
        rw [held_placed]
        exact hj
      · exact hj

theorem RoundInv.step (h : RoundInv g locks p₀ w) (hl : LocksOk g locks p₀) {w' : LdgState F}
    (hs : g.LdgStep w i w') : RoundInv g locks p₀ w' := by
  have hnil : ∀ p ∈ ([] : List ℕ), p < g.partitionNumber := fun p hp => absurd hp not_mem_nil
  cases hs with
  | call hi =>
    refine h.setTask_of_full (by rw [hi]; intro he; cases he) (by rw [hi]; exact Iff.rfl) hnil
      (fun p b s he => by cases he) fun p hp => ?_
    rw [hi] at hp
    cases hp
  | @count n rest pcount hi =>
    have hpids : ∀ p ∈ pcount.map Prod.fst, p < g.partitionNumber := fun p hp =>
      h.pids i p (by rw [hi]; exact hp)
    refine h.setTask_of_full (by rw [hi]; intro he; cases he) (by rw [hi]; exact Iff.rfl)
      (fun p hp => ?_) (fun p b s he => by cases he) fun p hp => ?_
    · have hp' : p ∈ (((w.id2pid n).map (countPid pcount)).getD pcount).map Prod.fst := hp
      cases hn : w.id2pid n with
      | none =>
        rw [hn] at hp'
        exact hpids p hp'
      | some pid =>
        rw [hn] at hp'
        obtain rfl | hp'' := mem_fst_countPid hp'
        · exact (h.lt n p hn).2
        · exact hpids p hp''
    · rw [hi] at hp
      cases hp
  | @counted pcount order hi horder =>
    refine h.setTask_of_full (by rw [hi]; intro he; cases he) (by rw [hi]; exact Iff.rfl)
      (fun p hp => ?_) (fun p b s he => by cases he) fun p hp => ?_
    · have hp' : p ∈ order.map Prod.fst ++ (none : Option ℕ).toList := hp
      rw [Option.toList_none, append_nil, (horder.map Prod.fst).mem_iff] at hp'
      exact h.pids i p (by rw [hi]; exact hp')
    · rw [hi] at hp
      cases hp
  | @look pid cnt rest maxn res hi =>
    have hpids : ∀ p ∈ pid :: (rest.map Prod.fst ++ res.toList), p < g.partitionNumber :=
      fun p hp => h.pids i p (by rw [hi]; exact hp)
    have hheld : ∀ p, (w.task i).held = some p → (w.partition p).length = g.C := by
      intro p hp
      rw [hi] at hp
      cases hp
    split_ifs
    · refine h.setTask_of_full (by rw [hi]; intro he; cases he) (by rw [hi]; exact Iff.rfl)
        (fun p hp => ?_) (fun p b s he => by cases he) hheld
      obtain hp | hp := mem_append.1 hp
      · exact hpids p (mem_cons_of_mem _ (mem_append_left _ hp))
      · rw [mem_singleton.1 hp]
        exact hpids pid mem_cons_self
    · exact h.setTask_of_full (by rw [hi]; intro he; cases he) (by rw [hi]; exact Iff.rfl)
        (fun p hp => hpids p (mem_cons_of_mem _ hp)) (fun p b s he => by cases he) hheld
  | @select maxn pid hi =>
    refine h.setTask_of_full (by rw [hi]; intro he; cases he) (by rw [hi]; exact Iff.rfl)
      (fun p hp => ?_) (fun p b s he => by cases he) fun p hp => ?_
    · exact h.pids i p (by rw [hi]; exact hp)
    · rw [hi] at hp
      cases hp
  | getUnfilled hi =>
    refine h.setTask_of_full (by rw [hi]; intro he; cases he) (by rw [hi]; exact Iff.rfl) hnil
      (fun p b s he => by cases he) fun p hp => ?_
    rw [hi] at hp
    cases hp
  | @pop pid rest hi hq =>
    have hpid : ∀ p ∈ pid :: rest, p < g.partitionNumber := by
      rw [← hq]
      exact h.freeQ
    refine h.setTask (by rw [hi]; intro he; cases he) (by rw [hi]; exact Iff.rfl) (fun p hp => ?_)
      (fun p hp => hpid p (mem_cons_of_mem _ hp)) (fun p b s he => by cases he)
      fun p hp _ => ?_
    · rw [mem_singleton.1 hp]
      exact hpid pid mem_cons_self
    · rw [hq, hi] at hp
      obtain hp | hp := hp
      · obtain rfl | hp := mem_cons.1 hp
        · exact Or.inr rfl
        · exact Or.inl hp
      · cases hp
  | @popAgain pid hi hfull =>
    refine h.setTask_of_full (by rw [hi]; intro he; cases he) (by rw [hi]; exact Iff.rfl) hnil
      (fun p b s he => by cases he) fun p hp => ?_
    rw [hi] at hp
    cases hp
    exact hfull
  | @unfilled pid hi hroom =>
    refine h.setTask (by rw [hi]; intro he; cases he) (by rw [hi]; exact Iff.rfl) (fun p hp => ?_)
      h.freeQ (fun p b s he => by cases he) fun p hp _ => ?_
    · exact h.pids i p (by rw [hi]; exact hp)
    · rw [hi] at hp
      exact hp
  | @selectAgain pid b hi hfull =>
    refine h.setTask_of_full (by rw [hi]; intro he; cases he) (by rw [hi]; exact Iff.rfl) hnil
      (fun p b s he => by cases he) fun p hp => ?_
    rw [hi] at hp
    rw [held_selected hp]
    exact hfull
  | place hi hroom => exact h.place hl hi hroom
  | @push pid b s hi =>
    have hpid : pid < g.partitionNumber :=
      h.pids i pid (by rw [hi]; exact mem_singleton_self pid)
    refine h.setTask (by rw [hi]; intro he; cases he) (by rw [hi]; exact Iff.rfl) hnil
      (fun p hp => ?_) (fun p b s he => by cases he) fun p hp hroom => Or.inl ?_
    · split_ifs at hp
      · obtain hp | hp := mem_append.1 hp
        · exact h.freeQ p hp
        · rw [mem_singleton.1 hp]
          exact hpid
      · exact h.freeQ p hp
    · rw [hi, held_placed] at hp
      obtain hp | hp := hp
      · split_ifs
        · exact mem_append_left _ hp
        · exact hp
      · -- the partition still has room, so it had room when the node was put into it
        obtain rfl := held_selected hp
        have hsize := h.size i p b s hi
        rw [if_pos (by omega)]
        exact mem_append_right _ (mem_singleton_self p)

theorem LdgReach.roundInv {d : ℕ → Option ℕ} (hw : g.LdgReach locks p₀ d w) (hp : EachOnce g p₀ d)
    (hl : LocksOk g locks p₀) : RoundInv g locks p₀ w := by
  induction hw with
  | start h => exact h.roundInv hp hl
  | step _ h ih => exact ih.step hl h

theorem RoundInv.exists_room (h : RoundInv g locks p₀ w) (hl : LocksOk g locks p₀)
    (hrun : w.task i ≠ .done) (hout : (w.task i).Out) :
    ∃ p < g.partitionNumber, locks.pids p = false ∧ (w.partition p).length < g.C := by
  by_contra hno
  obtain ⟨hind, hnode⟩ := h.running i hrun
  -- all partitions are full
  have hfull : ∀ p < g.partitionNumber, (w.partition p).length = g.C := by
    intro p hp
    by_cases hlock : locks.pids p = true
    · obtain hfull | hall := hl.full
      · rw [h.locked p hlock]
        exact hfull p hlock
      · rw [hall i hind] at hnode
        cases hnode
    · have hlen := h.length p
      by_contra hne
      exact hno ⟨p, hp, by simpa using hlock, by omega⟩
  have hlen : ((List.range g.partitionNumber).flatMap w.partition).length =
      g.partitionNumber * g.C := by
    rw [length_flatMap, map_congr_left fun p hp => hfull p (List.mem_range.1 hp),
      map_const', sum_replicate, length_range, smul_eq_mul]
  have hnodup : ((List.range g.partitionNumber).flatMap w.partition).Nodup := by
    refine nodup_flatMap.2 ⟨fun p _ => h.nodup p, ?_⟩
    refine nodup_range.imp fun {p q} hne => ?_
    intro j hjp hjq
    exact hne (Option.some.inj ((h.mem j p hjp).symm.trans (h.mem j q hjq)))
  have hnot : i ∉ (List.range g.partitionNumber).flatMap w.partition := by
    intro hi
    obtain ⟨p, -, hip⟩ := mem_flatMap.1 hi
    exact h.out i hout p hip
  have hsub : i :: (List.range g.partitionNumber).flatMap w.partition ⊆ List.range g.nd := by
    intro j hj
    obtain rfl | hj := mem_cons.1 hj
    · exact List.mem_range.2 hind
    · obtain ⟨p, -, hjp⟩ := mem_flatMap.1 hj
      exact List.mem_range.2 (h.lt j p (h.mem j p hjp)).1
  have hle := ((nodup_cons.2 ⟨hnot, hnodup⟩).subperm hsub).length_le
  have hnd := g.nd_le
  rw [length_cons, length_range, hlen] at hle
  omega

/-- A thread that waits for the queue does so while another thread holds a partition with room. -/
theorem RoundInv.exists_held (h : RoundInv g locks p₀ w) (hl : LocksOk g locks p₀)
    (hi : w.task i = .popping) (hq : w.freeQ = []) :
    ∃ j ≠ i, ∃ p, (w.task j).held = some p ∧ (w.partition p).length < g.C := by
  obtain ⟨p, hp, hlock, hroom⟩ := h.exists_room hl (by rw [hi]; intro he; cases he)
    (by rw [hi]; trivial)
  obtain hp' | ⟨j, hj⟩ := h.free p hp hlock hroom
  · rw [hq] at hp'
    exact absurd hp' not_mem_nil
  · refine ⟨j, ?_, p, hj, hroom⟩
    rintro rfl
    rw [hi] at hj
    cases hj

theorem RoundInv.eachOnce (h : RoundInv g locks p₀ w) (hdone : ∀ i, w.task i = .done) :
    EachOnce g w.partition w.id2pid := by
  have hall : ∀ i < g.nd, ∃ p, i ∈ w.partition p := fun i hi =>
    h.placed i hi (by rw [hdone i]; exact id)
  refine ⟨h.length, h.nodup, fun i p => ⟨h.mem i p, fun hip => ?_⟩, h.lt, fun i hi => ?_⟩
  · obtain ⟨q, hq⟩ := hall i (h.lt i p hip).1
    have hqp := (h.mem i q hq).symm.trans hip
    rwa [Option.some.inj hqp] at hq
  · obtain ⟨p, hp⟩ := hall i hi
    exact ⟨p, h.mem i p hp⟩

theorem RoundInv.locksOk (h : RoundInv g locks p₀ w) (hl : LocksOk g locks p₀) :
    LocksOk g locks w.partition := by
  refine ⟨hl.lt, fun i => (hl.nodes i).trans ?_, hl.full.imp_left fun hfull p hp => ?_⟩
  · refine exists_congr fun p => and_congr_right fun hp => ?_
    rw [h.locked p hp]
  · rw [h.locked p hp]
    exact hfull p hp

theorem Rounds.eachOnce {d₀ : ℕ → Option ℕ} {k : ℕ} {p : ℕ → List ℕ} {d : ℕ → Option ℕ}
    (hk : g.Rounds locks p₀ d₀ k p d) (hp : EachOnce g p₀ d₀) (hl : LocksOk g locks p₀) :
    EachOnce g p d ∧ LocksOk g locks p := by
  induction hk with
  | zero => exact ⟨hp, hl⟩
  | succ _ hw hdone ih =>
    have hinv := hw.roundInv ih.1 ih.2
    exact ⟨hinv.eachOnce hdone, hinv.locksOk ih.2⟩

/-- The first packing and every round leave each node in one partition, and in every state of a round
a thread that waits for the queue does so while another thread holds a partition with room. -/
theorem graph_partition_eachOnce (g : GraphPartitioner F) (lockNums : ℤ) :
    ∃ s, g.pack lockNums = some s ∧ EachOnce g s.partition s.id2pid ∧
      ∀ k p d, g.Rounds ⟨s.lockPids, g.lockNodes s⟩ s.partition s.id2pid k p d →
        EachOnce g p d ∧ ∀ w, g.LdgReach ⟨s.lockPids, g.lockNodes s⟩ p d w →
          (∀ p, (w.partition p).length ≤ g.C) ∧
          ∀ i, w.task i = .popping → w.freeQ = [] →
            ∃ j ≠ i, ∃ p, (w.task j).held = some p ∧ (w.partition p).length < g.C := by
  obtain ⟨s, hs, hp, hl⟩ := pack_spec g lockNums
  refine ⟨s, hs, hp, fun k p d hk => ?_⟩
  obtain ⟨hp', hl'⟩ := Rounds.eachOnce hk hp hl
  exact ⟨hp', fun w hw => ⟨(hw.roundInv hp' hl').length, fun i hi hq =>
    (hw.roundInv hp' hl').exists_held hl' hi hq⟩⟩

end GraphPartitioner

end DiskANNEval.Gorgeous
