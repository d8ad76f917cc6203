import DiskANNEval.DGAI.BlockCacheInv

/-!
# BlockCacheSound — what callers of the block cache may rely on

`sound_of_reach`: in every run without a race (`NoRace`) the pin counts are the outstanding
requests, a pinned slot keeps its block, the map and the slots' ids agree whenever `hand_mtx` is
free, and the search of the clock hand ends while some slot stays unpinned.

`SearchRun` is a part of a run in which `t` keeps searching and slot `i` stays unpinned; the other
threads take steps in between.  Each pass over the slots takes one from the slot's reference count,
so the number of `t`'s own steps is bounded by the count.
-/

namespace DiskANNEval.DGAI.BlockCache

open Lib Option Function

variable {Θ α : Type} {n : ℕ} [Fintype Θ] [DecidableEq Θ] [NeZero n]

/-! ### Pinned slots keep their block -/

omit [Fintype Θ] in
theorem cachedBlockId_missStep (s : State Θ α n) (l : Hand Θ n) :
    (missStep s l.owner l.blockId l.pc).cachedBlockId = s.cachedBlockId
      ∨ ∃ fresh cb, l.pc = .writeId fresh cb
        ∧ (missStep s l.owner l.blockId l.pc).cachedBlockId
          = Function.update s.cachedBlockId cb l.blockId := by
  obtain ⟨o, b, pc⟩ := l
  cases pc with
  | writeId fresh cb => exact Or.inr ⟨fresh, cb, rfl, rfl⟩
  | lookup =>
    left
    unfold missStep
    cases s.cachePhMap b with
    | some cb => rfl
    | none =>
      split_ifs <;> rfl
  | scanFree cb =>
    left
    unfold missStep
    simp only
    split_ifs <;> rfl
  | checkPinned cb =>
    left
    unfold missStep
    simp only
    split_ifs <;> rfl
  | dropRef cb =>
    left
    unfold missStep
    simp only
    split_ifs <;> rfl
  | swapEvict cb =>
    left
    unfold missStep
    simp only
    split_ifs <;> rfl
  | _ => exact Or.inl rfl

variable {readBlock : ℤ → α} {s s' : State Θ α n} {t : Θ}

omit [Fintype Θ] in
theorem hand_runStep (hm : ∀ b, (s.threads t).pc ≠ .miss b) (hs : runStep readBlock s t = some s') :
    s'.cachedBlockId = s.cachedBlockId ∧ s'.handMtx = s.handMtx := by
  unfold runStep at hs
  cases hpc : (s.threads t).pc with
  | idle => simp [hpc] at hs
  | miss b => exact absurd hpc (hm b)
  | lookup b =>
    simp only [hpc] at hs
    cases hmap : s.cachePhMap b <;> simp only [hmap, Option.some.injEq] at hs <;> subst hs <;>
      exact ⟨rfl, rfl⟩
  | _ =>
    simp only [hpc, Option.some.injEq] at hs
    first
    | (subst hs; exact ⟨rfl, rfl⟩)
    | (split_ifs at hs <;> cases hs <;> exact ⟨rfl, rfl⟩)

variable {a : Act Θ n} {i j : Fin n}

theorem Inv.pinned_keeps (h : Inv s) (hs : BlockCache.step readBlock s a = some s')
    (hi : 0 < s.cachePinnedCount i) : s'.cachedBlockId i = s.cachedBlockId i := by
  unfold BlockCache.step at hs
  split_ifs at hs
  cases a with
  | request t b =>
    simp only at hs
    split_ifs at hs
    cases hs
    rfl
  | get t b cb =>
    simp only at hs
    split_ifs at hs
    cases hs
    rfl
  | release t b cb =>
    simp only at hs
    split_ifs at hs
    cases hs
    rfl
  | run t =>
    by_cases hm : ∃ b, (s.threads t).pc = .miss b
    · obtain ⟨b, hpc⟩ := hm
      unfold BlockCache.runStep at hs
      simp only [hpc] at hs
      cases hl : s.handMtx with
      | none =>
        simp only [hl, Option.some.injEq] at hs
        subst hs
        rfl
      | some l =>
        simp only [hl] at hs
        split_ifs at hs with ho
        cases hs
        rw [← ho]
        rcases cachedBlockId_missStep s l with h1 | ⟨fresh, cb, hw, h1⟩
        · rw [h1]
        · rw [h1]
          by_cases hcb : i = cb
          · -- the requests that pin the slot are for the block whose id is written
            subst hcb
            rw [update_self]
            obtain ⟨o, b', pc⟩ := l
            subst hw
            have he : ¬ s.Evicting i := by
              intro he
              have h2 := (h.evicting i he).1
              omega
            have h2 := h.pinned i he
            have hreq : s.handRequests = [] := by
              simp [State.handRequests, hl, Hand.requests]
            rcases exists_request (s := s) (i := i) (by omega) with ⟨p, hp, -⟩ | ⟨u, p, hp, rfl⟩
            · simp [hreq] at hp
            · obtain ⟨h3, h4⟩ := h.assigned u p hp
              have h5 : s.blockOf p.2 = some b' := by
                simp [State.blockOf, hl, Hand.entry]
              rw [h5] at h3
              exact (Option.some.inj h3).trans h4.symm
          · rw [update_of_ne hcb]
    · have hm' : ∀ b, (s.threads t).pc ≠ .miss b := fun b hb => hm ⟨b, hb⟩
      rw [(hand_runStep hm' hs).1]

/-! ### The search of the clock hand -/

def MissPc.Searches : MissPc n → Prop
  | .scanFree _ => True
  | .checkPinned _ => True
  | .dropRef _ => True
  | .swapEvict _ => True
  | _ => False

/-- `t` is moving the clock hand, for a free slot or for one to evict. -/
def State.Searching (s : State Θ α n) (t : Θ) : Prop :=
  ∃ l, s.handMtx = some l ∧ l.owner = t ∧ l.pc.Searches

/-- How often `--cache_ref_count` is taken until it gives 0. -/
def passes (ref : ℤ) : ℕ := ((ref - 1) % 4294967296).toNat + 1

theorem passes_drop (ref : ℤ) (h : wrap32 (ref + -1) ≠ 0) :
    passes (wrap32 (ref + -1)) + 1 = passes ref := by
  unfold passes
  unfold wrap32 Int.bmod at h ⊢
  simp only at h ⊢
  omega

/-- How many slots the hand passes from `cb` before it comes to `i`. -/
def dist (cb i : Fin n) : ℕ := (i - cb).val

omit [Fintype Θ] [DecidableEq Θ] in
theorem dist_succ {cb : Fin n} (h : cb ≠ i) : dist (cb + 1) i + 1 = dist cb i := by
  have h0 : i - cb ≠ 0 := fun he => h (sub_eq_zero.mp he).symm
  have h1 : (i - cb).val ≠ 0 := fun he => h0 (Fin.ext he)
  rw [dist, dist, ← sub_sub, Fin.val_sub_one_of_ne_zero h0]
  omega

omit [NeZero n] in
theorem dist_lt (cb i : Fin n) : dist cb i < n := (i - cb).isLt

/-- A bound on the steps the search takes while slot `i` is unpinned and slot `j` is free: three
steps for a slot, and `passes` rounds. -/
def MissPc.left (ref : ℤ) (i j : Fin n) : MissPc n → ℕ
  | .scanFree cb => dist cb j
  | .checkPinned cb => 3 * ((passes ref - 1) * n + dist cb i) + 2
  | .dropRef cb => 3 * ((passes ref - 1) * n + dist cb i) + 1
  | .swapEvict cb => if cb = i then 0 else 3 * ((passes ref - 1) * n + dist cb i)
  | _ => 0

theorem left_lt (ref : ℤ) (i j : Fin n) (pc : MissPc n) : pc.left ref i j < 3 * n * passes ref := by
  have hn : 0 < n := Nat.pos_of_ne_zero (NeZero.ne n)
  obtain ⟨v, hv⟩ : ∃ v, passes ref = v + 1 := ⟨_, rfl⟩
  have hbig : 3 * n * (v + 1) = 3 * (v * n) + 3 * n := by ring
  rw [hv]
  cases pc with
  | scanFree cb =>
    have h1 := dist_lt cb j
    simp only [MissPc.left]
    omega
  | checkPinned cb =>
    have h1 := dist_lt cb i
    simp only [MissPc.left, hv, Nat.add_sub_cancel]
    omega
  | dropRef cb =>
    have h1 := dist_lt cb i
    simp only [MissPc.left, hv, Nat.add_sub_cancel]
    omega
  | swapEvict cb =>
    have h1 := dist_lt cb i
    simp only [MissPc.left, hv, Nat.add_sub_cancel]
    split_ifs <;> omega
  | _ =>
    simp only [MissPc.left]
    omega

variable {l : Hand Θ n}

omit [Fintype Θ] in
theorem left_missStep (hl : s.handMtx = some l) (hi : s.cachePinnedCount i = 0)
    (hsr : l.pc.Searches) (hfree : ∀ cb, l.pc = .scanFree cb → s.cacheStatus j = .invalid)
    (hsr' : (missStep s l.owner l.blockId l.pc).Searching t) :
    ∃ l', (missStep s l.owner l.blockId l.pc).handMtx = some l' ∧ l'.owner = l.owner
      ∧ l'.pc.Searches
      ∧ (∀ cb, l'.pc = .scanFree cb →
        (missStep s l.owner l.blockId l.pc).cacheStatus j = .invalid)
      ∧ l'.pc.left ((missStep s l.owner l.blockId l.pc).cacheRefCount i) i j + 1
        ≤ l.pc.left (s.cacheRefCount i) i j := by
  obtain ⟨o, b, pc⟩ := l
  cases pc with
  | scanFree cb =>
    have hj := hfree cb rfl
    unfold missStep at hsr' ⊢
    simp only at hsr' ⊢
    split_ifs at hsr' ⊢ with hst
    · obtain ⟨l', hl', -, hp⟩ := hsr'
      cases hl'
      exact hp.elim
    · refine ⟨_, rfl, rfl, trivial, fun _ _ => hj, ?_⟩
      have hne : cb ≠ j := by
        rintro rfl
        exact hst hj
      exact (dist_succ hne).le
  | checkPinned cb =>
    unfold missStep
    simp only
    split_ifs with h0
    · refine ⟨_, rfl, rfl, trivial, by simp, ?_⟩
      exact le_refl _
    · refine ⟨_, rfl, rfl, trivial, by simp, ?_⟩
      have hne : cb ≠ i := by
        rintro rfl
        exact h0 hi
      have h1 := dist_succ hne
      show 3 * ((passes (s.cacheRefCount i) - 1) * n + dist (cb + 1) i) + 2 + 1
        ≤ 3 * ((passes (s.cacheRefCount i) - 1) * n + dist cb i) + 2
      omega
  | dropRef cb =>
    unfold missStep
    simp only
    by_cases hne : cb = i
    · subst hne
      have hnew : (s.addRef cb (-1)).cacheRefCount cb = wrap32 (s.cacheRefCount cb + -1) :=
        update_self _ _ _
      split_ifs with h0
      · refine ⟨_, rfl, rfl, trivial, by simp, ?_⟩
        simp [MissPc.left]
      · refine ⟨_, rfl, rfl, trivial, by simp, ?_⟩
        rw [hnew] at h0
        have h1 := passes_drop _ h0
        have h2 := dist_lt (cb + 1) cb
        show 3 * ((passes ((s.addRef cb (-1)).cacheRefCount cb) - 1) * n + dist (cb + 1) cb) + 2 + 1
          ≤ 3 * ((passes (s.cacheRefCount cb) - 1) * n + dist cb cb) + 1
        rw [hnew]
        obtain ⟨v, hv⟩ : ∃ v, passes (wrap32 (s.cacheRefCount cb + -1)) = v + 1 := ⟨_, rfl⟩
        have h3 : (v + 1) * n = v * n + n := by ring
        rw [← h1, hv, Nat.add_sub_cancel, Nat.add_sub_cancel]
        omega
    · have hold : (s.addRef cb (-1)).cacheRefCount i = s.cacheRefCount i :=
        update_of_ne (Ne.symm hne) _ _
      have h1 := dist_succ hne
      split_ifs with h0
      · refine ⟨_, rfl, rfl, trivial, by simp, ?_⟩
        show (MissPc.swapEvict cb).left ((s.addRef cb (-1)).cacheRefCount i) i j + 1
          ≤ (MissPc.dropRef cb).left (s.cacheRefCount i) i j
        rw [hold]
        simp [MissPc.left, hne]
      · refine ⟨_, rfl, rfl, trivial, by simp, ?_⟩
        show (MissPc.checkPinned (cb + 1)).left ((s.addRef cb (-1)).cacheRefCount i) i j + 1
          ≤ (MissPc.dropRef cb).left (s.cacheRefCount i) i j
        rw [hold]
        simp only [MissPc.left]
        omega
  | swapEvict cb =>
    unfold missStep at hsr' ⊢
    simp only at hsr' ⊢
    split_ifs at hsr' ⊢ with h0
    · obtain ⟨l', hl', -, hp⟩ := hsr'
      cases hl'
      exact hp.elim
    · refine ⟨_, rfl, rfl, trivial, by simp, ?_⟩
      have hne : cb ≠ i := by
        rintro rfl
        exact h0 hi
      have h1 := dist_succ hne
      show (MissPc.checkPinned (cb + 1)).left (s.cacheRefCount i) i j + 1
        ≤ (MissPc.swapEvict cb).left (s.cacheRefCount i) i j
      simp only [MissPc.left, if_neg hne]
      omega
  | _ => exact hsr.elim

/-- A thread outside the mutex leaves the unpinned slots' reference counts and the free slots
alone. -/
theorem Inv.ref_runStep (h : Inv s) {u : Θ} (hm : ∀ b, (s.threads u).pc ≠ .miss b)
    (hs : BlockCache.runStep readBlock s u = some s') (hi : s.cachePinnedCount i = 0) :
    s'.cacheRefCount i = s.cacheRefCount i
      ∧ (s.cacheStatus j = .invalid → s'.cacheStatus j = .invalid) := by
  have hp := h.pcs u
  unfold BlockCache.runStep at hs
  cases hpc : (s.threads u).pc with
  | idle => simp [hpc] at hs
  | miss b => exact absurd hpc (hm b)
  | lookup b =>
    simp only [hpc] at hs
    cases hmap : s.cachePhMap b <;> simp only [hmap, Option.some.injEq] at hs <;> subst hs <;>
      exact ⟨rfl, id⟩
  | fetchRef b cb =>
    simp only [hpc, Option.some.injEq] at hs
    subst hs
    refine ⟨?_, id⟩
    have hne : i ≠ cb := by
      rintro rfl
      have hpos : 0 < onSlot i (s.threads u).requests :=
        onSlot_pos.mpr ⟨(b, i), by simp [Thread.requests, hpc, Pc.requests], rfl⟩
      have hle := onSlot_le_outstanding s u i
      by_cases he : s.Evicting i
      · have h1 := (h.evicting i he).2
        omega
      · have h1 := h.pinned i he
        omega
    exact update_of_ne hne _ _
  | getFinish b cb =>
    simp only [hpc, Option.some.injEq] at hs hp
    subst hs
    refine ⟨rfl, fun hj => ?_⟩
    have hne : j ≠ cb := by
      rintro rfl
      exact hp hj
    exact (update_of_ne hne _ _).trans hj
  | _ =>
    simp only [hpc, Option.some.injEq] at hs
    first
    | (subst hs; exact ⟨rfl, id⟩)
    | (split_ifs at hs <;> cases hs <;> exact ⟨rfl, id⟩)

theorem Inv.other_step (h : Inv s) (ha : a ≠ .run t) (hs : BlockCache.step readBlock s a = some s')
    (hl : s.handMtx = some l) (ho : l.owner = t) (hi : s.cachePinnedCount i = 0) :
    s'.handMtx = some l ∧ s'.cacheRefCount i = s.cacheRefCount i
      ∧ (s.cacheStatus j = .invalid → s'.cacheStatus j = .invalid) := by
  unfold BlockCache.step at hs
  split_ifs at hs
  cases a with
  | request u b =>
    simp only at hs
    split_ifs at hs
    cases hs
    exact ⟨hl, rfl, id⟩
  | get u b cb =>
    simp only at hs
    split_ifs at hs
    cases hs
    exact ⟨hl, rfl, id⟩
  | release u b cb =>
    simp only at hs
    split_ifs at hs
    cases hs
    exact ⟨hl, rfl, id⟩
  | run u =>
    by_cases hm : ∃ b, (s.threads u).pc = .miss b
    · obtain ⟨b, hpc⟩ := hm
      unfold BlockCache.runStep at hs
      simp only [hpc, hl] at hs
      split_ifs at hs with hou
      exact absurd (congrArg Act.run (hou.symm.trans ho)) ha
    · have hm' : ∀ b, (s.threads u).pc ≠ .miss b := fun b hb => hm ⟨b, hb⟩
      exact ⟨(hand_runStep hm' hs).2.trans hl, h.ref_runStep hm' hs hi⟩

/-- A part of a run without a race from `s` to `s'` in which `t` keeps searching and slot `i` stays
unpinned; `k` counts `t`'s own steps. -/
inductive SearchRun (readBlock : ℤ → α) (t : Θ) (i : Fin n) (s : State Θ α n) :
    ℕ → State Θ α n → Prop
  | start (hs : s.Searching t) (hi : s.cachePinnedCount i = 0) : SearchRun readBlock t i s 0 s
  | own {k : ℕ} {s1 s2 : State Θ α n} (h : SearchRun readBlock t i s k s1)
      (hstep : guarded NoRace (ofFn (step readBlock)) s1 (.run t) s2) (hs : s2.Searching t)
      (hi : s2.cachePinnedCount i = 0) : SearchRun readBlock t i s (k + 1) s2
  | other {k : ℕ} {s1 s2 : State Θ α n} {a : Act Θ n} (h : SearchRun readBlock t i s k s1)
      (ha : a ≠ .run t) (hstep : guarded NoRace (ofFn (step readBlock)) s1 a s2)
      (hi : s2.cachePinnedCount i = 0) : SearchRun readBlock t i s k s2

/-- The state of a search at a step of a `SearchRun`: `k` steps have been taken. -/
structure SearchOk (t : Θ) (i j : Fin n) (bound k : ℕ) (s : State Θ α n) : Prop where
  inv : Inv s
  bounded : Bounded s
  unpinned : s.cachePinnedCount i = 0
  hand : ∃ l, s.handMtx = some l ∧ l.owner = t ∧ l.pc.Searches
    ∧ (∀ cb, l.pc = .scanFree cb → s.cacheStatus j = .invalid)
    ∧ k + l.pc.left (s.cacheRefCount i) i j ≤ bound

theorem runStep_of_hand (h : Inv s) (hl : s.handMtx = some l)
    (hs : BlockCache.step readBlock s (.run l.owner) = some s') :
    s' = missStep s l.owner l.blockId l.pc := by
  unfold BlockCache.step at hs
  split_ifs at hs
  unfold BlockCache.runStep at hs
  simp only [h.owner l hl, hl, if_true, Option.some.injEq] at hs
  exact hs.symm

theorem SearchRun.ok {bound : ℕ} {k : ℕ} (h0 : SearchOk t i j bound 0 s)
    (h : SearchRun readBlock t i s k s') : SearchOk t i j bound k s' := by
  induction h with
  | start hs hi => exact h0
  | own h hstep hs hi ih =>
    obtain ⟨l, hl, ho, hsr, hfree, hle⟩ := ih.hand
    refine ⟨ih.inv.step ih.bounded hstep.1 hstep.2, ih.bounded.step hstep.2, hi, ?_⟩
    rw [← ho] at hstep
    have heq := runStep_of_hand ih.inv hl hstep.2
    subst heq
    obtain ⟨l', hl', ho', hsr', hfree', hlt⟩ := left_missStep hl ih.unpinned hsr hfree hs
    exact ⟨l', hl', ho'.trans ho, hsr', hfree', by omega⟩
  | other h ha hstep hi ih =>
    obtain ⟨l, hl, ho, hsr, hfree, hle⟩ := ih.hand
    obtain ⟨h1, h2, h3⟩ := ih.inv.other_step ha hstep.2 hl ho ih.unpinned
    refine ⟨ih.inv.step ih.bounded hstep.1 hstep.2, ih.bounded.step hstep.2, hi, l, h1, ho, hsr,
      fun cb hcb => h3 (hfree cb hcb), ?_⟩
    rw [h2]
    exact hle

/-- The search of the clock hand takes fewer than `3 * n * passes` steps while slot `i` is
unpinned. -/
theorem SearchRun.lt {k : ℕ} (hinv : Inv s) (hb : Bounded s) (h : SearchRun readBlock t i s k s') :
    k < 3 * n * passes (s.cacheRefCount i) := by
  have hstart : s.Searching t ∧ s.cachePinnedCount i = 0 := by
    induction h with
    | start hs hi => exact ⟨hs, hi⟩
    | own _ _ _ _ ih => exact ih
    | other _ _ _ _ ih => exact ih
  obtain ⟨⟨l, hl, ho, hsr⟩, hi⟩ := hstart
  have hj : ∃ j, ∀ cb, l.pc = .scanFree cb → s.cacheStatus j = .invalid := by
    by_cases hsc : ∃ cb, l.pc = .scanFree cb
    · obtain ⟨cb, hcb⟩ := hsc
      have h1 := hinv.free
      have h2 : s.taken = 1 := by
        obtain ⟨o, b, pc⟩ := l
        subst hcb
        simp [State.taken, hl, Hand.taken]
      obtain ⟨j, hj⟩ := Finset.card_pos.mp (by omega : 0 < (Finset.univ.filter
        fun i => s.cacheStatus i = .invalid).card)
      exact ⟨j, fun _ _ => by simpa using hj⟩
    · exact ⟨0, fun cb hcb => absurd ⟨cb, hcb⟩ hsc⟩
  obtain ⟨j, hj⟩ := hj
  have hok : SearchOk t i j (l.pc.left (s.cacheRefCount i) i j) k s' :=
    h.ok ⟨hinv, hb, hi, l, hl, ho, hsr, hj, by omega⟩
  obtain ⟨l', -, -, -, -, hle⟩ := hok.hand
  have hlt := left_lt (s.cacheRefCount i) i j l.pc
  omega

/-! ### Runs -/

omit [Fintype Θ] in
theorem exited_missStep (s : State Θ α n) (t : Θ) (b : ℤ) (pc : MissPc n) :
    (missStep s t b pc).exited = s.exited := by
  cases pc with
  | lookup =>
    unfold missStep
    cases s.cachePhMap b with
    | some cb => rfl
    | none =>
      split_ifs <;> rfl
  | scanFree cb => unfold missStep; simp only; split_ifs <;> rfl
  | checkPinned cb => unfold missStep; simp only; split_ifs <;> rfl
  | dropRef cb => unfold missStep; simp only; split_ifs <;> rfl
  | swapEvict cb => unfold missStep; simp only; split_ifs <;> rfl
  | _ => rfl

theorem Inv.exited_step (h : Inv s) (hex : s.exited = false)
    (hs : BlockCache.step readBlock s a = some s') : s'.exited = false := by
  unfold BlockCache.step at hs
  split_ifs at hs
  cases a with
  | request t b =>
    simp only at hs
    split_ifs at hs
    cases hs
    exact hex
  | get t b cb =>
    simp only at hs
    split_ifs at hs
    cases hs
    exact hex
  | release t b cb =>
    simp only at hs
    split_ifs at hs with hpc
    cases hs
    have h1 := (h.pinned_of_held hpc.2).2
    exact decide_eq_false (by omega)
  | run t =>
    unfold BlockCache.runStep at hs
    cases hpc : (s.threads t).pc with
    | idle => simp [hpc] at hs
    | lookup b =>
      simp only [hpc] at hs
      cases hmap : s.cachePhMap b <;> simp only [hmap, Option.some.injEq] at hs <;> subst hs <;>
        exact hex
    | miss b =>
      simp only [hpc] at hs
      cases hl : s.handMtx with
      | none =>
        simp only [hl, Option.some.injEq] at hs
        subst hs
        exact hex
      | some l =>
        simp only [hl] at hs
        split_ifs at hs
        cases hs
        rw [exited_missStep]
        exact hex
    | _ =>
      simp only [hpc, Option.some.injEq] at hs
      first
      | (subst hs; exact hex)
      | (split_ifs at hs <;> cases hs <;> exact hex)

structure Sound (readBlock : ℤ → α) (s : State Θ α n) : Prop where
  pinned : ∀ i, ¬ s.Evicting i → s.cachePinnedCount i = s.outstanding i
  evicting : ∀ i, s.Evicting i → s.cachePinnedCount i = -1 ∧ s.outstanding i = 0
  keeps : ∀ a s', step readBlock s a = some s' →
    ∀ i, 0 < s.cachePinnedCount i → s'.cachedBlockId i = s.cachedBlockId i
  agree : s.handMtx = none → ∀ b i,
    s.cachePhMap b = some i ↔ s.cacheStatus i ≠ .invalid ∧ s.cachedBlockId i = b
  searchGoesOn : ∀ t, s.Searching t → (step readBlock s (.run t)).isSome
  searchEnds : ∀ t i k s', SearchRun readBlock t i s k s' →
    k < 3 * n * passes (s.cacheRefCount i)

theorem exited_of_reach (h : Reach Init (guarded NoRace (ofFn (step readBlock))) s) :
    s.exited = false := by
  have hall : (Inv s ∧ Bounded s) ∧ s.exited = false := by
    refine h.invariant (P := fun s => (Inv s ∧ Bounded s) ∧ s.exited = false) ?_ ?_
    · rintro s ⟨block, rfl⟩
      have hstart : Reach Init (guarded NoRace (ofFn (step readBlock)))
          (State.clear block : State Θ α n) :=
        .start ⟨block, rfl⟩
      exact ⟨inv_of_reach hstart, rfl⟩
    · rintro s a s' ⟨⟨hi, hb⟩, hex⟩ ⟨hok, hs⟩
      exact ⟨⟨hi.step hb hok hs, hb.step hs⟩, hi.exited_step hex hs⟩
  exact hall.2

theorem sound_of_reach {readBlock : ℤ → α} {s : State Θ α n}
    (h : Reach Init (guarded NoRace (ofFn (step readBlock))) s) : Sound readBlock s := by
  obtain ⟨hinv, hb⟩ := inv_of_reach h
  have hex := exited_of_reach h
  refine ⟨hinv.pinned, hinv.evicting, fun a s' hs i hi => hinv.pinned_keeps hs hi, ?_, ?_, ?_⟩
  · intro hl b i
    rw [hinv.map b i]
    simp only [State.blockOf, hl, bind_none, getD_none, State.settled]
    by_cases hst : s.cacheStatus i = .invalid
    · simp [hst]
    · simp [hst]
  · rintro t ⟨l, hl, rfl, -⟩
    simp [step, runStep, hex, hinv.owner l hl, hl]
  · intro t i k s' hrun
    exact hrun.lt hinv hb

/-- Thread 0 caches block 7 and releases it, thread 1 has it evicted for block 8, and thread 0 hits
block 8. -/
def evictAndHit : List (Act (Fin 2) 1) :=
  .request 0 7 :: List.replicate 11 (.run 0) ++ .release 0 7 0 :: .request 1 8 ::
    List.replicate 13 (.run 1) ++ .request 0 8 :: List.replicate 6 (.run 0)

theorem sound_after_hit : ∃ s : State (Fin 2) ℤ 1,
    s.cachePinnedCount 0 = 2 ∧ s.cachedBlockId 0 = 8 ∧ Sound id s := by
  have hrun : (runsGuarded NoRace (step id) (State.clear fun _ => 0) evictAndHit).map
      (fun s : State (Fin 2) ℤ 1 => (s.cachePinnedCount 0, s.cachedBlockId 0)) = some (2, 8) := by
    decide +kernel
  obtain ⟨s, hs, hv⟩ := map_eq_some_iff.mp hrun
  have hs0 : Init (State.clear fun _ => 0 : State (Fin 2) ℤ 1) := ⟨_, rfl⟩
  exact ⟨s, congrArg Prod.fst hv, congrArg Prod.snd hv,
    sound_of_reach (reach_of_runsGuarded hs0 hs)⟩

/-- Thread 1 pins the free slot between thread 0's `cached_block_id` and `store(1)`. -/
def pinOverwritten : List (Act (Fin 2) 1) :=
  .request 0 7 :: List.replicate 7 (.run 0) ++ .request 1 7 :: List.replicate 6 (.run 1) ++
    List.replicate 4 (.run 0)

/-- Two requests hold the slot and its count is 1. -/
theorem pin_lost : ∃ s : State (Fin 2) ℤ 1, Reach Init (ofFn (step id)) s
    ∧ s.cachePinnedCount 0 = 1 ∧ s.outstanding 0 = 2 ∧ ¬ Sound id s := by
  have hrun : (runs (step id) (State.clear fun _ => 0) pinOverwritten).map
      (fun s : State (Fin 2) ℤ 1 => (s.cachePinnedCount 0, s.outstanding 0)) = some (1, 2) := by
    decide +kernel
  obtain ⟨s, hs, hv⟩ := map_eq_some_iff.mp hrun
  have h1 : s.cachePinnedCount 0 = 1 := congrArg Prod.fst hv
  have h2 : s.outstanding 0 = 2 := congrArg Prod.snd hv
  refine ⟨s, reach_of_runs (.start ⟨_, rfl⟩) hs, h1, h2, fun hsound => ?_⟩
  by_cases he : s.Evicting 0
  · have h3 := (hsound.evicting 0 he).2
    omega
  · have h3 := hsound.pinned 0 he
    omega

end DiskANNEval.DGAI.BlockCache
