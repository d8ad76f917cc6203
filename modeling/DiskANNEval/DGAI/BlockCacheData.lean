import DiskANNEval.DGAI.BlockCacheSound

/-!
# BlockCacheData — what `get_cache_block` hands out

The owner of `hand_mtx` writes a slot's id, its pin count and, last, its status.  In between the
status is that of the block that was evicted, and a request that pins the slot then is given the
old block (`stale_block`).  In every run in which no compare-and-swap pins a slot that is being
filled, `get_cache_block` hands out the block that was asked for, which stays as it is until the
request is released, and no order of the threads' steps brings them all to a stop.
-/

namespace DiskANNEval.DGAI.BlockCache

open Lib Option Function List

variable {Θ α : Type} {n : ℕ}

/-- The slot whose tables the owner is writing. -/
def MissPc.fills : MissPc n → Option (Fin n)
  | .writeId _ cb | .storePin _ cb | .storeRef _ cb | .storeStatus _ cb => some cb
  | _ => none

def State.filling (s : State Θ α n) : Option (Fin n) := s.handMtx.bind fun l => l.pc.fills

/-- The slot that is pinned is not being filled. -/
def Pc.Settled (s : State Θ α n) : Pc n → Prop
  | .swapPin _ cb val => s.cachePinnedCount cb = val → s.filling ≠ some cb
  | _ => True

def Settled (s : State Θ α n) : Act Θ n → Prop
  | .run t => (s.threads t).pc.Settled s
  | _ => True

instance (s : State Θ α n) (pc : Pc n) : Decidable (pc.Settled s) :=
  match pc with
  | .swapPin _ cb val =>
    inferInstanceAs (Decidable (s.cachePinnedCount cb = val → s.filling ≠ some cb))
  | .idle | .lookup _ | .loadPin _ _ | .checkId _ _ _ | .recheckId _ _ _ | .fetchRef _ _ | .miss _
  | .getStatus _ _ | .getLock _ _ | .getRecheck _ _ | .getRead _ _ | .getFinish _ _
  | .getUnlock _ _ => inferInstanceAs (Decidable True)

instance (s : State Θ α n) (a : Act Θ n) : Decidable (Settled s a) :=
  match a with
  | .run t => inferInstanceAs (Decidable ((s.threads t).pc.Settled s))
  | .request _ _ | .get _ _ _ | .release _ _ _ => inferInstanceAs (Decidable True)

/-- The block and the slot of a `get_cache_block`. -/
def Pc.gets : Pc n → Option (ℤ × Fin n)
  | .getStatus b cb | .getLock b cb | .getRecheck b cb | .getRead b cb | .getFinish b cb
  | .getUnlock b cb => some (b, cb)
  | _ => none

/-- The slot whose mutex the thread has. -/
def Pc.locks : Pc n → Option (Fin n)
  | .getRecheck _ cb | .getRead _ cb | .getFinish _ cb | .getUnlock _ cb => some cb
  | _ => none

/-- How far the owner of a slot's mutex has come. -/
def Stage (readBlock : ℤ → α) (s : State Θ α n) : Pc n → Prop
  | .getRead _ cb => s.cacheStatus cb = .allocated
  | .getFinish b cb => s.cacheStatus cb = .allocated ∧ s.cacheBlockVec cb = readBlock b
  | .getUnlock _ cb => s.cacheStatus cb = .finished
  | _ => True

structure DataOk (readBlock : ℤ → α) (s : State Θ α n) : Prop where
  data : ∀ i, s.cacheStatus i = .finished → s.filling ≠ some i →
    s.cacheBlockVec i = readBlock (s.cachedBlockId i)
  unheld : ∀ t, ∀ p ∈ (s.threads t).requests, s.filling ≠ some p.2
  gets : ∀ t p, (s.threads t).pc.gets = some p → p ∈ (s.threads t).held
  mutex : ∀ cb t, s.cacheMtx cb = some t ↔ (s.threads t).pc.locks = some cb
  stage : ∀ t, Stage readBlock s (s.threads t).pc

variable {readBlock : ℤ → α} {s s' : State Θ α n} {t u : Θ} {b : ℤ} {cb i : Fin n}

/-- Only a slot that is being filled is mapped from another block than its own. -/
theorem settled_of_blockOf (hf : s.filling ≠ some i) (hb : s.blockOf i = some b) :
    s.cacheStatus i ≠ .invalid ∧ s.cachedBlockId i = b := by
  have hsettled : s.settled i = some b := by
    rw [State.blockOf] at hb
    rw [State.filling] at hf
    cases hl : s.handMtx with
    | none => rwa [hl] at hb
    | some l =>
      rw [hl, bind_some] at hb hf
      obtain ⟨o, c, pc⟩ := l
      cases pc with
      | emplace fresh cb =>
        simp only [Hand.entry] at hb
        split_ifs at hb with hi
        · cases hb
        · exact hb
      | writeId fresh cb | storePin fresh cb | storeRef fresh cb | storeStatus fresh cb =>
        have hi : cb ≠ i := fun he => hf (congrArg some he)
        simpa [Hand.entry, hi] using hb
      | _ => exact hb
  rw [State.settled] at hsettled
  split_ifs at hsettled with hst
  exact ⟨hst, some.inj hsettled⟩

/-- What a thread in `get_cache_block` knows hangs on the slot whose mutex it has. -/
theorem Stage.congr {pc : Pc n} (h : Stage readBlock s pc)
    (hs : ∀ i, pc.locks = some i →
      s'.cacheStatus i = s.cacheStatus i ∧ s'.cacheBlockVec i = s.cacheBlockVec i) :
    Stage readBlock s' pc := by
  cases pc with
  | getRead c i => exact (hs i rfl).1.trans h
  | getFinish c i => exact ⟨(hs i rfl).1.trans h.1, (hs i rfl).2.trans h.2⟩
  | getUnlock c i => exact (hs i rfl).1.trans h
  | _ => trivial

theorem gets_of_locks {pc : Pc n} (h : pc.locks = some cb) : ∃ b, pc.gets = some (b, cb) := by
  cases pc with
  | getRecheck b _ | getRead b _ | getFinish b _ | getUnlock b _ =>
    exact ⟨b, congrArg (fun cb => some (b, cb)) (some.inj h)⟩
  | _ => cases h

namespace DataOk

variable (h : DataOk readBlock s)
include h

theorem status_held [Fintype Θ] (hi : Inv s) {p : ℤ × Fin n} (hp : p ∈ (s.threads t).requests) :
    s.cacheStatus p.2 ≠ .invalid ∧ s.cachedBlockId p.2 = p.1 :=
  settled_of_blockOf (h.unheld t p hp) (hi.assigned t p hp).1

theorem of_tables (hst : s'.cacheStatus = s.cacheStatus) (hid : s'.cachedBlockId = s.cachedBlockId)
    (hvec : s'.cacheBlockVec = s.cacheBlockVec) (hmtx : s'.cacheMtx = s.cacheMtx)
    (hth : s'.threads = s.threads) (hf : s'.filling = s.filling) : DataOk readBlock s' := by
  refine ⟨?_, ?_, ?_, ?_, fun t => ?_⟩
  · rw [hst, hid, hvec, hf]
    exact h.data
  · rw [hth, hf]
    exact h.unheld
  · rw [hth]
    exact h.gets
  · rw [hth, hmtx]
    exact h.mutex
  · rw [hth]
    exact (h.stage t).congr fun i _ => by rw [hst, hvec]; exact ⟨rfl, rfl⟩

variable [DecidableEq Θ]

theorem setThread {th : Thread n} (hreq : ∀ p ∈ th.requests, s.filling ≠ some p.2)
    (hgets : ∀ p, th.pc.gets = some p → p ∈ th.held)
    (hlocks : th.pc.locks = (s.threads t).pc.locks) (hstage : Stage readBlock s th.pc) :
    DataOk readBlock (s.setThread t th) := by
  have hcases : ∀ {P : Thread n → Prop}, P th → (∀ u, P (s.threads u)) →
      ∀ u, P (update s.threads t th u) := by
    intro P hth hall u
    by_cases hu : u = t
    · rwa [hu, update_self]
    · rw [update_of_ne hu]
      exact hall u
  refine ⟨h.data, hcases (P := fun th => ∀ p ∈ th.requests, s.filling ≠ some p.2) hreq h.unheld,
    hcases (P := fun th => ∀ p, th.pc.gets = some p → p ∈ th.held) hgets h.gets, fun cb u => ?_,
    hcases (P := fun th => Stage readBlock s th.pc) hstage h.stage⟩
  show s.cacheMtx cb = some u ↔ (update s.threads t th u).pc.locks = some cb
  rw [h.mutex cb u]
  by_cases hu : u = t
  · rw [hu, update_self, hlocks]
  · rw [update_of_ne hu]

theorem own {status : Fin n → Status} {vec : Fin n → α} {mtx : Fin n → Option Θ} {pc : Pc n}
    (hheld : (b, cb) ∈ (s.threads t).held) (hnone : pc.requests = [])
    (hmine : ∀ u, s.cacheMtx cb = some u → u = t)
    (hoff : ∀ i ≠ cb, status i = s.cacheStatus i ∧ vec i = s.cacheBlockVec i ∧
      mtx i = s.cacheMtx i)
    (hdata : status cb = .finished → vec cb = readBlock (s.cachedBlockId cb))
    (hgets : ∀ p, pc.gets = some p → p = (b, cb))
    (hmtx : ∀ u, mtx cb = some u ↔ u = t ∧ pc.locks = some cb)
    (hlocks : ∀ i ≠ cb, pc.locks ≠ some i ∧ (s.threads t).pc.locks ≠ some i)
    (hstage : Stage readBlock
      { s with cacheStatus := status, cacheBlockVec := vec, cacheMtx := mtx } pc) :
    DataOk readBlock ({ s with
      cacheStatus := status, cacheBlockVec := vec, cacheMtx := mtx }.setPc t pc) := by
  refine ⟨fun i hst hf => ?_, fun u p hp => ?_, fun u p hp => ?_, fun i u => ?_, fun u => ?_⟩
  · by_cases hi : i = cb
    · rw [hi] at hst ⊢
      exact hdata hst
    · obtain ⟨hs, hv, -⟩ := hoff i hi
      exact hv.trans (h.data i (hs ▸ hst) hf)
  · have hp : p ∈ (update s.threads t { s.threads t with pc } u).requests := hp
    by_cases hu : u = t
    · rw [hu, update_self, Thread.requests, hnone, nil_append] at hp
      exact h.unheld t p (mem_append_right _ hp)
    · rw [update_of_ne hu] at hp
      exact h.unheld u p hp
  · have hp : (update s.threads t { s.threads t with pc } u).pc.gets = some p := hp
    show p ∈ (update s.threads t { s.threads t with pc } u).held
    by_cases hu : u = t
    · rw [hu, update_self] at hp ⊢
      exact hgets p hp ▸ hheld
    · rw [update_of_ne hu] at hp ⊢
      exact h.gets u p hp
  · show mtx i = some u ↔ (update s.threads t { s.threads t with pc } u).pc.locks = some i
    by_cases hi : i = cb
    · rw [hi, hmtx u]
      by_cases hu : u = t
      · rw [hu, update_self, and_iff_right rfl]
      · rw [update_of_ne hu, ← h.mutex cb u]
        exact iff_of_false (fun hh => hu hh.1) fun hm => hu (hmine u hm)
    · rw [(hoff i hi).2.2, h.mutex i u]
      by_cases hu : u = t
      · rw [hu, update_self]
        exact iff_of_false (hlocks i hi).2 (hlocks i hi).1
      · rw [update_of_ne hu]
  · show Stage readBlock _ (update s.threads t { s.threads t with pc } u).pc
    by_cases hu : u = t
    · rw [hu, update_self]
      exact hstage
    · rw [update_of_ne hu]
      refine (h.stage u).congr fun i hi => ?_
      have hne : i ≠ cb := by
        rintro rfl
        exact hu (hmine u ((h.mutex i u).2 hi))
      exact ⟨(hoff i hne).1, (hoff i hne).2.1⟩

/-- `request_block` returns the slot `cb`, which the owner has filled or found. -/
theorem giveOut (hf : s.filling ≠ some cb) (hgets : (s.threads t).pc.locks = none) :
    DataOk readBlock (s.giveOut t b cb) := by
  refine h.setThread (fun p hp => ?_) nofun (hgets.symm ▸ rfl) trivial
  rcases mem_cons.1 hp with rfl | hp
  · exact hf
  · exact h.unheld t p (mem_append_right _ hp)

theorem setPc {pc : Pc n} (hreq : ∀ p ∈ pc.requests, s.filling ≠ some p.2)
    (hgets : ∀ p, pc.gets = some p → p ∈ (s.threads t).held)
    (hlocks : pc.locks = (s.threads t).pc.locks) (hstage : Stage readBlock s pc) :
    DataOk readBlock (s.setPc t pc) := by
  refine h.setThread (fun p hp => ?_) hgets hlocks hstage
  rcases mem_append.1 hp with hp | hp
  · exact hreq p hp
  · exact h.unheld t p (mem_append_right _ hp)

theorem goOn {pc : Pc n} (hreq : pc.requests = []) (hgets : pc.gets = none)
    (hlocks : pc.locks = (s.threads t).pc.locks) (hstage : Stage readBlock s pc) :
    DataOk readBlock (s.setPc t pc) :=
  h.setPc (by simp [hreq]) (by simp [hgets]) hlocks hstage

variable [Fintype Θ] [NeZero n]

omit [DecidableEq Θ] [NeZero n] in
/-- Nobody has a request on a slot that the owner maps from its block. -/
theorem emplace (hi : Inv s) {o : Θ} {fresh : Bool}
    (hl : s.handMtx = some ⟨o, b, .emplace fresh cb⟩) (m : ℤ → Option (Fin n)) :
    DataOk readBlock ({ s with cachePhMap := m }.setHand (some ⟨o, b, .writeId fresh cb⟩)) := by
  have hf : s.filling = none := by
    rw [State.filling, hl]
    rfl
  refine ⟨fun i hst _ => h.data i hst (by rw [hf]; nofun), fun t p hp he => ?_, h.gets, h.mutex,
    fun t => (h.stage t).congr fun _ _ => ⟨rfl, rfl⟩⟩
  have hb := (hi.assigned t p hp).1
  rw [← some.inj he, State.blockOf, hl] at hb
  simp [Hand.entry] at hb

section

omit [DecidableEq Θ] [Fintype Θ] [NeZero n]

theorem writeId {o : Θ} {fresh : Bool} (hl : s.handMtx = some ⟨o, b, .writeId fresh cb⟩) :
    DataOk readBlock ({ s with cachedBlockId := update s.cachedBlockId cb b }.setHand
      (some ⟨o, b, .storePin fresh cb⟩)) := by
  have hf : s.filling = some cb := by
    rw [State.filling, hl]
    rfl
  refine ⟨fun i hst hi => ?_, fun t p hp he => h.unheld t p hp (hf.trans he), h.gets, h.mutex,
    fun t => (h.stage t).congr fun _ _ => ⟨rfl, rfl⟩⟩
  have hne : i ≠ cb := fun he => hi (he ▸ rfl)
  show s.cacheBlockVec i = readBlock (update s.cachedBlockId cb b i)
  rw [update_of_ne hne]
  exact h.data i hst (hf ▸ hi)

theorem storeStatus {o : Θ} {fresh : Bool}
    (hl : s.handMtx = some ⟨o, b, .storeStatus fresh cb⟩) :
    DataOk readBlock ((s.setStatus cb .allocated).setHand (some ⟨o, b, .moveHand cb⟩)) := by
  have hf : s.filling = some cb := by
    rw [State.filling, hl]
    rfl
  refine ⟨fun i hst _ => ?_, fun t p hp => nofun, h.gets, h.mutex,
    fun t => (h.stage t).congr fun i hi => ⟨?_, rfl⟩⟩
  · have hst : update s.cacheStatus cb .allocated i = .finished := hst
    have hne : i ≠ cb := by
      rintro rfl
      rw [update_self] at hst
      cases hst
    rw [update_of_ne hne] at hst
    exact h.data i hst fun he => hne (some.inj (hf.symm.trans he)).symm
  · show update s.cacheStatus cb .allocated i = s.cacheStatus i
    obtain ⟨c, hc⟩ := gets_of_locks hi
    have hheld := h.unheld t _ (mem_append_right _ (h.gets t _ hc))
    exact update_of_ne (fun he => hheld (hf.trans (congrArg some he.symm))) _ _

end

theorem missStep (hi : Inv s) {l : Hand Θ n} (hl : s.handMtx = some l) :
    DataOk readBlock (missStep s l.owner l.blockId l.pc) := by
  obtain ⟨o, b, pc⟩ := l
  have hf : s.filling = pc.fills := by
    rw [State.filling, hl]
    rfl
  have hlocks : (s.threads o).pc.locks = none := by
    rw [hi.owner _ hl]
    rfl
  cases pc with
  | lookup =>
    unfold BlockCache.missStep
    cases s.cachePhMap b with
    | some cb => exact h.of_tables rfl rfl rfl rfl rfl hf.symm
    | none =>
      split_ifs
      · exact h.of_tables rfl rfl rfl rfl rfl hf.symm
      · exact h.of_tables rfl rfl rfl rfl rfl hf.symm
  | scanFree cb | checkPinned cb | swapEvict cb | dropRef cb =>
    unfold BlockCache.missStep
    simp only
    split_ifs
    · exact h.of_tables rfl rfl rfl rfl rfl hf.symm
    · exact h.of_tables rfl rfl rfl rfl rfl hf.symm
  | fetchRef cb =>
    have h1 : DataOk readBlock ((s.addRef cb 1).setHand none) :=
      h.of_tables rfl rfl rfl rfl rfl hf.symm
    exact h1.giveOut (some_ne_none cb).symm hlocks
  | moveHand cb =>
    have h1 : DataOk readBlock ({ s with clockHand := cb + 1 }.setHand none) :=
      h.of_tables rfl rfl rfl rfl rfl hf.symm
    exact h1.giveOut (some_ne_none cb).symm hlocks
  | emplace fresh cb => exact h.emplace hi hl _
  | writeId fresh cb => exact h.writeId hl
  | storeStatus fresh cb => exact h.storeStatus hl
  | fetchPin cb | takeFree | erase cb | storePin fresh cb | storeRef fresh cb =>
    exact h.of_tables rfl rfl rfl rfl rfl hf.symm

theorem runStep (hi : Inv s) (hok : (s.threads t).pc.Settled s)
    (hs : runStep readBlock s t = some s') : DataOk readBlock s' := by
  unfold BlockCache.runStep at hs
  have hstage := h.stage t
  have hheld := h.gets t
  have hmutex := fun cb => h.mutex cb t
  have hmine : ∀ cb, (s.threads t).pc.locks = some cb →
      ∀ u, s.cacheMtx cb = some u → u = t := by
    intro cb hcb u hu
    exact some.inj (hu.symm.trans ((h.mutex cb t).2 hcb))
  cases hpc : (s.threads t).pc with
  | idle => simp [hpc] at hs
  | lookup b =>
    simp only [hpc] at hs
    cases hmap : s.cachePhMap b <;> simp only [hmap, Option.some.injEq] at hs <;> subst hs
    · exact h.goOn rfl rfl (by rw [hpc]; rfl) trivial
    · exact h.goOn rfl rfl (by rw [hpc]; rfl) trivial
  | loadPin b cb =>
    simp only [hpc, Option.some.injEq] at hs
    subst hs
    exact h.goOn rfl rfl (by rw [hpc]; rfl) trivial
  | checkId b cb val =>
    simp only [hpc] at hs
    split_ifs at hs <;> cases hs
    · exact h.goOn rfl rfl (by rw [hpc]; rfl) trivial
    · exact h.goOn rfl rfl (by rw [hpc]; rfl) trivial
  | swapPin b cb val =>
    simp only [hpc] at hs
    rw [hpc] at hok
    split_ifs at hs with hv <;> cases hs
    · have h1 : DataOk readBlock (s.addPinned cb 1) := h.of_tables rfl rfl rfl rfl rfl rfl
      refine h1.setPc (fun p hp => ?_) (by rintro _ ⟨⟩) (congrArg Pc.locks hpc).symm trivial
      rw [mem_singleton.1 hp]
      exact hok hv
    · exact h.goOn rfl rfl (by rw [hpc]; rfl) trivial
  | recheckId b cb val =>
    simp only [hpc] at hs
    have hreq : (b, cb) ∈ (s.threads t).requests := by simp [Thread.requests, hpc, Pc.requests]
    split_ifs at hs <;> cases hs
    · refine h.setPc (fun p hp => ?_) (by rintro _ ⟨⟩) (by rw [hpc]; rfl) trivial
      rw [mem_singleton.1 hp]
      exact h.unheld t _ hreq
    · exact h.goOn rfl rfl (by rw [hpc]; rfl) trivial
  | fetchRef b cb =>
    simp only [hpc, Option.some.injEq] at hs
    subst hs
    have hreq : (b, cb) ∈ (s.threads t).requests := by simp [Thread.requests, hpc, Pc.requests]
    have h1 : DataOk readBlock (s.addRef cb 1) := h.of_tables rfl rfl rfl rfl rfl rfl
    exact h1.giveOut (h.unheld t _ hreq) (congrArg Pc.locks hpc)
  | miss b =>
    simp only [hpc] at hs
    cases hl : s.handMtx with
    | none =>
      simp only [hl, Option.some.injEq] at hs
      subst hs
      refine h.of_tables rfl rfl rfl rfl rfl ?_
      rw [State.filling, State.filling, hl]
      rfl
    | some l =>
      simp only [hl] at hs
      split_ifs at hs with ho
      cases hs
      rw [← ho]
      exact h.missStep hi hl
  | getStatus b cb =>
    simp only [hpc] at hs
    rw [hpc] at hheld
    split_ifs at hs <;> cases hs
    · exact h.setPc (forall_mem_nil _) hheld (by rw [hpc]; rfl) trivial
    · exact h.goOn rfl rfl (by rw [hpc]; rfl) trivial
  | getLock b cb =>
    simp only [hpc] at hs
    rw [hpc] at hheld
    split_ifs at hs with hfree
    cases hs
    refine h.own (hheld _ rfl) rfl (fun u hu => ?_) (fun i hi => ⟨rfl, rfl, update_of_ne hi _ _⟩)
      (fun hst => h.data cb hst (h.unheld t _ (mem_append_right _ (hheld _ rfl))))
      (fun p hp => (some.inj hp).symm) (fun u => ?_) (fun i hi => ⟨?_, ?_⟩) trivial
    · rw [hfree] at hu
      cases hu
    · rw [update_self]
      exact ⟨fun he => ⟨(some.inj he).symm, rfl⟩, fun he => congrArg some he.1.symm⟩
    · exact fun he => hi (some.inj he).symm
    · rw [hpc]
      rintro ⟨⟩
  | getRecheck b cb =>
    simp only [hpc] at hs
    rw [hpc] at hheld
    have hreq := mem_append_right (s.threads t).pc.requests (hheld _ rfl)
    split_ifs at hs with hst <;> cases hs
    · exact h.setPc (forall_mem_nil _) hheld (by rw [hpc]; rfl) hst
    · refine h.setPc (forall_mem_nil _) hheld (by rw [hpc]; rfl) ?_
      have hne := (h.status_held hi hreq).1
      show s.cacheStatus cb = .finished
      cases hcb : s.cacheStatus cb with
      | invalid => exact absurd hcb hne
      | allocated => exact absurd hcb hst
      | finished => rfl
  | getRead b cb =>
    simp only [hpc, Option.some.injEq] at hs
    subst hs
    rw [hpc] at hheld hstage hmine hmutex
    refine h.own (hheld _ rfl) rfl (hmine cb rfl) (fun i hi => ⟨rfl, update_of_ne hi _ _, rfl⟩)
      (fun hst => ?_) (fun p hp => (some.inj hp).symm) (fun u => ?_) (fun i hi => ⟨?_, ?_⟩)
      ⟨hstage, update_self ..⟩
    · have hst : s.cacheStatus cb = .finished := hst
      rw [show s.cacheStatus cb = .allocated from hstage] at hst
      cases hst
    · exact ⟨fun hu => ⟨hmine cb rfl u hu, rfl⟩, fun hu => hu.1 ▸ (hmutex cb).2 rfl⟩
    · exact fun he => hi (some.inj he).symm
    · rw [hpc]
      exact fun he => hi (some.inj he).symm
  | getFinish b cb =>
    simp only [hpc, Option.some.injEq] at hs
    subst hs
    rw [hpc] at hheld hstage hmine hmutex
    have hreq := mem_append_right (s.threads t).pc.requests (hheld _ rfl)
    refine h.own (hheld _ rfl) rfl (hmine cb rfl) (fun i hi => ⟨update_of_ne hi _ _, rfl, rfl⟩)
      (fun _ => ?_) (fun p hp => (some.inj hp).symm) (fun u => ?_) (fun i hi => ⟨?_, ?_⟩)
      (update_self ..)
    · rw [(h.status_held hi hreq).2]
      exact hstage.2
    · exact ⟨fun hu => ⟨hmine cb rfl u hu, rfl⟩, fun hu => hu.1 ▸ (hmutex cb).2 rfl⟩
    · exact fun he => hi (some.inj he).symm
    · rw [hpc]
      exact fun he => hi (some.inj he).symm
  | getUnlock b cb =>
    simp only [hpc, Option.some.injEq] at hs
    subst hs
    rw [hpc] at hheld hmine
    refine h.own (hheld _ rfl) rfl (hmine cb rfl) (fun i hi => ⟨rfl, rfl, update_of_ne hi _ _⟩)
      (fun hst => h.data cb hst (h.unheld t _ (mem_append_right _ (hheld _ rfl))))
      (by rintro _ ⟨⟩) (fun u => ?_) (fun i hi => ⟨by rintro ⟨⟩, ?_⟩) trivial
    · rw [update_self]
      simp [Pc.locks]
    · rw [hpc]
      exact fun he => hi (some.inj he).symm

theorem step {a : Act Θ n} (hi : Inv s) (hok : Settled s a)
    (hs : BlockCache.step readBlock s a = some s') : DataOk readBlock s' := by
  unfold BlockCache.step at hs
  split_ifs at hs
  cases a with
  | run t => exact h.runStep hi hok hs
  | request t b =>
    simp only at hs
    split_ifs at hs with hpc
    cases hs
    exact h.goOn rfl rfl (by rw [hpc]; rfl) trivial
  | get t b cb =>
    simp only at hs
    split_ifs at hs with hpc
    cases hs
    refine h.setPc (forall_mem_nil _) (fun p hp => ?_) (by rw [hpc.1]; rfl) trivial
    rw [← some.inj hp]
    exact hpc.2
  | release t b cb =>
    simp only at hs
    split_ifs at hs with hpc
    cases hs
    have h1 : DataOk readBlock
        { s.addPinned cb (-1) with exited := decide (s.cachePinnedCount cb ≤ 0) } :=
      h.of_tables rfl rfl rfl rfl rfl rfl
    refine h1.setThread (fun p hp => ?_) (by rintro _ ⟨⟩) (congrArg Pc.locks hpc.1).symm trivial
    exact h.unheld t p (mem_append_right _ (mem_of_mem_erase hp))

end DataOk

variable [Fintype Θ] [DecidableEq Θ] [NeZero n]

theorem dataOk_of_reach
    (h : Reach Init (guarded (fun s a => NoRace s a ∧ Settled s a) (ofFn (step readBlock))) s) :
    Inv s ∧ DataOk readBlock s := by
  suffices h : (Inv s ∧ Bounded s) ∧ DataOk readBlock s from ⟨h.1.1, h.2⟩
  refine h.invariant (P := fun s => (Inv s ∧ Bounded s) ∧ DataOk readBlock s) ?_ ?_
  · rintro s ⟨block, rfl⟩
    refine ⟨⟨inv_clear block, fun i => by simp [State.clear]⟩, fun i hi => ?_,
      fun t p hp => ?_, nofun, fun cb t => iff_of_false nofun nofun, fun t => trivial⟩
    · cases hi
    · cases hp
  · rintro s a s' ⟨⟨hi, hb⟩, hd⟩ ⟨⟨hok, hset⟩, hs⟩
    exact ⟨⟨hi.step hb hok hs, hb.step hs⟩, hd.step hi hset hs⟩

/-- What the threads that use the cache are given. -/
structure Served (readBlock : ℤ → α) (s : State Θ α n) : Prop where
  -- the assertion of `get_cache_block`
  named : ∀ t b cb, (b, cb) ∈ (s.threads t).held → s.cachedBlockId cb = b
  returns : ∀ t b cb, (s.threads t).pc = .getUnlock b cb ∨
    (s.threads t).pc = .getStatus b cb ∧ s.cacheStatus cb ≠ .allocated →
      s.cacheStatus cb = .finished ∧ s.cacheBlockVec cb = readBlock b
  keeps : ∀ t b cb, (b, cb) ∈ (s.threads t).held → s.cacheStatus cb = .finished →
    s.cacheBlockVec cb = readBlock b
  goesOn : (∃ t, (s.threads t).pc ≠ .idle) → ∃ t, (step readBlock s (.run t)).isSome = true

omit [Fintype Θ] in
theorem isSome_runStep (hidle : (s.threads t).pc ≠ .idle) (hmiss : ∀ b, (s.threads t).pc ≠ .miss b)
    (hlock : ∀ b cb, (s.threads t).pc ≠ .getLock b cb) : (runStep readBlock s t).isSome = true := by
  unfold runStep
  cases hpc : (s.threads t).pc with
  | idle => exact absurd hpc hidle
  | miss b => exact absurd hpc (hmiss b)
  | getLock b cb => exact absurd hpc (hlock b cb)
  | lookup b =>
    simp only
    cases s.cachePhMap b <;> rfl
  | checkId b cb val | swapPin b cb val | recheckId b cb val | getStatus b cb | getRecheck b cb =>
    simp only
    split_ifs <;> rfl
  | _ => rfl

theorem DataOk.goesOn (h : DataOk readBlock s) (hi : Inv s) (ht : (s.threads t).pc ≠ .idle) :
    ∃ t, (BlockCache.runStep readBlock s t).isSome = true := by
  by_cases hmiss : ∃ b, (s.threads t).pc = .miss b
  · obtain ⟨b, hpc⟩ := hmiss
    cases hl : s.handMtx with
    | none => exact ⟨t, by simp [BlockCache.runStep, hpc, hl]⟩
    | some l => exact ⟨l.owner, by simp [BlockCache.runStep, hi.owner l hl, hl]⟩
  by_cases hlock : ∃ b cb, (s.threads t).pc = .getLock b cb
  · obtain ⟨b, cb, hpc⟩ := hlock
    cases hm : s.cacheMtx cb with
    | none => exact ⟨t, by simp [BlockCache.runStep, hpc, hm]⟩
    | some u =>
      have hu := (h.mutex cb u).1 hm
      refine ⟨u, isSome_runStep (fun he => ?_) (fun b he => ?_) fun b cb he => ?_⟩ <;>
        (rw [he] at hu; cases hu)
  exact ⟨t, isSome_runStep ht (fun b hb => hmiss ⟨b, hb⟩) fun b cb hb => hlock ⟨b, cb, hb⟩⟩

/-- `t` reads block 7 in the slot `cb` and releases it; `u` evicts it for block 8. -/
def readAndEvict (t u : Θ) (cb : Fin n) : List (Act Θ n) :=
  .request t 7 :: replicate 11 (.run t) ++ .get t 7 cb :: replicate 6 (.run t) ++
    .release t 7 cb :: .request u 8 :: replicate 10 (.run u)

/-- Thread 0 hits block 8 when thread 1 has stored its pin count, and not its status: it is given
block 7. -/
theorem stale_block : ∃ s : State (Fin 2) ℤ 1, Reach Init (guarded NoRace (ofFn (step id))) s ∧
    (s.threads 0).pc = .getStatus 8 0 ∧ s.cacheStatus 0 = .finished ∧ s.cacheBlockVec 0 = 7 := by
  have hrun : (runsGuarded NoRace (step id) (State.clear fun _ => 0)
      (readAndEvict 0 1 0 ++ (.request 0 8 :: replicate 6 (.run 0) ++ [.get 0 8 0]))).map
      (fun s : State (Fin 2) ℤ 1 => ((s.threads 0).pc, s.cacheStatus 0, s.cacheBlockVec 0)) =
      some (.getStatus 8 0, .finished, 7) := by
    decide +kernel
  obtain ⟨s, hs, hv⟩ := map_eq_some_iff.mp hrun
  rw [Prod.mk.injEq, Prod.mk.injEq] at hv
  have hs0 : Init (State.clear fun _ => 0 : State (Fin 2) ℤ 1) := ⟨_, rfl⟩
  exact ⟨s, reach_of_runsGuarded hs0 hs, hv⟩

end DiskANNEval.DGAI.BlockCache
