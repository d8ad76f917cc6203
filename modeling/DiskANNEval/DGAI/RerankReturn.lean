import DiskANNEval.DGAI.RerankSearch

/-!
# RerankReturn — what a search leaves behind

In the loop the reads in flight are those of the requests in the queue that are not finished, the
locks held are those of the requests that give theirs back when they leave the queue, and each pinned
block is that of one request or one entry of `page_ref` (`Ledger`).  The loop that empties the queue
releases every block and unlocks every node, and waits for no read.  What is left behind when the
search returns is then what the queue held when the loop ended (`leavesNothing_iff`).
-/

namespace DiskANNEval.DGAI.RerankSearch

open Lib List Option Function
open PipeANN (Neighbor)

variable {C D : Type} {ix : SSDIndex C} {q : Query C D} {s t : Ios D}

/-! ### Counts -/

theorem bump_apply (f : ℕ → ℕ) (k x : ℕ) : bump f k x = f x + [k].count x := by
  unfold bump
  rw [update_apply, count_singleton]
  by_cases hx : x = k
  · subst hx
    simp
  · have hk : (k == x) = false := beq_eq_false_iff_ne.2 (Ne.symm hx)
    rw [if_neg hx, hk]
    rfl

theorem foldl_bump (l : List ℕ) (f : ℕ → ℕ) (x : ℕ) : l.foldl bump f x = f x + l.count x := by
  induction l generalizing f with
  | nil => rfl
  | cons k l ih =>
    rw [foldl_cons, ih, bump_apply, Nat.add_assoc, ← count_append, singleton_append]

/-! ### The queue -/

namespace Ios

def slots (s : Ios D) : List ℕ := s.onFlightIos.map Io.slot

def queuedIds (s : Ios D) : List ℕ := s.onFlightIos.map fun io => io.nbr.id

/-- The ids that the requests in the queue unlock when they leave it. -/
def lockedIds (s : Ios D) : List ℕ := (s.onFlightIos.filter Io.needUnlock).map fun io => io.nbr.id

/-- The blocks of the requests in the queue, with their pages. -/
def queuedBlocks (s : Ios D) : List (ℕ × ℕ) :=
  s.onFlightIos.filterMap fun io => io.cbIdx.map fun cb => (io.pageId, cb)

def blocks (s : Ios D) : List (ℕ × ℕ) := s.queuedBlocks ++ s.pageRef

end Ios

/-- What the search holds in its loop. -/
structure Ledger (s : Ios D) : Prop where
  slots : s.slots.Nodup
  pages : ∀ io ∈ s.onFlightIos, (s.reqs io.slot).pageId = io.pageId
  readSlots : (s.inFlight.map Read.slot).Nodup
  reads : ∀ k, k ∈ s.inFlight.map Read.slot ↔ k ∈ s.slots ∧ (s.reqs k).finished = false
  locks : ∀ id, s.locked id = s.unlocked id + s.lockedIds.count id
  pins : ∀ cb, s.pinned cb = s.released cb + (s.blocks.map Prod.snd).count cb
  distinct : (s.blocks.map Prod.fst).Nodup
  mapped : ∀ b ∈ s.blocks, s.pageBufMap b.1 ≠ none
  vecs : s.vecLocked = s.vecUnlocked

/-! ### A poll -/

theorem foldl_readDone (l : List Read) (s : Ios D) : ∃ reqs sector,
    l.foldl Ios.readDone s = { s with reqs, sector } ∧
      ∀ k, (reqs k).pageId = (s.reqs k).pageId ∧
        ((reqs k).finished = false ↔ (s.reqs k).finished = false ∧ k ∉ l.map Read.slot) := by
  induction l generalizing s with
  | nil => exact ⟨s.reqs, s.sector, rfl, fun k => ⟨rfl, by simp⟩⟩
  | cons r l ih =>
    obtain ⟨reqs, sector, heq, hk⟩ := ih (s.readDone r)
    refine ⟨reqs, sector, heq, fun k => ?_⟩
    obtain ⟨hpage, hfin⟩ := hk k
    have hold : (s.readDone r).reqs k =
        if k = r.slot then { s.reqs r.slot with finished := true } else s.reqs k :=
      update_apply ..
    rw [hpage, hfin, hold]
    split_ifs with hslot
    · subst hslot
      simp
    · simp [hslot]

theorem Ledger.complete (h : Ledger s) (done : List ℕ) : Ledger (s.complete done) := by
  obtain ⟨reqs, sector, heq, hk⟩ := foldl_readDone (s.inFlight.filter fun r => r.no ∈ done)
    { s with inFlight := s.inFlight.filter fun r => r.no ∉ done }
  rw [Ios.complete, heq]
  refine ⟨h.slots, fun io hio => (hk io.slot).1.trans (h.pages io hio),
    h.readSlots.sublist (filter_sublist.map _), fun k => ?_, h.locks, h.pins, h.distinct, h.mapped,
    h.vecs⟩
  rw [(hk k).2]
  constructor
  · intro hmem
    obtain ⟨r, hr, rfl⟩ := mem_map.1 hmem
    obtain ⟨hr, hnot⟩ : r ∈ s.inFlight ∧ r.no ∉ done := by simpa using hr
    obtain ⟨hslot, hfin⟩ := (h.reads r.slot).1 (mem_map_of_mem hr)
    refine ⟨hslot, hfin, fun hmem' => hnot ?_⟩
    -- the reads in flight have different buffers
    obtain ⟨r', hr', he⟩ := mem_map.1 hmem'
    obtain ⟨hr', hdone⟩ : r' ∈ s.inFlight ∧ r'.no ∈ done := by simpa using hr'
    rwa [inj_on_of_nodup_map h.readSlots hr' hr he] at hdone
  · rintro ⟨hslot, hfin, hnot⟩
    obtain ⟨r, hr, rfl⟩ := mem_map.1 ((h.reads k).2 ⟨hslot, hfin⟩)
    refine mem_map_of_mem (mem_filter.2 ⟨hr, ?_⟩)
    refine decide_eq_true fun hdone => hnot (mem_map_of_mem ?_)
    exact mem_filter.2 ⟨hr, decide_eq_true hdone⟩

/-! ### The top of the queue -/

section Pop

variable {cbFilled : ℕ → Bool} {io : Io D} {rest : List (Io D)}

theorem Ledger.popIo_blocks (h : Ledger s) (cbFilled : ℕ → Bool) (hq : s.onFlightIos = io :: rest) :
    (s.popIo cbFilled io rest).blocks.Perm s.blocks := by
  have hpage := h.pages io (hq ▸ mem_cons_self)
  have hdistinct := h.distinct
  unfold Ios.blocks Ios.queuedBlocks at hdistinct ⊢
  rw [hq] at hdistinct ⊢
  simp only [Ios.popIo, hpage]
  cases hcb : io.cbIdx with
  | none => simp [hcb]
  | some cb =>
    simp only [filterMap_cons, hcb, map_some, cons_append, map_cons,
      map_append, nodup_cons, mem_append, not_or] at hdistinct ⊢
    rw [if_neg hdistinct.1.2, ← append_assoc]
    exact perm_append_comm

theorem Ledger.popIo (h : Ledger s) (hq : s.onFlightIos = io :: rest)
    (hfin : (s.reqs io.slot).finished = true) : Ledger (s.popIo cbFilled io rest) := by
  have hperm := h.popIo_blocks cbFilled hq
  have htail : ∀ io' ∈ rest, io' ∈ s.onFlightIos := fun io' hio' =>
    hq ▸ mem_cons_of_mem io hio'
  have hslots : s.slots = io.slot :: (s.popIo cbFilled io rest).slots := by
    rw [Ios.slots, hq]
    rfl
  have hnodup := h.slots
  rw [hslots, nodup_cons] at hnodup
  refine ⟨hnodup.2, fun io' hio' => h.pages io' (htail io' hio'), h.readSlots, fun k => ?_, fun id => ?_,
    fun cb => ?_, (hperm.map Prod.fst).nodup_iff.2 h.distinct,
    fun b hb => h.mapped b (hperm.mem_iff.1 hb), h.vecs⟩
  · show k ∈ s.inFlight.map Read.slot ↔ _ ∧ (s.reqs k).finished = false
    rw [h.reads k, hslots, mem_cons]
    refine and_congr_left fun hk => or_iff_right ?_
    rintro rfl
    rw [hfin] at hk
    cases hk
  · have hlock := h.locks id
    rw [Ios.lockedIds, hq] at hlock
    simp only [Ios.popIo]
    cases hneed : io.needUnlock with
    | false =>
      rw [filter_cons_of_neg (by simp [hneed])] at hlock
      exact hlock
    | true =>
      rw [filter_cons_of_pos hneed, map_cons, ← singleton_append,
        count_append, ← Nat.add_assoc] at hlock
      rw [if_pos rfl, bump_apply]
      exact hlock
  · rw [(hperm.map Prod.snd).count_eq]
    exact h.pins cb

theorem Ledger.popFinished (h : Ledger s) (inList : D → Bool) {l : List (Io D)}
    (hq : s.onFlightIos = l) (nIn nOut : ℕ) :
    Ledger (Ios.popFinished cbFilled inList l s nIn nOut).1 := by
  induction l generalizing s nIn nOut with
  | nil => exact h
  | cons io rest ih =>
    rw [Ios.popFinished]
    split_ifs with hfin hin
    · exact ih (h.popIo hq hfin) rfl _ _
    · exact ih (h.popIo hq hfin) rfl _ _
    · exact h

end Pop

/-! ### A new request -/

variable {nbr : Neighbor D} {loc buf rank : ℕ} {finished needUnlock : Bool} {pageRankMap : ℕ → ℕ}

theorem Ledger.request (h : Ledger s) (hfree : s.sectorIdx ∉ s.slots) {page : Page}
    {cbIdx : Option ℕ} {pageBufMap : ℕ → Option ℕ} {pinned : ℕ → ℕ} {sector : ℕ → Page}
    (hmap : ∀ p, s.pageBufMap p ≠ none → pageBufMap p ≠ none)
    (hnew : ∀ cb ∈ cbIdx, s.pageBufMap page.no = none ∧ pageBufMap page.no ≠ none)
    (hpin : ∀ cb, pinned cb = s.pinned cb + cbIdx.toList.count cb) :
    Ledger (({ s with pageBufMap, pageRankMap, pinned, sector } : Ios D).request nbr page loc buf
      finished cbIdx rank needUnlock) := by
  set io : Io D := ⟨nbr, page.no, loc, s.sectorIdx, cbIdx, rank, s.ts, needUnlock⟩ with hio
  have hperm : (s.onFlightIos.orderedInsert Io.le io).Perm (io :: s.onFlightIos) :=
    perm_orderedInsert ..
  have hslots : ((s.onFlightIos.orderedInsert Io.le io).map Io.slot).Perm (s.sectorIdx :: s.slots) :=
    hperm.map Io.slot
  have hblocks : ((s.onFlightIos.orderedInsert Io.le io).filterMap (fun io =>
      io.cbIdx.map fun cb => (io.pageId, cb)) ++ s.pageRef).Perm
        (cbIdx.toList.map (fun cb => (page.no, cb)) ++ s.blocks) := by
    rw [Ios.blocks, ← append_assoc]
    refine (Perm.append_right _ ((hperm.filterMap _).trans ?_))
    cases cbIdx <;> exact Perm.refl _
  have hlocked : (((s.onFlightIos.orderedInsert Io.le io).filter Io.needUnlock).map fun io =>
      io.nbr.id).Perm ((if needUnlock then [nbr.id] else []) ++ s.lockedIds) := by
    refine ((hperm.filter Io.needUnlock).map fun io => io.nbr.id).trans ?_
    cases needUnlock <;> exact Perm.refl _
  have hne : ∀ io' ∈ s.onFlightIos, io'.slot ≠ s.sectorIdx := fun io' hio' he =>
    hfree (he ▸ mem_map_of_mem hio')
  refine ⟨hslots.nodup_iff.2 (nodup_cons.2 ⟨hfree, h.slots⟩), fun io' hio' => ?_, ?_, fun k => ?_,
    fun id => ?_, fun cb => ?_, ?_, fun b hb => ?_, h.vecs⟩
  · show (Function.update s.reqs s.sectorIdx _ io'.slot).pageId = io'.pageId
    obtain rfl | hio' := mem_cons.1 (hperm.mem_iff.1 hio')
    · rw [update_self]
    · rw [update_of_ne (hne io' hio')]
      exact h.pages io' hio'
  · dsimp only [Ios.request]
    split_ifs
    · exact h.readSlots
    · rw [map_append]
      refine nodup_append.2 ⟨h.readSlots, nodup_singleton _, fun a ha b hb => ?_⟩
      rw [mem_singleton.1 hb]
      rintro rfl
      exact hfree ((h.reads _).1 ha).1
  · show k ∈ List.map Read.slot (if finished then s.inFlight else _) ↔
      k ∈ (s.onFlightIos.orderedInsert Io.le io).map Io.slot ∧
        (Function.update s.reqs s.sectorIdx _ k).finished = false
    rw [hslots.mem_iff, mem_cons]
    by_cases hk : k = s.sectorIdx
    · subst hk
      have hold : s.sectorIdx ∉ s.inFlight.map Read.slot := fun hmem =>
        hfree ((h.reads _).1 hmem).1
      cases finished <;> simp_all
    · rw [update_of_ne hk, or_iff_right hk, ← h.reads k]
      cases finished <;> simp [hk]
  · have hlock := h.locks id
    show bump s.locked nbr.id id = (if needUnlock then s.unlocked else bump s.unlocked nbr.id) id +
      (((s.onFlightIos.orderedInsert Io.le io).filter Io.needUnlock).map fun io => io.nbr.id).count id
    rw [hlocked.count_eq, bump_apply, hlock, count_append]
    cases needUnlock with
    | false =>
      rw [if_neg Bool.false_ne_true, if_neg Bool.false_ne_true, bump_apply, count_nil]
      omega
    | true =>
      rw [if_pos rfl, if_pos rfl]
      omega
  · have hpins := h.pins cb
    have hcount := (hblocks.map Prod.snd).count_eq cb
    have hself : (cbIdx.toList.map fun cb => (page.no, cb)).map Prod.snd = cbIdx.toList := by
      rw [List.map_map]
      exact map_id _
    rw [show ((cbIdx.toList.map fun cb => (page.no, cb)) ++ s.blocks).map Prod.snd = _ from map_append, hself,
      count_append] at hcount
    refine (hpin cb).trans ?_
    rw [hpins, Nat.add_assoc, Nat.add_comm (List.count ..), ← hcount]
    rfl
  · refine (hblocks.map Prod.fst).nodup_iff.2 ?_
    cases cbIdx with
    | none => exact h.distinct
    | some cb =>
      refine nodup_cons.2 ⟨fun hmem => ?_, h.distinct⟩
      obtain ⟨b, hb, hpage⟩ := mem_map.1 hmem
      exact h.mapped b hb (hpage ▸ (hnew cb rfl).1)
  · obtain hb | hb := mem_append.1 (hblocks.mem_iff.1 hb)
    · obtain ⟨cb, hcb, rfl⟩ := mem_map.1 hb
      exact (hnew cb (mem_toList.1 hcb)).2
    · exact hmap _ (h.mapped b hb)

theorem Ledger.request_none (h : Ledger s) (hfree : s.sectorIdx ∉ s.slots) {page : Page}
    {pageBufMap : ℕ → Option ℕ} {sector : ℕ → Page}
    (hmap : ∀ p, s.pageBufMap p ≠ none → pageBufMap p ≠ none) :
    Ledger (({ s with pageBufMap, pageRankMap, sector } : Ios D).request nbr page loc buf
      finished none rank needUnlock) :=
  h.request hfree hmap (fun _ hcb => absurd hcb (not_mem_none _)) fun _ => rfl

theorem Ledger.request_some (h : Ledger s) (hfree : s.sectorIdx ∉ s.slots) {file : File}
    {pid cb slot : ℕ} (hnone : s.pageBufMap pid = none) : Ledger (({ s with
        pageBufMap := Function.update s.pageBufMap pid (some slot)
        pageRankMap
        pinned := bump s.pinned cb } : Ios D).request nbr ⟨file, pid⟩ loc buf
      finished (some cb) rank needUnlock) := by
  refine h.request hfree (fun p hp => ?_) (fun cb' _ => ⟨hnone, ?_⟩) fun cb' => bump_apply ..
  · have hne : p ≠ pid := fun he => hp (he ▸ hnone)
    rwa [update_of_ne hne]
  · rw [update_self]
    exact some_ne_none _

theorem Ledger.sendReadReq (h : Ledger s) (hfree : s.sectorIdx ∉ s.slots) {item : Neighbor D}
    {found : Found} (hs : s.sendReadReq ix q item found = some t) : Ledger t := by
  obtain ⟨loc, -, rfl⟩ := map_eq_some_iff.1 hs
  by_cases hrerank : q.useRerank
  · rw [if_pos hrerank]
    dsimp only
    cases hbuf : s.pageBufMap (ix.locSectorNoTopo (ix.loc2phyTopo loc)) with
    | some buf => exact h.request_none hfree fun _ => id
    | none =>
      by_cases htopo : q.useTopoBuffer
      · rw [if_pos htopo]
        by_cases hfilled : found.cbFilled
        · rw [if_pos hfilled]
          exact h.request_some hfree hbuf
        · rw [if_neg hfilled]
          exact h.request_some hfree hbuf
      · rw [if_neg htopo]
        refine h.request_none hfree fun p hp => ?_
        have hne : p ≠ ix.locSectorNoTopo (ix.loc2phyTopo loc) := fun he => hp (he ▸ hbuf)
        rwa [update_of_ne hne]
  · rw [if_neg hrerank]
    split_ifs
    · exact h.request_none hfree fun _ => id
    · exact h.request_none hfree fun _ => id

/-! ### The loop -/

section Loop

variable {s s' : State D} {a : Act}

/-- The candidate whose request the next step sends. -/
def State.toSend (s : State D) : Option (Neighbor D) :=
  match s.phase with
  | .first (_ + 1) => s.nextRead
  | .send => if s.ios.onFlightIos.length < s.curBeamWidth then s.nextRead else none
  | _ => none

/-- A request that is sent takes an entry of `reqs` that no request in the queue has. -/
def SlotFree (s : State D) : Prop := s.toSend = none ∨ s.ios.sectorIdx ∉ s.ios.slots

/-- The loop has not ended, or the queue has not been emptied yet. -/
def Phase.inLoop : Phase → Bool
  | .rerank | .batches _ | .finish | .returned => false
  | _ => true

theorem Ledger.sendBestReadReq (h : Ledger s.ios) (hfree : SlotFree s) (hsend : s.toSend = s.nextRead)
    {found : Found} (hs : s.sendBestReadReq ix q found = some s') : Ledger s'.ios := by
  unfold State.sendBestReadReq at hs
  unfold SlotFree at hfree
  rw [hsend, State.nextRead] at hfree
  cases hdrop : s.cands.pool.dropWhile s.sent with
  | nil =>
    rw [hdrop] at hs
    cases hs
    exact h
  | cons e rest =>
    rw [hdrop] at hs hfree
    obtain ⟨ios, hios, rfl⟩ := map_eq_some_iff.1 hs
    exact h.sendReadReq (hfree.resolve_left (some_ne_none e)) hios

theorem tune_ios (q : Query C D) (nIn nOut : ℕ) (s : State D) : (s.tune q nIn nOut).ios = s.ios := by
  unfold State.tune
  split_ifs
  · rfl
  · rfl

theorem Init.ledger [LinearOrder D] [Zero D] (h : Init ix q s) : Ledger s.ios := by
  obtain ⟨reqs, sector, rfl⟩ := h
  exact ⟨nodup_nil, by simp [newState], nodup_nil, by simp [newState, Ios.slots], fun _ => rfl,
    fun _ => rfl, nodup_nil, by simp [newState, Ios.blocks, Ios.queuedBlocks], rfl⟩

variable [LinearOrder D] [Zero D]

theorem sortRetset_ios (q : Query C D) (s : State D) : (s.sortRetset q).ios = s.ios := by
  rw [State.sortRetset]
  split_ifs
  · rfl
  · rfl

theorem calcBestNode_ios (s : State D) : (s.calcBestNode ix q).1.ios = s.ios := by
  unfold State.calcBestNode State.computeExactDistsAndPush
  dsimp only
  split
  · rfl
  · split
    · rfl
    · split_ifs
      · rfl
      · rfl

theorem Ledger.step (h : s.phase.inLoop → Ledger s.ios) (hfree : SlotFree s)
    (hs : step ix q s a = some s') : s'.phase.inLoop → Ledger s'.ios := by
  intro hloop
  unfold RerankSearch.step at hs
  cases hphase : s.phase with
  | first n =>
    have hledger := h (by rw [hphase]; rfl)
    rw [hphase] at hs
    cases n with
    | zero =>
      cases hs
      exact sortRetset_ios q s ▸ hledger
    | succ n =>
      obtain ⟨s1, hs1, rfl⟩ := map_eq_some_iff.1 hs
      show Ledger s1.ios
      exact hledger.sendBestReadReq hfree (by rw [State.toSend, hphase]) hs1
  | poll =>
    have hledger := h (by rw [hphase]; rfl)
    rw [hphase] at hs
    dsimp only at hs
    split_ifs at hs with hdone
    · cases hs
      exact hledger
    · cases hs
      unfold State.pollAll
      rw [tune_ios]
      exact (hledger.complete a.done).popFinished _ rfl 0 0
  | send =>
    have hledger := h (by rw [hphase]; rfl)
    rw [hphase] at hs
    dsimp only at hs
    split_ifs at hs with hwidth
    · obtain ⟨s1, hs1, rfl⟩ := map_eq_some_iff.1 hs
      show Ledger s1.ios
      refine hledger.sendBestReadReq hfree ?_ hs1
      rw [State.toSend, hphase]
      exact if_pos hwidth
    · cases hs
      exact hledger
  | expand =>
    have hledger := h (by rw [hphase]; rfl)
    rw [hphase] at hs
    cases hs
    show Ledger (s.calcBestNode ix q).1.ios
    rw [calcBestNode_ios]
    exact hledger
  | release =>
    rw [hphase] at hs
    cases hs
    split_ifs at hloop <;> cases hloop
  | rerank =>
    rw [hphase] at hs
    dsimp only [State.startRerank] at hs
    split_ifs at hs with hnodup
    obtain ⟨reads, -, rfl⟩ := map_eq_some_iff.1 hs
    cases hloop
  | batches reqs =>
    rw [hphase] at hs
    cases reqs with
    | nil =>
      cases hs
      cases hloop
    | cons req reqs =>
      obtain ⟨ios, -, rfl⟩ := map_eq_some_iff.1 hs
      cases hloop
  | finish =>
    rw [hphase] at hs
    cases hs
    cases hloop
  | returned =>
    rw [hphase] at hs
    cases hs

theorem ledger_of_reach
    (h : Reach (Init ix q) (guarded (fun s _ => SlotFree s) (ofFn (RerankSearch.step ix q))) s)
    (hloop : s.phase.inLoop) : Ledger s.ios :=
  Reach.invariant (P := fun s => s.phase.inLoop → Ledger s.ios) (fun _ hs _ => hs.ledger)
    (fun _ _ _ ih hs => Ledger.step ih hs.1 hs.2) h hloop

/-! ### After the loop -/

section

omit [LinearOrder D] [Zero D]

theorem foldl_releaseIo (l : List (Io D)) (s : Ios D) : l.foldl Ios.releaseIo s = { s with
    unlocked := (l.map fun io => io.nbr.id).foldl bump s.unlocked
    released := (l.filterMap Io.cbIdx).foldl bump s.released } := by
  induction l generalizing s with
  | nil => rfl
  | cons io l ih =>
    rw [foldl_cons, ih, Ios.releaseIo]
    cases hcb : io.cbIdx <;> simp [hcb]

theorem foldl_submit (l : List (ℕ × ℕ)) (s : Ios D) : ∃ reads nReads,
    l.foldl Ios.submit s = { s with inFlight := s.inFlight ++ reads, nReads } ∧
      reads.map (fun r => (r.slot, r.page)) = l.map fun req => (req.1, ⟨.coord, req.2⟩) := by
  induction l generalizing s with
  | nil => exact ⟨[], s.nReads, by rw [append_nil]; rfl, rfl⟩
  | cons req l ih =>
    obtain ⟨reads, n, heq, hreads⟩ := ih (s.submit req)
    refine ⟨⟨s.nReads, req.1, ⟨.coord, req.2⟩⟩ :: reads, n, ?_, congrArg (_ :: ·) hreads⟩
    rw [foldl_cons, heq, Ios.submit, append_assoc, singleton_append]

theorem foldl_arrive (l : List Read) (s : Ios D) : ∃ sector,
    l.foldl Ios.arrive s = { s with sector } := by
  induction l generalizing s with
  | nil => exact ⟨s.sector, rfl⟩
  | cons r l ih =>
    obtain ⟨sector, heq⟩ := ih (s.arrive r)
    exact ⟨sector, heq⟩

theorem readBatch_spec {s t : Ios D} {batch : List (ℕ × ℕ)} {done : List ℕ}
    (h : s.readBatch batch done = some t) : ∃ inFlight nReads sector,
      t = { s with inFlight, nReads, sector } ∧ inFlight.length = s.inFlight.length := by
  obtain ⟨reads, n, heq, hreads⟩ := foldl_submit batch s
  have hlen := congrArg List.length hreads
  rw [length_map, length_map] at hlen
  rw [Ios.readBatch, heq] at h
  dsimp only at h
  split_ifs at h with harrived
  obtain ⟨sector, hsector⟩ := foldl_arrive ((s.inFlight ++ reads).filter fun r => r.no ∈ done)
    { s with inFlight := (s.inFlight ++ reads).filter fun r => r.no ∉ done, nReads := n }
  refine ⟨(s.inFlight ++ reads).filter fun r => r.no ∉ done, n, sector,
    (Option.some.inj h).symm.trans hsector, ?_⟩
  have hsplit := length_eq_length_filter_add (l := s.inFlight ++ reads) fun r => r.no ∈ done
  have hnot : ((s.inFlight ++ reads).filter fun r => r.no ∉ done).length =
      ((s.inFlight ++ reads).filter fun r => !decide (r.no ∈ done)).length := by
    simp only [decide_not]
  rw [length_append] at hsplit
  omega

end

/-- The ids whose vectors are locked. -/
def State.vecIds (s : State D) : List ℕ :=
  match s.phase with
  | .batches _ => s.fullRetset.map Neighbor.id
  | _ => []

/-- The blocks that have been released from `page_ref`. -/
def State.releasedRefs (s : State D) : List ℕ :=
  match s.phase with
  | .returned => s.ios.pageRef.map Prod.snd
  | _ => []

/-- `t` is a state after the loop has ended in `s`. -/
structure After (s t : State D) : Prop where
  phase : t.phase.inLoop = false
  inFlight : t.ios.inFlight.length = s.ios.inFlight.length
  locked : t.ios.locked = s.ios.locked
  unlocked : ∀ id, t.ios.unlocked id = s.ios.unlocked id + s.ios.queuedIds.count id
  pinned : t.ios.pinned = s.ios.pinned
  pageRef : t.ios.pageRef = s.ios.pageRef
  released : ∀ cb, t.ios.released cb =
    s.ios.released cb + ((s.ios.queuedBlocks.map Prod.snd) ++ t.releasedRefs).count cb
  vecs : ∀ id, t.ios.vecLocked id = t.ios.vecUnlocked id + t.vecIds.count id

theorem After.start {t : State D} (h : Ledger s.ios) (hphase : s.phase = .release)
    (ht : step ix q s a = some t) : After s t := by
  unfold RerankSearch.step at ht
  rw [hphase] at ht
  cases ht
  have hios : s.ios.releaseAll = _ := foldl_releaseIo s.ios.onFlightIos { s.ios with onFlightIos := [] }
  have hblocks : s.ios.queuedBlocks.map Prod.snd = s.ios.onFlightIos.filterMap Io.cbIdx := by
    rw [Ios.queuedBlocks, map_filterMap]
    refine filterMap_congr fun io _ => ?_
    cases io.cbIdx <;> rfl
  by_cases hrerank : q.useRerank
  · rw [if_pos hrerank, hios]
    refine ⟨rfl, rfl, rfl, foldl_bump _ _, rfl, rfl, fun cb => ?_, fun id => congrFun h.vecs id⟩
    rw [hblocks]
    exact (foldl_bump ..).trans (congrArg (_ + List.count cb ·) (append_nil _).symm)
  · rw [if_neg hrerank, hios]
    refine ⟨rfl, rfl, rfl, foldl_bump _ _, rfl, rfl, fun cb => ?_, fun id => congrFun h.vecs id⟩
    rw [hblocks]
    exact (foldl_bump ..).trans (congrArg (_ + List.count cb ·) (append_nil _).symm)

theorem After.step {t t' : State D} (h : After s t) (ht : step ix q t a = some t') : After s t' := by
  have hphase := h.phase
  have hreleased := h.released
  have hvecs := h.vecs
  unfold State.releasedRefs at hreleased
  unfold State.vecIds at hvecs
  unfold RerankSearch.step at ht
  cases hp : t.phase with
  | first n =>
    rw [hp] at hphase
    cases hphase
  | poll =>
    rw [hp] at hphase
    cases hphase
  | send =>
    rw [hp] at hphase
    cases hphase
  | expand =>
    rw [hp] at hphase
    cases hphase
  | release =>
    rw [hp] at hphase
    cases hphase
  | rerank =>
    rw [hp] at ht hreleased hvecs
    dsimp only [State.startRerank] at ht
    split_ifs at ht with hnodup
    obtain ⟨reads, -, rfl⟩ := map_eq_some_iff.1 ht
    refine ⟨rfl, h.inFlight, h.locked, h.unlocked, h.pinned, h.pageRef, hreleased, fun id => ?_⟩
    exact (foldl_bump ..).trans (congrArg (· + _) (hvecs id))
  | batches reqs =>
    rw [hp] at ht hreleased hvecs
    cases reqs with
    | nil =>
      cases ht
      refine ⟨rfl, h.inFlight, h.locked, h.unlocked, h.pinned, h.pageRef, hreleased, fun id => ?_⟩
      exact (hvecs id).trans (foldl_bump ..).symm
    | cons req reqs =>
      obtain ⟨ios, hios, rfl⟩ := map_eq_some_iff.1 ht
      obtain ⟨inFlight, n, sector, rfl, hlen⟩ := readBatch_spec hios
      exact ⟨rfl, hlen.trans h.inFlight, h.locked, h.unlocked, h.pinned, h.pageRef, hreleased, hvecs⟩
  | finish =>
    rw [hp] at ht hreleased hvecs
    cases ht
    refine ⟨rfl, h.inFlight, h.locked, h.unlocked, h.pinned, h.pageRef, fun cb => ?_, hvecs⟩
    rw [count_append, ← Nat.add_assoc]
    have hold := hreleased cb
    rw [append_nil] at hold
    rw [← hold]
    exact foldl_bump ..
  | returned =>
    rw [hp] at ht
    cases ht

/-! ### The result -/

/-- What the search has taken it has given back. -/
structure LeavesNothing (s : State D) : Prop where
  locks : s.ios.unlocked = s.ios.locked
  vecLocks : s.ios.vecUnlocked = s.ios.vecLocked
  pins : s.ios.released = s.ios.pinned
  reads : s.ios.inFlight = []

section

omit [LinearOrder D] [Zero D]

theorem Ledger.inFlight_eq_nil_iff {s : Ios D} (h : Ledger s) :
    s.inFlight = [] ↔ ∀ io ∈ s.onFlightIos, (s.reqs io.slot).finished = true := by
  rw [← map_eq_nil_iff, eq_nil_iff_forall_not_mem]
  constructor
  · intro hnone io hio
    by_contra hfin
    exact hnone io.slot ((h.reads _).2 ⟨mem_map_of_mem hio, Bool.eq_false_iff.2 hfin⟩)
  · intro hall k hk
    obtain ⟨hslot, hfin⟩ := (h.reads k).1 hk
    obtain ⟨io, hio, rfl⟩ := mem_map.1 hslot
    rw [hall io hio] at hfin
    cases hfin

/-- The queue unlocks each of its nodes: those whose lock has been given back already too. -/
theorem count_queuedIds_iff (s : Ios D) :
    (∀ id, s.queuedIds.count id = s.lockedIds.count id) ↔ ∀ io ∈ s.onFlightIos, io.needUnlock = true := by
  rw [← perm_iff_count, ← length_filter_eq_length_iff]
  constructor
  · intro hperm
    have hlen := hperm.length_eq
    rw [Ios.queuedIds, Ios.lockedIds, length_map, length_map] at hlen
    exact hlen.symm
  · intro hlen
    rw [Ios.lockedIds, filter_sublist.eq_of_length hlen]
    exact Perm.refl _

end

/-- A search that takes no entry of `reqs` of a request in the queue leaves nothing behind if and only
if each request that is in the queue when the loop ends has finished and still has its lock. -/
theorem leavesNothing_iff {t : State D}
    (hs : Reach (Init ix q) (guarded (fun s _ => SlotFree s) (ofFn (RerankSearch.step ix q))) s)
    (hphase : s.phase = .release) (ht : Reach (· = s) (ofFn (RerankSearch.step ix q)) t)
    (hret : t.phase = .returned) :
    LeavesNothing t ↔
      ∀ io ∈ s.ios.onFlightIos, (s.ios.reqs io.slot).finished = true ∧ io.needUnlock = true := by
  have hledger := ledger_of_reach hs (by rw [hphase]; rfl)
  have hafter : t = s ∨ After s t := by
    refine Reach.invariant (P := fun t => t = s ∨ After s t) (fun t ht => .inl ht) (fun t a t' ih h => ?_) ht
    obtain rfl | ih := ih
    · exact .inr (.start hledger hphase h)
    · exact .inr (ih.step h)
  obtain rfl | hafter := hafter
  · rw [hphase] at hret
    cases hret
  have hrefs : t.releasedRefs = s.ios.pageRef.map Prod.snd := by
    rw [State.releasedRefs, hret, ← hafter.pageRef]
  have hnovecs : t.vecIds = [] := by
    rw [State.vecIds, hret]
  have hpins : t.ios.released = t.ios.pinned := by
    funext cb
    rw [hafter.released, hafter.pinned, hledger.pins, hrefs, Ios.blocks, map_append]
  have hvecs : t.ios.vecUnlocked = t.ios.vecLocked := by
    funext id
    rw [hafter.vecs, hnovecs]
    rfl
  have hlocks : t.ios.unlocked = t.ios.locked ↔ ∀ io ∈ s.ios.onFlightIos, io.needUnlock = true := by
    rw [← count_queuedIds_iff, funext_iff]
    refine forall_congr' fun id => ?_
    rw [hafter.unlocked, hafter.locked, hledger.locks]
    exact Nat.add_left_cancel_iff
  have hreads : t.ios.inFlight = [] ↔
      ∀ io ∈ s.ios.onFlightIos, (s.ios.reqs io.slot).finished = true := by
    rw [← hledger.inFlight_eq_nil_iff, ← length_eq_zero_iff, hafter.inFlight,
      length_eq_zero_iff]
  constructor
  · intro h io hio
    exact ⟨hreads.1 h.reads io hio, hlocks.1 h.locks io hio⟩
  · intro h
    exact ⟨hlocks.2 fun io hio => (h io hio).2, hvecs, hpins, hreads.2 fun io hio => (h io hio).1⟩

end Loop

/-- The node `1` is the neighbour of `0`, and the nearest node; `2` is the farthest.  Two nodes are on
a topology page, and a vector on each page of the vectors. -/
def exampleIndex : SSDIndex Unit where
  medoid := 0
  id2tag := id
  id2loc := some
  loc2phyTopo := id
  loc2phyCoord := id
  locSectorNo := id
  locSectorNoTopo loc := loc / 2
  locSectorNoCoord := id
  nbrsAt _ loc := if loc = 0 then [1] else []
  coordsAt _ _ := ()

theorem four_le_beam : 4 ≤ maxNSectorReads := by decide

def exampleQuery : Query Unit ℕ where
  mem := [(0, 0), (2, 0)]
  lSearch := 2
  beamWidth := 4
  dynPipeWidth := true
  useRerank := true
  useTopoBuffer := false
  truncLen := 388
  excludeNodes := []
  pqDist id := if id = 1 then 0 else id + 1
  compare _ := 0
  beam_le := four_le_beam

def exampleState : State ℕ :=
  newState exampleIndex exampleQuery (fun _ => ⟨0, 0, false⟩) fun _ => ⟨.topo, 0⟩

theorem init_exampleState : Init exampleIndex exampleQuery exampleState := ⟨_, _, rfl⟩

/-- The reads with the numbers `done` are finished, and the caches are empty. -/
def arrived (done : List ℕ) : Act := ⟨done, ⟨false, 0, false⟩, fun _ => false⟩

instance (s : State D) : Decidable (SlotFree s) := inferInstanceAs (Decidable (_ ∨ _))

/-- Both reads of the first poll have arrived, and the queue is empty when the loop ends. -/
theorem leavesNothing_arrived : ∃ s t,
    Reach (Init exampleIndex exampleQuery)
      (guarded (fun s _ => SlotFree s) (ofFn (step exampleIndex exampleQuery))) s ∧
      s.phase = .release ∧ Reach (· = s) (ofFn (step exampleIndex exampleQuery)) t ∧
      t.phase = .returned ∧ LeavesNothing t := by
  have hloop : (runsGuarded (fun s _ => SlotFree s) (step exampleIndex exampleQuery) exampleState
      (replicate 15 (arrived [0, 1]))).isSome := by decide
  have hrest : (runs (step exampleIndex exampleQuery) (Option.get _ hloop)
      (replicate 5 (arrived [2, 3]))).isSome := by decide +revert
  have hs := reach_of_runsGuarded init_exampleState (Option.some_get hloop).symm
  have ht : Reach (· = Option.get _ hloop) (ofFn (step exampleIndex exampleQuery)) _ :=
    reach_of_runs (.start rfl) (Option.some_get hrest).symm
  exact ⟨_, _, hs, rfl, ht, rfl, (leavesNothing_iff hs rfl ht rfl).2 nofun⟩

/-- The node `1` pushes `2` out of the list while the page of `2` is read.  It is on the page of `0`,
leaves the queue before `2`, and the loop ends: nothing waits for the read of `2`. -/
theorem not_leavesNothing_pushedOut : ∃ s,
    Reach (Init exampleIndex exampleQuery) (ofFn (step exampleIndex exampleQuery)) s ∧
      s.phase = .returned ∧ ¬ LeavesNothing s := by
  have hruns : (runs (step exampleIndex exampleQuery) exampleState
      (replicate 20 (arrived [0, 2, 3]))).isSome := by decide
  refine ⟨_, reach_of_runs (.start init_exampleState) (Option.some_get hruns).symm, rfl, fun h => ?_⟩
  have hreads : 1 = 0 := congrArg List.length h.reads
  cases hreads

end DiskANNEval.DGAI.RerankSearch
