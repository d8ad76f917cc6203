import DiskANNEval.Gorgeous.OutstandingReads

/-!
# SearchRuns — what a search keeps

A rule for both phases.  `Good P fns mem` is asked of the lists and sets in the traversal, where the pages
`fns` have not been processed and pointers lead into buffers in `P`; `Fetch pids ids i mem` after it,
where `i` candidates have been looked at, and the pages `pids` and the vectors `ids` are still to come.
`Keeps` has what each function of the search does to them, and `Keeps.reach` is what holds of runs.
-/

namespace DiskANNEval.Gorgeous

open Lib

variable {σ κ ρ : Type}

/-- The buffer has been read into. -/
def Used (numIos slot : ℕ) : Prop := ∃ turn < numIos, slot = turn % maxNSectorReads

theorem Used.mono {numIos numIos' slot : ℕ} (h : Used numIos slot) (hle : numIos ≤ numIos') :
    Used numIos' slot := by
  obtain ⟨turn, hlt, heq⟩ := h
  exact ⟨turn, Nat.lt_of_lt_of_le hlt hle, heq⟩

namespace Search

/-- No more than `m` reads are sent at once. -/
structure Keeps (S : Search σ κ ρ) (m : ℕ) (Good : (ℕ → Prop) → List FrontierNode → σ → Prop)
    (Fetch : List ℕ → List ℕ → ℕ → σ → Prop) : Prop where
  enter : ∀ P q, Good P [] (S.enter q)
  mono : ∀ P P' fns fns' mem, Good P fns mem → (∀ slot, P slot → P' slot) → fns.Perm fns' →
    Good P' fns' mem
  process : ∀ P fn fns slot mem mem', Good P (fn :: fns) mem → P slot →
    S.process fn slot fn.pid mem = .ok mem' → Good P fns mem'
  expandCached : ∀ P fns item mem, Good P fns mem → Good P fns (S.expandCached item mem)
  select : ∀ P fns mem, Good P fns mem →
    Good P (fns ++ (S.select mem).frontier) (S.select mem).mem
  frontier_le : ∀ P fns mem, Good P fns mem → (S.select mem).frontier.length ≤ m
  rest : ∀ P mem, Good P [] mem → Fetch [] [] 0 mem
  lookUp : ∀ pids ids i mem, Fetch pids ids i mem →
    match S.lookUp i mem with
    | .skip => Fetch pids ids (i + 1) mem
    | .cached id => Fetch pids (ids ++ [id]) (i + 1) mem
    | .page pid => Fetch (pids ++ [pid]) ids (i + 1) (S.visitPage pid mem)
  pushCached : ∀ pids id ids i mem, Fetch pids (id :: ids) i mem →
    Fetch pids ids i (S.pushCached id mem)
  pushPage : ∀ pid pids pids' ids i mem, Fetch pids ids i mem → pids.Perm (pid :: pids') →
    Fetch pids' ids i (S.pushPage pid pid mem)

/-- The I/O limit does not leave anything behind. -/
def Clean (S : Search σ κ ρ) (s : State σ κ) : Prop :=
  s.phase = .process → s.reads.numIos < S.ioLimit ∨
    s.reads.nIoInQ = 0 ∧ s.reads.nProcInQ = 0 ∧ s.nCachedInQ = 0

/-- In the traversal. -/
def Traversing (m : ℕ) (Good : (ℕ → Prop) → List FrontierNode → σ → Prop) (s : State σ κ) : Prop :=
  ∃ fs qs items, Outstanding m s.reads fs qs ∧ s.cachedQueue.Holds maxNSectorReads items ∧
    s.nCachedInQ = items.length ∧ Good (Used s.reads.numIos) ((fs ++ qs).map Sent.fn) s.mem

/-- After the traversal only the reads of a batch are in flight. -/
structure Drained (s : State σ κ) : Prop where
  untracked : ∀ slot, s.reads.secBuf2ftr slot = none
  queue : s.reads.sectorBuffers.Holds maxNSectorReads []
  cachedQueue : s.cachedQueue.Holds maxNSectorReads []
  idx_lt : s.reads.sectorIdx < maxNSectorReads
  nodup : s.reads.slots.Nodup
  nOps : s.reads.inFlight.length = s.nOps
  paged : ∀ rd ∈ s.reads.inFlight, s.secBuf2pid rd.slot = some rd.pid

/-- The pages of the reads in flight. -/
def pids (s : State σ κ) : List ℕ := s.reads.inFlight.map Read.pid

/-- All vectors have been read. -/
def Fetched (S : Search σ κ ρ) (Fetch : List ℕ → List ℕ → ℕ → σ → Prop) (mem : σ) : Prop :=
  ∃ i, S.embeddingSearchL mem ≤ i ∧ Fetch [] [] i mem

def Inv (S : Search σ κ ρ) (m : ℕ) (Good : (ℕ → Prop) → List FrontierNode → σ → Prop)
    (Fetch : List ℕ → List ℕ → ℕ → σ → Prop) (s : State σ κ) : Prop :=
  match s.phase with
  | .process | .expand | .events | .dispatch => Traversing m Good s
  | .collect => Drained s ∧ Fetch (pids s) [] s.lIdx s.mem
  | .gather => Drained s ∧ s.nOps = 0 ∧ Fetch [] [] s.lIdx s.mem
  | .returned => Drained s ∧ s.nOps = 0 ∧ S.Fetched Fetch s.mem

variable {S : Search σ κ ρ} {m : ℕ} {Good : (ℕ → Prop) → List FrontierNode → σ → Prop}
  {Fetch : List ℕ → List ℕ → ℕ → σ → Prop} {s s' t : State σ κ}

theorem Drained.inFlight (h : Drained s) (hops : s.nOps = 0) : s.reads.inFlight = [] :=
  List.length_eq_zero_iff.1 (h.nOps.trans hops)

/-! ### The traversal -/

theorem Keeps.processStep (hS : S.Keeps m Good Fetch) (h : Traversing m Good s)
    (hok : S.processStep s = .ok s') : s'.phase = .expand ∧ Traversing m Good s' := by
  obtain ⟨fs, qs, items, hout, hitems, hn, hgood⟩ := h
  unfold Search.processStep at hok
  split_ifs at hok with hproc
  · cases hok
    exact ⟨rfl, fs, qs, items, hout, hitems, hn, hgood⟩
  obtain _ | ⟨e, qs⟩ := qs
  · exact absurd hout.nProc hproc
  obtain ⟨hslot, hfn, hsector⟩ := hout.oldest
  have hused : Used s.reads.numIos e.slot :=
    ⟨e.turn, (hout.behind.of_mem (List.mem_map_of_mem List.mem_cons_self)).1, rfl⟩
  dsimp only at hok
  rw [hslot, hfn, hsector] at hok
  cases hmem : S.process e.fn e.slot e.fn.pid s.mem with
  | error v =>
    dsimp only at hok
    rw [hmem] at hok
    cases hok
  | ok mem' =>
    dsimp only at hok
    rw [hmem] at hok
    cases hok
    have hperm : ((fs ++ e :: qs).map Sent.fn).Perm (e.fn :: (fs ++ qs).map Sent.fn) :=
      List.Perm.map Sent.fn List.perm_middle
    have hcons := hS.mono _ _ _ _ _ hgood (fun _ hP => hP) hperm
    exact ⟨rfl, fs, qs, items, hout.processed, hitems, hn, hS.process _ _ _ _ _ _ hcons hused hmem⟩

theorem Keeps.expandStep (hS : S.Keeps m Good Fetch) (h : Traversing m Good s) :
    Traversing m Good (S.expandStep s) := by
  obtain ⟨fs, qs, items, hout, hitems, hn, hgood⟩ := h
  unfold Search.expandStep
  split_ifs with hzero
  · exact ⟨fs, qs, items, hout, hitems, hn, hgood⟩
  obtain _ | ⟨item, items⟩ := items
  · exact absurd hn hzero
  refine ⟨fs, qs, items, hout, hitems.get_snd, ?_, hS.expandCached _ _ _ _ hgood⟩
  show s.nCachedInQ - 1 = _
  rw [hn]
  rfl

theorem Keeps.eventsStep (hS : S.Keeps m Good Fetch) (done : List ℕ) (h : Traversing m Good s) :
    ∃ s', eventsStep done s = .ok s' ∧ s'.phase = .dispatch ∧ Traversing m Good s' := by
  obtain ⟨fs, qs, items, hout, hitems, hn, hgood⟩ := h
  unfold Search.eventsStep
  split_ifs with hio
  · exact ⟨_, rfl, rfl, fs, qs, items, hout, hitems, hn, hgood⟩
  have hslots : s.reads.slots.Nodup := by
    have hnd := hout.nodup
    rw [List.map_append] at hnd
    exact hout.slots_eq ▸ hnd.of_append_left
  obtain ⟨hnd, hin⟩ := Outstanding.getEvents_spec done (s.reads.nProcInQ = 0) s.reads.nIoInQ
    s.reads hslots
  obtain ⟨r', fs', qs', harr, hout', hperm, hnum⟩ := hout.arrives (List.nodup_reverse.2 hnd)
    fun slot hs => hin slot (List.mem_reverse.1 hs)
  dsimp only
  rw [harr]
  refine ⟨_, rfl, rfl, fs', qs', items, hout', hitems, hn, ?_⟩
  show Good (Used r'.numIos) _ s.mem
  rw [hnum]
  exact hS.mono _ _ _ _ _ hgood (fun _ hP => hP) (hperm.symm.map Sent.fn)

theorem Keeps.startEmbedding (hS : S.Keeps m Good Fetch) (h : Traversing m Good s)
    (hzero : s.reads.nIoInQ = 0 ∧ s.reads.nProcInQ = 0 ∧ s.nCachedInQ = 0) :
    Drained (startEmbedding s) ∧ Fetch [] [] 0 s.mem := by
  obtain ⟨fs, qs, items, hout, hitems, hn, hgood⟩ := h
  obtain ⟨hio, hproc, hcached⟩ := hzero
  obtain rfl := List.length_eq_zero_iff.1 (hout.nIo.symm.trans hio)
  obtain rfl := List.length_eq_zero_iff.1 (hout.nProc.symm.trans hproc)
  obtain rfl := List.length_eq_zero_iff.1 (hn.symm.trans hcached)
  have hflying : s.reads.inFlight = [] := hout.flying
  refine ⟨⟨fun slot => ?_, hout.queue, hitems, ?_, ?_, ?_, ?_⟩, hS.rest _ _ hgood⟩
  · refine Option.eq_none_iff_forall_not_mem.2 fun fn hfn => ?_
    obtain ⟨e, he, -⟩ := (hout.tracked slot fn).1 hfn
    exact absurd he List.not_mem_nil
  · show s.reads.sectorIdx < _
    rw [hout.idx]
    exact Nat.mod_lt _ (Nat.succ_pos _)
  · show (s.reads.inFlight.map Read.slot).Nodup
    rw [hflying]
    exact List.nodup_nil
  · show s.reads.inFlight.length = 0
    rw [hflying]
    rfl
  · show ∀ rd ∈ s.reads.inFlight, _
    rw [hflying]
    exact fun rd hrd => absurd hrd List.not_mem_nil

theorem Keeps.dispatchStep (hS : S.Keeps m Good Fetch) (h : Traversing m Good s)
    (hok : S.dispatchStep s = .ok s') : s'.phase = .process ∧ Traversing m Good s' ∨
      s'.phase = .gather ∧ Drained s' ∧ s'.nOps = 0 ∧ Fetch [] [] s'.lIdx s'.mem := by
  have htrav := h
  obtain ⟨fs, qs, items, hout, hitems, hn, hgood⟩ := h
  unfold Search.dispatchStep at hok
  split_ifs at hok with hmay
  swap
  · cases hok
    exact .inl ⟨rfl, htrav⟩
  obtain ⟨hio, hcached, -⟩ := hmay
  obtain rfl := List.length_eq_zero_iff.1 (hout.nIo.symm.trans hio)
  obtain rfl := List.length_eq_zero_iff.1 (hn.symm.trans hcached)
  have hftr := hS.frontier_le _ _ _ hgood
  dsimp only at hok
  split_ifs at hok with hfull
  cases hread : (S.select s.mem).frontier.foldlM (SectorReads.readNode (S.pinned s.mem)) s.reads with
  | error v =>
    rw [hread] at hok
    cases hok
  | ok r' =>
    rw [hread] at hok
    have hround : Outstanding.Round m s.reads.numIos s.reads [] :=
      ⟨rfl, fun e he => absurd he List.not_mem_nil⟩
    obtain ⟨fs', hout', hfn, hle⟩ := hout.readNodes hround (by simpa using hftr) hread
    have hpush : ((S.select s.mem).cached.foldl (RingQueue.push maxNSectorReads)
        s.cachedQueue).Holds maxNSectorReads ([] ++ (S.select s.mem).cached) :=
      hitems.foldl_push (by simpa using hfull)
    have htrav' : Traversing m Good { s with
        reads := r'
        cachedQueue := (S.select s.mem).cached.foldl (RingQueue.push maxNSectorReads) s.cachedQueue
        nCachedInQ := (S.select s.mem).cached.length
        mem := (S.select s.mem).mem } := by
      refine ⟨fs', qs, _, hout', hpush, rfl, ?_⟩
      refine hS.mono _ _ _ _ _ (hS.select _ _ _ hgood) (fun slot hslot => hslot.mono hle) ?_
      have hmap : (fs' ++ qs).map Sent.fn = (S.select s.mem).frontier ++ qs.map Sent.fn := by
        rw [List.map_append, hfn]
        rfl
      rw [hmap]
      exact List.perm_append_comm
    cases hok
    split_ifs with hzero
    · obtain ⟨hdr, hfetch⟩ := hS.startEmbedding htrav' hzero
      exact .inr ⟨rfl, hdr, rfl, hfetch⟩
    · exact .inl ⟨rfl, htrav'⟩

/-! ### The vectors -/

/-- In a batch: `i` candidates have been looked at, and the vectors `ids` are in memory. -/
structure Gathering (Fetch : List ℕ → List ℕ → ℕ → σ → Prop) (i : ℕ) (ids : List ℕ)
    (s : State σ κ) : Prop where
  drained : Drained s
  fetch : Fetch (pids s) ids i s.mem

variable {i : ℕ} {ids : List ℕ}

theorem Keeps.gatherOne (hS : S.Keeps m Good Fetch) (h : Gathering Fetch i ids s)
    {acc : State σ κ × List ℕ} (hok : S.gatherOne (s, ids) i = .ok acc) :
    Gathering Fetch (i + 1) acc.2 acc.1 := by
  have hlook := hS.lookUp _ _ _ _ h.fetch
  unfold Search.gatherOne at hok
  dsimp only at hok
  cases hl : S.lookUp i s.mem with
  | skip =>
    rw [hl] at hok hlook
    cases hok
    exact ⟨h.drained, hlook⟩
  | cached id =>
    rw [hl] at hok hlook
    cases hok
    exact ⟨h.drained, hlook⟩
  | page pid =>
    rw [hl] at hok hlook
    dsimp only at hok hlook
    by_cases hbusy : s.reads.busy s.reads.sectorIdx = true
    · have hreq : s.reads.request (fun _ => false) pid = .error .busyBuffer := by
        rw [SectorReads.request, hbusy]
        rfl
      rw [hreq] at hok
      cases hok
    rw [Bool.not_eq_true] at hbusy
    have hreq : s.reads.request (fun _ => false) pid = .ok { s.reads with
        sectorIdx := (s.reads.sectorIdx + 1) % maxNSectorReads
        inFlight := s.reads.inFlight ++ [⟨s.reads.sectorIdx, pid⟩] } := by
      rw [SectorReads.request, hbusy]
      rfl
    rw [hreq] at hok
    cases hok
    have hnew : s.reads.sectorIdx ∉ s.reads.slots := by
      intro hmem
      rw [SectorReads.busy, decide_eq_true hmem] at hbusy
      cases hbusy
    obtain ⟨h1, h2, h3, h4, h5, h6, h7⟩ := h.drained
    refine ⟨⟨h1, h2, h3, Nat.mod_lt _ (Nat.succ_pos _), ?_, ?_, ?_⟩, ?_⟩
    · show ((s.reads.inFlight ++ [_]).map Read.slot).Nodup
      rw [List.map_append, List.nodup_append_comm]
      exact List.nodup_cons.2 ⟨hnew, h5⟩
    · show (s.reads.inFlight ++ [_]).length = s.nOps + 1
      rw [List.length_append, h6]
      rfl
    · intro rd hrd
      show Function.update s.secBuf2pid s.reads.sectorIdx (some pid) rd.slot = some rd.pid
      obtain hrd | hrd := List.mem_append.1 hrd
      · have hne : rd.slot ≠ s.reads.sectorIdx := fun heq =>
          hnew (heq ▸ List.mem_map_of_mem hrd)
        rw [Function.update_of_ne hne, h7 rd hrd]
      · rw [List.mem_singleton.1 hrd, Function.update_self]
    · show Fetch ((s.reads.inFlight ++ [_]).map Read.pid) ids (i + 1) _
      rw [List.map_append]
      exact hlook

theorem Keeps.gatherAll (hS : S.Keeps m Good Fetch) {n : ℕ} (h : Gathering Fetch i ids s)
    {acc : State σ κ × List ℕ} (hok : (List.range' i n).foldlM S.gatherOne (s, ids) = .ok acc) :
    Gathering Fetch (i + n) acc.2 acc.1 := by
  induction n generalizing s ids i with
  | zero =>
    cases hok
    exact h
  | succ n ih =>
    rw [List.range'_succ, List.foldlM_cons] at hok
    cases hone : S.gatherOne (s, ids) i with
    | error v =>
      rw [hone] at hok
      cases hok
    | ok acc1 =>
      rw [hone] at hok
      have h1 := hS.gatherOne h hone
      have h2 := ih h1 hok
      rwa [Nat.add_right_comm] at h2

theorem Keeps.pushCachedAll (hS : S.Keeps m Good Fetch) {ps : List ℕ} {mem : σ}
    (h : Fetch ps ids i mem) :
    Fetch ps [] i (ids.foldl (fun mem id => S.pushCached id mem) mem) := by
  induction ids generalizing mem with
  | nil => exact h
  | cons id ids ih => exact ih (hS.pushCached _ _ _ _ _ h)

theorem Keeps.gatherStep (hS : S.Keeps m Good Fetch) (h : Drained s) (hops : s.nOps = 0)
    (hfetch : Fetch [] [] s.lIdx s.mem) (hok : S.gatherStep s = .ok s') :
    s'.phase = .collect ∧ Drained s' ∧ Fetch (pids s') [] s'.lIdx s'.mem ∨
      s'.phase = .returned ∧ Drained s' ∧ s'.nOps = 0 ∧ S.Fetched Fetch s'.mem := by
  have hflying := h.inFlight hops
  obtain ⟨h1, h2, h3, h4, h5, h6, -⟩ := h
  have hpaged : ∀ pid2 : ℕ → Option ℕ, ∀ rd ∈ s.reads.inFlight, pid2 rd.slot = some rd.pid := by
    rw [hflying]
    exact fun _ rd hrd => absurd hrd List.not_mem_nil
  unfold Search.gatherStep at hok
  split_ifs at hok with hlt
  swap
  · cases hok
    exact .inr ⟨rfl, ⟨h1, h2, h3, h4, h5, h6, hpaged _⟩, hops, s.lIdx, Nat.le_of_not_lt hlt, hfetch⟩
  cases hfold : (S.batch s).foldlM S.gatherOne ({ s with secBuf2pid := fun _ => none }, []) with
  | error v =>
    rw [hfold] at hok
    cases hok
  | ok acc =>
    rw [hfold] at hok
    have hg : Gathering Fetch s.lIdx [] { s with secBuf2pid := fun _ => none } := by
      refine ⟨⟨h1, h2, h3, h4, h5, h6, hpaged _⟩, ?_⟩
      rw [pids, hflying]
      exact hfetch
    have hall := hS.gatherAll hg hfold
    cases hok
    obtain ⟨⟨g1, g2, g3, g4, g5, g6, g7⟩, hfetch'⟩ := hall
    refine .inl ⟨rfl, ⟨g1, g2, g3, g4, g5, g6, g7⟩, ?_⟩
    rw [Search.batch, List.length_range']
    exact hS.pushCachedAll hfetch'

theorem Keeps.collectOne (hS : S.Keeps m Good Fetch) (h : Drained s)
    (hfetch : Fetch (pids s) [] i s.mem) {slot : ℕ} (hs : slot ∈ s.reads.slots) :
    Drained (S.collectOne s slot) ∧
      Fetch (pids (S.collectOne s slot)) [] i (S.collectOne s slot).mem ∧
      (S.collectOne s slot).reads.slots = s.reads.slots.erase slot := by
  obtain ⟨rd, hrd, rfl⟩ := List.mem_map.1 hs
  obtain ⟨l, l', hl⟩ := List.append_of_mem hrd
  have hslots : s.reads.slots = l.map Read.slot ++ rd.slot :: l'.map Read.slot := by
    rw [SectorReads.slots, hl, List.map_append]
    rfl
  have hnd := h.nodup
  rw [hslots] at hnd
  have hnot : rd.slot ∉ l.map Read.slot ++ l'.map Read.slot := by
    rw [List.perm_middle.nodup_iff] at hnd
    exact (List.nodup_cons.1 hnd).1
  have hne : ∀ x ∈ l ++ l', x.slot ≠ rd.slot := by
    intro x hx heq
    rw [← List.map_append] at hnot
    exact hnot (List.mem_map.2 ⟨x, hx, heq⟩)
  have hcomplete := SectorReads.complete_eq hl hne
  have herase : (s.reads.complete rd.slot).slots = s.reads.slots.erase rd.slot := by
    rw [hcomplete, hslots, List.erase_append_right _ fun hmem => hnot (List.mem_append_left _ hmem),
      List.erase_cons_head]
    exact List.map_append
  have hpid : s.secBuf2pid rd.slot = some rd.pid := h.paged rd hrd
  have hperm : (pids s).Perm (rd.pid :: (l ++ l').map Read.pid) := by
    rw [pids, hl]
    exact List.Perm.map Read.pid List.perm_middle
  have hlen := congrArg List.length hl
  unfold Search.collectOne
  rw [hpid, hcomplete]
  dsimp only
  rw [Function.update_self]
  refine ⟨⟨h.untracked, h.queue, h.cachedQueue, h.idx_lt, ?_, ?_, ?_⟩, ?_, ?_⟩
  · show ((l ++ l').map Read.slot).Nodup
    rw [List.map_append]
    rw [List.perm_middle.nodup_iff] at hnd
    exact (List.nodup_cons.1 hnd).2
  · show (l ++ l').length = s.nOps - 1
    rw [← h.nOps, hlen, List.length_append, List.length_append]
    rfl
  · intro x hx
    refine h.paged x ?_
    rw [hl]
    obtain hx | hx := List.mem_append.1 hx
    · exact List.mem_append_left _ hx
    · exact List.mem_append_right _ (List.mem_cons_of_mem _ hx)
  · exact hS.pushPage _ _ _ _ _ _ hfetch hperm
  · rw [← herase, hcomplete]

theorem Keeps.collectAll (hS : S.Keeps m Good Fetch) {evts : List ℕ} (h : Drained s)
    (hfetch : Fetch (pids s) [] i s.mem) (hnd : evts.Nodup)
    (hin : ∀ slot ∈ evts, slot ∈ s.reads.slots) : Drained (evts.foldl S.collectOne s) ∧
      Fetch (pids (evts.foldl S.collectOne s)) [] i (evts.foldl S.collectOne s).mem := by
  induction evts generalizing s with
  | nil => exact ⟨h, hfetch⟩
  | cons slot evts ih =>
    obtain ⟨hslot, hnd'⟩ := List.nodup_cons.1 hnd
    obtain ⟨h1, hfetch1, hslots⟩ := hS.collectOne h hfetch (hin slot List.mem_cons_self)
    refine ih h1 hfetch1 hnd' fun slot' hs => ?_
    rw [hslots]
    refine (List.mem_erase_of_ne ?_).2 (hin slot' (List.mem_cons_of_mem _ hs))
    rintro rfl
    exact hslot hs

theorem foldl_collectOne_same (evts : List ℕ) (s : State σ κ) :
    (evts.foldl S.collectOne s).phase = s.phase ∧ (evts.foldl S.collectOne s).lIdx = s.lIdx := by
  induction evts generalizing s with
  | nil => exact ⟨rfl, rfl⟩
  | cons slot evts ih => exact ih (S.collectOne s slot)

theorem Keeps.collectStep (hS : S.Keeps m Good Fetch) (done : List ℕ) (hphase : s.phase = .collect)
    (h : Drained s) (hfetch : Fetch (pids s) [] s.lIdx s.mem) :
    Inv S m Good Fetch (S.collectStep done s) := by
  unfold Search.collectStep
  split_ifs with hops
  · refine ⟨⟨h.untracked, h.queue, h.cachedQueue, h.idx_lt, h.nodup, h.nOps, h.paged⟩, hops, ?_⟩
    rwa [pids, h.inFlight hops] at hfetch
  · obtain ⟨hnd, hin⟩ := Outstanding.getEvents_spec done true s.nOps s.reads h.nodup
    obtain ⟨h1, h2⟩ := hS.collectAll h hfetch hnd hin
    obtain ⟨hph, hidx⟩ := foldl_collectOne_same (s.reads.getEvents done true s.nOps) s
    unfold Inv
    rw [hph, hphase, hidx]
    exact ⟨h1, h2⟩

theorem Keeps.enterStep (hS : S.Keeps m Good Fetch) (h : Drained s) (hops : s.nOps = 0) (q : ρ) :
    Traversing m Good (S.enterStep q s) := by
  refine ⟨[], [], [], ?_, h.cachedQueue, rfl, hS.enter _ q⟩
  show Outstanding m s.reads.reset [] []
  rw [SectorReads.reset, h.inFlight hops]
  exact Outstanding.fresh h.queue _

/-! ### Runs -/

theorem Keeps.init (hS : S.Keeps m Good Fetch) (h : S.Init s) : Inv S m Good Fetch s := by
  obtain ⟨q, sector, slotData, cachedData, rfl⟩ := h
  exact ⟨[], [], [], .fresh (RingQueue.holds_nil (Nat.succ_pos _) _) _,
    RingQueue.holds_nil (Nat.succ_pos _) _, rfl, hS.enter _ q⟩

theorem Keeps.step (hS : S.Keeps m Good Fetch) (h : Inv S m Good Fetch s) (hclean : S.Clean s)
    {a : Act ρ} (hok : S.step s a = .ok s') : Inv S m Good Fetch s' := by
  unfold Inv at h
  unfold Search.step at hok
  split at h <;> rename_i hphase <;> rw [hphase] at hok <;> dsimp only at hok
  · split_ifs at hok with hlimit
    · obtain ⟨hph, htrav⟩ := hS.processStep h hok
      rw [Inv, hph]
      exact htrav
    · cases hok
      obtain ⟨hdr, hfetch⟩ := hS.startEmbedding h ((hclean hphase).resolve_left hlimit)
      exact ⟨hdr, rfl, hfetch⟩
  · cases hok
    have htrav := hS.expandStep h
    have hph : (S.expandStep s).phase = .expand ∨ (S.expandStep s).phase = .events := by
      unfold Search.expandStep
      split_ifs
      · exact .inr rfl
      · exact .inl hphase
    unfold Inv
    rcases hph with hph | hph <;> rw [hph] <;> exact htrav
  · obtain ⟨s1, hs1, hph, htrav⟩ := hS.eventsStep a.done h
    obtain rfl := Except.ok.inj (hs1.symm.trans hok)
    rw [Inv, hph]
    exact htrav
  · obtain ⟨hph, htrav⟩ | ⟨hph, hdr⟩ := hS.dispatchStep h hok
    · rw [Inv, hph]
      exact htrav
    · rw [Inv, hph]
      exact hdr
  · cases hok
    exact hS.collectStep a.done hphase h.1 h.2
  · obtain ⟨hph, hdr⟩ | ⟨hph, hdr⟩ := hS.gatherStep h.1 h.2.1 h.2.2 hok
    · rw [Inv, hph]
      exact hdr
    · rw [Inv, hph]
      exact hdr
  · cases hok
    exact hS.enterStep h.1 h.2.1 a.next

theorem Keeps.reach (hS : S.Keeps m Good Fetch) {ok : State σ κ → Act ρ → Prop}
    (hclean : ∀ s a, ok s a → S.Clean s)
    (h : Reach S.Init (guarded ok (ofFn S.next)) s) : Inv S m Good Fetch s := by
  refine h.invariant (fun s hs => hS.init hs) fun s a s' hinv hstep => ?_
  obtain ⟨hguard, hstep⟩ := hstep
  rw [ofFn, Search.next] at hstep
  cases hs1 : S.step s a with
  | error v =>
    rw [hs1] at hstep
    cases hstep
  | ok s1 =>
    rw [hs1] at hstep
    cases hstep
    exact hS.step hinv (hclean s a hguard) hs1

end Search

end DiskANNEval.Gorgeous
