import DiskANNEval.Gorgeous.SectorReads

/-!
# CachedReads — the reads of the cached searches

The reads of `dynamic_cache_search` and `hybridcache_search`.  A step is one candidate whose page may
be requested, one call of the device, or one completed buffer.  Which candidates and pages are met,
what the caches hold, which reads have finished and when a loop is left is chosen anew at each step.
-/

namespace DiskANNEval.Gorgeous

open Lib List Function Option

structure AsyncIoRequest where
  nodeId : ℕ
  pageId : ℕ
  buffer : ℕ
  deriving DecidableEq

/-- The read of a page into a buffer. -/
def AsyncIoRequest.read (r : AsyncIoRequest) : ℕ × ℕ := (r.pageId, r.buffer)

/-- The place in a search; `finished` when the query's results are written. -/
inductive CachedPhase
  | test
  | poll
  | prefetch
  | range
  | await
  | select
  | drain
  | embed
  | embedWait
  | finished
  deriving DecidableEq

/-- `readReqs` are the reads that have not been submitted, `tmpBufs` the completed ones that have not
been processed; `requested` are the pages of the query's requests. -/
structure CachedReads where
  phase : CachedPhase
  inFlight : List (ℕ × ℕ)
  tmpBufs : List (ℕ × ℕ)
  readReqs : List (ℕ × ℕ)
  pendingIos : List AsyncIoRequest
  bufferToRequest : ℕ → Option AsyncIoRequest
  sectorScratchIdx : ℕ
  pageVisited : List ℕ
  requested : List ℕ

/-- `goOn`: a loop is not left; `phaseTwo`: the search has converged and its candidate is on disk;
`found`: a node is in memory or in a cache; `page`: a node and its page, which is `cached` or not. -/
structure CacheChoice where
  goOn : Bool
  phaseTwo : Bool
  found : Bool
  page : Option (ℕ × ℕ)
  cached : Bool
  done : List (ℕ × ℕ)

namespace CachedReads

variable (s : CachedReads)

def goTo (phase : CachedPhase) : CachedReads := { s with phase := phase }

local instance lawfulBEq_read : LawfulBEq (ℕ × ℕ) := inferInstance

/-- At least `min` of the reads have finished, whichever are in flight. -/
def getEvents (min : ℕ) (done : List (ℕ × ℕ)) (next : CachedPhase) : Option CachedReads :=
  if done.Subperm s.inFlight ∧ min ≤ done.length ∧ done.length ≤ s.pendingIos.length then
    some { s with inFlight := s.inFlight.diff done, tmpBufs := done, phase := next }
  else none

/-- A completed buffer is put into the cache. -/
def complete (buf : ℕ) (rest : List (ℕ × ℕ)) : CachedReads :=
  match s.bufferToRequest buf with
  | some req => { s with
      tmpBufs := rest
      pendingIos := s.pendingIos.filter fun r => r.pageId ≠ req.pageId
      bufferToRequest := update s.bufferToRequest buf none }
  | none => { s with tmpBufs := rest }

/-- A request for a page, which is visited, into the next buffer. -/
def request (nodeId pageId : ℕ) : CachedReads :=
  let req : AsyncIoRequest := ⟨nodeId, pageId, s.sectorScratchIdx⟩
  { s with
    sectorScratchIdx := (s.sectorScratchIdx + 1) % maxNSectorReads
    pendingIos := s.pendingIos ++ [req]
    bufferToRequest := update s.bufferToRequest s.sectorScratchIdx (some req)
    readReqs := s.readReqs ++ [req.read]
    pageVisited := pageId :: s.pageVisited
    requested := pageId :: s.requested }

/-- `submit_read_reqs` ends the process with more than `MAX_EVENTS` reads. -/
def submitReadReqs (next : CachedPhase) : Option CachedReads :=
  if maxNSectorReads < s.readReqs.length then none
  else some { s with inFlight := s.inFlight ++ s.readReqs, readReqs := [], phase := next }

/-- `while (!pending_ios.empty())` -/
def waitAll (next : CachedPhase) (a : CacheChoice) : Option CachedReads :=
  if s.pendingIos = [] then some (s.goTo next) else s.getEvents 1 a.done s.phase

/-- The search waits if it finds no node to expand. -/
def selectStep (a : CacheChoice) : Option CachedReads :=
  if a.found ∨ s.pendingIos = [] then some (s.goTo .test) else s.getEvents 1 a.done .test

/-- The next query's maps are empty, and it starts with the first buffer. -/
def enter : CachedReads :=
  { s with
    phase := .test, pendingIos := [], bufferToRequest := fun _ => none
    sectorScratchIdx := 0, pageVisited := [], requested := [] }

/-- A page whose buffer is busy is visited, and ends the prefetching. -/
def prefetchOne (cached : Bool) (nodeId pageId : ℕ) : Option CachedReads :=
  if cached ∨ pageId ∈ s.pendingIos.map AsyncIoRequest.pageId ∨ pageId ∈ s.pageVisited then some s
  else if (s.bufferToRequest s.sectorScratchIdx).isSome then
    submitReadReqs { s with pageVisited := pageId :: s.pageVisited } .select
  else some (s.request nodeId pageId)

/-- `submit_page_read`, `none` where it returns false. -/
def submitPageRead (cached : Bool) (nodeId pageId : ℕ) : Option CachedReads :=
  if pageId ∈ s.pageVisited ∨ cached ∨ pageId ∈ s.pendingIos.map AsyncIoRequest.pageId ∨
      (s.bufferToRequest s.sectorScratchIdx).isSome then none
  else some (s.request nodeId pageId)

/-- The `dynamic` search waits for its reads before it prefetches; of the other one's some may have
finished, its second phase waits for a range of pages, and then it reads vectors one by one. -/
def search (dynamic : Bool) (s : CachedReads) (a : CacheChoice) : Option CachedReads :=
  match s.tmpBufs, s.phase with
  | rd :: rest, _ => some (s.complete rd.2 rest)
  | [], .test => some (s.goTo (if a.goOn then
      if dynamic then .await else if a.phaseTwo then .range else .poll else .drain))
  | [], .poll =>
    if s.pendingIos = [] then some (s.goTo .prefetch) else s.getEvents 0 a.done .prefetch
  | [], .prefetch =>
    match a.page with
    | some page =>
      if dynamic then s.prefetchOne a.cached page.1 page.2
      else some ((s.submitPageRead a.cached page.1 page.2).getD s)
    | none => s.submitReadReqs .select
  | [], .range =>
    match a.page with
    | some page => some ((s.submitPageRead a.cached page.1 page.2).getD s)
    | none => s.submitReadReqs .await
  | [], .await => s.waitAll (if dynamic then .prefetch else .test) a
  | [], .select => s.selectStep a
  | [], .drain => s.waitAll (if dynamic then .finished else .embed) a
  | [], .embed =>
    match a.page with
    | some page =>
      match s.submitPageRead a.cached page.1 page.2 with
      | some s => s.submitReadReqs .embedWait
      | none => some s
    | none => some (s.goTo .finished)
  | [], .embedWait =>
    if s.pendingIos = [] then some (s.goTo .embed) else s.getEvents 1 a.done .embed
  | [], .finished => some s.enter

def dynamicCacheSearch : CachedReads → CacheChoice → Option CachedReads := search true

def hybridcacheSearch : CachedReads → CacheChoice → Option CachedReads := search false

/-- A thread's first query. -/
def first : CachedReads := ⟨.test, [], [], [], [], fun _ => none, 0, [], []⟩

/-! ### What the maps say -/

/-- The reads are the pending requests, which are in the map under their buffers. -/
structure Agree (s : CachedReads) : Prop where
  reads : (s.inFlight ++ s.tmpBufs ++ s.readReqs).Perm (s.pendingIos.map AsyncIoRequest.read)
  mapped : ∀ buf r, s.bufferToRequest buf = some r ↔ r ∈ s.pendingIos ∧ r.buffer = buf
  pages : (s.pendingIos.map AsyncIoRequest.pageId).Nodup
  requested : s.requested.Nodup
  pending : ∀ r ∈ s.pendingIos, r.pageId ∈ s.requested
  visited : ∀ pageId ∈ s.requested, pageId ∈ s.pageVisited

/-- Where reads may be prepared, and what is left at the end of a query. -/
structure Tidy (s : CachedReads) : Prop extends Agree s where
  submitted : s.phase ≠ .prefetch → s.phase ≠ .range → s.readReqs = []
  embed : s.phase = .embed → s.inFlight = []
  embedWait : s.phase = .embedWait → s.inFlight.length = 1 ∧ s.tmpBufs = []
  finished : s.phase = .finished → s.tmpBufs = [] ∧ s.pendingIos = []

variable {s} {s' : CachedReads}

theorem Agree.buffers (h : s.Agree) : (s.pendingIos.map AsyncIoRequest.buffer).Nodup :=
  h.pages.of_map.map_on fun _ hr _ hr' heq => Option.some.inj <|
    ((h.mapped _ _).2 ⟨hr, heq⟩).symm.trans ((h.mapped _ _).2 ⟨hr', rfl⟩)

variable {done : List (ℕ × ℕ)} {next : CachedPhase}

theorem Agree.getEvents (h : s.Agree) (hbufs : s.tmpBufs = []) {min : ℕ}
    (hs : s.getEvents min done next = some s') :
    s'.Agree ∧ s'.phase = next ∧ s'.readReqs = s.readReqs ∧
      s'.inFlight.length + min ≤ s.inFlight.length := by
  unfold CachedReads.getEvents at hs
  split_ifs at hs with hdone
  cases hs
  have hperm := subperm_append_diff_self_of_count_le (subperm_ext_iff.1 hdone.1)
  have hlen := hperm.length_eq
  have hreads := h.reads
  rw [hbufs, append_nil] at hreads
  refine ⟨{ h with reads := ((perm_append_comm.trans hperm).append_right _).trans hreads }, rfl, rfl, ?_⟩
  rw [length_append] at hlen
  show (s.inFlight.diff done).length + min ≤ _
  omega

theorem Agree.submitReadReqs (h : s.Agree) (hbufs : s.tmpBufs = [])
    (hs : s.submitReadReqs next = some s') :
    s'.Agree ∧ s'.phase = next ∧ s'.readReqs = [] ∧ s'.tmpBufs = [] ∧
      s'.inFlight = s.inFlight ++ s.readReqs := by
  unfold CachedReads.submitReadReqs at hs
  split_ifs at hs with hmany
  cases hs
  have hreads := h.reads
  rw [hbufs] at hreads
  exact ⟨{ h with reads := by simpa only [hbufs, append_nil] using hreads }, rfl, rfl, hbufs, rfl⟩

variable {nodeId pageId : ℕ}

theorem Agree.request (h : s.Agree) (hpage : pageId ∉ s.pageVisited)
    (hfree : ¬ (s.bufferToRequest s.sectorScratchIdx).isSome) :
    (s.request nodeId pageId).Agree := by
  have hnone := not_isSome_iff_eq_none.1 hfree
  refine ⟨?_, fun buf r => ?_, ?_, h.requested.cons fun hp => hpage (h.visited _ hp), fun r hr => ?_, ?_⟩
  · show (s.inFlight ++ s.tmpBufs ++ (s.readReqs ++ [_])).Perm ((s.pendingIos ++ [_]).map _)
    rw [map_append, ← append_assoc]
    exact h.reads.append_right _
  · show update s.bufferToRequest _ _ buf = _ ↔ r ∈ s.pendingIos ++ [_] ∧ _
    rw [mem_append, mem_singleton]
    by_cases hbuf : buf = s.sectorScratchIdx
    · rw [hbuf, update_self, Option.some.injEq]
      refine ⟨fun heq => ⟨.inr heq.symm, heq ▸ rfl⟩, fun ⟨hr, hidx⟩ => (hr.resolve_left fun hr => ?_).symm⟩
      rw [(h.mapped _ r).2 ⟨hr, hidx⟩] at hnone
      cases hnone
    · rw [update_of_ne hbuf, h.mapped]
      exact ⟨fun hr => ⟨.inl hr.1, hr.2⟩,
        fun ⟨hr, hidx⟩ => ⟨hr.resolve_right fun heq => hbuf (hidx ▸ heq ▸ rfl), hidx⟩⟩
  · show ((s.pendingIos ++ [_]).map _).Nodup
    rw [map_append, nodup_append_comm]
    refine h.pages.cons fun hp => ?_
    obtain ⟨r, hr, heq⟩ := mem_map.1 hp
    exact hpage ((show r.pageId = pageId from heq) ▸ h.visited _ (h.pending r hr))
  · rcases mem_append.1 hr with hr | hr
    · exact mem_cons_of_mem _ (h.pending r hr)
    · rw [mem_singleton.1 hr]
      exact mem_cons_self
  · exact forall_mem_cons.2 ⟨mem_cons_self, fun p hp => mem_cons_of_mem _ (h.visited p hp)⟩

variable {cached : Bool}

theorem Agree.submitPageRead (h : s.Agree) (hs : s.submitPageRead cached nodeId pageId = some s') :
    s'.Agree ∧ s' = s.request nodeId pageId := by
  unfold CachedReads.submitPageRead at hs
  split_ifs at hs with hno
  cases hs
  rw [not_or, not_or, not_or] at hno
  exact ⟨h.request hno.1 hno.2.2.2, rfl⟩

/-- The request that is removed by its page is the one that is removed by its buffer. -/
theorem Agree.complete (h : s.Agree) {rd : ℕ × ℕ} {rest : List (ℕ × ℕ)}
    (hbufs : s.tmpBufs = rd :: rest) : (s.complete rd.2 rest).Agree := by
  have hmem : rd ∈ s.pendingIos.map AsyncIoRequest.read :=
    h.reads.subset (mem_append_left _ (mem_append_right _ (hbufs ▸ mem_cons_self)))
  obtain ⟨req, hreq, rfl⟩ := mem_map.1 hmem
  have hget : s.bufferToRequest req.read.2 = some req := (h.mapped _ _).2 ⟨hreq, rfl⟩
  have hfilter : (s.pendingIos.filter fun r => r.pageId ≠ req.pageId) = s.pendingIos.erase req := by
    rw [h.pages.of_map.erase_eq_filter]
    refine filter_congr fun r hr => ?_
    rw [decide_not]
    exact congrArg _ (decide_eq_decide.2 ⟨inj_on_of_nodup_map h.pages hr hreq, congrArg _⟩)
  unfold CachedReads.complete
  rw [hget]
  dsimp only
  rw [hfilter]
  refine { h with reads := ?_, mapped := fun buf r => ?_, pages := ?_, pending := fun r hr => ?_ }
  · have hreads := h.reads.trans ((perm_cons_erase hreq).map _)
    rw [hbufs, append_assoc, cons_append] at hreads
    rw [append_assoc]
    exact (perm_middle.symm.trans hreads).cons_inv
  · show update s.bufferToRequest req.buffer none buf = _ ↔ r ∈ s.pendingIos.erase req ∧ _
    rw [h.pages.of_map.mem_erase_iff]
    by_cases hbuf : buf = req.buffer
    · rw [hbuf, update_self]
      refine ⟨fun hn => (nomatch hn), fun ⟨⟨hne, hr⟩, heq⟩ => absurd ?_ hne⟩
      exact Option.some.inj (((h.mapped _ _).2 ⟨hr, heq⟩).symm.trans hget)
    · rw [update_of_ne hbuf, h.mapped]
      exact ⟨fun hr => ⟨⟨fun heq => hbuf (heq ▸ hr.2.symm), hr.1⟩, hr.2⟩, fun hr => ⟨hr.1.2, hr.2⟩⟩
  · exact h.pages.sublist (erase_sublist.map _)
  · exact h.pending r (mem_of_mem_erase hr)

theorem Agree.length (h : s.Agree) :
    s.inFlight.length + s.tmpBufs.length + s.readReqs.length = s.pendingIos.length := by
  rw [← length_append, ← length_append, h.reads.length_eq, length_map]

theorem Agree.goTo (h : s.Agree) (phase : CachedPhase) : (s.goTo phase).Agree := { h with }

theorem Agree.tidy (h : s.Agree) (hreqs : s.readReqs = [])
    (hph : s.phase ∉ [.embed, .embedWait, .finished]) : s.Tidy where
  toAgree := h
  submitted _ _ := hreqs
  embed he := absurd (by rw [he]; decide) hph
  embedWait he := absurd (by rw [he]; decide) hph
  finished he := absurd (by rw [he]; decide) hph

theorem Agree.tidy_of_fetching (h : s.Agree) (hph : s.phase = .prefetch ∨ s.phase = .range) :
    s.Tidy where
  toAgree := h
  submitted hp hr := absurd hph (not_or.2 ⟨hp, hr⟩)
  embed he := absurd hph (by rw [he]; decide)
  embedWait he := absurd hph (by rw [he]; decide)
  finished he := absurd hph (by rw [he]; decide)

theorem Agree.goTo_tidy (h : s.Agree) (hreqs : s.readReqs = []) {phase : CachedPhase}
    (hph : phase ∉ [.embed, .embedWait, .finished]) : (s.goTo phase).Tidy :=
  (h.goTo phase).tidy hreqs hph

/-! ### Steps and runs -/

theorem Tidy.complete (h : s.Tidy) {rd : ℕ × ℕ} {rest : List (ℕ × ℕ)}
    (hbufs : s.tmpBufs = rd :: rest) : (s.complete rd.2 rest).Tidy := by
  obtain ⟨hph, hflight, hreqs⟩ : (s.complete rd.2 rest).phase = s.phase ∧
      (s.complete rd.2 rest).inFlight = s.inFlight ∧
      (s.complete rd.2 rest).readReqs = s.readReqs := by
    unfold CachedReads.complete
    split <;> exact ⟨rfl, rfl, rfl⟩
  refine ⟨h.toAgree.complete hbufs, ?_, ?_, fun he => ?_, fun hf => ?_⟩
  · rw [hph, hreqs]
    exact h.submitted
  · rw [hph, hflight]
    exact h.embed
  · rw [hph] at he
    rw [(h.embedWait he).2] at hbufs
    cases hbufs
  · rw [hph] at hf
    rw [(h.finished hf).1] at hbufs
    cases hbufs

theorem Tidy.getEvents (h : s.Tidy) (hbufs : s.tmpBufs = []) (hreqs : s.readReqs = []) {min : ℕ}
    (hnext : next ∉ [.embed, .embedWait, .finished]) (hs : s.getEvents min done next = some s') :
    s'.Tidy := by
  obtain ⟨hagree, hph, hreqs', -⟩ := h.toAgree.getEvents hbufs hs
  exact hagree.tidy (hreqs'.trans hreqs) (hph ▸ hnext)

theorem Tidy.submitReadReqs (h : s.Agree) (hbufs : s.tmpBufs = [])
    (hnext : next ∉ [.embed, .embedWait, .finished]) (hs : s.submitReadReqs next = some s') :
    s'.Tidy := by
  obtain ⟨hagree, hph, hreqs, -⟩ := h.submitReadReqs hbufs hs
  exact hagree.tidy hreqs (hph ▸ hnext)

variable {a : CacheChoice}

theorem Tidy.waitAll (h : s.Tidy) (hbufs : s.tmpBufs = []) (hreqs : s.readReqs = [])
    (hph : s.phase ∉ [.embed, .embedWait, .finished]) (hnext : next ≠ .embedWait)
    (hs : s.waitAll next a = some s') : s'.Tidy := by
  unfold CachedReads.waitAll at hs
  split_ifs at hs with hpend
  · cases hs
    have hlen := h.length
    rw [hpend, length_nil] at hlen
    exact ⟨h.goTo _, fun _ _ => hreqs, fun _ => length_eq_zero_iff.1 (show s.inFlight.length = 0 by omega),
      fun he => absurd he hnext, fun _ => ⟨hbufs, hpend⟩⟩
  · exact h.getEvents hbufs hreqs hph hs

theorem Tidy.selectStep (h : s.Tidy) (hbufs : s.tmpBufs = []) (hreqs : s.readReqs = [])
    (hs : s.selectStep a = some s') : s'.Tidy := by
  unfold CachedReads.selectStep at hs
  split_ifs at hs with hfound
  · cases hs
    exact h.goTo_tidy hreqs (by decide)
  · exact h.getEvents hbufs hreqs (by decide) hs

theorem Agree.enter (h : s.inFlight ++ s.tmpBufs ++ s.readReqs = []) : s.enter.Agree where
  reads := h ▸ .nil
  mapped _ _ := ⟨fun hn => (nomatch hn), fun hr => absurd hr.1 not_mem_nil⟩
  pages := nodup_nil
  requested := nodup_nil
  pending _ hr := absurd hr not_mem_nil
  visited _ hp := absurd hp not_mem_nil

theorem Tidy.enter (h : s.Tidy) (hph : s.phase = .finished) : s.enter.Tidy := by
  have hreads := h.reads
  rw [(h.finished hph).2] at hreads
  exact (Agree.enter hreads.eq_nil).goTo_tidy
    (h.submitted (by rw [hph]; decide) (by rw [hph]; decide)) (by decide)

theorem Tidy.prefetchOne (h : s.Tidy) (hbufs : s.tmpBufs = []) (hph : s.phase = .prefetch)
    (hs : s.prefetchOne cached nodeId pageId = some s') : s'.Tidy := by
  unfold CachedReads.prefetchOne at hs
  split_ifs at hs with hno hbusy
  · exact Option.some.inj hs ▸ h
  · refine @Tidy.submitReadReqs { s with pageVisited := pageId :: s.pageVisited } s' .select ?_ hbufs
      (by decide) hs
    exact { h.toAgree with
      visited := fun p hp => mem_cons_of_mem _ (h.visited p hp) }
  · cases hs
    rw [not_or, not_or] at hno
    exact (h.request hno.2.2 hbusy).tidy_of_fetching (.inl hph)

theorem Tidy.submitPageRead (h : s.Tidy) (hph : s.phase = .prefetch ∨ s.phase = .range) (cached : Bool)
    (nodeId pageId : ℕ) : ((s.submitPageRead cached nodeId pageId).getD s).Tidy := by
  cases hs : s.submitPageRead cached nodeId pageId with
  | none => exact h
  | some s' =>
    obtain ⟨hagree, heq⟩ := h.toAgree.submitPageRead hs
    exact hagree.tidy_of_fetching (heq ▸ hph)

theorem Tidy.embedOne (h : s.Tidy) (hbufs : s.tmpBufs = []) (hph : s.phase = .embed)
    {s1 : CachedReads} (h1 : s.submitPageRead cached nodeId pageId = some s1)
    (hs : s1.submitReadReqs .embedWait = some s') : s'.Tidy := by
  obtain ⟨hagree1, heq⟩ := h.toAgree.submitPageRead h1
  have hbufs1 : s1.tmpBufs = [] := by
    rw [heq]
    exact hbufs
  obtain ⟨hagree, hph', hreqs, hbufs', hflight⟩ := hagree1.submitReadReqs hbufs1 hs
  refine ⟨hagree, fun _ _ => hreqs, fun he => (nomatch hph'.symm.trans he), fun _ => ⟨?_, hbufs'⟩,
    fun he => (nomatch hph'.symm.trans he)⟩
  rw [hflight, heq]
  show (s.inFlight ++ (s.readReqs ++ [_])).length = 1
  rw [h.embed hph, h.submitted (by rw [hph]; decide) (by rw [hph]; decide)]
  rfl

theorem Tidy.embedWaitStep (h : s.Tidy) (hph : s.phase = .embedWait)
    (hs : (if s.pendingIos = [] then some (s.goTo .embed) else s.getEvents 1 done .embed) = some s') :
    s'.Tidy := by
  obtain ⟨hone, hbufs⟩ := h.embedWait hph
  have hreqs := h.submitted (by rw [hph]; decide) (by rw [hph]; decide)
  split_ifs at hs with hpend
  · have hlen := h.length
    rw [hpend, length_nil] at hlen
    omega
  · obtain ⟨hagree, hph', hreqs', hlen⟩ := h.toAgree.getEvents hbufs hs
    refine ⟨hagree, fun _ _ => hreqs'.trans hreqs, fun _ => length_eq_zero_iff.1 (by omega),
      fun he => (nomatch hph'.symm.trans he), fun he => (nomatch hph'.symm.trans he)⟩

theorem Tidy.search {dynamic : Bool} (h : s.Tidy) (hs : search dynamic s a = some s') :
    s'.Tidy := by
  unfold CachedReads.search at hs
  cases hbufs : s.tmpBufs with
  | cons rd rest =>
    rw [hbufs] at hs
    exact Option.some.inj hs ▸ h.complete hbufs
  | nil =>
    have hreqs := h.submitted
    rw [hbufs] at hs
    cases hph : s.phase with
    | test =>
      rw [hph] at hs hreqs
      cases hs
      refine h.goTo_tidy (hreqs (by decide) (by decide)) ?_
      cases a.goOn <;> cases dynamic <;> cases a.phaseTwo <;> decide
    | poll =>
      rw [hph] at hs hreqs
      dsimp only at hs
      split_ifs at hs with hpend
      · cases hs
        exact h.goTo_tidy (hreqs (by decide) (by decide)) (by decide)
      · exact h.getEvents hbufs (hreqs (by decide) (by decide)) (by decide) hs
    | prefetch =>
      rw [hph] at hs
      cases hpage : a.page with
      | some page =>
        rw [hpage] at hs
        cases dynamic
        · exact Option.some.inj hs ▸ h.submitPageRead (.inl hph) _ _ _
        · exact h.prefetchOne hbufs hph hs
      | none =>
        rw [hpage] at hs
        exact Tidy.submitReadReqs h.toAgree hbufs (by decide) hs
    | range =>
      rw [hph] at hs
      cases hpage : a.page with
      | some page =>
        rw [hpage] at hs
        exact Option.some.inj hs ▸ h.submitPageRead (.inr hph) _ _ _
      | none =>
        rw [hpage] at hs
        exact Tidy.submitReadReqs h.toAgree hbufs (by decide) hs
    | select =>
      rw [hph] at hs hreqs
      exact h.selectStep hbufs (hreqs (by decide) (by decide)) hs
    | await =>
      rw [hph] at hs hreqs
      exact h.waitAll hbufs (hreqs (by decide) (by decide)) (hph ▸ by decide)
        (by cases dynamic <;> decide) hs
    | drain =>
      rw [hph] at hs hreqs
      exact h.waitAll hbufs (hreqs (by decide) (by decide)) (hph ▸ by decide)
        (by cases dynamic <;> decide) hs
    | embed =>
      rw [hph] at hs hreqs
      cases hpage : a.page with
      | some page =>
        rw [hpage] at hs
        dsimp only at hs
        cases h1 : s.submitPageRead a.cached page.1 page.2 with
        | some s1 =>
          rw [h1] at hs
          exact h.embedOne hbufs hph h1 hs
        | none =>
          rw [h1] at hs
          exact Option.some.inj hs ▸ h
      | none =>
        rw [hpage] at hs
        cases hs
        have hnil := hreqs (by decide) (by decide)
        have hlen := h.length
        rw [h.embed hph, hbufs, hnil] at hlen
        exact ⟨h.goTo _, fun _ _ => hnil, fun he => (nomatch he), fun he => (nomatch he),
          fun _ => ⟨hbufs, length_eq_zero_iff.1 hlen.symm⟩⟩
    | embedWait =>
      rw [hph] at hs
      exact h.embedWaitStep hph hs
    | finished =>
      rw [hph] at hs
      exact Option.some.inj hs ▸ h.enter hph

theorem tidy_first : first.Tidy := (Agree.enter (s := first) rfl).tidy rfl (by decide)

/-- In every state of a thread's queries the reads, the pending requests and the map are the same, with
no page and no buffer twice; a query requests no page twice, and ends with all three empty. -/
theorem reads_agree (step : CachedReads → CacheChoice → Option CachedReads)
    (hstep : step = dynamicCacheSearch ∨ step = hybridcacheSearch) (s : CachedReads)
    (h : Reach (· = first) (ofFn step) s) :
    (s.inFlight ++ s.tmpBufs ++ s.readReqs).Perm (s.pendingIos.map AsyncIoRequest.read) ∧
      (s.phase ≠ .prefetch → s.phase ≠ .range → s.readReqs = []) ∧
      (∀ buf r, s.bufferToRequest buf = some r ↔ r ∈ s.pendingIos ∧ r.buffer = buf) ∧
      (s.pendingIos.map AsyncIoRequest.pageId).Nodup ∧
      (s.pendingIos.map AsyncIoRequest.buffer).Nodup ∧
      s.requested.Nodup ∧ (∀ r ∈ s.pendingIos, r.pageId ∈ s.requested) ∧
      (s.phase = .finished →
        s.inFlight = [] ∧ s.pendingIos = [] ∧ ∀ buf, s.bufferToRequest buf = none) := by
  have hs : s.Tidy := h.invariant (fun s hs => hs ▸ tidy_first) fun s a s' hs hnext => by
    rcases hstep with rfl | rfl <;> exact hs.search hnext
  refine ⟨hs.reads, hs.submitted, hs.mapped, hs.pages, hs.buffers, hs.requested, hs.pending, fun hf => ?_⟩
  obtain ⟨-, hpend⟩ := hs.finished hf
  have hlen := hs.length
  rw [hpend, length_nil] at hlen
  refine ⟨length_eq_zero_iff.1 (by omega), hpend, fun buf => ?_⟩
  refine eq_none_iff_forall_ne_some.2 fun r hr => ?_
  exact not_mem_nil (hpend ▸ ((hs.mapped buf r).1 hr).1)

def idleChoice : CacheChoice := ⟨false, false, false, none, false, []⟩

/-- Page 5 is read for a candidate and page 6 for a vector, and page 5 not again. -/
def twoPages : List CacheChoice :=
  [{ idleChoice with goOn := true }, idleChoice, { idleChoice with page := some (50, 5) }, idleChoice,
    { idleChoice with done := [(5, 0)] }, idleChoice, idleChoice, idleChoice,
    { idleChoice with page := some (51, 5) }, { idleChoice with page := some (60, 6) },
    { idleChoice with done := [(6, 1)] }, idleChoice, idleChoice]

theorem twoPages_agree : ∃ s : CachedReads, s.phase = .finished ∧ s.requested = [6, 5] ∧
    s.inFlight = [] ∧ s.pendingIos = [] ∧ ∀ buf, s.bufferToRequest buf = none := by
  have hrun : ((runs hybridcacheSearch first twoPages).get rfl).phase = .finished := rfl
  have hreach : Reach (· = first) (ofFn hybridcacheSearch) ((runs hybridcacheSearch first twoPages).get rfl) :=
    reach_of_runs (.start rfl) (some_get _).symm
  exact ⟨_, hrun, rfl, (reads_agree _ (.inr rfl) _ hreach).2.2.2.2.2.2.2 hrun⟩

end CachedReads

end DiskANNEval.Gorgeous
