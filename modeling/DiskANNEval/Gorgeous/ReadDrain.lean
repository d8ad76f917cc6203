import DiskANNEval.Gorgeous.SectorReads

/-!
# ReadDrain — the reads of a thread's queries

The reads of `page_search` and `page_search_dup_graph`, whatever these do with the pages: which pages
are read, how many nodes are in memory and which reads have finished is chosen anew at each step.
Buffers may be read into while they are busy.  The completions are collected by number, so that a read
which the I/O limit leaves in flight is collected later on, as another one.
-/

namespace DiskANNEval.Gorgeous

open Lib List Function

/-- A read that has been submitted; `embedding` where it is one of the vectors' phase. -/
structure IssuedRead where
  slot : ℕ
  pid : ℕ
  query : ℕ
  embedding : Bool
  deriving DecidableEq

/-- The counters and maps of the reads. -/
structure ThreadReads where
  phase : Phase
  inFlight : List IssuedRead
  query : ℕ
  sectorIdx : ℕ
  numIos : ℕ
  nIoInQ : ℕ
  nCachedInQ : ℕ
  nProcInQ : ℕ
  nOps : ℕ
  secBuf2pid : ℕ → Option ℕ

/-- What the device has finished, the pages that are read next and how many nodes are expanded from
memory; at the end of the vectors' phase there are `more` candidates or not. -/
structure IoChoice where
  done : List IssuedRead
  pages : List ℕ
  cached : ℕ
  more : Bool

namespace ThreadReads

/-- A read into the next buffer. -/
def issue (embedding : Bool) (s : ThreadReads) (pid : ℕ) : ThreadReads :=
  { s with
    sectorIdx := (s.sectorIdx + 1) % maxNSectorReads
    inFlight := s.inFlight ++ [⟨s.sectorIdx, pid, s.query, embedding⟩] }

variable (s : ThreadReads)

/-- `io_getevents` of at most `max` reads, whichever are in flight. -/
def getEvents (done : List IssuedRead) (wait : Bool) (max : ℕ) : Option ThreadReads :=
  if done.Subperm s.inFlight ∧ done.length ≤ max ∧ (wait = true → done ≠ []) then
    some { s with inFlight := s.inFlight.diff done }
  else none

/-- The traversal ends. -/
def endTraversal : ThreadReads := { s with phase := .gather, nOps := 0 }

def eventsStep (done : List IssuedRead) : Option ThreadReads :=
  if s.nIoInQ = 0 then some { s with phase := .dispatch }
  else (s.getEvents done (s.nProcInQ == 0) s.nIoInQ).map fun s =>
    { s with
      phase := .dispatch
      nIoInQ := s.nIoInQ - done.length
      nProcInQ := s.nProcInQ + done.length }

/-- `submit_read_reqs` ends the process with more than `MAX_EVENTS` reads. -/
def dispatchStep (mayDispatch : ℕ → Bool) (pages : List ℕ) (cached : ℕ) : Option ThreadReads :=
  if s.nIoInQ = 0 ∧ s.nCachedInQ = 0 ∧ mayDispatch s.nProcInQ then
    if maxNSectorReads < pages.length then none
    else
      let s := { pages.foldl (issue false) s with
        nIoInQ := s.nIoInQ + pages.length
        numIos := s.numIos + pages.length
        nCachedInQ := cached }
      some (if s.nIoInQ = 0 ∧ s.nProcInQ = 0 ∧ s.nCachedInQ = 0 then s.endTraversal
        else { s with phase := .process })
  else some { s with phase := .process }

/-- `sec_buf2pid.insert` leaves an entry that is there. -/
def gatherOne (pid : ℕ) : ThreadReads :=
  { issue true s pid with
    secBuf2pid := if (s.secBuf2pid s.sectorIdx).isSome then s.secBuf2pid
      else Function.update s.secBuf2pid s.sectorIdx (some pid) }

/-- A batch of candidates has at most `MAX_N_SECTOR_READS` pages. -/
def gatherStep (more : Bool) (pages : List ℕ) : Option ThreadReads :=
  if more then
    if maxNSectorReads < pages.length then none
    else some { pages.foldl gatherOne { s with secBuf2pid := fun _ => none } with
      phase := .collect, nOps := pages.length }
  else some { s with phase := .returned }

def collectStep (done : List IssuedRead) : Option ThreadReads :=
  if s.nOps = 0 then some { s with phase := .gather }
  else (s.getEvents done true s.nOps).map fun s => { s with nOps := s.nOps - done.length }

/-- The next query has counters of its own, and starts with the first buffer. -/
def enterStep : ThreadReads :=
  { s with
    phase := .process, query := s.query + 1, sectorIdx := 0, numIos := 0, nIoInQ := 0
    nCachedInQ := 0, nProcInQ := 0 }

def step (ioLimit : ℕ) (mayDispatch : ℕ → Bool) (s : ThreadReads) (a : IoChoice) :
    Option ThreadReads :=
  match s.phase with
  | .process =>
    if s.numIos < ioLimit then some { s with phase := .expand, nProcInQ := s.nProcInQ - 1 }
    else some s.endTraversal
  | .expand => some { s with phase := .events, nCachedInQ := 0 }
  | .events => s.eventsStep a.done
  | .dispatch => s.dispatchStep mayDispatch a.pages a.cached
  | .gather => s.gatherStep a.more a.pages
  | .collect => s.collectStep a.done
  | .returned => some s.enterStep

/-- A thread's first query. -/
def first : ThreadReads := ⟨.process, [], 0, 0, 0, 0, 0, 0, 0, fun _ => none⟩

/-! ### What is in flight -/

/-- When the traversal ends nothing is in flight; then only reads of the vectors' phase are, and their
pages are in the map; and nothing is when the query returns. -/
def Drained (s : ThreadReads) : Prop :=
  match s.phase with
  | .gather | .returned => s.inFlight = []
  | .collect => ∀ rd ∈ s.inFlight, rd.embedding = true ∧ rd.query = s.query ∧
      s.secBuf2pid rd.slot = some rd.pid
  | _ => ∀ rd ∈ s.inFlight, rd.embedding = false ∧ rd.query = s.query

/-- The I/O limit leaves no read in flight. -/
def NoReadAtLimit (ioLimit : ℕ) (s : ThreadReads) : Prop :=
  s.phase = .process → s.numIos < ioLimit ∨ s.nIoInQ = 0

instance (ioLimit : ℕ) (s : ThreadReads) : Decidable (s.NoReadAtLimit ioLimit) :=
  inferInstanceAs (Decidable (_ → _ ∨ _))

/-- The reads in flight are counted. -/
structure Counted (s : ThreadReads) : Prop where
  drained : s.Drained
  traversal : s.phase ≠ .collect → s.phase ≠ .gather → s.phase ≠ .returned →
    s.inFlight.length = s.nIoInQ
  ops : s.phase = .collect → s.inFlight.length = s.nOps
  idx_lt : s.sectorIdx < maxNSectorReads

variable {s} {s' : ThreadReads}

variable {done : List IssuedRead}

theorem length_getEvents {wait : Bool} {max : ℕ} (h : s.getEvents done wait max = some s') :
    s' = { s with inFlight := s'.inFlight } ∧
      s'.inFlight.length + done.length = s.inFlight.length ∧
      ∀ rd ∈ s'.inFlight, rd ∈ s.inFlight := by
  unfold getEvents at h
  split_ifs at h with hdone
  cases h
  have hperm := subperm_append_diff_self_of_count_le (subperm_ext_iff.1 hdone.1)
  have hlen := hperm.length_eq
  rw [length_append] at hlen
  refine ⟨rfl, by show (s.inFlight.diff done).length + _ = _; omega, fun rd hrd => ?_⟩
  exact hperm.mem_iff.1 (mem_append_right _ hrd)

theorem foldl_issue (embedding : Bool) (pages : List ℕ) (s : ThreadReads) :
    (pages.foldl (issue embedding) s).inFlight.length = s.inFlight.length + pages.length ∧
      (∀ rd ∈ (pages.foldl (issue embedding) s).inFlight,
        rd ∈ s.inFlight ∨ rd.embedding = embedding ∧ rd.query = s.query) ∧
      (pages.foldl (issue embedding) s).nProcInQ = s.nProcInQ ∧
      (pages.foldl (issue embedding) s).query = s.query ∧
      (s.sectorIdx < maxNSectorReads →
        (pages.foldl (issue embedding) s).sectorIdx < maxNSectorReads) := by
  induction pages generalizing s with
  | nil => exact ⟨rfl, fun rd hrd => .inl hrd, rfl, rfl, id⟩
  | cons pid pages ih =>
    obtain ⟨hlen, hmem, hproc, hquery, hidx⟩ := ih (issue embedding s pid)
    rw [foldl_cons]
    refine ⟨?_, fun rd hrd => ?_, hproc, hquery,
      fun _ => hidx (Nat.mod_lt _ (Nat.succ_pos _))⟩
    · rw [hlen, issue, length_append, length_singleton, length_cons]
      omega
    · rcases hmem rd hrd with hrd | hrd
      · rcases mem_append.1 hrd with hrd | hrd
        · exact .inl hrd
        · rw [mem_singleton.1 hrd]
          exact .inr ⟨rfl, rfl⟩
      · exact .inr hrd

/-- In a batch that began with buffer `first`, where `i` pages have been read. -/
structure Batch (first i query : ℕ) (s : ThreadReads) : Prop where
  sectorIdx : s.sectorIdx = (first + i) % maxNSectorReads
  length : s.inFlight.length = i
  query_eq : s.query = query
  reads : ∀ rd ∈ s.inFlight, rd.embedding = true ∧ rd.query = query ∧
    s.secBuf2pid rd.slot = some rd.pid
  mapped : ∀ slot, (s.secBuf2pid slot).isSome → ∃ j < i, slot = (first + j) % maxNSectorReads

theorem Batch.gatherOne {first i query : ℕ} (h : Batch first i query s) (hi : i < maxNSectorReads)
    (pid : ℕ) : Batch first (i + 1) query (s.gatherOne pid) := by
  have hfree : s.secBuf2pid s.sectorIdx = none := by
    by_contra hne
    obtain ⟨j, hj, heq⟩ := h.mapped _ (Option.isSome_iff_ne_none.2 hne)
    rw [h.sectorIdx] at heq
    unfold maxNSectorReads at *
    omega
  have hmap : (s.gatherOne pid).secBuf2pid = Function.update s.secBuf2pid s.sectorIdx (some pid) := by
    rw [ThreadReads.gatherOne, hfree]
    rfl
  refine ⟨?_, ?_, h.query_eq, fun rd hrd => ?_, fun slot hslot => ?_⟩
  · show (s.sectorIdx + 1) % maxNSectorReads = _
    rw [h.sectorIdx, Nat.mod_add_mod, Nat.add_assoc]
  · show (s.inFlight ++ [_]).length = _
    rw [length_append, h.length, length_singleton]
  · rw [hmap]
    rcases mem_append.1 hrd with hrd | hrd
    · obtain ⟨hemb, hquery, hpid⟩ := h.reads rd hrd
      have hne : rd.slot ≠ s.sectorIdx := by
        rintro heq
        rw [heq, hfree] at hpid
        cases hpid
      rw [update_of_ne hne]
      exact ⟨hemb, hquery, hpid⟩
    · rw [mem_singleton.1 hrd, update_self]
      exact ⟨rfl, h.query_eq, rfl⟩
  · rw [hmap] at hslot
    by_cases hne : slot = s.sectorIdx
    · exact ⟨i, Nat.lt_succ_self i, hne.trans h.sectorIdx⟩
    · rw [update_of_ne hne] at hslot
      obtain ⟨j, hj, heq⟩ := h.mapped slot hslot
      exact ⟨j, Nat.lt_succ_of_lt hj, heq⟩

variable {pages : List ℕ}

theorem Batch.foldl {first i query : ℕ} (h : Batch first i query s)
    (hle : i + pages.length ≤ maxNSectorReads) :
    Batch first (i + pages.length) query (pages.foldl ThreadReads.gatherOne s) := by
  induction pages generalizing i s with
  | nil => exact h
  | cons pid pages ih =>
    rw [length_cons] at hle ⊢
    have hnext := ih (h.gatherOne (by omega) pid) (by omega)
    rwa [Nat.add_assoc, Nat.add_comm 1] at hnext

/-! ### Steps and runs -/

theorem Counted.events (h : s.Counted) (hph : s.phase = .events)
    (hs : s.eventsStep done = some s') : s'.Counted := by
  have hdrained := h.drained
  rw [Drained, hph] at hdrained
  have hlen := h.traversal (by rw [hph]; decide) (by rw [hph]; decide) (by rw [hph]; decide)
  unfold eventsStep at hs
  split_ifs at hs with hzero
  · cases hs
    exact ⟨hdrained, fun _ _ _ => hlen, fun hc => (nomatch hc), h.idx_lt⟩
  · obtain ⟨t, ht, rfl⟩ := Option.map_eq_some_iff.1 hs
    obtain ⟨heq, hlen', hmem⟩ := length_getEvents ht
    rw [heq]
    refine ⟨fun rd hrd => hdrained rd (hmem rd hrd), fun _ _ _ => ?_, fun hc => (nomatch hc), h.idx_lt⟩
    show t.inFlight.length = s.nIoInQ - done.length
    omega

theorem Counted.dispatch (h : s.Counted) (hph : s.phase = .dispatch) {mayDispatch : ℕ → Bool}
    {cached : ℕ} (hs : s.dispatchStep mayDispatch pages cached = some s') : s'.Counted := by
  have hdrained := h.drained
  rw [Drained, hph] at hdrained
  have hlen := h.traversal (by rw [hph]; decide) (by rw [hph]; decide) (by rw [hph]; decide)
  unfold dispatchStep at hs
  split_ifs at hs with hif hmany
  · obtain ⟨hlen', hmem, -, hquery, hidx⟩ := foldl_issue false pages s
    cases hs
    have hreads : ∀ rd ∈ (pages.foldl (issue false) s).inFlight,
        rd.embedding = false ∧ rd.query = (pages.foldl (issue false) s).query := by
      intro rd hrd
      rw [hquery]
      exact (hmem rd hrd).elim (hdrained rd) id
    split_ifs with hend
    · -- the loop is left with nothing in the queues
      have hnil : (pages.foldl (issue false) s).inFlight = [] := by
        refine eq_nil_of_length_eq_zero ?_
        have hzero : s.nIoInQ + pages.length = 0 := hend.1
        omega
      exact ⟨hnil, fun _ hg => absurd rfl hg, fun hc => (nomatch hc), hidx h.idx_lt⟩
    · refine ⟨hreads, fun _ _ _ => ?_, fun hc => (nomatch hc), hidx h.idx_lt⟩
      show (pages.foldl (issue false) s).inFlight.length = s.nIoInQ + pages.length
      omega
  · cases hs
    exact ⟨hdrained, fun _ _ _ => hlen, fun hc => (nomatch hc), h.idx_lt⟩

theorem Counted.gather (h : s.Counted) (hph : s.phase = .gather) {more : Bool}
    (hs : s.gatherStep more pages = some s') : s'.Counted := by
  have hnil := h.drained
  rw [Drained, hph] at hnil
  unfold gatherStep at hs
  split_ifs at hs with hmore hmany
  · cases hs
    have hstart : Batch s.sectorIdx 0 s.query { s with secBuf2pid := fun _ => none } :=
      ⟨(Nat.mod_eq_of_lt h.idx_lt).symm, by show s.inFlight.length = 0; rw [hnil, length_nil], rfl,
        fun rd hrd => absurd (hnil ▸ hrd) not_mem_nil, fun _ hn => nomatch hn⟩
    have hbatch := hstart.foldl (show 0 + pages.length ≤ maxNSectorReads by omega)
    refine ⟨fun rd hrd => ?_, fun hc => absurd rfl hc, fun _ => ?_, ?_⟩
    · obtain ⟨hemb, hquery, hpid⟩ := hbatch.reads rd hrd
      exact ⟨hemb, hquery.trans hbatch.query_eq.symm, hpid⟩
    · exact hbatch.length.trans (Nat.zero_add _)
    · rw [show _ = _ from hbatch.sectorIdx]
      exact Nat.mod_lt _ (Nat.succ_pos _)
  · cases hs
    exact ⟨hnil, fun _ _ hr => absurd rfl hr, fun hc => (nomatch hc), h.idx_lt⟩

theorem Counted.collect (h : s.Counted) (hph : s.phase = .collect)
    (hs : s.collectStep done = some s') : s'.Counted := by
  have hdrained := h.drained
  rw [Drained, hph] at hdrained
  have hlen := h.ops hph
  unfold collectStep at hs
  split_ifs at hs with hzero
  · cases hs
    exact ⟨eq_nil_of_length_eq_zero (hlen.trans hzero), fun _ hg => absurd rfl hg,
      fun hc => (nomatch hc), h.idx_lt⟩
  · obtain ⟨t, ht, rfl⟩ := Option.map_eq_some_iff.1 hs
    obtain ⟨heq, hlen', hmem⟩ := length_getEvents ht
    rw [heq]
    refine ⟨?_, fun hc => absurd hph hc, fun _ => ?_, h.idx_lt⟩
    · rw [Drained]
      rw [hph]
      exact fun rd hrd => hdrained rd (hmem rd hrd)
    · show t.inFlight.length = s.nOps - done.length
      omega

theorem Counted.step {ioLimit : ℕ} {mayDispatch : ℕ → Bool} {a : IoChoice} (h : s.Counted)
    (hlimit : s.NoReadAtLimit ioLimit) (hs : step ioLimit mayDispatch s a = some s') :
    s'.Counted := by
  have hdrained := h.drained
  unfold ThreadReads.step at hs
  cases hph : s.phase with
  | process =>
    have hlen := h.traversal (by rw [hph]; decide) (by rw [hph]; decide) (by rw [hph]; decide)
    rw [Drained, hph] at hdrained
    rw [hph] at hs
    split_ifs at hs with hlt
    · cases hs
      exact ⟨hdrained, fun _ _ _ => hlen, fun hc => (nomatch hc), h.idx_lt⟩
    · cases hs
      have hzero := (hlimit hph).resolve_left hlt
      exact ⟨eq_nil_of_length_eq_zero (hlen.trans hzero), fun _ hg => absurd rfl hg,
        fun hc => (nomatch hc), h.idx_lt⟩
  | expand =>
    have hlen := h.traversal (by rw [hph]; decide) (by rw [hph]; decide) (by rw [hph]; decide)
    rw [Drained, hph] at hdrained
    rw [hph] at hs
    cases hs
    exact ⟨hdrained, fun _ _ _ => hlen, fun hc => (nomatch hc), h.idx_lt⟩
  | events =>
    rw [hph] at hs
    exact h.events hph hs
  | dispatch =>
    rw [hph] at hs
    exact h.dispatch hph hs
  | gather =>
    rw [hph] at hs
    exact h.gather hph hs
  | collect =>
    rw [hph] at hs
    exact h.collect hph hs
  | returned =>
    rw [Drained, hph] at hdrained
    rw [hph] at hs
    cases hs
    refine ⟨fun rd hrd => absurd (hdrained ▸ hrd) not_mem_nil, fun _ _ _ => ?_,
      fun hc => (nomatch hc), Nat.succ_pos _⟩
    show s.inFlight.length = 0
    rw [hdrained, length_nil]

/-- In a run in which the I/O limit never leaves a read in flight, every query drains its reads. -/
theorem drained_of_reach (ioLimit : ℕ) (mayDispatch : ℕ → Bool) (s : ThreadReads)
    (h : Reach (· = first) (guarded (fun s _ => s.NoReadAtLimit ioLimit)
      (ofFn (step ioLimit mayDispatch))) s) : s.Drained := by
  refine (h.invariant (P := Counted) (fun s hs => ?_) fun s a s' hs hstep =>
    hs.step hstep.1 hstep.2).drained
  rw [hs]
  exact ⟨fun rd hrd => absurd hrd List.not_mem_nil, fun _ _ _ => rfl, fun hc => (nomatch hc),
    Nat.succ_pos _⟩

/-! ### One read -/

def idle : IoChoice := ⟨[], [], 0, false⟩

/-- Page 5 is read. -/
def onePageRead : List IoChoice := [idle, idle, idle, ⟨[], [5], 0, false⟩]

/-- The read finishes, and the traversal ends. -/
def onePageEnds : List IoChoice :=
  onePageRead ++ [idle, idle, ⟨[⟨0, 5, 0, false⟩], [], 0, false⟩, idle, idle, idle, idle, idle]

theorem onePageEnds_drained : ∃ s : ThreadReads, s.phase = .gather ∧ s.numIos = 1 ∧ s.Drained := by
  have hrun : runsGuarded (fun (s : ThreadReads) _ => s.NoReadAtLimit 10)
      (step 10 fun n => n < 4 / 2) first onePageEnds =
        some ⟨.gather, [], 0, 1, 1, 0, 0, 0, 0, fun _ => none⟩ := rfl
  exact ⟨_, rfl, rfl, drained_of_reach 10 (fun n => n < 4 / 2) _ (reach_of_runsGuarded rfl hrun)⟩

/-- With a limit of one, the traversal ends before the read has finished. -/
theorem limit_leaves_read : ∃ s, Reach (· = first) (ofFn (step 1 fun n => n < 4 / 2)) s ∧
    ¬ s.Drained := by
  have hrun : runs (step 1 fun n => n < 4 / 2) first (onePageRead ++ [idle]) =
      some ⟨.gather, [⟨0, 5, 0, false⟩], 0, 1, 1, 1, 0, 0, 0, fun _ => none⟩ := rfl
  exact ⟨_, reach_of_runs (.start rfl) hrun, fun h => (nomatch h)⟩

end ThreadReads

end DiskANNEval.Gorgeous
