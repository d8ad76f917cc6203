import DiskANNEval.Gorgeous.BufferRuns
import DiskANNEval.Gorgeous.DupGraphSearch
import DiskANNEval.Gorgeous.PageSearch
import DiskANNEval.Lib.Loops

/-!
# SearchBuffers — the buffers of `page_search` and `page_search_dup_graph`

Both are `Sound`, with no more reads at once than the beam and the list have places.
-/

namespace DiskANNEval.Gorgeous

open Lib Search List
open PipeANN (Neighbor)

variable {D : Type} [LinearOrder D] [Zero D] {ix : DecoIndex} {p : SearchParams D}

/-- The most reads that are sent at once. -/
def SearchParams.mostReads (p : SearchParams D) : ℕ := min p.beamWidth p.lSearch

omit [LinearOrder D] [Zero D] in
theorem SearchParams.mostReads_le (p : SearchParams D) : p.mostReads ≤ maxNSectorReads :=
  Nat.le_trans (Nat.min_le_left ..) p.beam_le

namespace PageMem

variable {mem : PageMem D ix p}

theorem keep_le (h : mem.list.curListSize ≤ p.lSearch) (node id : ℕ) :
    (mem.keep node id).list.curListSize ≤ p.lSearch := by
  show (if id ∈ mem.list.visited then mem.list else _).curListSize ≤ p.lSearch
  split_ifs
  · exact h
  · have hseen : ({ mem.list with visited := id :: mem.list.visited } : SearchList D).curListSize ≤
        p.lSearch := h
    exact SearchList.addToRetset_le hseen id _ _

variable {fn : FrontierNode}

theorem visitNodes_ok {page : ℕ} {acc : PageMem D ix p × List ℕ} {xs : List (ℕ × ℕ)}
    (hroom : acc.2.length + xs.length ≤ visCandReserved) :
    ∃ acc', xs.foldlM (visitNode fn page) acc = .ok acc' := by
  induction xs generalizing acc with
  | nil => exact ⟨acc, rfl⟩
  | cons x xs ih =>
    rw [length_cons] at hroom
    obtain ⟨acc1, h1, hlen⟩ : ∃ acc1, visitNode fn page acc x = .ok acc1 ∧
        acc1.2.length ≤ acc.2.length + 1 := by
      obtain ⟨mem, visCand⟩ := acc
      unfold visitNode
      dsimp only
      split_ifs with hpass hfull
      · exact ⟨_, rfl, Nat.le_succ _⟩
      · dsimp only at hroom
        omega
      · refine ⟨_, rfl, ?_⟩
        rw [length_append]
        exact Nat.le_refl _
    obtain ⟨acc', h2⟩ := ih (show acc1.2.length + xs.length ≤ visCandReserved by omega)
    refine ⟨acc', ?_⟩
    rw [foldlM_cons, h1]
    exact h2

theorem process_ok (slot page : ℕ) (hpage : (ix.gpLayout fn.pid).length ≤ visCandReserved) :
    ∃ mem', mem.process fn slot page = .ok mem' := by
  have hroom : ([] : List ℕ).length + (ix.gpLayout fn.pid).zipIdx.length ≤ visCandReserved := by
    simpa using hpage
  obtain ⟨acc, h⟩ : ∃ acc,
      (ix.gpLayout fn.pid).zipIdx.foldlM (visitNode fn page) (mem, []) = .ok acc :=
    visitNodes_ok hroom
  unfold process
  rw [h]
  exact ⟨_, rfl⟩

theorem process_le {mem' : PageMem D ix p} (slot page : ℕ)
    (hlist : mem.list.curListSize ≤ p.lSearch) (h : mem.process fn slot page = .ok mem') :
    mem'.list.curListSize ≤ p.lSearch := by
  refine process_induct h (fun acc hacc => ?_) fun _ _ ht => SearchList.computeAndPushNbrs_le ht _ _
  refine foldlM_ok_keeps (P := fun acc : PageMem D ix p × List ℕ =>
    acc.1.list.curListSize ≤ p.lSearch) hlist (fun acc ht x _ acc' hok => ?_) hacc
  obtain heq | heq := visitNode_cases hok
  · rw [heq]
    exact ht
  · rw [heq]
    exact keep_le ht _ _

end PageMem

/-- What the searches need to know of their list and pointers for the buffers; nothing after the
traversal. -/
theorem pageSearch_keeps : (pageSearch ix p).Keeps p.mostReads
    (fun _ _ mem => mem.list.curListSize ≤ p.lSearch) fun _ _ _ _ => True where
  enter _ q := SearchList.enter_le q
  mono _ _ _ _ _ h _ _ := h
  process _ fn _ slot _ _ h _ hok := PageMem.process_le slot fn.pid h hok
  expandCached _ _ _ _ h := SearchList.computeAndPushNbrs_le h _ _
  select _ _ _ h := h
  frontier_le _ _ mem h := by
    have hle := pick_length_le (PageMem.choose ix) p.beamWidth p.beamWidth mem.list.pool
      mem.pageVisited
    have hnum := pick_frontier_le (PageMem.choose ix) p.beamWidth p.beamWidth mem.list.pool
      mem.pageVisited
    have hpool := mem.list.length_pool_le
    show (pick (PageMem.choose ix) _ _ _ _).frontier.length ≤ min p.beamWidth p.lSearch
    omega
  rest _ _ _ := trivial
  lookUp _ _ i mem _ := by
    split <;> trivial
  pushCached _ _ _ _ _ _ := trivial
  pushPage _ _ _ _ _ _ _ _ := trivial

theorem pageSearch_total (hpages : ∀ pid, (ix.gpLayout pid).length ≤ visCandReserved) :
    (pageSearch ix p).Total p.mostReads fun _ _ mem => mem.list.curListSize ≤ p.lSearch where
  m_le := p.mostReads_le
  process _ fn _ slot _ _ := PageMem.process_ok slot fn.pid (hpages fn.pid)
  cached_le _ _ mem _ := by
    refine Nat.le_trans (pick_cached_le (fun id item => ?_) _ _ _ _) p.beam_le
    unfold PageMem.choose
    cases ix.nodeInMemPos id with
    | none => exact nofun
    | some pos => exact fun h => absurd (Choice.cached.inj h).2 Bool.false_ne_true
  pinned _ _ _ _ _ h := absurd h Bool.false_ne_true

theorem pageSearchDupGraph_keeps : (pageSearchDupGraph ix p).Keeps p.mostReads
    (fun P _ mem => DupMem.Good P mem) fun _ _ _ _ => True where
  enter _ q := ⟨SearchList.enter_le q, fun x hx => absurd hx not_mem_nil⟩
  mono _ _ _ _ _ h himp _ := ⟨h.1, fun x hx => himp _ (h.2 x hx)⟩
  process _ fn _ _ _ _ h hslot hok := h.process fn hslot fn.pid hok
  expandCached _ _ _ _ h := ⟨SearchList.computeAndPushNbrs_le h.1 _ _, h.2⟩
  select _ _ _ h := h
  frontier_le _ _ mem h := by
    have hle := pick_length_le mem.choose p.beamWidth p.beamWidth mem.list.pool mem.pageVisited
    have hnum := pick_frontier_le mem.choose p.beamWidth p.beamWidth mem.list.pool mem.pageVisited
    have hpool := mem.list.length_pool_le
    have hlist := h.1
    show (pick mem.choose _ _ _ _).frontier.length ≤ min p.beamWidth p.lSearch
    omega
  rest _ _ _ := trivial
  lookUp _ _ i mem _ := by
    split <;> trivial
  pushCached _ _ _ _ _ _ := trivial
  pushPage _ _ _ _ _ _ _ _ := trivial

theorem pageSearchDupGraph_total
    (hcached : min (2 * p.beamWidth - 1) p.lSearch ≤ maxNSectorReads) :
    (pageSearchDupGraph ix p).Total p.mostReads fun P _ mem => DupMem.Good P mem where
  m_le := p.mostReads_le
  process _ _ _ _ _ _ := ⟨_, rfl⟩
  cached_le _ _ mem h := by
    have hle := pick_length_le mem.choose p.beamWidth p.beamWidth mem.list.pool mem.pageVisited
    have hpool := mem.list.length_pool_le
    have hlist := h.1
    show (pick mem.choose _ _ _ _).cached.length ≤ maxNSectorReads
    omega
  pinned _ _ _ _ h hpin := h.of_pinned hpin

theorem pageSearch_room {s : State (PageMem D ix p) ℕ} (hphase : s.phase = .dispatch)
    (hbeam : 2 * p.mostReads + p.beamWidth / 2 ≤ maxNSectorReads + 2) :
    (pageSearch ix p).Room p.mostReads s := by
  rw [Room, hphase]
  intro _ _ hmay
  have hlt : s.reads.nProcInQ < p.beamWidth / 2 := of_decide_eq_true hmay
  exact .inr ⟨by omega, fun _ => rfl⟩

/-! ### The buffers -/

/-- A step ends the run. -/
def Ends {σ κ ρ : Type} (S : Search σ κ ρ) (s : State σ κ) (a : Act ρ) : Prop :=
  ∃ v, S.step s a = .error v

/-- No run with room, and no further step of it, violates anything. -/
theorem searches_keep_buffers (hpages : ∀ pid, (ix.gpLayout pid).length ≤ visCandReserved)
    (hcached : min (2 * p.beamWidth - 1) p.lSearch ≤ maxNSectorReads) :
    (∀ s, Reach (pageSearch ix p).Init
        (guarded (fun s _ => (pageSearch ix p).Room p.mostReads s) (ofFn (pageSearch ix p).next)) s →
      (pageSearch ix p).Room p.mostReads s → ∀ a, ¬ Ends (pageSearch ix p) s a) ∧
    ∀ s, Reach (pageSearchDupGraph ix p).Init
        (guarded (fun s _ => (pageSearchDupGraph ix p).Room p.mostReads s)
          (ofFn (pageSearchDupGraph ix p).next)) s →
      (pageSearchDupGraph ix p).Room p.mostReads s → ∀ a, ¬ Ends (pageSearchDupGraph ix p) s a := by
  constructor
  · rintro s hs hroom a ⟨v, hv⟩
    have hinv := pageSearch_keeps.reach (fun _ _ h => h.clean) hs
    obtain ⟨s', hs'⟩ := (pageSearch_total hpages).step_ok pageSearch_keeps hinv hroom a
    exact nomatch hv.symm.trans hs'
  · rintro s hs hroom a ⟨v, hv⟩
    have hinv := pageSearchDupGraph_keeps.reach (fun _ _ h => h.clean) hs
    obtain ⟨s', hs'⟩ :=
      (pageSearchDupGraph_total hcached).step_ok pageSearchDupGraph_keeps hinv hroom a
    exact nomatch hv.symm.trans hs'

/-! ### Small searches -/

/-- One page, with `n` nodes. -/
def onePage (n : ℕ) : DecoIndex where
  medoid := 0
  gpLayout pid := if pid = 0 then List.range n else []
  id2page _ := 0
  replica pid := [pid]
  nbrs _ := []
  nodeInMemPos _ := none
  memGraph _ := []
  hasMemEmb _ := false

theorem thirty_pos : 0 < 30 := Nat.succ_pos 29

theorem two_le_reads : 2 ≤ maxNSectorReads := by decide

def beamOfTwo (ioLimit : ℕ) : SearchParams ℕ where
  kSearch := 1
  lSearch := 30
  lSearch_pos := thirty_pos
  beamWidth := 2
  beam_le := two_le_reads
  ioLimit
  pqFilter d := d
  embSearch n := n

theorem medoid_perm (pqDist : ℕ → ℕ) (ix : DecoIndex) (p : SearchParams ℕ) :
    [Neighbor.new ix.medoid (pqDist ix.medoid) true].Perm
      ((if ([] : List ℕ) = [] then [ix.medoid] else ([] : List ℕ).take p.lSearch).map
        fun id => .new id (pqDist id) true) := .refl _

theorem medoid_sorted (e : Neighbor ℕ) : [e].Pairwise fun a b => a.distance ≤ b.distance :=
  pairwise_singleton _ _

/-- A query near the nodes with large ids. -/
def farMedoid (ix : DecoIndex) (p : SearchParams ℕ) : Query ℕ ix p where
  pqDist id := 100 - id
  exactDist id := 100 - id
  memTags := []
  first := [.new ix.medoid (100 - ix.medoid) true]
  first_perm := medoid_perm (fun id => 100 - id) ix p
  first_sorted := medoid_sorted _

section Small

variable {σ κ ρ : Type} (S : Search σ κ ρ)

def firstState (q : ρ) (item : κ) : State σ κ where
  phase := .process
  reads :=
    { sectorIdx := 0
      inFlight := []
      sector := fun _ => 0
      sectorBuffers := ⟨fun _ => 0, 0, 0⟩
      secBuf2ftr := fun _ => none
      nIoInQ := 0
      nProcInQ := 0
      numIos := 0 }
  cachedQueue := ⟨fun _ => item, 0, 0⟩
  nCachedInQ := 0
  mem := S.enter q
  lIdx := 0
  nOps := 0
  secBuf2pid := fun _ => none

theorem firstState_init (q : ρ) (item : κ) : S.Init (firstState S q item) :=
  ⟨q, fun _ => 0, fun _ => 0, fun _ => item, rfl⟩

/-- How the step after some steps ends. -/
def endsWith (s : State σ κ) (as : List (Act ρ)) (a : Act ρ) : Option Violation :=
  (runs S.next s as).bind fun s =>
    match S.step s a with
    | .ok _ => none
    | .error v => some v

variable {S}

theorem exists_ends {s : State σ κ} {as : List (Act ρ)} {a : Act ρ} {v : Violation}
    (hs : S.Init s) (h : endsWith S s as a = some v) :
    ∃ t, Reach S.Init (ofFn S.next) t ∧ S.step t a = .error v := by
  obtain ⟨t, ht, hstep⟩ := Option.bind_eq_some_iff.1 h
  refine ⟨t, reach_of_runs (.start hs) ht, ?_⟩
  cases hend : S.step t a with
  | ok s' =>
    rw [hend] at hstep
    exact nomatch hstep
  | error w =>
    rw [hend] at hstep
    rw [Option.some.inj hstep]

end Small

/-- A search of one page of `n` nodes. -/
def ofOnePage (n ioLimit : ℕ) : Search (PageMem ℕ (onePage n) (beamOfTwo ioLimit)) ℕ
    (Query ℕ (onePage n) (beamOfTwo ioLimit)) := pageSearch _ _

def onePageStart (n ioLimit : ℕ) : State (PageMem ℕ (onePage n) (beamOfTwo ioLimit)) ℕ :=
  firstState (ofOnePage n ioLimit) (farMedoid _ _) 0

/-- The device answers at once. -/
def answer (n ioLimit : ℕ) : Act (Query ℕ (onePage n) (beamOfTwo ioLimit)) := ⟨[0], farMedoid _ _⟩

def onePageEnds (n ioLimit steps : ℕ) : Option Violation :=
  endsWith (ofOnePage n ioLimit) (onePageStart n ioLimit)
    (List.replicate steps (answer n ioLimit)) (answer n ioLimit)

/-- A page of 21 nodes; and a read that the I/O limit leaves in flight, when the next query reads. -/
theorem onePage_violates :
    (∃ s a, Reach (ofOnePage 21 10).Init (ofFn (ofOnePage 21 10).next) s ∧
      (ofOnePage 21 10).step s a = .error .pastCandidates) ∧
    ∃ s a, Reach (ofOnePage 1 1).Init (ofFn (ofOnePage 1 1).next) s ∧
      (ofOnePage 1 1).step s a = .error .busyBuffer := by
  constructor
  · have h : onePageEnds 21 10 8 = some .pastCandidates := by decide +kernel
    obtain ⟨t, ht, hv⟩ := exists_ends (firstState_init _ _ _) h
    exact ⟨t, _, ht, hv⟩
  · have h : onePageEnds 1 1 12 = some .busyBuffer := by decide +kernel
    obtain ⟨t, ht, hv⟩ := exists_ends (firstState_init _ _ _) h
    exact ⟨t, _, ht, hv⟩

theorem onePage_pages (pid : ℕ) : ((onePage 20).gpLayout pid).length ≤ visCandReserved := by
  show (if pid = 0 then List.range 20 else []).length ≤ 20
  split_ifs
  · exact Nat.le_of_eq length_range
  · exact Nat.zero_le _

/-- The first reads of a search of one page of 20 nodes. -/
theorem onePage_keeps_buffers : ∃ t : State (PageMem ℕ (onePage 20) (beamOfTwo 10)) ℕ,
    t.phase = .dispatch ∧ t.mem.list.curListSize = 1 ∧
      ¬ Ends (ofOnePage 20 10) t (answer 20 10) := by
  have h0 : Reach (ofOnePage 20 10).Init (guarded (fun s _ => (ofOnePage 20 10).Room 2 s)
      (ofFn (ofOnePage 20 10).next)) (onePageStart 20 10) := .start (firstState_init _ _ _)
  have h1 := h0.next (a := answer 20 10) ⟨.inl (Nat.succ_pos 9), rfl⟩
  have h2 := h1.next (a := answer 20 10) ⟨trivial, rfl⟩
  have h3 := h2.next (a := answer 20 10) ⟨trivial, rfl⟩
  exact ⟨_, rfl, rfl, (searches_keep_buffers onePage_pages (by decide)).1 _ h3
    (pageSearch_room rfl (by decide)) _⟩

end DiskANNEval.Gorgeous
