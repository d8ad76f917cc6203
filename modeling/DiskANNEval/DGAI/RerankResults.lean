import DiskANNEval.DGAI.RerankReturn
import DiskANNEval.Lib.Filled

/-!
# RerankResults — what a search returns

The candidates that have been expanded are ranked by the distances of their vectors.  The list is
cut or extended to a length first, and the elements behind the candidates look like the node 0.  The
vectors are read in batches, and a batch waits for as many events as it has reads, of whichever
reads.  `resultsRight_of_reach` is for the runs in which neither happens.
-/

namespace DiskANNEval.DGAI.RerankSearch

open Lib List Option Function
open PipeANN (Neighbor)
open PipeANN.PipeSearch (Cands DiskNode Listed Pushed)

variable {C D : Type}

/-! ### The runs -/

/-- The candidate that the next step expands. -/
def State.toExpand (s : State D) : Option (Neighbor D) :=
  match s.phase with
  | .expand => (s.cands.pool.dropWhile fun e => !s.pending e).head?
  | _ => none

/-- The location of a vector, and its page. -/
def SSDIndex.coordPlace (ix : SSDIndex C) (id : ℕ) : Option (ℕ × ℕ) :=
  (ix.id2loc id).map fun loc => (ix.loc2phyCoord loc, ix.locSectorNoCoord (ix.loc2phyCoord loc))

/-- The distance of the vector of a node: of that in the file of the vectors, or in the record. -/
def exactDist (ix : SSDIndex C) (q : Query C D) (id : ℕ) : Option D :=
  if q.useRerank then
    (ix.coordPlace id).map fun (loc, pid) => q.compare (ix.coordsAt ⟨.coord, pid⟩ loc)
  else (ix.id2loc id).map fun loc => q.compare (ix.coordsAt ⟨.disk, ix.locSectorNo loc⟩ loc)

section Runs

variable [LinearOrder D] [Zero D]

/-- A step, with the ids that have been expanded. -/
def tracedStep (ix : SSDIndex C) (q : Query C D) (t : State D × List ℕ) (a : Act) :
    Option (State D × List ℕ) :=
  (step ix q t.1 a).map fun s => (s, t.2 ++ t.1.toExpand.toList.map Neighbor.id)

def TracedInit (ix : SSDIndex C) (q : Query C D) (t : State D × List ℕ) : Prop :=
  Init ix q t.1 ∧ t.2 = []

/-- The ids that the search starts with. -/
def startIds (ix : SSDIndex C) (q : Query C D) : List ℕ := (start ix q).map Prod.fst

/-- How long the list is for the rerank. -/
def Query.rerankLen (q : Query C D) : ℕ := min q.truncLen q.lSearch

omit [LinearOrder D] in
/-- The elements of the array behind the candidates, as far as it is reranked. -/
def State.behind (q : Query C D) (s : State D) : List (Neighbor D) :=
  (s.cands.retset.take q.rerankLen ++
    List.replicate (q.rerankLen - s.cands.retset.length) default).drop s.cands.curListSize

/-- What is behind the candidates is excluded, no result is an id that the search has started with
twice, and there is a buffer for each page of the vectors. -/
structure RerankOk (ix : SSDIndex C) (q : Query C D) (s : State D) : Prop where
  behind : ∀ e ∈ s.behind q, ix.id2tag e.id ∈ q.excludeNodes
  once : ∀ e ∈ s.reranked ix q, (startIds ix q).count e.id ≤ 1
  pages : (((s.reranked ix q).filterMap fun e => ix.coordPlace e.id).map Prod.snd).toFinset.card ≤
    maxNSectorReads

/-- Without the rerank, the record of the candidate is in its buffer when it is expanded; with it,
the list can be reranked, and no batch takes the event of a read that the loop has left over. -/
def StepOk (ix : SSDIndex C) (q : Query C D) (s : State D) (a : Act) : Prop :=
  match s.phase with
  | .expand => q.useRerank = false → ∀ e ∈ s.toExpand, ∀ b ∈ s.ios.idBufMap e.id,
      s.ios.sector b.buf = ⟨.disk, ix.locSectorNo b.loc⟩
  | .rerank => RerankOk ix q s
  | .batches (_ :: _) => ∀ r ∈ s.ios.inFlight, r.no ∉ a.done
  | _ => True

instance (ix : SSDIndex C) (q : Query C D) (s : State D) : Decidable (RerankOk ix q s) :=
  decidable_of_iff ((∀ e ∈ s.behind q, ix.id2tag e.id ∈ q.excludeNodes) ∧
    (∀ e ∈ s.reranked ix q, (startIds ix q).count e.id ≤ 1) ∧
    (((s.reranked ix q).filterMap fun e => ix.coordPlace e.id).map Prod.snd).toFinset.card ≤
      maxNSectorReads)
    ⟨fun h => ⟨h.1, h.2.1, h.2.2⟩, fun h => ⟨h.behind, h.once, h.pages⟩⟩

instance (ix : SSDIndex C) (q : Query C D) (s : State D) (a : Act) : Decidable (StepOk ix q s a) :=
  match h : s.phase with
  | .expand => decidable_of_iff (q.useRerank = false → ∀ e ∈ s.toExpand, ∀ b ∈ s.ios.idBufMap e.id,
      s.ios.sector b.buf = ⟨.disk, ix.locSectorNo b.loc⟩) (by rw [StepOk, h])
  | .rerank => decidable_of_iff (RerankOk ix q s) (by rw [StepOk, h])
  | .batches (_ :: _) => decidable_of_iff (∀ r ∈ s.ios.inFlight, r.no ∉ a.done) (by rw [StepOk, h])
  | .batches [] => isTrue (by rw [StepOk, h]; trivial)
  | .first _ => isTrue (by rw [StepOk, h]; trivial)
  | .poll => isTrue (by rw [StepOk, h]; trivial)
  | .send => isTrue (by rw [StepOk, h]; trivial)
  | .release => isTrue (by rw [StepOk, h]; trivial)
  | .finish => isTrue (by rw [StepOk, h]; trivial)
  | .returned => isTrue (by rw [StepOk, h]; trivial)

/-- The results are those of nodes `es`: they are distinct, they have been expanded, each has its
own exact distance, and the distances ascend. -/
def ResultsRight (ix : SSDIndex C) (q : Query C D) (k : ℕ) (s : State D) (expanded : List ℕ) :
    Prop :=
  ∃ es : List (Neighbor D), results ix q k s = es.map (fun e => (ix.id2tag e.id, e.distance)) ∧
    (es.map Neighbor.id).Nodup ∧
    (∀ e ∈ es, e.id ∈ expanded ∧ exactDist ix q e.id = some e.distance) ∧
    es.Pairwise fun a b => a.distance ≤ b.distance

end Runs

variable {ix : SSDIndex C} {q : Query C D} {s s' : State D} {a : Act} {xs : List ℕ}

/-! ### The candidates -/

section Cands

variable [LinearOrder D] [Zero D] {c : Cands D}

/-- An id that the search has not started with twice is in the list once, and the candidates that
are marked have been expanded. -/
structure CandsOk (ix : SSDIndex C) (q : Query C D) (xs : List ℕ) (c : Cands D) : Prop where
  listed : Listed q.list c
  once : ∀ x, (startIds ix q).count x ≤ 1 → (c.pool.map Neighbor.id).count x ≤ 1
  expanded : ∀ e ∈ c.pool, e.visited = true → e.id ∈ xs

omit [LinearOrder D] [Zero D] in
theorem CandsOk.setPool {l : List (Neighbor D)} {xs' : List ℕ} (h : CandsOk ix q xs c)
    (hids : (l.map Neighbor.id).Perm (c.pool.map Neighbor.id))
    (hexpanded : ∀ e ∈ l, e.visited = true → e.id ∈ xs') : CandsOk ix q xs' (c.setPool l) := by
  have hlen : l.length = c.pool.length := by
    rw [← length_map, hids.length_eq, length_map]
  refine ⟨h.listed.setPool_of_perm hids, ?_, ?_⟩
  · rw [h.listed.pool_setPool hlen]
    intro x hx
    rw [hids.count_eq]
    exact h.once x hx
  · rw [h.listed.pool_setPool hlen]
    exact hexpanded

theorem CandsOk.computeAndPushNbrs (h : CandsOk ix q xs c) (hpos : 0 < c.curListSize)
    (node : DiskNode C Unit) : CandsOk ix q xs (c.computeAndPushNbrs q.list node) := by
  obtain ⟨hlisted, ⟨honce, hexpanded⟩, -⟩ := h.listed.computeAndPushNbrs_induct
    (I := fun l => (∀ x, (startIds ix q).count x ≤ 1 → (l.map Neighbor.id).count x ≤ 1) ∧
      ∀ e ∈ l, e.visited = true → e.id ∈ xs) hpos node ⟨h.once, h.expanded⟩ (by
    rintro l l' x - hnot hpush ⟨honce, hexpanded⟩
    refine ⟨fun y hy => ?_, fun e he hvis => ?_⟩
    · obtain ⟨p, n, -, -, hl'⟩ := hpush.map Neighbor.id
      have hperm : ((l.map Neighbor.id).take p ++ x :: (l.map Neighbor.id).drop p).Perm
          (x :: l.map Neighbor.id) := perm_middle.trans (by rw [take_append_drop])
      have hle : (l'.map Neighbor.id).count y ≤ (x :: l.map Neighbor.id).count y := by
        rw [hl', ← hperm.count_eq]
        exact (take_sublist _ _).count_le y
      by_cases hxy : x = y
      · subst hxy
        rw [count_cons_self, count_eq_zero.2 hnot] at hle
        exact hle
      · rw [count_cons_of_ne hxy] at hle
        exact hle.trans (honce y hy)
    · obtain rfl | he := hpush.mem he
      · cases hvis
      · exact hexpanded e he hvis)
  exact ⟨hlisted, honce, hexpanded⟩

omit [LinearOrder D] in
theorem candsOk_start (h : Init ix q s) : CandsOk ix q [] s.cands := by
  obtain ⟨reqs, sector, rfl⟩ := h
  have hpool : (newState ix q reqs sector).cands.pool =
      (start ix q).map fun m => .new m.1 m.2 true :=
    take_left' (length_map _)
  have hids : (newState ix q reqs sector).cands.pool.map Neighbor.id = startIds ix q := by
    rw [hpool, List.map_map]
    rfl
  refine ⟨⟨?_, ?_, fun e he => ?_⟩, fun x hx => ?_, fun e he hvis => ?_⟩
  · show (start ix q).length ≤ _
    rw [newState, length_append, length_map]
    exact Nat.le_add_right _ _
  · show (start ix q).length ≤ max q.lSearch 1
    rw [start]
    split_ifs
    · exact Nat.le_max_right _ _
    · exact (length_take_le _ _).trans (Nat.le_max_left _ _)
  · have hmem : e.id ∈ startIds ix q := hids ▸ mem_map_of_mem he
    exact hmem
  · rw [hids]
    exact hx
  · rw [hpool] at he
    obtain ⟨m, -, rfl⟩ := mem_map.1 he
    cases hvis

end Cands

/-! ### The places of the records -/

/-- Without the rerank, the requests and the records are those of the locations of their nodes. -/
structure Located (ix : SSDIndex C) (s : Ios D) : Prop where
  queue : ∀ io ∈ s.onFlightIos, ix.id2loc io.nbr.id = some io.loc
  records : ∀ id b, s.idBufMap id = some b → ix.id2loc id = some b.loc

section Located

variable {s t : Ios D}

theorem Located.complete (h : Located ix s) (done : List ℕ) : Located ix (s.complete done) := by
  obtain ⟨reqs, sector, heq, -⟩ := foldl_readDone (s.inFlight.filter fun r => r.no ∈ done)
    { s with inFlight := s.inFlight.filter fun r => r.no ∉ done }
  rw [Ios.complete, heq]
  exact ⟨h.queue, h.records⟩

theorem Located.popIo {cbFilled : ℕ → Bool} {io : Io D} {rest : List (Io D)} (h : Located ix s)
    (hq : s.onFlightIos = io :: rest) : Located ix (s.popIo cbFilled io rest) := by
  refine ⟨fun io' hio' => h.queue io' (hq ▸ mem_cons_of_mem io hio'), fun id b hb => ?_⟩
  have hb' : (if s.idBufMap io.nbr.id = none then Function.update s.idBufMap io.nbr.id
      (some ⟨(s.reqs io.slot).buf, io.loc⟩) else s.idBufMap) id = some b := hb
  split_ifs at hb'
  · by_cases hid : id = io.nbr.id
    · subst hid
      rw [update_self] at hb'
      cases hb'
      exact h.queue io (hq ▸ mem_cons_self)
    · rw [update_of_ne hid] at hb'
      exact h.records id b hb'
  · exact h.records id b hb'

theorem Located.popFinished {cbFilled : ℕ → Bool} (h : Located ix s) (inList : D → Bool)
    {l : List (Io D)} (hq : s.onFlightIos = l) (nIn nOut : ℕ) :
    Located ix (Ios.popFinished cbFilled inList l s nIn nOut).1 := by
  induction l generalizing s nIn nOut with
  | nil => exact h
  | cons io rest ih =>
    rw [Ios.popFinished]
    split_ifs
    · exact ih (h.popIo hq) rfl _ _
    · exact ih (h.popIo hq) rfl _ _
    · exact h

theorem Located.sendReadReq (h : Located ix s) (hrerank : q.useRerank = false) {item : Neighbor D}
    {found : Found} (hs : s.sendReadReq ix q item found = some t) : Located ix t := by
  obtain ⟨loc, hloc, rfl⟩ := map_eq_some_iff.1 hs
  rw [if_neg (Bool.eq_false_iff.1 hrerank)]
  dsimp only
  generalize hs₁ : (if found.pageCached then _ else s : Ios D) = s₁
  have hsame : s₁.onFlightIos = s.onFlightIos ∧ s₁.idBufMap = s.idBufMap := by
    rw [← hs₁]
    split_ifs
    · exact ⟨rfl, rfl⟩
    · exact ⟨rfl, rfl⟩
  refine ⟨fun io hio => ?_, fun id b hb => h.records id b (hsame.2 ▸ hb)⟩
  obtain rfl | hio := mem_cons.1 ((perm_orderedInsert ..).mem_iff.1 hio)
  · exact hloc
  · exact h.queue io (hsame.1 ▸ hio)

end Located

/-! ### The loop -/

theorem tune_cands (q : Query C D) (nIn nOut : ℕ) (s : State D) :
    (s.tune q nIn nOut).cands = s.cands := by
  rw [State.tune]
  split_ifs
  · rfl
  · rfl

theorem tune_fullRetset (q : Query C D) (nIn nOut : ℕ) (s : State D) :
    (s.tune q nIn nOut).fullRetset = s.fullRetset := by
  rw [State.tune]
  split_ifs
  · rfl
  · rfl

theorem sendBestReadReq_spec {found : Found} (hs : s.sendBestReadReq ix q found = some s') :
    ∃ l, s'.cands = s.cands.setPool l ∧
      (l.map fun e => (e.id, e.visited)) = s.cands.pool.map (fun e => (e.id, e.visited)) ∧
      s'.fullRetset = s.fullRetset ∧ s'.phase = s.phase ∧
      (s'.ios = s.ios ∨ ∃ item, s.ios.sendReadReq ix q item found = some s'.ios) := by
  have hsplit := takeWhile_append_dropWhile (p := s.sent) (l := s.cands.pool)
  rw [State.sendBestReadReq] at hs
  cases hdrop : s.cands.pool.dropWhile s.sent with
  | nil =>
    rw [hdrop] at hs
    cases hs
    refine ⟨_, rfl, ?_, rfl, rfl, .inl rfl⟩
    rw [hdrop, append_nil] at hsplit
    rw [hsplit, List.map_map]
    rfl
  | cons e rest =>
    rw [hdrop] at hs
    obtain ⟨ios, hios, rfl⟩ := map_eq_some_iff.1 hs
    refine ⟨_, rfl, ?_, rfl, rfl, .inr ⟨_, hios⟩⟩
    rw [hdrop] at hsplit
    conv_rhs => rw [← hsplit]
    rw [map_append, map_append, List.map_map]
    rfl

section Loop

variable [LinearOrder D] [Zero D]

theorem sortRetset_fullRetset (q : Query C D) (s : State D) :
    (s.sortRetset q).fullRetset = s.fullRetset := by
  rw [State.sortRetset]
  split_ifs
  · rfl
  · rfl

omit [LinearOrder D] [Zero D] in
theorem CandsOk.of_marks {c : Cands D} {l : List (Neighbor D)} (h : CandsOk ix q xs c)
    (hl : (l.map fun e => (e.id, e.visited)) = c.pool.map fun e => (e.id, e.visited)) :
    CandsOk ix q xs (c.setPool l) := by
  have hids := congrArg (List.map Prod.fst) hl
  rw [List.map_map, List.map_map] at hids
  refine h.setPool (Perm.of_eq hids) fun e he hvis => ?_
  have hmem : (e.id, e.visited) ∈ c.pool.map fun e => (e.id, e.visited) :=
    hl ▸ mem_map_of_mem he
  obtain ⟨e', he', heq⟩ := mem_map.1 hmem
  obtain ⟨hid, hvis'⟩ := Prod.mk.inj heq
  rw [← hid]
  exact h.expanded e' he' (hvis'.trans hvis)

theorem CandsOk.sortRetset (h : CandsOk ix q xs s.cands) :
    CandsOk ix q xs (s.sortRetset q).cands := by
  rw [State.sortRetset]
  split_ifs
  · exact h
  have hperm := perm_insertionSort (r := PipeANN.PipeSearch.State.le)
    (s.cands.pool.map fun e => { e with distance := q.pqDist e.id })
  refine h.setPool ((hperm.map _).trans ?_) fun e he hvis => ?_
  · rw [List.map_map]
    exact Perm.refl _
  · obtain ⟨e', he', rfl⟩ := mem_map.1 (hperm.mem_iff.1 he)
    exact h.expanded e' he' hvis

theorem calcBestNode_spec (ix : SSDIndex C) (q : Query C D) (hphase : s.phase = .expand) :
    s.toExpand.toList.map Neighbor.id = [] ∧ (s.calcBestNode ix q).1 = s ∨
      ∃ e b pre rest, s.toExpand = some e ∧ s.ios.idBufMap e.id = some b ∧
        s.cands.pool = pre ++ e :: rest ∧
        (s.calcBestNode ix q).1 =
          { s.computeExactDistsAndPush q (s.node ix b) e.id with
            cands := (s.cands.setPool (pre ++ { e with flag := false, visited := true } :: rest)
              ).computeAndPushNbrs q.list (s.node ix b) } := by
  have hsplit := takeWhile_append_dropWhile (p := fun e => !s.pending e) (l := s.cands.pool)
  rw [State.toExpand, hphase]
  cases hdrop : s.cands.pool.dropWhile fun e => !s.pending e with
  | nil =>
    left
    refine ⟨rfl, ?_⟩
    rw [State.calcBestNode, hdrop]
  | cons e rest =>
    right
    have hpending : s.pending e = true := by
      have hne : (s.cands.pool.dropWhile fun e => !s.pending e) ≠ [] := by
        rw [hdrop]
        exact cons_ne_nil _ _
      have hnot := head_dropWhile_not (fun e => !s.pending e) hne
      simp only [hdrop, Bool.not_eq_false'] at hnot
      exact hnot
    rw [State.pending, Bool.and_eq_true] at hpending
    obtain ⟨b, hb⟩ := isSome_iff_exists.1 hpending.2
    rw [hdrop] at hsplit
    refine ⟨e, b, _, rest, rfl, hb, hsplit.symm, ?_⟩
    rw [State.calcBestNode, hdrop]
    dsimp only
    rw [hb]

end Loop

/-! ### The vectors -/

/-- The requests for the vectors of `ids`: one for each page, each with its own buffer. -/
structure Requests (ix : SSDIndex C) (sectorIdx : ℕ) (ids : List ℕ) (r : CoordReads) : Prop where
  mapped : ∀ pid b, r.pageBufMap pid = some b ↔ (b, pid) ∈ r.readReqs
  next : r.sectorIdx % maxNSectorReads = (sectorIdx + r.readReqs.length) % maxNSectorReads
  buffers : (r.readReqs.map fun x => x.1 % maxNSectorReads) =
    (List.range r.readReqs.length).map fun i => (sectorIdx + i) % maxNSectorReads
  pages : (r.readReqs.map Prod.snd).Nodup ∧
    r.readReqs.map Prod.snd ⊆ (ids.filterMap ix.coordPlace).map Prod.snd
  places : List.Forall₂ (fun id (b : BufNode) =>
    ∃ pid, ix.coordPlace id = some (b.loc, pid) ∧ (b.buf, pid) ∈ r.readReqs) ids r.idxBuf

variable {sectorIdx : ℕ} {ids done : List ℕ} {r : CoordReads}

theorem Requests.add {id : ℕ} {r' : CoordReads} (h : Requests ix sectorIdx ids r)
    (hr : r.add ix id = some r') : Requests ix sectorIdx (ids ++ [id]) r' := by
  obtain ⟨loc, hloc, rfl⟩ := map_eq_some_iff.1 hr
  have hplace : ix.coordPlace id =
      some (ix.loc2phyCoord loc, ix.locSectorNoCoord (ix.loc2phyCoord loc)) := by
    rw [SSDIndex.coordPlace, hloc]
    rfl
  dsimp only
  generalize ix.loc2phyCoord loc = loc' at *
  generalize ix.locSectorNoCoord loc' = pid at *
  have hids : ((ids ++ [id]).filterMap ix.coordPlace).map Prod.snd =
      (ids.filterMap ix.coordPlace).map Prod.snd ++ [pid] := by
    rw [filterMap_append, map_append, filterMap_cons_some hplace]
    rfl
  cases hbuf : r.pageBufMap pid with
  | some b =>
    refine ⟨h.mapped, h.next, h.buffers, ⟨h.pages.1, fun p hp => ?_⟩, ?_⟩
    · rw [hids]
      exact mem_append_left _ (h.pages.2 hp)
    · exact rel_append h.places (.cons ⟨pid, hplace, (h.mapped pid b).1 hbuf⟩ .nil)
  | none =>
    have hnew : pid ∉ r.readReqs.map Prod.snd := by
      intro hmem
      obtain ⟨⟨b, p⟩, hb, rfl⟩ := mem_map.1 hmem
      rw [(h.mapped p b).2 hb] at hbuf
      cases hbuf
    refine ⟨fun p b => ?_, ?_, ?_, ⟨?_, ?_⟩, ?_⟩
    · dsimp only
      rw [mem_append, mem_singleton]
      by_cases hp : p = pid
      · subst hp
        rw [update_self, Option.some.injEq]
        have hnot : (b, p) ∉ r.readReqs := fun hb => hnew (mem_map_of_mem hb)
        rw [or_iff_right hnot]
        exact ⟨fun hb => by rw [hb], fun hb => (Prod.mk.inj hb).1.symm⟩
      · rw [update_of_ne hp, h.mapped]
        exact (or_iff_left fun hb => hp (Prod.mk.inj hb).2).symm
    · dsimp only
      rw [Nat.mod_mod, length_append, Nat.add_mod, h.next, ← Nat.add_mod]
      rfl
    · dsimp only
      rw [length_append, length_singleton, range_succ, map_append,
        map_append, h.buffers, map_singleton, map_singleton, h.next]
    · rw [map_append, nodup_append]
      refine ⟨h.pages.1, nodup_singleton _, fun p hp p' hp' he => ?_⟩
      rw [he, mem_singleton.1 hp'] at hp
      exact hnew hp
    · rw [hids, map_append]
      intro p hp
      obtain hp | hp := mem_append.1 hp
      · exact mem_append_left _ (h.pages.2 hp)
      · exact mem_append_right _ hp
    · refine rel_append (h.places.imp fun id' b => ?_) (.cons ⟨pid, hplace, ?_⟩ .nil)
      · rintro ⟨pid', hp, hmem⟩
        exact ⟨pid', hp, mem_append_left _ hmem⟩
      · exact mem_append_right _ (mem_singleton_self _)

theorem Requests.foldlM {r' : CoordReads} (h : Requests ix sectorIdx done r)
    (hr : ids.foldlM (CoordReads.add ix) r = some r') : Requests ix sectorIdx (done ++ ids) r' := by
  induction ids generalizing done r with
  | nil =>
    cases hr
    rw [append_nil]
    exact h
  | cons id ids ih =>
    obtain ⟨r₁, hr₁, hr⟩ := bind_eq_some_iff.1 hr
    have hrest := ih (h.add hr₁) hr
    rwa [append_assoc, singleton_append] at hrest

theorem Requests.nodup_buffers (h : Requests ix sectorIdx ids r)
    (hpages : ((ids.filterMap ix.coordPlace).map Prod.snd).toFinset.card ≤ maxNSectorReads) :
    (r.readReqs.map Prod.fst).Nodup := by
  have hlen : r.readReqs.length ≤ maxNSectorReads := by
    rw [← length_map, ← toFinset_card_of_nodup h.pages.1]
    refine (Finset.card_le_card fun p hp => ?_).trans hpages
    exact List.mem_toFinset.2 (h.pages.2 (List.mem_toFinset.1 hp))
  have hmod : (r.readReqs.map fun x => x.1 % maxNSectorReads).Nodup := by
    rw [h.buffers]
    refine Nodup.map_on (fun i hi j hj hij => ?_) nodup_range
    have hi' := (List.mem_range.1 hi).trans_le hlen
    have hj' := (List.mem_range.1 hj).trans_le hlen
    have hmodEq : i ≡ j [MOD maxNSectorReads] := Nat.ModEq.add_left_cancel' sectorIdx hij
    rwa [Nat.ModEq, Nat.mod_eq_of_lt hi', Nat.mod_eq_of_lt hj'] at hmodEq
  have hcomp : (r.readReqs.map fun x => x.1 % maxNSectorReads) =
      (r.readReqs.map Prod.fst).map (· % maxNSectorReads) := by
    rw [List.map_map]
    rfl
  rw [hcomp] at hmod
  exact hmod.of_map _

/-- The node has been expanded, and this is its distance. -/
def Good (ix : SSDIndex C) (q : Query C D) (xs : List ℕ) (e : Neighbor D) : Prop :=
  e.id ∈ xs ∧ exactDist ix q e.id = some e.distance

/-- While the vectors are read: the pages of the requests `old` are in their buffers. -/
structure Reading (ix : SSDIndex C) (xs : List ℕ) (s : State D) (old reqs : List (ℕ × ℕ)) :
    Prop where
  buffers : ((old ++ reqs).map Prod.fst).Nodup
  read : ∀ x ∈ old, s.ios.sector x.1 = ⟨.coord, x.2⟩
  places : List.Forall₂ (fun (e : Neighbor D) (b : BufNode) => e.id ∈ xs ∧
    ∃ pid, ix.coordPlace e.id = some (b.loc, pid) ∧ (b.buf, pid) ∈ old ++ reqs)
    s.fullRetset s.idxBuf

theorem sector_foldl_arrive (l : List Read) (s : Ios D) :
    (l.foldl Ios.arrive s).sector = filled s.sector l Read.slot Read.page := by
  induction l generalizing s with
  | nil => rfl
  | cons r l ih => exact ih (s.arrive r)

theorem readBatch_sector {s t : Ios D} {batch : List (ℕ × ℕ)} (h : s.readBatch batch done = some t)
    (hold : ∀ r ∈ s.inFlight, r.no ∉ done) (hnodup : (batch.map Prod.fst).Nodup) :
    (∀ x ∈ batch, t.sector x.1 = ⟨.coord, x.2⟩) ∧
      ∀ b, b ∉ batch.map Prod.fst → t.sector b = s.sector b := by
  obtain ⟨reads, n, heq, hreads⟩ := foldl_submit batch s
  rw [Ios.readBatch, heq] at h
  split_ifs at h with harrived
  cases h
  have hnone : s.inFlight.filter (fun r => r.no ∈ done) = [] :=
    filter_eq_nil_iff.2 fun r hr hdone => hold r hr (of_decide_eq_true hdone)
  have hlen := congrArg List.length hreads
  rw [length_map, length_map] at hlen
  have hall : (s.inFlight ++ reads).filter (fun r => r.no ∈ done) = reads := by
    rw [filter_append, hnone, ← hlen] at harrived
    rw [filter_append, hnone]
    exact filter_sublist.eq_of_length harrived
  have hslots := congrArg (List.map Prod.fst) hreads
  rw [List.map_map, List.map_map] at hslots
  have hslots' : reads.map Read.slot = batch.map Prod.fst := hslots
  rw [hall, sector_foldl_arrive]
  refine ⟨fun x hx => ?_, fun b hb => filled_of_not_mem _ _ (hslots' ▸ hb)⟩
  have hmem : (x.1, (⟨.coord, x.2⟩ : Page)) ∈ reads.map fun r => (r.slot, r.page) := by
    rw [hreads]
    exact mem_map_of_mem hx
  obtain ⟨r, hr, he⟩ := mem_map.1 hmem
  obtain ⟨hslot, hpage⟩ := Prod.mk.inj he
  rw [← hslot, ← hpage]
  exact filled_of_mem _ _ hr fun r' hr' he' =>
    inj_on_of_nodup_map (hslots' ▸ hnodup) hr' hr he'

theorem Reading.readBatch {old reqs : List (ℕ × ℕ)} {ios : Ios D} {n : ℕ}
    (h : Reading ix xs s old reqs) (hs : s.ios.readBatch (reqs.take n) done = some ios)
    (hold : ∀ r ∈ s.ios.inFlight, r.no ∉ done) (phase : Phase) :
    Reading ix xs { s with ios, phase } (old ++ reqs.take n) (reqs.drop n) := by
  have hall : old ++ reqs.take n ++ reqs.drop n = old ++ reqs := by
    rw [append_assoc, take_append_drop]
  have hnodup := h.buffers
  rw [← hall, map_append, map_append] at hnodup
  obtain ⟨hnew, hsame⟩ := readBatch_sector hs hold hnodup.of_append_left.of_append_right
  refine ⟨by rw [hall]; exact h.buffers, fun x hx => ?_, by rw [hall]; exact h.places⟩
  obtain hx | hx := mem_append.1 hx
  · have hnot : x.1 ∉ (reqs.take n).map Prod.fst := fun hmem =>
      disjoint_of_nodup_append hnodup.of_append_left (mem_map_of_mem hx) hmem
    exact (hsame x.1 hnot).trans (h.read x hx)
  · exact hnew x hx

theorem Reading.endRerank {old : List (ℕ × ℕ)} (h : Reading ix xs s old [])
    (hrerank : q.useRerank = true) : ∀ e ∈ (s.endRerank ix q).fullRetset, Good ix q xs e := by
  have hread := h.read
  have hplaces := h.places
  rw [append_nil] at hplaces
  show ∀ e ∈ zipWith _ s.fullRetset s.idxBuf, Good ix q xs e
  generalize s.fullRetset = l, s.idxBuf = m at hplaces
  induction hplaces with
  | nil => exact fun e he => absurd he not_mem_nil
  | @cons e b l m hb _ ih =>
    obtain ⟨hmem, pid, hplace, hold⟩ := hb
    rw [zipWith_cons_cons, forall_mem_cons]
    refine ⟨⟨hmem, ?_⟩, ih⟩
    rw [exactDist, if_pos hrerank, hplace]
    dsimp only [map_some]
    rw [hread _ hold]

section Inv

variable [LinearOrder D] [Zero D]

/-- The results in the loop: there are none when they will be ranked. -/
structure LoopResults (ix : SSDIndex C) (q : Query C D) (xs : List ℕ) (full : List (Neighbor D)) :
    Prop where
  rerank : q.useRerank = true → full = []
  good : q.useRerank = false → ∀ e ∈ full, Good ix q xs e

/-- The results in each phase. -/
def Results (ix : SSDIndex C) (q : Query C D) (xs : List ℕ) (s : State D) : Prop :=
  match s.phase with
  | .rerank => q.useRerank = true ∧ s.fullRetset = []
  | .batches reqs => q.useRerank = true ∧ ∃ old, Reading ix xs s old reqs
  | .finish => ∀ e ∈ s.fullRetset, Good ix q xs e
  | .returned => (∀ e ∈ s.fullRetset, Good ix q xs e) ∧
      s.fullRetset.Pairwise PipeANN.PipeSearch.State.le
  | _ => LoopResults ix q xs s.fullRetset

/-- What holds in a run. -/
structure Inv (ix : SSDIndex C) (q : Query C D) (xs : List ℕ) (s : State D) : Prop where
  cands : CandsOk ix q xs s.cands
  located : s.phase.inLoop → q.useRerank = false → Located ix s.ios
  done : s.phase = .release ∨ s.phase = .rerank → ∀ e ∈ s.cands.pool, e.visited = true
  results : Results ix q xs s

omit [Zero D] in
theorem Inv.of_loop (hcands : CandsOk ix q xs s.cands)
    (hlocated : q.useRerank = false → Located ix s.ios) (hres : LoopResults ix q xs s.fullRetset)
    (hloop : s.phase.inLoop) (hne : s.phase ≠ .release) : Inv ix q xs s := by
  refine ⟨hcands, fun _ => hlocated, fun hphase => ?_, ?_⟩
  · obtain hphase | hphase := hphase
    · exact absurd hphase hne
    · rw [hphase] at hloop
      cases hloop
  · rw [Results]
    split
    · rw [‹s.phase = _›] at hloop
      cases hloop
    · rw [‹s.phase = _›] at hloop
      cases hloop
    · rw [‹s.phase = _›] at hloop
      cases hloop
    · rw [‹s.phase = _›] at hloop
      cases hloop
    · exact hres

omit [Zero D] in
theorem Inv.of_after (hcands : CandsOk ix q xs s.cands) (hres : Results ix q xs s)
    (hafter : s.phase.inLoop = false) (hne : s.phase ≠ .rerank) : Inv ix q xs s := by
  refine ⟨hcands, fun hloop => ?_, fun hphase => ?_, hres⟩
  · rw [hafter] at hloop
    cases hloop
  · obtain hphase | hphase := hphase
    · rw [hphase] at hafter
      cases hafter
    · exact absurd hphase hne

theorem inv_start (h : Init ix q s) : Inv ix q [] s := by
  have hcands := candsOk_start h
  obtain ⟨reqs, sector, rfl⟩ := h
  refine ⟨hcands, fun _ _ => ⟨fun io hio => absurd hio not_mem_nil, fun id b hb => ?_⟩, ?_, ?_⟩
  · cases hb
  · rintro (h | h)
    · cases h
    · cases h
  · exact ⟨fun _ => rfl, fun _ e he => absurd he not_mem_nil⟩

omit [Zero D] in
theorem Inv.sendBestReadReq {found : Found} (h : Inv ix q xs s) (hloop : s.phase.inLoop)
    (hres : LoopResults ix q xs s.fullRetset) (hs : s.sendBestReadReq ix q found = some s') :
    CandsOk ix q xs s'.cands ∧ (q.useRerank = false → Located ix s'.ios) ∧
      LoopResults ix q xs s'.fullRetset := by
  obtain ⟨l, hcands, hmarks, hfull, -, hios⟩ := sendBestReadReq_spec hs
  rw [hcands, hfull]
  refine ⟨h.cands.of_marks hmarks, fun hrerank => ?_, hres⟩
  · have hlocated := h.located hloop hrerank
    obtain hios | ⟨item, hitem⟩ := hios
    · rw [hios]
      exact hlocated
    · exact hlocated.sendReadReq hrerank hitem

theorem Inv.expand (h : Inv ix q xs s) (hphase : s.phase = .expand) (hok : StepOk ix q s a)
    (hs : (s.calcBestNode ix q).1 = s') :
    CandsOk ix q (xs ++ s.toExpand.toList.map Neighbor.id) s'.cands ∧
      (q.useRerank = false → Located ix s'.ios) ∧
      LoopResults ix q (xs ++ s.toExpand.toList.map Neighbor.id) s'.fullRetset := by
  have hloop : s.phase.inLoop := by rw [hphase]; rfl
  have hres := h.results
  rw [Results, hphase] at hres
  rw [StepOk, hphase] at hok
  have hlocated : q.useRerank = false → Located ix s'.ios := by
    rw [← hs, calcBestNode_ios]
    exact h.located hloop
  obtain ⟨hnone, heq⟩ | ⟨e, b, pre, rest, he, hb, hpool, heq⟩ :=
    calcBestNode_spec ix q hphase
  · rw [hnone, append_nil, ← hs, heq]
    exact ⟨h.cands, h.located hloop, hres⟩
  · rw [heq] at hs
    subst hs
    rw [he]
    refine ⟨?_, hlocated, ?_, ?_⟩
    · have hids : ((pre ++ { e with flag := false, visited := true } :: rest).map Neighbor.id).Perm
          (s.cands.pool.map Neighbor.id) := by
        rw [hpool, map_append, map_append]
        exact Perm.refl _
      have hset : CandsOk ix q (xs ++ [e.id])
          (s.cands.setPool (pre ++ { e with flag := false, visited := true } :: rest)) := by
        refine h.cands.setPool hids fun e' he' hvis => ?_
        obtain he' | he' := mem_append.1 he'
        · exact mem_append_left _ (h.cands.expanded e' (by
            rw [hpool]; exact mem_append_left _ he') hvis)
        · obtain rfl | he' := mem_cons.1 he'
          · exact mem_append_right _ (mem_singleton_self _)
          · exact mem_append_left _ (h.cands.expanded e' (by
              rw [hpool]; exact mem_append_right _ (mem_cons_of_mem _ he')) hvis)
      refine hset.computeAndPushNbrs ?_ _
      have hlen := h.cands.listed.length_pool
      rw [hpool, length_append, length_cons] at hlen
      show 0 < s.cands.curListSize
      omega
    · intro hrerank
      show (s.computeExactDistsAndPush q (s.node ix b) e.id).fullRetset = []
      rw [State.computeExactDistsAndPush, if_pos hrerank]
      exact hres.rerank hrerank
    · intro hrerank e' he'
      have he'' : e' ∈ (s.computeExactDistsAndPush q (s.node ix b) e.id).fullRetset := he'
      rw [State.computeExactDistsAndPush, if_neg (Bool.eq_false_iff.1 hrerank)] at he''
      obtain he'' | he'' := mem_append.1 he''
      · obtain ⟨hmem, hdist⟩ := hres.good hrerank e' he''
        exact ⟨mem_append_left _ hmem, hdist⟩
      · obtain rfl := mem_singleton.1 he''
        refine ⟨mem_append_right _ (mem_singleton_self _), ?_⟩
        show exactDist ix q e.id = some (q.compare (s.node ix b).coords)
        rw [exactDist, if_neg (Bool.eq_false_iff.1 hrerank),
          (h.located hloop hrerank).records e.id b hb, map_some, State.node,
          hok hrerank e he b hb]

/-! ### The rerank -/

omit [LinearOrder D] in
theorem reranked_eq (h : CandsOk ix q xs s.cands) (hok : RerankOk ix q s) :
    s.reranked ix q = s.fullRetset ++
      (s.cands.pool.take q.rerankLen).filter fun e => ix.id2tag e.id ∉ q.excludeNodes := by
  have hsize := h.listed.size
  have hbehind := hok.behind
  rw [State.behind] at hbehind
  show _ ++ List.filter _ (s.cands.retset.take q.rerankLen ++
    replicate (q.rerankLen - s.cands.retset.length) default) = _
  generalize hl : s.cands.retset.take q.rerankLen ++
    replicate (q.rerankLen - s.cands.retset.length) default = l at *
  have hfront : l.take s.cands.curListSize = s.cands.pool.take q.rerankLen := by
    rw [← hl, Cands.pool, take_take, Nat.min_comm, ← take_take]
    obtain hle | hlt := Nat.le_total q.rerankLen s.cands.retset.length
    · rw [Nat.sub_eq_zero_of_le hle, replicate_zero, append_nil]
    · rw [take_of_length_le hlt, take_append_of_le_length hsize]
  have hnone :
      (l.drop s.cands.curListSize).filter (fun e => ix.id2tag e.id ∉ q.excludeNodes) = [] := by
    refine filter_eq_nil_iff.2 fun e he hnot => ?_
    exact of_decide_eq_true hnot (hbehind e he)
  rw [← take_append_drop s.cands.curListSize l, filter_append, hnone, append_nil,
    hfront]

theorem Inv.reranked_sublist (h : Inv ix q xs s) (hphase : s.phase = .rerank)
    (hok : RerankOk ix q s) : (s.reranked ix q).Sublist s.cands.pool := by
  have hres := h.results
  rw [Results, hphase] at hres
  rw [reranked_eq h.cands hok, hres.2]
  exact filter_sublist.trans (take_sublist _ _)

theorem Inv.nodup_reranked (h : Inv ix q xs s) (hphase : s.phase = .rerank)
    (hok : RerankOk ix q s) : ((s.reranked ix q).map Neighbor.id).Nodup := by
  rw [nodup_iff_count_le_one]
  intro x
  by_cases hx : x ∈ (s.reranked ix q).map Neighbor.id
  · obtain ⟨e, he, rfl⟩ := mem_map.1 hx
    exact (((h.reranked_sublist hphase hok).map _).count_le _).trans
      (h.cands.once _ (hok.once e he))
  · rw [count_eq_zero.2 hx]
    exact Nat.zero_le 1

theorem Inv.startRerank (h : Inv ix q xs s) (hphase : s.phase = .rerank) (hok : RerankOk ix q s)
    (hs : s.startRerank ix q = some s') : Inv ix q xs s' := by
  have hres := h.results
  rw [Results, hphase] at hres
  have hsub := h.reranked_sublist hphase hok
  have hpages := hok.pages
  rw [State.startRerank, if_pos (h.nodup_reranked hphase hok)] at hs
  obtain ⟨reads, hreads, rfl⟩ := map_eq_some_iff.1 hs
  generalize s.reranked ix q = full at *
  have hempty : Requests ix s.ios.sectorIdx [] ⟨fun _ => none, s.ios.sectorIdx, [], []⟩ :=
    ⟨fun _ _ => iff_of_false (some_ne_none _).symm not_mem_nil, rfl, rfl,
      ⟨nodup_nil, fun _ h => absurd h not_mem_nil⟩, .nil⟩
  have hall := hempty.foldlM hreads
  rw [nil_append] at hall
  refine ⟨h.cands, fun hloop => ?_, ?_, hres.1, [], ?_, fun x hx => absurd hx not_mem_nil, ?_⟩
  · cases hloop
  · rintro (hp | hp)
    · cases hp
    · cases hp
  · refine hall.nodup_buffers ?_
    rw [filterMap_map]
    exact hpages
  · have hplaces := forall₂_map_left_iff.1 hall.places
    have hdone := h.done (.inr hphase)
    have hmem : ∀ e ∈ full, e.id ∈ xs := fun e he =>
      h.cands.expanded e (hsub.subset he) (hdone e (hsub.subset he))
    show Forall₂ _ full reads.idxBuf
    clear hreads hs hpages hsub hall
    generalize reads.idxBuf = bs at hplaces ⊢
    induction hplaces with
    | nil => exact .nil
    | cons hb _ ih =>
      rw [forall_mem_cons] at hmem
      exact .cons ⟨hmem.1, hb⟩ (ih hmem.2)

/-! ### The run -/

omit [Zero D] in
theorem pairwise_sort (l : List (Neighbor D)) :
    (l.insertionSort PipeANN.PipeSearch.State.le).Pairwise PipeANN.PipeSearch.State.le := by
  have hrel : ∀ x y : Neighbor D, PipeANN.PipeSearch.State.le x y ↔
      toLex (x.distance, x.id) ≤ toLex (y.distance, y.id) := fun x y =>
    (Prod.Lex.toLex_le_toLex (x := (x.distance, x.id)) (y := (y.distance, y.id))).symm
  have htotal : Std.Total (PipeANN.PipeSearch.State.le) := ⟨fun x y => by
    rw [hrel, hrel]
    exact le_total _ _⟩
  have htrans : IsTrans (Neighbor D) PipeANN.PipeSearch.State.le := ⟨fun x y z => by
    rw [hrel, hrel, hrel]
    exact le_trans⟩
  exact pairwise_insertionSort _ l

theorem Inv.step (h : Inv ix q xs s) (hok : StepOk ix q s a)
    (hs : RerankSearch.step ix q s a = some s') :
    Inv ix q (xs ++ s.toExpand.toList.map Neighbor.id) s' := by
  have hres := h.results
  rw [RerankSearch.step] at hs
  rw [Results] at hres
  have hnone : s.phase ≠ .expand → xs ++ s.toExpand.toList.map Neighbor.id = xs := by
    intro hphase
    rw [State.toExpand]
    split
    · exact absurd ‹_› hphase
    · exact append_nil xs
  cases hphase : s.phase with
  | first n =>
    have hloop : s.phase.inLoop := by rw [hphase]; rfl
    rw [hnone (by rw [hphase]; nofun)]
    rw [hphase] at hs hres
    cases n with
    | zero =>
      cases hs
      refine .of_loop h.cands.sortRetset ?_ ?_ rfl nofun
      · show _ → Located ix (s.sortRetset q).ios
        rw [sortRetset_ios]
        exact h.located hloop
      · show LoopResults ix q xs (s.sortRetset q).fullRetset
        rw [sortRetset_fullRetset]
        exact hres
    | succ n =>
      obtain ⟨s₁, hs₁, rfl⟩ := map_eq_some_iff.1 hs
      obtain ⟨hcands, hlocated, hres⟩ := h.sendBestReadReq hloop hres hs₁
      exact .of_loop hcands hlocated hres rfl nofun
  | poll =>
    have hloop : s.phase.inLoop := by rw [hphase]; rfl
    rw [hnone (by rw [hphase]; nofun)]
    rw [hphase] at hs hres
    dsimp only at hs
    split_ifs at hs with hdone
    · cases hs
      refine ⟨h.cands, fun _ => h.located hloop, fun _ e he => ?_, hres⟩
      have hvis := findIdx?_eq_none_iff.1 hdone e he
      rwa [Bool.not_eq_false'] at hvis
    · cases hs
      refine .of_loop ?_ (fun hr => ?_) ?_ rfl nofun
      · show CandsOk ix q xs (s.pollAll q a.done a.cbFilled).cands
        rw [State.pollAll, tune_cands]
        exact h.cands
      · show Located ix (s.pollAll q a.done a.cbFilled).ios
        rw [State.pollAll, tune_ios]
        exact ((h.located hloop hr).complete a.done).popFinished _ rfl 0 0
      · show LoopResults ix q xs (s.pollAll q a.done a.cbFilled).fullRetset
        rw [State.pollAll, tune_fullRetset]
        exact hres
  | send =>
    have hloop : s.phase.inLoop := by rw [hphase]; rfl
    rw [hnone (by rw [hphase]; nofun)]
    rw [hphase] at hs hres
    dsimp only at hs
    split_ifs at hs
    · obtain ⟨s₁, hs₁, rfl⟩ := map_eq_some_iff.1 hs
      obtain ⟨hcands, hlocated, hres⟩ := h.sendBestReadReq hloop hres hs₁
      exact .of_loop hcands hlocated hres rfl nofun
    · cases hs
      exact .of_loop h.cands (h.located hloop) hres rfl nofun
  | expand =>
    rw [hphase] at hs
    cases hs
    obtain ⟨hcands, hlocated, hres⟩ := h.expand hphase hok rfl
    exact .of_loop hcands hlocated hres rfl nofun
  | release =>
    rw [hnone (by rw [hphase]; nofun)]
    rw [hphase] at hs hres
    cases hs
    by_cases hrerank : q.useRerank
    · rw [if_pos hrerank]
      refine ⟨h.cands, fun hloop => ?_, fun _ => h.done (.inl hphase), hrerank, hres.rerank hrerank⟩
      cases hloop
    · rw [if_neg hrerank]
      exact .of_after h.cands (hres.good (Bool.eq_false_iff.2 hrerank)) rfl nofun
  | rerank =>
    rw [hnone (by rw [hphase]; nofun)]
    rw [StepOk, hphase] at hok
    rw [hphase] at hs
    exact h.startRerank hphase hok hs
  | batches reqs =>
    rw [hnone (by rw [hphase]; nofun)]
    rw [StepOk, hphase] at hok
    rw [hphase] at hs hres
    obtain ⟨hrerank, old, hreading⟩ := hres
    cases reqs with
    | nil =>
      cases hs
      exact .of_after h.cands (hreading.endRerank hrerank) rfl nofun
    | cons req reqs =>
      obtain ⟨ios, hios, rfl⟩ := map_eq_some_iff.1 hs
      exact .of_after h.cands ⟨hrerank, _, hreading.readBatch hios hok _⟩ rfl nofun
  | finish =>
    rw [hnone (by rw [hphase]; nofun)]
    rw [hphase] at hs hres
    cases hs
    refine .of_after h.cands ⟨fun e he => ?_, pairwise_sort _⟩ rfl nofun
    exact hres e ((perm_insertionSort _ _).mem_iff.1 he)
  | returned =>
    rw [hphase] at hs
    cases hs

theorem inv_of_reach {t : State D × List ℕ}
    (h : Reach (TracedInit ix q)
      (guarded (fun t a => StepOk ix q t.1 a) (ofFn (tracedStep ix q))) t) :
    Inv ix q t.2 t.1 := by
  refine Reach.invariant (P := fun t => Inv ix q t.2 t.1) (fun t ht => ?_)
    (fun t a t' ih hs => ?_) h
  · rw [ht.2]
    exact inv_start ht.1
  · obtain ⟨hok, hs⟩ := hs
    obtain ⟨s', hs', rfl⟩ := map_eq_some_iff.1 hs
    exact ih.step hok hs'

/-! ### The result -/

omit [Zero D] in
theorem nodup_destutter {l : List (Neighbor D)} (hsorted : l.Pairwise PipeANN.PipeSearch.State.le)
    (hdist : ∀ e ∈ l, ∀ e' ∈ l, e.id = e'.id → e.distance = e'.distance) :
    ((l.destutter fun a b => a.id ≠ b.id).map Neighbor.id).Nodup := by
  have hsub := destutter_sublist (fun a b : Neighbor D => a.id ≠ b.id) l
  have hchain := isChain_destutter (fun a b : Neighbor D => a.id ≠ b.id) l
  have hle := hsorted.sublist hsub
  have hmem := hsub.subset
  generalize (l.destutter fun a b => a.id ≠ b.id) = m at *
  clear hsub
  rw [Nodup, pairwise_map]
  induction m with
  | nil => exact Pairwise.nil
  | cons a m ih =>
    rw [pairwise_cons] at hle ⊢
    rw [cons_subset] at hmem
    refine ⟨fun b hb he => ?_, ih hchain.tail hle.2 hmem.2⟩
    have hab := hdist a hmem.1 b (hmem.2 hb) he
    cases m with
    | nil => exact absurd hb not_mem_nil
    | cons c m =>
      have hne : a.id ≠ c.id := (isChain_cons_cons.1 hchain).1
      obtain rfl | hb := mem_cons.1 hb
      · exact hne he
      -- `c` is between `a` and `b`, so it has their distance and their id
      obtain hac | ⟨hac, hid⟩ := hle.1 c mem_cons_self
      · obtain hcb | ⟨hcb, -⟩ := (pairwise_cons.1 hle.2).1 b hb
        · exact (hac.trans hcb).ne hab
        · exact (hac.trans_eq hcb).ne hab
      · obtain hcb | ⟨-, hid'⟩ := (pairwise_cons.1 hle.2).1 b hb
        · exact (hac.trans_lt hcb).ne hab
        · exact hne (le_antisymm hid (he ▸ hid'))

omit [Zero D] in
theorem Inv.resultsRight (h : Inv ix q xs s) (hphase : s.phase = .returned) (k : ℕ) :
    ResultsRight ix q k s xs := by
  have hres := h.results
  rw [Results, hphase] at hres
  obtain ⟨hgood, hsorted⟩ := hres
  have htake := take_sublist q.lSearch s.fullRetset
  have hdestutter := destutter_sublist (fun a b : Neighbor D => a.id ≠ b.id)
    (s.fullRetset.take q.lSearch)
  have hsub := ((take_sublist k _).trans hdestutter).trans htake
  refine ⟨_, rfl, ?_, fun e he => hgood e (hsub.subset he), ?_⟩
  · refine ((take_sublist k _).map _).nodup (nodup_destutter (hsorted.sublist htake) ?_)
    intro e he e' he' hid
    have hdist := (hgood e (htake.subset he)).2
    have hdist' := (hgood e' (htake.subset he')).2
    rw [hid, hdist'] at hdist
    exact (Option.some.inj hdist).symm
  · refine (hsorted.sublist hsub).imp fun {a b} hab => ?_
    obtain hlt | ⟨heq, -⟩ := hab
    · exact hlt.le
    · exact heq.le

end Inv

/-! ### Two graphs -/

/-- Each node is the neighbour of the one before, up to `n`. -/
def lineIndex (n : ℕ) : SSDIndex ℕ where
  medoid := 0
  id2tag := id
  id2loc := some
  loc2phyTopo := id
  loc2phyCoord := id
  locSectorNo := id
  locSectorNoTopo loc := loc / 2
  locSectorNoCoord := id
  nbrsAt _ loc := if loc < n then [loc + 1] else []
  coordsAt _ loc := 10 - loc

theorem one_le_beam : 1 ≤ maxNSectorReads := by decide

/-- A search with a list of two, which are reranked. -/
def lineQuery : Query ℕ ℕ where
  mem := []
  lSearch := 2
  beamWidth := 1
  dynPipeWidth := false
  useRerank := true
  useTopoBuffer := false
  truncLen := 2
  excludeNodes := []
  pqDist id := id
  compare coords := coords
  beam_le := one_le_beam

def lineState (n : ℕ) : State ℕ × List ℕ :=
  (newState (lineIndex n) lineQuery (fun _ => ⟨0, 0, false⟩) fun _ => ⟨.topo, 0⟩, [])

theorem tracedInit_lineState (n : ℕ) : TracedInit (lineIndex n) lineQuery (lineState n) :=
  ⟨⟨_, _, rfl⟩, rfl⟩

end DiskANNEval.DGAI.RerankSearch
