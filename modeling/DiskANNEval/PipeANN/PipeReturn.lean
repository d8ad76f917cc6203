import DiskANNEval.PipeANN.PipeRuns

/-!
# PipeReturn — what a search leaves behind, and its buffers

`Inv` holds in every run.  Two more facts need a condition on the reads that a run issues.  Without
relaxed monotonicity the queue is empty when the search returns if no id is read while it is being
read (`leavesNothing_of_reach`); and the buffer of a candidate is not taken by another read before
the candidate is expanded if the ring is long enough for the list (`readBuffersOk_of_reach`).
-/

namespace DiskANNEval.PipeANN.PipeSearch

open Lib List

variable {C L D : Type} {ix : SSDIndex C L} {q : Query C L D} {s s' : State D} {W S : Prop}

/-- The candidate whose read the next step issues. -/
def State.toSend (s : State D) : Option (Neighbor D) :=
  match s.phase with
  | .first (_ + 1) => s.nextRead
  | .send => if s.ios.onFlightIos.length < s.curBeamWidth then s.nextRead else none
  | _ => none

/-- The reads on flight are drained, or no id is read that is being read. -/
def FreshRead (q : Query C L D) (s : State D) : Prop :=
  0 < q.relaxedMonotonicityL ∨ ∀ e ∈ s.toSend, e.id ∉ s.ios.onFlightIds

/-- The ring has a buffer for each candidate and each read on flight, or the buffer that is taken is
not that of a candidate that has been read and not expanded. -/
def SlotFree (q : Query C L D) (s : State D) : Prop :=
  q.beamWidth + max q.lSearch 1 ≤ maxNSectorReads ∨ s.toSend = none ∨
    ∀ e ∈ s.cands.pool, e.visited = false → ∀ b ∈ s.ios.idBufMap e.id, b.slot ≠ s.ios.sectorIdx

/-- In the middle of a round. -/
def Phase.extra : Phase → ℕ
  | .expand => 1
  | _ => 0

structure Inv (ix : SSDIndex C L) (q : Query C L D) (W S : Prop) (s : State D) : Prop where
  joint : Joint ix q W S s.phase.extra s.ios s.cands
  beam : s.curBeamWidth ≤ q.beamWidth
  first : ∀ n, s.phase = .first n →
    n + s.ios.onFlightIos.length ≤ q.beamWidth ∧ ∀ id, s.ios.idBufMap id = none
  returned : s.phase = .returned → s.ios.onFlightIos = [] ∨
    q.relaxedMonotonicityL = 0 ∧ ∀ m ∈ s.cands.marks, m.2 = true

/-! ### The steps -/

theorem nextRead_spec {e : Neighbor D} (h : s.nextRead = some e) :
    e ∈ s.cands.pool ∧ s.ios.idBufMap e.id = none := by
  have hmem : e ∈ s.cands.pool.dropWhile s.sent := mem_of_head? h
  have hsent := head?_dropWhile_not s.sent s.cands.pool
  rw [show (s.cands.pool.dropWhile s.sent).head? = some e from h] at hsent
  have hnot : s.sent e = false := hsent
  refine ⟨(dropWhile_sublist _).subset hmem, ?_⟩
  simp only [State.sent, Bool.or_eq_false_iff, Option.isSome_eq_false_iff, Option.isNone_iff_eq_none]
    at hnot
  exact hnot.2

theorem Joint.slot_ne {ios : Ios D} {c : Cands D} (h : Joint ix q W S 0 ios c)
    (hq : q.beamWidth + max q.lSearch 1 ≤ maxNSectorReads) {m : ℕ × Bool} (hm : m ∈ c.marks)
    (hf : m.2 = false) {b : BufNode} (hb : ios.idBufMap m.1 = some b) : b.slot ≠ ios.sectorIdx := by
  obtain ⟨v, hv, hy⟩ := h.aged.exists_lt hm
  obtain ⟨no, hno, hslot, hle⟩ := hy hf b hb
  have hlen : c.marks.length ≤ max q.lSearch 1 := by
    rw [Cands.marks, length_map, h.listed.length_pool]
    exact h.listed.bound
  rw [← hslot, h.ring.idx]
  simp only [maxNSectorReads] at hq ⊢
  omega

theorem Joint.sendBestReadReq (h : Joint ix q W S 0 s.ios s.cands)
    (hlt : s.ios.onFlightIos.length < q.beamWidth) (hsend : s.toSend = s.nextRead)
    (hW : W → ∀ e ∈ s.toSend, e.id ∉ s.ios.onFlightIds) (hS : S → SlotFree q s) (cached : Bool) :
    Joint ix q W S 1 (s.sendBestReadReq ix cached).ios (s.sendBestReadReq ix cached).cands ∧
      (s.sendBestReadReq ix cached).curBeamWidth = s.curBeamWidth ∧
      (s.sendBestReadReq ix cached).ios.idBufMap = s.ios.idBufMap ∧
      (s.sendBestReadReq ix cached).ios.onFlightIos.length ≤ s.ios.onFlightIos.length + 1 := by
  obtain ⟨l, hl, hcase⟩ := @sendBestReadReq_spec _ _ _ ix s cached
  have hids : l.map Neighbor.id = s.cands.pool.map Neighbor.id := by
    have h1 := congrArg (List.map Prod.fst) hl
    rw [map_map, map_map] at h1
    exact h1
  have hlen : l.length = s.cands.pool.length := by
    rw [← length_map, hids, length_map]
  have hmarks : (s.cands.setPool l).marks = s.cands.marks := by
    rw [Cands.marks, h.listed.pool_setPool hlen, hl]
    rfl
  have hlisted := h.listed.setPool hids
  obtain ⟨-, heq⟩ | ⟨e, item, hnext, hitem, heq⟩ := hcase
  · rw [heq]
    exact ⟨(h.marks hlisted hmarks rfl).weaken, rfl, rfl, Nat.le_succ _⟩
  · obtain ⟨he, hnone⟩ := nextRead_spec hnext
    have hfresh : W → item.id ∉ s.ios.onFlightIds := by
      intro hW'
      rw [hitem]
      exact hW hW' e (by rw [hsend, hnext]; rfl)
    have hfree : S → ∀ m ∈ s.cands.marks, m.2 = false → ∀ b, s.ios.idBufMap m.1 = some b →
        b.slot ≠ s.ios.sectorIdx := by
      intro hS' m hm hf b hb
      obtain hq | hnone | hfree := hS hS'
      · exact h.slot_ne hq hm hf hb
      · rw [hsend, hnext] at hnone
        cases hnone
      · obtain ⟨x, hx, rfl⟩ := mem_map.1 hm
        exact hfree x hx hf b hb
    have hsent := h.sendReadReq hlt (mem_map_of_mem he) hitem (hitem ▸ hnone)
      hfresh hfree cached
    rw [heq]
    refine ⟨hsent.marks hlisted hmarks rfl, rfl, ?_, ?_⟩
    · cases cached <;> rfl
    · cases cached <;> exact Nat.le_of_eq length_append

theorem Joint.sortRetset [LinearOrder D] [Zero D] (h : Joint ix q W S 0 s.ios s.cands)
    (hnone : ∀ id, s.ios.idBufMap id = none) :
    Joint ix q W S 0 (s.sortRetset q).ios (s.sortRetset q).cands := by
  unfold State.sortRetset
  split_ifs with hmem
  · exact h
  set l := (s.cands.pool.map fun e => { e with distance := q.computeDist e.id }).insertionSort State.le
  have hperm : l.Perm (s.cands.pool.map fun e => { e with distance := q.computeDist e.id }) :=
    perm_insertionSort ..
  have hlen : l.length = s.cands.pool.length := hperm.length_eq.trans (length_map _)
  have hmarks : (s.cands.setPool l).marks.Perm s.cands.marks := by
    rw [Cands.marks, h.listed.pool_setPool hlen]
    refine (hperm.map Neighbor.mark).trans ?_
    rw [map_map]
    exact Perm.refl _
  refine h.perm hnone ⟨?_, h.listed.bound, fun e he => ?_⟩ hmarks rfl
  · simp only [Cands.setPool, length_append, hlen, h.listed.length_pool]
    exact Nat.le_add_right ..
  · have hm : e.id ∈ (s.cands.setPool l).marks.map Prod.fst :=
      mem_map.2 ⟨Neighbor.mark e, mem_map_of_mem he, rfl⟩
    obtain ⟨m, hm, hid⟩ := mem_map.1 hm
    obtain ⟨e', he', rfl⟩ := mem_map.1 (hmarks.mem_iff.1 hm)
    rw [← hid]
    exact h.listed.seen e' he'

theorem foldl_processOne (s t : State D) (l : List (Neighbor D)) :
    ∃ fullRetset, l.foldl (s.processOne ix q) t = { t with fullRetset } := by
  induction l generalizing t with
  | nil => exact ⟨t.fullRetset, rfl⟩
  | cons e l ih =>
    have hstep : ∃ fullRetset, s.processOne ix q t e = { t with fullRetset } := by
      unfold State.processOne State.computeExactDistsAndPush
      split
      · split_ifs
        · exact ⟨t.fullRetset, rfl⟩
        · exact ⟨_, rfl⟩
        · exact ⟨t.fullRetset, rfl⟩
      · exact ⟨t.fullRetset, rfl⟩
    obtain ⟨full, hfull⟩ := hstep
    obtain ⟨full', hfull'⟩ := ih { t with fullRetset := full }
    exact ⟨full', by rw [foldl_cons, hfull, hfull']⟩

theorem processRest_ios [LinearOrder D] [Zero D] (s : State D) :
    (s.processRest ix q).ios = s.ios ∧ (s.processRest ix q).curBeamWidth = s.curBeamWidth := by
  obtain ⟨full, hfull⟩ := @foldl_processOne _ _ _ ix q s s s.cands.pool
  unfold State.processRest
  rw [hfull]
  exact ⟨rfl, rfl⟩

theorem Joint.processRest [LinearOrder D] [Zero D] (h : Joint ix q W S 0 s.ios s.cands)
    (hW : s.ios.onFlightIos = []) : Joint ix q W S 0 s.ios (s.processRest ix q).cands := by
  set l := s.cands.pool.map fun e =>
    { e with visited := e.visited || (s.ios.idBufMap e.id).isSome } with hl
  have hcands : (s.processRest ix q).cands = s.cands.setPool l := rfl
  have hids : l.map Neighbor.id = s.cands.pool.map Neighbor.id := by
    rw [map_map]
    rfl
  have hlen : l.length = s.cands.pool.length := length_map _
  have hmarks : ∀ m ∈ (s.cands.setPool l).marks, ∃ e ∈ s.cands.pool,
      m = (e.id, e.visited || (s.ios.idBufMap e.id).isSome) := by
    intro m hm
    rw [Cands.marks, h.listed.pool_setPool hlen, map_map] at hm
    obtain ⟨e, he, rfl⟩ := mem_map.1 hm
    exact ⟨e, he, rfl⟩
  have hnone : ∀ m ∈ (s.cands.setPool l).marks, m.2 = false → s.ios.idBufMap m.1 = none := by
    intro m hm hf
    obtain ⟨e, he, rfl⟩ := hmarks m hm
    simp only [Bool.or_eq_false_iff, Option.isSome_eq_false_iff, Option.isNone_iff_eq_none] at hf
    exact hf.2
  refine ⟨h.ring, h.listed.setPool hids, h.queued, h.mapped, fun m hm hexp => ?_,
    Aged.of_forall fun u m hm hf b hb => ?_, fun _ hne => ?_, fun _ m hm hf b hb => ?_⟩
  · obtain ⟨e, he, rfl⟩ := hmarks m hm
    obtain hv | hv := Bool.or_eq_true_iff.1 hexp
    · exact h.expanded (Neighbor.mark e) (mem_map_of_mem he) hv
    · exact Option.isSome_iff_ne_none.1 hv
  · rw [hnone m hm hf] at hb
    cases hb
  · rw [Ios.onFlightIds, hW] at hne
    exact absurd rfl hne
  · rw [hnone m hm hf] at hb
    cases hb

theorem Joint.calcBestNode [LinearOrder D] [Zero D] (h : Joint ix q W S 1 s.ios s.cands) :
    Joint ix q W S 0 (s.calcBestNode ix q).1.ios (s.calcBestNode ix q).1.cands ∧
      (s.calcBestNode ix q).1.curBeamWidth = s.curBeamWidth := by
  have hpending : ∀ e, s.pending e = false → e.visited = false → s.ios.idBufMap e.id = none := by
    intro e he hv
    simpa [State.pending, hv] using he
  obtain ⟨hno, heq⟩ | ⟨pre, e, rest, b, l, hpool, hpre, hv, hb, hl, fullRetset, heq⟩ :=
    @calcBestNode_spec _ _ _ ix q _ _ s
  · rw [heq]
    refine ⟨h.of_not_pending fun m hm hf => ?_, rfl⟩
    obtain ⟨e, he, rfl⟩ := mem_map.1 hm
    exact hpending e (hno e he) hf
  · rw [heq]
    have hmarks : s.cands.marks = pre.map Neighbor.mark ++ (e.id, false) :: rest.map Neighbor.mark := by
      rw [Cands.marks, hpool, map_append, map_cons, Neighbor.mark, hv]
    have hnone : ∀ m ∈ pre.map Neighbor.mark, m.2 = false → s.ios.idBufMap m.1 = none := by
      intro m hm hf
      obtain ⟨x, hx, rfl⟩ := mem_map.1 hm
      exact hpending x (hpre x hx) hf
    have hpos : 0 < s.cands.curListSize := by
      rw [← h.listed.length_pool, hpool, length_append, length_cons]
      omega
    exact ⟨(h.expand hmarks hnone hb hl).computeAndPushNbrs hpos _, rfl⟩

theorem tune_spec (q : Query C L D) (nIn nOut : ℕ) (hbeam : s.curBeamWidth ≤ q.beamWidth) :
    (s.tune q nIn nOut).ios = s.ios ∧ (s.tune q nIn nOut).cands = s.cands ∧
      (s.tune q nIn nOut).curBeamWidth ≤ q.beamWidth := by
  unfold State.tune
  by_cases htune : 5 ≤ s.maxMarker ∧ 0 < nIn + nOut
  · rw [if_pos htune]
    refine ⟨rfl, rfl, ?_⟩
    dsimp only
    by_cases hgrow : 10 * (s.curTot + (nIn + nOut) - (s.curNIn + nIn)) ≤ s.curTot + (nIn + nOut)
    · rw [if_pos hgrow]
      exact Nat.min_le_left ..
    · rw [if_neg hgrow]
      exact hbeam
  · rw [if_neg htune]
    exact ⟨rfl, rfl, hbeam⟩

theorem Joint.pollAll [LinearOrder D] [Zero D] (h : Joint ix q W S 0 s.ios s.cands)
    (hbeam : s.curBeamWidth ≤ q.beamWidth) (done : List ℕ) :
    Joint ix q W S 0 (s.pollAll q done).ios (s.pollAll q done).cands ∧
      (s.pollAll q done).curBeamWidth ≤ q.beamWidth := by
  have hpolled := @Joint.popFinished _ _ _ _ _ _ _ _ _ _ (h.complete done)
    (fun d => s.cands.pool.getLast?.any fun last => d ≤ last.distance) 0 0
  obtain ⟨hios, hcands, hle⟩ := tune_spec q (Ios.popFinished
    (fun d => s.cands.pool.getLast?.any fun last => d ≤ last.distance)
      (s.ios.complete done).onFlightIos (s.ios.complete done) 0 0).2.1 (Ios.popFinished
    (fun d => s.cands.pool.getLast?.any fun last => d ≤ last.distance)
      (s.ios.complete done).onFlightIos (s.ios.complete done) 0 0).2.2
    (s := { s with ios := (Ios.popFinished
      (fun d => s.cands.pool.getLast?.any fun last => d ≤ last.distance)
        (s.ios.complete done).onFlightIos (s.ios.complete done) 0 0).1 }) hbeam
  refine ⟨?_, hle⟩
  rw [State.pollAll, hios, hcands]
  exact hpolled

theorem Init.inv [LinearOrder D] [Zero D] (h : Init ix q s) : Inv ix q W S s := by
  obtain ⟨sector, finished, rfl⟩ := h
  unfold newState
  generalize hl : List.map _ (start ix q) = l
  have hlen : l.length = (start ix q).length := hl ▸ length_map _
  have hpool : (l ++ replicate (q.mem.length + q.range + q.lSearch * 10 - (start ix q).length)
      default).take (start ix q).length = l := by
    rw [← hlen, take_left]
  have hbound : (start ix q).length ≤ max q.lSearch 1 := by
    unfold start
    split_ifs
    · exact Nat.le_max_right ..
    · exact Nat.le_trans (length_take_le ..) (Nat.le_max_left ..)
  refine ⟨⟨⟨Nat.zero_le _, Nat.le_refl 0, rfl, rfl, by simp, by simp, by simp, by simp,
    fun id => rfl⟩, ⟨?_, hbound, fun e he => ?_⟩, by simp [Ios.onFlightIds], by simp, fun m hm hexp => ?_,
    Aged.of_forall fun u m _ _ b hb => ?_, fun _ hne => absurd rfl hne, fun _ m _ _ b hb => ?_⟩,
    Nat.min_le_right .., fun n hn => ⟨?_, fun _ => rfl⟩, fun hret => ?_⟩
  · rw [length_append, hlen]
    exact Nat.le_add_right ..
  · rw [Cands.pool, hpool, ← hl] at he
    obtain ⟨x, hx, rfl⟩ := mem_map.1 he
    exact mem_map_of_mem hx
  · rw [Cands.marks, Cands.pool, hpool] at hm
    obtain ⟨e, he, rfl⟩ := mem_map.1 hm
    rw [← hl] at he
    obtain ⟨x, hx, rfl⟩ := mem_map.1 he
    cases hexp
  · cases hb
  · cases hb
  · cases hn
    exact Nat.min_le_right ..
  · cases hret

theorem Inv.step [LinearOrder D] [Zero D] (h : Inv ix q W S s) {a : Act}
    (hW : W → ∀ e ∈ s.toSend, e.id ∉ s.ios.onFlightIds) (hS : S → SlotFree q s)
    (hs : step ix q s a = some s') : Inv ix q W S s' := by
  have hjoint := h.joint
  unfold PipeSearch.step at hs
  cases hphase : s.phase with
  | first n =>
    obtain ⟨hroom, hnone⟩ := h.first n hphase
    rw [hphase] at hjoint hs
    cases n with
    | zero =>
      cases hs
      have hbeam : (s.sortRetset q).curBeamWidth = s.curBeamWidth := by
        unfold State.sortRetset
        split_ifs <;> rfl
      exact ⟨hjoint.sortRetset hnone, hbeam.trans_le h.beam, nofun, nofun⟩
    | succ n =>
      cases hs
      have hsend : s.toSend = s.nextRead := by
        rw [State.toSend, hphase]
      obtain ⟨hj, hbeam, hmap, hlen⟩ := hjoint.sendBestReadReq (by omega) hsend hW hS a.cached
      refine ⟨hj.of_not_pending fun m _ _ => ?_, hbeam.trans_le h.beam, fun k hk => ⟨?_, fun id => ?_⟩, nofun⟩
      · rw [hmap, hnone]
      · cases hk
        dsimp only
        omega
      · rw [hmap, hnone]
  | poll =>
    rw [hphase] at hjoint hs
    by_cases hdone : s.cands.firstUnvisited = none
    · rw [if_pos hdone] at hs
      cases hs
      have hall : ∀ m ∈ s.cands.marks, m.2 = true := by
        intro m hm
        obtain ⟨e, he, rfl⟩ := mem_map.1 hm
        have hv : e.visited = true := by
          simpa using findIdx?_eq_none_iff.1 hdone e he
        exact hv
      by_cases hr : 0 < q.relaxedMonotonicityL
      · rw [State.leave, if_pos hr]
        exact ⟨hjoint, h.beam, nofun, nofun⟩
      · rw [State.leave, if_neg hr]
        exact ⟨hjoint, h.beam, nofun, fun _ => .inr ⟨by omega, hall⟩⟩
    · rw [if_neg hdone] at hs
      cases hs
      obtain ⟨hj, hbeam⟩ := hjoint.pollAll h.beam a.done
      by_cases hrel : (s.pollAll q a.done).relaxedDone q
      · have hr : 0 < q.relaxedMonotonicityL := by
          simp only [State.relaxedDone, Bool.and_eq_true, decide_eq_true_eq] at hrel
          exact hrel.1
        rw [if_pos hrel, State.leave, if_pos hr]
        exact ⟨hj, hbeam, nofun, nofun⟩
      · rw [if_neg hrel]
        exact ⟨hj, hbeam, nofun, nofun⟩
  | send =>
    rw [hphase] at hjoint hs
    cases hs
    by_cases hlt : s.ios.onFlightIos.length < s.curBeamWidth
    · have hsend : s.toSend = s.nextRead := by
        rw [State.toSend, hphase]
        exact if_pos hlt
      obtain ⟨hj, hbeam, -, -⟩ := hjoint.sendBestReadReq (Nat.lt_of_lt_of_le hlt h.beam) hsend hW hS
        a.cached
      rw [if_pos hlt]
      exact ⟨hj, hbeam.trans_le h.beam, nofun, nofun⟩
    · rw [if_neg hlt]
      exact ⟨hjoint.weaken, h.beam, nofun, nofun⟩
  | expand =>
    rw [hphase] at hjoint hs
    cases hs
    obtain ⟨hj, hbeam⟩ := hjoint.calcBestNode
    exact ⟨hj, hbeam.trans_le h.beam, nofun, nofun⟩
  | drain =>
    rw [hphase] at hjoint hs
    dsimp only at hs
    by_cases hnil : s.ios.onFlightIos = []
    · rw [if_pos hnil] at hs
      cases hs
      have hj := hjoint.processRest hnil
      obtain ⟨hios, hbeam⟩ := @processRest_ios _ _ _ ix q _ _ s
      rw [← hios] at hj hnil
      exact ⟨hj, hbeam.trans_le h.beam, nofun, fun _ => .inl hnil⟩
    · rw [if_neg hnil] at hs
      cases hs
      have hj := @Joint.popFinished _ _ _ _ _ _ _ _ _ _ (hjoint.complete a.done) (fun _ => true) 0 0
      exact ⟨hj, h.beam, nofun, nofun⟩
  | returned =>
    rw [hphase] at hs
    cases hs

/-! ### The runs -/

/-- Each lock is released after it has been taken; when the search has returned all locks are
released, and no read is in flight. -/
structure LeavesNothing (s : State D) : Prop where
  unlocked_le : ∀ id, s.ios.unlocked id ≤ s.ios.locked id
  locks : s.phase = .returned → s.ios.unlocked = s.ios.locked
  reads : s.phase = .returned → s.ios.inFlight = []

/-- The page of a candidate that is read and not expanded is in the buffer of its id, at the place of
its record, and the buffer is not taken by another read. -/
def BuffersOk (ix : SSDIndex C L) (s : State D) : Prop :=
  ∀ e ∈ s.cands.pool, e.visited = false → ∀ b ∈ s.ios.idBufMap e.id,
    b.loc = ix.id2loc e.id ∧ s.ios.sector b.slot = ix.locSectorNo b.loc ∧
      ∀ io ∈ s.ios.onFlightIos, io.slot ≠ b.slot

theorem Inv.leavesNothing (h : Inv ix q (q.relaxedMonotonicityL = 0) S s) : LeavesNothing s := by
  have hlocks := h.joint.ring.locks
  have hqueue : s.phase = .returned → s.ios.onFlightIos = [] := by
    intro hret
    obtain hnil | ⟨hr, hall⟩ := h.returned hret
    · exact hnil
    · by_contra hne
      have hids : s.ios.onFlightIds ≠ [] := fun hnil => hne (map_eq_nil_iff.1 hnil)
      obtain ⟨m, hm, hnone, -⟩ := h.joint.waits hr hids
      exact h.joint.expanded m hm (hall m hm) hnone
  refine ⟨fun id => ?_, fun hret => funext fun id => ?_, fun hret => ?_⟩
  · rw [hlocks id]
    exact Nat.le_add_right ..
  · rw [hlocks id, Ios.onFlightIds, hqueue hret]
    rfl
  · refine eq_nil_iff_forall_not_mem.2 fun r hr => ?_
    obtain ⟨-, io, hio, -⟩ := h.joint.ring.reads r hr
    rw [hqueue hret] at hio
    exact not_mem_nil hio

theorem Inv.buffersOk (h : Inv ix q W True s) : BuffersOk ix s := by
  intro e he hv b hb
  have hm : Neighbor.mark e ∈ s.cands.marks := mem_map_of_mem he
  exact ⟨h.joint.ring.nodes e.id b hb, h.joint.safe trivial _ hm hv b hb⟩

variable [LinearOrder D] [Zero D]

/-- No run whose reads are fresh leaves a lock or a read behind. -/
theorem leavesNothing_of_reach
    (h : Reach (Init ix q) (guarded (fun s _ => FreshRead q s) (ofFn (step ix q))) s) :
    LeavesNothing s := by
  refine @Inv.leavesNothing _ _ _ ix q _ False ?_
  refine Reach.invariant (fun s hs => hs.inv) (fun s a s' ih hs => ?_) h
  exact ih.step (fun hr => hs.1.resolve_left (by omega)) False.elim hs.2

/-- The nodes of the examples have neither coordinates nor labels, and the page of a node is its id;
the ids of the in-memory search come with their distances. -/
def exampleIndex (nbrs : ℕ → List ℕ) : SSDIndex Unit Unit where
  entryPointId := 0
  id2loc := id
  locSectorNo := id
  nodeFromPage page _ := ⟨(), (), nbrs page⟩

def exampleQuery (mem : List (ℕ × ℕ)) (lSearch : ℕ) (computeDist : ℕ → ℕ) : Query Unit Unit ℕ where
  mem
  lSearch
  beamWidth := 4
  relaxedMonotonicityL := 0
  range := 0
  computeDist
  compare _ := 0
  isMember _ _ := true
  beam_le := by decide

def exampleState (nbrs : ℕ → List ℕ) (q : Query Unit Unit ℕ) : State ℕ :=
  newState (exampleIndex nbrs) q (fun _ => 0) fun _ => false

theorem init_exampleState (nbrs : ℕ → List ℕ) (q : Query Unit Unit ℕ) :
    Init (exampleIndex nbrs) q (exampleState nbrs q) := ⟨_, _, rfl⟩

instance (q : Query Unit Unit ℕ) (s : State ℕ) : Decidable (FreshRead q s) :=
  inferInstanceAs (Decidable (_ ∨ _))

/-- The node `0` has the neighbour `1`. -/
theorem leavesNothing_pair : ∃ s,
    Reach (Init (exampleIndex fun id => [1 - id]) (exampleQuery [] 2 id))
      (guarded (fun s _ => FreshRead (exampleQuery [] 2 id) s)
        (ofFn (step (exampleIndex fun id => [1 - id]) (exampleQuery [] 2 id)))) s ∧
      s.phase = .returned ∧ LeavesNothing s := by
  have hruns : (runsGuarded (fun s _ => FreshRead (exampleQuery [] 2 id) s)
      (step (exampleIndex fun id => [1 - id]) (exampleQuery [] 2 id))
      (exampleState (fun id => [1 - id]) (exampleQuery [] 2 id))
      (List.replicate 15 ⟨[0, 1], false⟩)).isSome := by decide
  have hreach := reach_of_runsGuarded (init_exampleState _ _) (Option.some_get hruns).symm
  exact ⟨_, hreach, rfl, leavesNothing_of_reach hreach⟩

/-- A search of the only node, which the in-memory search has returned twice: the second read is in
flight when the search returns, and its lock is not released. -/
theorem not_leavesNothing_twice : ∃ s,
    Reach (Init (exampleIndex fun _ => []) (exampleQuery [(0, 0), (0, 1)] 2 id))
      (ofFn (step (exampleIndex fun _ => []) (exampleQuery [(0, 0), (0, 1)] 2 id))) s ∧
      ¬ LeavesNothing s := by
  have hruns : (runs (step (exampleIndex fun _ => []) (exampleQuery [(0, 0), (0, 1)] 2 id))
      (exampleState (fun _ => []) (exampleQuery [(0, 0), (0, 1)] 2 id))
      (List.replicate 12 ⟨[0], false⟩)).isSome := by decide
  refine ⟨_, reach_of_runs (.start (init_exampleState _ _)) (Option.some_get hruns).symm, fun h => ?_⟩
  have hlock : 1 = 2 := congrFun (h.locks rfl) 0
  cases hlock

/-- A run that takes no buffer of a candidate that is still to be expanded computes on the right
pages. -/
theorem readBuffersOk_of_reach
    (h : Reach (Init ix q) (guarded (fun s _ => SlotFree q s) (ofFn (step ix q))) s) :
    BuffersOk ix s := by
  refine Inv.buffersOk (q := q) (W := False) ?_
  refine Reach.invariant (fun s hs => hs.inv) (fun s a s' ih hs => ?_) h
  exact ih.step False.elim (fun _ => hs.1) hs.2

/-- A query with a short list and a narrow beam. -/
theorem buffersOk_pair : ∃ s,
    Reach (Init (exampleIndex fun id => [1 - id]) (exampleQuery [] 2 id))
      (guarded (fun s _ => SlotFree (exampleQuery [] 2 id) s)
        (ofFn (step (exampleIndex fun id => [1 - id]) (exampleQuery [] 2 id)))) s ∧
      s.fullRetset.length = 2 ∧ BuffersOk (exampleIndex fun id => [1 - id]) s := by
  have hruns : (runs (step (exampleIndex fun id => [1 - id]) (exampleQuery [] 2 id))
      (exampleState (fun id => [1 - id]) (exampleQuery [] 2 id))
      (List.replicate 14 ⟨[0, 1], false⟩)).isSome := by decide
  have hstart := reach_of_runs (.start (init_exampleState _ _)) (Option.some_get hruns).symm
  have hreach := @Reach.mono _ _ _ _ (guarded (fun s _ => SlotFree (exampleQuery [] 2 id) s)
      (ofFn (step (exampleIndex fun id => [1 - id]) (exampleQuery [] 2 id))))
    (fun s a s' hs => ⟨.inl (by decide), hs⟩) _ hstart
  exact ⟨_, hreach, rfl, readBuffersOk_of_reach hreach⟩

/-- The node `2` leads to `3`, `1` to `4`, and then each node to the next but one, always closer to
the query; `0` is far away. -/
def chainNbrs : ℕ → List ℕ
  | 0 => []
  | 1 => [4]
  | 2 => [3]
  | id + 3 => [id + 5]

def chainQuery : Query Unit Unit ℕ :=
  exampleQuery [(2, 498), (1, 499), (0, 1000)] 132 fun id => if id = 0 then 1000 else 500 - id

/-- A candidate that is read and not expanded, and another page in its buffer. -/
def lost (ix : SSDIndex Unit Unit) (s : State ℕ) : Bool := s.cands.pool.any fun e =>
  !e.visited && (s.ios.idBufMap e.id).any fun b => s.ios.sector b.slot != ix.locSectorNo b.loc

theorem not_buffersOk_of_lost {ix : SSDIndex Unit Unit} {s : State ℕ} (h : lost ix s = true) :
    ¬ BuffersOk ix s := by
  obtain ⟨e, he, hlost⟩ := any_eq_true.1 h
  obtain ⟨hv, hb⟩ := Bool.and_eq_true_iff.1 hlost
  obtain ⟨b, hb, hpage⟩ := (Option.any_eq_true _ _).1 hb
  intro hok
  obtain ⟨-, hsector, -⟩ := hok e he (by simpa using hv) b hb
  simp [hsector] at hpage

/-- All pages are in the page cache.  In each round one node of the chain is expanded and the next
one is read; `0`, the third read, is not expanded, and read `130` takes its buffer. -/
theorem not_buffersOk_chain : ∃ s,
    Reach (Init (exampleIndex chainNbrs) chainQuery)
      (ofFn (step (exampleIndex chainNbrs) chainQuery)) s ∧
      ¬ BuffersOk (exampleIndex chainNbrs) s := by
  have hruns : (runs (step (exampleIndex chainNbrs) chainQuery) (exampleState chainNbrs chainQuery)
      (List.replicate 392 ⟨[], true⟩)).any (lost (exampleIndex chainNbrs)) := by decide +kernel
  obtain ⟨s, hs, hlost⟩ := (Option.any_eq_true _ _).1 hruns
  exact ⟨s, reach_of_runs (.start (init_exampleState _ _)) hs, not_buffersOk_of_lost hlost⟩

end DiskANNEval.PipeANN.PipeSearch
