import DiskANNEval.PipeANN.PipeCands
import DiskANNEval.PipeANN.PipeReads

/-!
# PipeRuns — the rounds of the search

`Joint` is what the queue, the map and the list of candidates have in common between the steps.  In
particular the read of a candidate that has not been expanded is not old: since it was issued each
round has issued at most one read, and has expanded a candidate before it.
-/

namespace DiskANNEval.PipeANN.PipeSearch

open Lib List

variable {C L D : Type} {ix : SSDIndex C L} {q : Query C L D} {ios : Ios D} {c c' : Cands D}
  {s s' : State D} {W S : Prop} {extra : ℕ}

/-- The buffer of a candidate that has been read and not expanded was taken by one of the last
reads; `v` candidates before it have been expanded. -/
def Young (q : Query C L D) (ios : Ios D) (extra v : ℕ) (m : ℕ × Bool) : Prop :=
  m.2 = false → ∀ b, ios.idBufMap m.1 = some b →
    ∃ no < ios.nIos, no % maxNSectorReads = b.slot ∧ ios.nIos ≤ no + q.beamWidth + v + extra

/-- While there are reads in the queue a candidate waits for the last of them, or has not been
sent. -/
def Waits (ios : Ios D) (l : List (ℕ × Bool)) : Prop :=
  ios.onFlightIds ≠ [] → ∃ m ∈ l, ios.idBufMap m.1 = none ∧ m.1 ∉ ios.onFlightIds.dropLast

/-- The page of a candidate that has been read and not expanded is in its buffer, and the buffer is
not of a read in the queue. -/
def Safe (ix : SSDIndex C L) (ios : Ios D) (l : List (ℕ × Bool)) : Prop :=
  ∀ m ∈ l, m.2 = false → ∀ b, ios.idBufMap m.1 = some b →
    ios.sector b.slot = ix.locSectorNo b.loc ∧ ∀ io ∈ ios.onFlightIos, io.slot ≠ b.slot

/-- `W` and `S` say which of the two is asked for. -/
structure Joint (ix : SSDIndex C L) (q : Query C L D) (W S : Prop) (extra : ℕ) (ios : Ios D)
    (c : Cands D) : Prop where
  ring : OnRing ix q.beamWidth ios
  listed : Listed q c
  queued : ∀ id ∈ ios.onFlightIds, id ∈ c.visited
  mapped : ∀ id, ios.idBufMap id ≠ none → id ∈ c.visited
  expanded : ∀ m ∈ c.marks, m.2 = true → ios.idBufMap m.1 ≠ none
  aged : Aged (Young q ios extra) 0 c.marks
  waits : W → Waits ios c.marks
  safe : S → Safe ix ios c.marks

/-! ### The parts of a round -/

/-- What `send_best_read_req` does: the marks stay, and the best candidate that has not been sent is
read. -/
theorem sendBestReadReq_spec (s : State D) (cached : Bool) :
    ∃ l : List (Neighbor D), l.map Neighbor.mark = s.cands.pool.map Neighbor.mark ∧
      ((s.nextRead = none ∧ s.sendBestReadReq ix cached = { s with cands := s.cands.setPool l }) ∨
        ∃ e item, s.nextRead = some e ∧ item.id = e.id ∧ s.sendBestReadReq ix cached =
          { s with
            cands := s.cands.setPool l
            ios := s.ios.sendReadReq ix item cached }) := by
  have hsplit := takeWhile_append_dropWhile (p := s.sent) (l := s.cands.pool)
  have hpre : ((s.cands.pool.takeWhile s.sent).map fun e => { e with flag := false }).map
      Neighbor.mark = (s.cands.pool.takeWhile s.sent).map Neighbor.mark := by
    rw [map_map]
    rfl
  unfold State.sendBestReadReq
  cases hdrop : s.cands.pool.dropWhile s.sent with
  | nil =>
    rw [hdrop, append_nil] at hsplit
    refine ⟨_, hpre.trans (by rw [hsplit]), .inl ⟨?_, rfl⟩⟩
    rw [State.nextRead, hdrop, head?_nil]
  | cons e rest =>
    rw [hdrop] at hsplit
    refine ⟨_, ?_, .inr ⟨e, { e with flag := false }, ?_, rfl, rfl⟩⟩
    · rw [map_append, hpre]
      conv_rhs => rw [← hsplit, map_append]
      rfl
    · rw [State.nextRead, hdrop, head?_cons]

theorem calcBestNode_spec [LinearOrder D] [Zero D] (s : State D) :
    ((∀ e ∈ s.cands.pool, s.pending e = false) ∧ (s.calcBestNode ix q).1 = s) ∨
      ∃ pre e rest b l, s.cands.pool = pre ++ e :: rest ∧ (∀ x ∈ pre, s.pending x = false) ∧
        e.visited = false ∧ s.ios.idBufMap e.id = some b ∧
        l.map Neighbor.mark = pre.map Neighbor.mark ++ (e.id, true) :: rest.map Neighbor.mark ∧
        ∃ fullRetset, (s.calcBestNode ix q).1 =
          { s with
            fullRetset
            cands := (s.cands.setPool l).computeAndPushNbrs q (s.node ix b) } := by
  have hsplit := takeWhile_append_dropWhile (p := fun e => !s.pending e) (l := s.cands.pool)
  have hpre : ∀ x ∈ s.cands.pool.takeWhile fun e => !s.pending e, s.pending x = false := fun x hx => by
    simpa using mem_takeWhile_imp hx
  cases hdrop : s.cands.pool.dropWhile fun e => !s.pending e with
  | nil =>
    rw [hdrop, append_nil] at hsplit
    refine .inl ⟨hsplit ▸ hpre, ?_⟩
    unfold State.calcBestNode
    dsimp only
    rw [hdrop]
  | cons e rest =>
    have hpend : s.pending e = true := by
      have := head?_dropWhile_not (fun e => !s.pending e) s.cands.pool
      rw [hdrop] at this
      simpa using this
    obtain ⟨hvis, hsome⟩ : e.visited = false ∧ (s.ios.idBufMap e.id).isSome = true := by
      simpa [State.pending] using hpend
    obtain ⟨b, hb⟩ := Option.isSome_iff_exists.1 hsome
    rw [hdrop] at hsplit
    refine .inr ⟨_, e, rest, b, (s.cands.pool.takeWhile fun e => !s.pending e) ++
      { e with flag := false, visited := true } :: rest, hsplit.symm, hpre, hvis, hb, ?_, ?_⟩
    · rw [map_append]
      rfl
    · unfold State.calcBestNode State.computeExactDistsAndPush
      dsimp only
      rw [hdrop]
      dsimp only
      rw [hb]
      dsimp only
      split_ifs
      · exact ⟨_, rfl⟩
      · exact ⟨s.fullRetset, rfl⟩

/-! ### What the parts keep -/

theorem Young.mono {u w : ℕ} {m : ℕ × Bool} (h : Young q ios extra u m) :
    Young q ios extra (u + w) m := by
  intro hm b hb
  obtain ⟨no, hno, hslot, hle⟩ := h hm b hb
  exact ⟨no, hno, hslot, by omega⟩

namespace Joint

theorem marks (h : Joint ix q W S extra ios c) (hl : Listed q c') (hm : c'.marks = c.marks)
    (hv : c'.visited = c.visited) : Joint ix q W S extra ios c' := by
  refine ⟨h.ring, hl, hv ▸ h.queued, hv ▸ h.mapped, ?_, ?_, ?_, ?_⟩
  · rw [hm]
    exact h.expanded
  · rw [hm]
    exact h.aged
  · rw [hm]
    exact h.waits
  · rw [hm]
    exact h.safe

/-- Before the first read has been polled the order of the candidates does not matter. -/
theorem perm (h : Joint ix q W S extra ios c) (hnone : ∀ id, ios.idBufMap id = none)
    (hl : Listed q c') (hm : c'.marks.Perm c.marks) (hv : c'.visited = c.visited) :
    Joint ix q W S extra ios c' := by
  refine ⟨h.ring, hl, hv ▸ h.queued, hv ▸ h.mapped, fun m hm' => h.expanded m (hm.mem_iff.1 hm'),
    Aged.of_forall fun u m _ _ b hb => ?_, fun hW hne => ?_, fun _ m _ _ b hb => ?_⟩
  · rw [hnone] at hb
    cases hb
  · obtain ⟨m, hmem, hw⟩ := h.waits hW hne
    exact ⟨m, hm.mem_iff.2 hmem, hw⟩
  · rw [hnone] at hb
    cases hb

theorem sendReadReq (h : Joint ix q W S 0 ios c) (hlt : ios.onFlightIos.length < q.beamWidth)
    {item : Neighbor D} {m0 : ℕ × Bool} (hm0 : m0 ∈ c.marks) (hitem : item.id = m0.1)
    (hnone : ios.idBufMap item.id = none) (hfresh : W → item.id ∉ ios.onFlightIds)
    (hfree : S → ∀ m ∈ c.marks, m.2 = false → ∀ b, ios.idBufMap m.1 = some b →
      b.slot ≠ ios.sectorIdx) (cached : Bool) :
    Joint ix q W S 1 (ios.sendReadReq ix item cached) c := by
  have hmap : (ios.sendReadReq ix item cached).idBufMap = ios.idBufMap := by
    cases cached <;> rfl
  have hnIos : (ios.sendReadReq ix item cached).nIos = ios.nIos + 1 := by
    cases cached <;> rfl
  have hios : ∃ io : Io D, io.nbr = item ∧ io.slot = ios.sectorIdx ∧
      (ios.sendReadReq ix item cached).onFlightIos = ios.onFlightIos ++ [io] := by
    cases cached <;> exact ⟨_, rfl, rfl, rfl⟩
  have hsector : ∀ k ≠ ios.sectorIdx, (ios.sendReadReq ix item cached).sector k = ios.sector k := by
    intro k hk
    cases cached with
    | true => exact Function.update_of_ne hk ..
    | false => rfl
  obtain ⟨io, hnbr, hslot, hq⟩ := hios
  have hids : (ios.sendReadReq ix item cached).onFlightIds = ios.onFlightIds ++ [item.id] := by
    rw [Ios.onFlightIds, hq, map_append, map_singleton, hnbr]
    rfl
  refine ⟨h.ring.sendReadReq q.beam_le hlt item cached, h.listed, fun id hid => ?_, ?_, ?_, ?_,
    fun hW _ => ⟨m0, hm0, ?_, ?_⟩, fun hS m hm hf b hb => ?_⟩
  · rw [hids] at hid
    obtain hid | hid := mem_append.1 hid
    · exact h.queued id hid
    · obtain ⟨e, he, rfl⟩ := mem_map.1 hm0
      rw [mem_singleton.1 hid, hitem]
      exact h.listed.seen e he
  · rw [hmap]
    exact h.mapped
  · rw [hmap]
    exact h.expanded
  · refine h.aged.imp (w := 0) fun u m _ hy hm b hb => ?_
    rw [hmap] at hb
    obtain ⟨no, hno, hslot, hle⟩ := hy hm b hb
    exact ⟨no, by omega, hslot, by omega⟩
  · rw [hmap, ← hitem]
    exact hnone
  · rw [hids, dropLast_concat, ← hitem]
    exact hfresh hW
  · rw [hmap] at hb
    obtain ⟨hpage, hne⟩ := h.safe hS m hm hf b hb
    have hb' := hfree hS m hm hf b hb
    rw [hsector _ hb', hq]
    refine ⟨hpage, fun io' hio' => ?_⟩
    obtain hio' | hio' := mem_append.1 hio'
    · exact hne io' hio'
    · rw [mem_singleton.1 hio', hslot]
      exact Ne.symm hb'

theorem weaken (h : Joint ix q W S 0 ios c) : Joint ix q W S extra ios c := by
  refine ⟨h.ring, h.listed, h.queued, h.mapped, h.expanded, ?_, h.waits, h.safe⟩
  refine h.aged.imp (w := 0) fun u m _ hy hm b hb => ?_
  obtain ⟨no, hno, hslot, hle⟩ := hy hm b hb
  exact ⟨no, hno, hslot, by omega⟩

theorem complete (h : Joint ix q W S extra ios c) (done : List ℕ) :
    Joint ix q W S extra (ios.complete done) c := by
  obtain ⟨hring, hpolled⟩ := @OnRing.complete _ _ _ _ _ _ done h.ring q.beam_le
  have hids : (ios.complete done).onFlightIds = ios.onFlightIds := by
    rw [Ios.onFlightIds, hpolled.onFlightIos]
    rfl
  refine ⟨hring, h.listed, ?_, ?_, ?_, ?_, ?_, fun hS m hm hf b hb => ?_⟩
  · rw [hids]
    exact h.queued
  · rw [hpolled.idBufMap]
    exact h.mapped
  · rw [hpolled.idBufMap]
    exact h.expanded
  · refine h.aged.imp (w := 0) fun u m _ hy hm b hb => ?_
    rw [hpolled.idBufMap] at hb
    rw [hpolled.nIos]
    exact hy hm b hb
  · rw [Waits, hids, hpolled.idBufMap]
    exact h.waits
  · rw [hpolled.idBufMap] at hb
    obtain ⟨hpage, hne⟩ := h.safe hS m hm hf b hb
    rw [hpolled.onFlightIos, hpolled.sector b.slot fun r hr => ?_]
    · exact ⟨hpage, hne⟩
    · obtain ⟨-, io, hio, hslot, -⟩ := h.ring.reads r hr
      rw [← hslot]
      exact hne io hio

variable {io : Io D} {rest : List (Io D)} {id : ℕ}

theorem popIo_idBufMap {b : BufNode} (hb : (ios.popIo io rest).idBufMap id = some b) :
    ios.idBufMap id = some b ∨ id = io.nbr.id ∧ b = ⟨io.slot, io.loc⟩ := by
  dsimp only [Ios.popIo] at hb
  split_ifs at hb with hnone
  · by_cases heq : id = io.nbr.id
    · rw [heq, Function.update_self] at hb
      exact .inr ⟨heq, (Option.some.inj hb).symm⟩
    · rw [Function.update_of_ne heq] at hb
      exact .inl hb
  · exact .inl hb

theorem popIo_idBufMap_ne_none (h : ios.idBufMap id ≠ none) :
    (ios.popIo io rest).idBufMap id ≠ none := by
  dsimp only [Ios.popIo]
  split_ifs with hnone
  · have hne : id ≠ io.nbr.id := fun heq => h (by rw [heq, hnone])
    rw [Function.update_of_ne hne]
    exact h
  · exact h

theorem popIo (h : Joint ix q W S extra ios c) (hq : ios.onFlightIos = io :: rest)
    (hfin : ios.finished io.slot = true) : Joint ix q W S extra (ios.popIo io rest) c := by
  have hio : io ∈ ios.onFlightIos := hq ▸ mem_cons_self
  have hids : ios.onFlightIds = io.nbr.id :: (ios.popIo io rest).onFlightIds := by
    rw [Ios.onFlightIds, hq]
    rfl
  have hid : io.nbr.id ∈ c.visited := h.queued _ (hids ▸ mem_cons_self)
  refine ⟨h.ring.popIo hq hfin, h.listed, fun id hid' => ?_, fun id hne => ?_,
    fun m hm hexp => popIo_idBufMap_ne_none (h.expanded m hm hexp), ?_, fun hW hne => ?_,
    fun hS m hm hf b hb => ?_⟩
  · refine h.queued id ?_
    rw [hids]
    exact mem_cons_of_mem _ hid'
  · obtain ⟨b, hb⟩ := Option.ne_none_iff_exists'.1 hne
    obtain hb | ⟨rfl, -⟩ := popIo_idBufMap hb
    · exact h.mapped id (by rw [hb]; exact Option.some_ne_none b)
    · exact hid
  · refine h.aged.imp (w := 0) fun u m _ hy hm b hb => ?_
    obtain hb | ⟨-, rfl⟩ := popIo_idBufMap hb
    · exact hy hm b hb
    · obtain ⟨no, hno, hle, hslot⟩ := h.ring.slot_eq hio
      have hroom := h.ring.room
      have hnext : ios.nIos ≤ no + q.beamWidth + (u + 0) + extra := by omega
      exact ⟨no, hno, hslot.symm, hnext⟩
  · obtain ⟨m, hm, hnone, hnot⟩ := h.waits hW (by rw [hids]; simp)
    rw [hids, dropLast_cons_of_ne_nil hne] at hnot
    refine ⟨m, hm, ?_, fun hmem => hnot (mem_cons_of_mem _ hmem)⟩
    by_contra hsome
    obtain ⟨b, hb⟩ := Option.ne_none_iff_exists'.1 hsome
    obtain hb | ⟨heq, -⟩ := popIo_idBufMap hb
    · rw [hb] at hnone
      cases hnone
    · exact hnot (heq ▸ mem_cons_self)
  · have hsub : ∀ io' ∈ rest, io' ∈ ios.onFlightIos := fun io' hio' =>
      hq ▸ mem_cons_of_mem io hio'
    obtain hb | ⟨-, rfl⟩ := popIo_idBufMap hb
    · obtain ⟨hpage, hne⟩ := h.safe hS m hm hf b hb
      exact ⟨hpage, fun io' hio' => hne io' (hsub io' hio')⟩
    · refine ⟨(h.ring.arrived io hio hfin).trans (h.ring.places io hio).2, fun io' hio' hslot => ?_⟩
      -- the buffers of the queue are different
      have hnodup : (ios.onFlightIos.map Io.slot).Nodup := by
        rw [h.ring.slots]
        exact nodup_range'_mod (Nat.le_trans h.ring.room q.beam_le)
      rw [hq] at hnodup
      exact (nodup_cons.1 hnodup).1 (mem_map.2 ⟨io', hio', hslot⟩)

theorem popFinished (h : Joint ix q W S extra ios c) (inList : D → Bool) {nIn nOut : ℕ} :
    Joint ix q W S extra (Ios.popFinished inList ios.onFlightIos ios nIn nOut).1 c :=
  popFinished_induct (I := fun t => Joint ix q W S extra t c) rfl h
    fun _ _ _ hq hfin ht => ht.popIo hq hfin

theorem of_not_pending (h : Joint ix q W S extra ios c)
    (hp : ∀ m ∈ c.marks, m.2 = false → ios.idBufMap m.1 = none) : Joint ix q W S 0 ios c := by
  refine ⟨h.ring, h.listed, h.queued, h.mapped, h.expanded, Aged.of_forall fun u m hm hf b hb => ?_,
    h.waits, h.safe⟩
  rw [hp m hm hf] at hb
  cases hb

theorem expand (h : Joint ix q W S 1 ios c) {l : List (Neighbor D)} {pre rest : List (ℕ × Bool)}
    {b : BufNode} (hmarks : c.marks = pre ++ (id, false) :: rest)
    (hpre : ∀ m ∈ pre, m.2 = false → ios.idBufMap m.1 = none) (hb : ios.idBufMap id = some b)
    (hl : l.map Neighbor.mark = pre ++ (id, true) :: rest) :
    Joint ix q W S 0 ios (c.setPool l) := by
  have hids : l.map Neighbor.id = c.pool.map Neighbor.id := by
    have h1 := congrArg (List.map Prod.fst) hl
    have h2 := congrArg (List.map Prod.fst) hmarks
    rw [Cands.marks] at h2
    simp only [map_append, map_map] at h1 h2
    exact h1.trans h2.symm
  have hlen : l.length = c.pool.length := by
    rw [← length_map, hids, length_map]
  have hnew : (c.setPool l).marks = pre ++ (id, true) :: rest := by
    rw [Cands.marks, h.listed.pool_setPool hlen, hl]
  have hold : ∀ m ∈ (c.setPool l).marks, m ∈ c.marks ∨ m = (id, true) := by
    intro m hm
    rw [hnew] at hm
    rw [hmarks]
    obtain hm | hm := mem_append.1 hm
    · exact .inl (mem_append_left _ hm)
    · obtain rfl | hm := mem_cons.1 hm
      · exact .inr rfl
      · exact .inl (mem_append_right _ (mem_cons_of_mem _ hm))
  have haged := h.aged
  rw [hmarks, Aged.append_iff] at haged
  refine ⟨h.ring, h.listed.setPool hids, h.queued, h.mapped, fun m hm hexp => ?_, ?_,
    fun hW hne => ?_, fun hS m hm hf b' hb' => ?_⟩
  · obtain hm | rfl := hold m hm
    · exact h.expanded m hm hexp
    · rw [hb]
      exact Option.some_ne_none b
  · rw [hnew, Aged.append_iff]
    refine ⟨Aged.of_forall fun u m hm hf b hb => ?_, fun hf => absurd hf (by simp), ?_⟩
    · rw [hpre m hm hf] at hb
      cases hb
    · -- one expanded candidate more is before the rest
      refine haged.2.2.imp (w := 1) fun u m _ hy hm b hb => ?_
      obtain ⟨no, hno, hslot, hle⟩ := hy hm b hb
      exact ⟨no, hno, hslot, by omega⟩
  · obtain ⟨m, hm, hnone, hnot⟩ := h.waits hW hne
    refine ⟨m, ?_, hnone, hnot⟩
    rw [hmarks] at hm
    rw [hnew]
    obtain hm | hm := mem_append.1 hm
    · exact mem_append_left _ hm
    · obtain rfl | hm := mem_cons.1 hm
      · rw [hb] at hnone
        cases hnone
      · exact mem_append_right _ (mem_cons_of_mem _ hm)
  · obtain hm | rfl := hold m hm
    · exact h.safe hS m hm hf b' hb'
    · cases hf

theorem computeAndPushNbrs [LinearOrder D] [Zero D] (h : Joint ix q W S extra ios c)
    (hpos : 0 < c.curListSize) (node : DiskNode C L) :
    Joint ix q W S extra ios (c.computeAndPushNbrs q node) := by
  have hnew : ∀ x, x ∉ c.visited → ios.idBufMap x = none := fun x hx => by
    by_contra hne
    exact hx (h.mapped x hne)
  obtain ⟨hlisted, ⟨hexp, haged, hwaits, hsafe⟩, hvis⟩ := h.listed.computeAndPushNbrs_induct
    (I := fun l => (∀ m ∈ l.map Neighbor.mark, m.2 = true → ios.idBufMap m.1 ≠ none) ∧
        Aged (Young q ios extra) 0 (l.map Neighbor.mark) ∧ (W → Waits ios (l.map Neighbor.mark)) ∧
          (S → Safe ix ios (l.map Neighbor.mark)))
    hpos node ⟨h.expanded, h.aged, h.waits, h.safe⟩ (by
    rintro l l' x hx - hpush ⟨hexp, haged, hwaits, hsafe⟩
    have hpush' := hpush.map Neighbor.mark
    have hx' : ios.idBufMap (Neighbor.mark (.new x (q.computeDist x) true)).1 = none := hnew x hx
    refine ⟨fun m hm he => ?_, haged.pushed hpush' (fun u w m hy => hy.mono) fun u _ b hb => ?_,
      fun hW hne => hpush'.exists_mem ⟨hx', fun hmem => ?_⟩ (hwaits hW hne),
      fun hS m hm hf b hb => ?_⟩
    · obtain rfl | hm := hpush'.mem hm
      · cases he
      · exact hexp m hm he
    · rw [hx'] at hb
      cases hb
    · exact hx (h.queued x (dropLast_subset _ hmem))
    · obtain rfl | hm := hpush'.mem hm
      · rw [hx'] at hb
        cases hb
      · exact hsafe hS m hm hf b hb)
  exact ⟨h.ring, hlisted, fun id hid => hvis id (h.queued id hid),
    fun id hid => hvis id (h.mapped id hid), hexp, haged, hwaits, hsafe⟩

end Joint

end DiskANNEval.PipeANN.PipeSearch
