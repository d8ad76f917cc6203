import DiskANNEval.Gorgeous.SectorReads

/-!
# OutstandingReads — what is in the sector buffers

Reads are numbered in the order in which they are sent (`Sent`), and read `turn` goes into buffer
`turn % MAX_N_SECTOR_READS`.  `Outstanding m r fs qs`: the reads `fs` are in flight and the pages of
`qs` wait in the queue, oldest first.  Reads are only sent when none is in flight, at most `m`; so a
read in flight is among the last `m`, and a page in the queue is as far behind as `Behind` says.
-/

namespace DiskANNEval.Gorgeous

open Lib List Function

structure Sent where
  turn : ℕ
  fn : FrontierNode

namespace Sent

def slot (e : Sent) : ℕ := e.turn % maxNSectorReads

def read (e : Sent) : Read := ⟨e.slot, e.fn.pid⟩

theorem slot_lt (e : Sent) : e.slot < maxNSectorReads := Nat.mod_lt _ (Nat.succ_pos _)

end Sent

theorem SectorReads.complete_eq {r : SectorReads} {rd : Read} {l l' : List Read}
    (h : r.inFlight = l ++ rd :: l') (hne : ∀ x ∈ l ++ l', x.slot ≠ rd.slot) :
    r.complete rd.slot = { r with
      inFlight := l ++ l'
      sector := Function.update r.sector rd.slot rd.pid } := by
  have hl : ∀ x ∈ l, ¬ x.slot = rd.slot := fun x hx => hne x (mem_append_left _ hx)
  have hl' : ∀ x ∈ l', ¬ x.slot = rd.slot := fun x hx => hne x (mem_append_right _ hx)
  have hfind : r.inFlight.find? (fun x => x.slot = rd.slot) = some rd := by
    rw [h, find?_append, find?_eq_none.2 fun x hx => by simpa using hl x hx]
    simp
  have hfilter : r.inFlight.filter (fun x => x.slot ≠ rd.slot) = l ++ l' := by
    rw [h, filter_append, filter_cons_of_neg (by simp),
      filter_eq_self.2 fun x hx => by simpa using hl x hx,
      filter_eq_self.2 fun x hx => by simpa using hl' x hx]
  rw [SectorReads.complete, hfind, ← hfilter]

namespace SectorReads

variable {pinned : ℕ → Bool} {r : SectorReads}

/-- After a read of the traversal. -/
def sent (r : SectorReads) (fn : FrontierNode) : SectorReads :=
  { r with
    sectorIdx := (r.sectorIdx + 1) % maxNSectorReads
    inFlight := r.inFlight ++ [⟨r.sectorIdx, fn.pid⟩]
    secBuf2ftr := Function.update r.secBuf2ftr r.sectorIdx (some fn)
    nIoInQ := r.nIoInQ + 1
    numIos := r.numIos + 1 }

theorem readNode_ok (hbusy : r.busy r.sectorIdx = false) (hpin : pinned r.sectorIdx = false)
    (fn : FrontierNode) : r.readNode pinned fn = .ok (r.sent fn) := by
  rw [readNode, request, hbusy, hpin]
  rfl

theorem readNode_cases (pinned : ℕ → Bool) (r : SectorReads) (fn : FrontierNode) :
    r.busy r.sectorIdx = false ∧ pinned r.sectorIdx = false ∧
      r.readNode pinned fn = .ok (r.sent fn) ∨ ∃ v, r.readNode pinned fn = .error v := by
  by_cases h : r.busy r.sectorIdx = false ∧ pinned r.sectorIdx = false
  · exact .inl ⟨h.1, h.2, readNode_ok h.1 h.2 fn⟩
  · refine .inr ⟨.busyBuffer, ?_⟩
    have hor : (r.busy r.sectorIdx || pinned r.sectorIdx) = true := by
      rw [Bool.or_eq_true]
      by_contra hno
      rw [not_or, Bool.not_eq_true, Bool.not_eq_true] at hno
      exact h hno
    rw [readNode, request, hor]
    rfl

end SectorReads

structure Outstanding (m : ℕ) (r : SectorReads) (fs qs : List Sent) : Prop where
  idx : r.sectorIdx = r.numIos % maxNSectorReads
  flying : r.inFlight = fs.map Sent.read
  nIo : r.nIoInQ = fs.length
  queue : r.sectorBuffers.Holds maxNSectorReads (qs.map Sent.slot)
  nProc : r.nProcInQ = qs.length
  recent : ∀ e ∈ fs, e.turn < r.numIos ∧ r.numIos ≤ e.turn + m
  behind : Behind r.numIos m fs.length (qs.map Sent.turn)
  nodup : ((fs ++ qs).map Sent.slot).Nodup
  tracked : ∀ slot fn, r.secBuf2ftr slot = some fn ↔ ∃ e ∈ fs ++ qs, e.slot = slot ∧ e.fn = fn
  arrived : ∀ e ∈ qs, r.sector e.slot = e.fn.pid

namespace Outstanding

variable {m : ℕ} {r r' : SectorReads} {fs qs : List Sent} {e : Sent}

theorem slots_eq (h : Outstanding m r fs qs) : r.slots = fs.map Sent.slot := by
  rw [SectorReads.slots, h.flying, map_map]
  rfl

theorem length_le (h : Outstanding m r fs qs) : fs.length + qs.length ≤ maxNSectorReads := by
  have hsub : (fs ++ qs).map Sent.slot ⊆ List.range maxNSectorReads := by
    intro x hx
    obtain ⟨e, -, rfl⟩ := mem_map.1 hx
    exact List.mem_range.2 e.slot_lt
  have hle := (h.nodup.subperm hsub).length_le
  rwa [length_map, length_append, length_range] at hle

theorem busy_iff (h : Outstanding m r fs qs) {slot : ℕ} :
    r.busy slot = true ↔ slot ∈ (fs ++ qs).map Sent.slot := by
  have hmap : (r.secBuf2ftr slot).isSome ↔ slot ∈ (fs ++ qs).map Sent.slot := by
    rw [Option.isSome_iff_exists, mem_map]
    constructor
    · rintro ⟨fn, hfn⟩
      obtain ⟨e, he, hs, -⟩ := (h.tracked slot fn).1 hfn
      exact ⟨e, he, hs⟩
    · rintro ⟨e, he, hs⟩
      exact ⟨e.fn, (h.tracked slot e.fn).2 ⟨e, he, hs, rfl⟩⟩
  rw [SectorReads.busy, Bool.or_eq_true, decide_eq_true_iff, hmap, h.slots_eq, or_iff_right_iff_imp]
  intro hslot
  rw [map_append]
  exact mem_append_left _ hslot

/-! ### Sending -/

/-- The next buffer is free if the ring has not been used up, or if reads cannot be so far behind. -/
theorem not_busy (h : Outstanding m r fs qs) (hfs : ∀ e ∈ fs, r.numIos < e.turn + maxNSectorReads)
    (hroom : r.numIos < maxNSectorReads ∨ m + qs.length + fs.length ≤ maxNSectorReads) :
    r.busy r.sectorIdx = false := by
  rw [Bool.eq_false_iff, ne_eq, h.busy_iff, h.idx]
  intro hmem
  obtain ⟨e, he, hslot⟩ := mem_map.1 hmem
  have hlt : e.turn < r.numIos ∧ r.numIos < e.turn + maxNSectorReads := by
    obtain he | he := mem_append.1 he
    · exact ⟨(h.recent e he).1, hfs e he⟩
    · obtain ⟨hlt, hle⟩ := h.behind.of_mem (mem_map_of_mem he)
      rw [length_map] at hle
      rcases hroom with hroom | hroom <;> omega
  exact turn_ne hlt.1 hlt.2 hslot

theorem sent (h : Outstanding m r fs qs) (hbusy : r.busy r.sectorIdx = false) (fn : FrontierNode)
    (hm : 0 < m) (hfs : ∀ e ∈ fs, r.numIos + 1 ≤ e.turn + m) :
    Outstanding m (r.sent fn) (fs ++ [⟨r.numIos, fn⟩]) qs := by
  set e : Sent := ⟨r.numIos, fn⟩ with he
  have hslot : e.slot = r.sectorIdx := h.idx.symm
  have hnew : e.slot ∉ (fs ++ qs).map Sent.slot := by
    rw [← h.busy_iff, hslot, hbusy]
    exact Bool.false_ne_true
  have hperm : (fs ++ [e] ++ qs).Perm (e :: (fs ++ qs)) := by
    rw [append_assoc]
    exact perm_middle
  constructor
  · show (r.sectorIdx + 1) % maxNSectorReads = (r.numIos + 1) % maxNSectorReads
    rw [h.idx, Nat.mod_add_mod]
  · show r.inFlight ++ [⟨r.sectorIdx, fn.pid⟩] = _
    rw [h.flying, map_append, ← hslot]
    rfl
  · show r.nIoInQ + 1 = _
    rw [h.nIo, length_append, length_singleton]
  · exact h.queue
  · exact h.nProc
  · intro e' he'
    obtain he' | he' := mem_append.1 he'
    · exact ⟨Nat.lt_succ_of_lt (h.recent e' he').1, hfs e' he'⟩
    · obtain rfl := mem_singleton.1 he'
      exact ⟨Nat.lt_succ_self _, Nat.add_le_add_left hm _⟩
  · rw [length_append]
    exact h.behind.handOut
  · rw [(hperm.map Sent.slot).nodup_iff]
    exact nodup_cons.2 ⟨hnew, h.nodup⟩
  · intro slot fn'
    show Function.update r.secBuf2ftr r.sectorIdx (some fn) slot = some fn' ↔ _
    simp only [hperm.mem_iff, mem_cons, or_and_right, exists_or, exists_eq_left]
    rw [← hslot]
    by_cases heq : slot = e.slot
    · subst heq
      have hno : ¬ ∃ e' ∈ fs ++ qs, e'.slot = e.slot ∧ e'.fn = fn' := by
        rintro ⟨e', he', hs, -⟩
        exact hnew (mem_map.2 ⟨e', he', hs⟩)
      rw [update_self, or_iff_left hno, Option.some_inj, and_iff_right rfl]
    · rw [update_of_ne heq, h.tracked]
      exact (or_iff_right fun hs => heq hs.1.symm).symm
  · exact h.arrived

/-- The reads of a round so far: all since `first`. -/
structure Round (m first : ℕ) (r : SectorReads) (fs : List Sent) : Prop where
  numIos : r.numIos = first + fs.length
  since : ∀ e ∈ fs, first ≤ e.turn

variable {first : ℕ}

theorem Round.sent (h : Round m first r fs) (fn : FrontierNode) :
    Round m first (r.sent fn) (fs ++ [⟨r.numIos, fn⟩]) where
  numIos := by
    show r.numIos + 1 = _
    rw [h.numIos, length_append, length_singleton, Nat.add_assoc]
  since e he := by
    obtain he | he := mem_append.1 he
    · exact h.since e he
    · rw [mem_singleton.1 he]
      exact h.numIos ▸ Nat.le_add_right ..

theorem Round.turn (h : Round m first r fs) (hm : fs.length < m) :
    ∀ e ∈ fs, r.numIos + 1 ≤ e.turn + m := by
  intro e he
  have h1 := h.numIos
  have h2 := h.since e he
  omega

theorem readNodes {pinned : ℕ → Bool} {ftr : List FrontierNode} (h : Outstanding m r fs qs)
    (hround : Round m first r fs) (hm : fs.length + ftr.length ≤ m)
    (hok : ftr.foldlM (SectorReads.readNode pinned) r = .ok r') :
    ∃ fs', Outstanding m r' fs' qs ∧ fs'.map Sent.fn = fs.map Sent.fn ++ ftr ∧
      r.numIos ≤ r'.numIos := by
  induction ftr generalizing r fs with
  | nil =>
    cases hok
    exact ⟨fs, h, (append_nil _).symm, Nat.le_refl _⟩
  | cons fn ftr ih =>
    rw [length_cons] at hm
    rw [foldlM_cons] at hok
    obtain ⟨hbusy, -, hread⟩ | ⟨v, hread⟩ := SectorReads.readNode_cases pinned r fn
    · rw [hread] at hok
      obtain ⟨fs', hout, hfn, hle⟩ := ih
        (h.sent hbusy fn (by omega) (hround.turn (by omega))) (hround.sent fn)
        (by rw [length_append, length_singleton]; omega) hok
      refine ⟨fs', hout, ?_, Nat.le_of_succ_le hle⟩
      rw [hfn, map_append, append_assoc]
      rfl
    · rw [hread] at hok
      exact nomatch hok

theorem readNodes_ok {pinned : ℕ → Bool} {ftr : List FrontierNode} (h : Outstanding m r fs qs)
    (hround : Round m first r fs) (hm : fs.length + ftr.length ≤ m) (hmax : m ≤ maxNSectorReads)
    (hroom : first + m ≤ maxNSectorReads ∨ 2 * m + qs.length ≤ maxNSectorReads + 1)
    (hpin : ∀ i < m, pinned ((first + i) % maxNSectorReads) = false) :
    ∃ r', ftr.foldlM (SectorReads.readNode pinned) r = .ok r' := by
  induction ftr generalizing r fs with
  | nil => exact ⟨r, rfl⟩
  | cons fn ftr ih =>
    rw [length_cons] at hm
    have hturn := hround.turn (show fs.length < m by omega)
    have hnum := hround.numIos
    have hbusy : r.busy r.sectorIdx = false := by
      refine h.not_busy (fun e he => ?_) (hroom.imp (fun _ => by omega) fun _ => by omega)
      have := hturn e he
      omega
    have hidx : pinned r.sectorIdx = false := by
      rw [h.idx, hnum]
      exact hpin _ (by omega)
    obtain ⟨r', hr'⟩ := ih (h.sent hbusy fn (by omega) hturn) (hround.sent fn)
      (by rw [length_append, length_singleton]; omega)
    refine ⟨r', ?_⟩
    rw [foldlM_cons, SectorReads.readNode_ok hbusy hidx]
    exact hr'

/-! ### Arriving -/

theorem arrive {fs' : List Sent} (h : Outstanding m r (fs ++ e :: fs') qs) :
    ∃ r', r.arrive e.slot = .ok r' ∧ Outstanding m r' (fs ++ fs') (qs ++ [e]) ∧
      r'.numIos = r.numIos := by
  have hlen := h.length_le
  rw [length_append, length_cons] at hlen
  have hperm : (fs ++ fs' ++ (qs ++ [e])).Perm (fs ++ e :: fs' ++ qs) := by
    have h1 : (fs ++ fs' ++ (qs ++ [e])).Perm (e :: (fs ++ fs' ++ qs)) := by
      rw [← append_assoc]
      exact perm_append_singleton e _
    have h2 : (fs ++ e :: fs' ++ qs).Perm (e :: (fs ++ fs' ++ qs)) := by
      rw [append_assoc, append_assoc]
      exact perm_middle
    exact h1.trans h2.symm
  have hnd : (e.slot :: (fs ++ fs' ++ qs).map Sent.slot).Nodup := by
    rw [← map_cons, ← (Perm.map Sent.slot (?_ : (fs ++ e :: fs' ++ qs).Perm _)).nodup_iff]
    · exact h.nodup
    · rw [append_assoc, append_assoc]
      exact perm_middle
  have hne : ∀ e' ∈ fs ++ fs' ++ qs, e'.slot ≠ e.slot := fun e' he' hs =>
    (nodup_cons.1 hnd).1 (mem_map.2 ⟨e', he', hs⟩)
  have hcomplete : r.complete e.slot = { r with
      inFlight := (fs ++ fs').map Sent.read
      sector := Function.update r.sector e.slot e.fn.pid } := by
    rw [map_append]
    have hsplit : r.inFlight = fs.map Sent.read ++ e.read :: fs'.map Sent.read := by
      rw [h.flying, map_append]
      rfl
    refine SectorReads.complete_eq hsplit ?_
    intro rd hrd
    rw [← map_append] at hrd
    obtain ⟨e', he', rfl⟩ := mem_map.1 hrd
    exact hne e' (mem_append_left _ he')
  have hne' : r.nProcInQ ≠ maxNSectorReads := by
    rw [h.nProc]
    omega
  have harrive : r.arrive e.slot = .ok { r with
      inFlight := (fs ++ fs').map Sent.read
      sector := Function.update r.sector e.slot e.fn.pid
      sectorBuffers := r.sectorBuffers.push maxNSectorReads e.slot
      nIoInQ := r.nIoInQ - 1
      nProcInQ := r.nProcInQ + 1 } := by
    rw [SectorReads.arrive, if_neg hne', hcomplete]
  refine ⟨_, harrive, ?_, rfl⟩
  constructor
  · exact h.idx
  · rfl
  · show r.nIoInQ - 1 = _
    rw [h.nIo, length_append, length_append, length_cons]
    omega
  · have hpush := h.queue.push e.slot (by rw [length_map]; omega)
    rwa [← map_singleton, ← map_append] at hpush
  · show r.nProcInQ + 1 = _
    rw [h.nProc, length_append, length_singleton]
  · intro e' he'
    refine h.recent e' ?_
    obtain he' | he' := mem_append.1 he'
    · exact mem_append_left _ he'
    · exact mem_append_right _ (mem_cons_of_mem _ he')
  · obtain ⟨hlt, hle⟩ := h.recent e (mem_append_right _ mem_cons_self)
    have hb := h.behind
    rw [length_append, length_cons, ← Nat.add_assoc, ← length_append] at hb
    have hconcat := hb.concat hlt hle
    rwa [← map_singleton, ← map_append] at hconcat
  · rw [(hperm.map Sent.slot).nodup_iff]
    exact h.nodup
  · intro slot fn
    simp only [hperm.mem_iff]
    exact h.tracked slot fn
  · intro e' he'
    show Function.update r.sector e.slot e.fn.pid e'.slot = _
    obtain he' | he' := mem_append.1 he'
    · rw [update_of_ne (hne e' (mem_append_right _ he')), h.arrived e' he']
    · rw [mem_singleton.1 he', update_self]

theorem getEvents_spec (done : List ℕ) (wait : Bool) (max : ℕ) (r : SectorReads) (h : r.slots.Nodup) :
    (r.getEvents done wait max).Nodup ∧ ∀ slot ∈ r.getEvents done wait max, slot ∈ r.slots := by
  unfold SectorReads.getEvents
  extract_lets evts
  split_ifs with hwait
  · exact ⟨h.sublist (take_sublist ..), fun slot hs => mem_of_mem_take hs⟩
  · refine ⟨((nodup_dedup done).filter _).sublist (take_sublist ..), ?_⟩
    intro slot hs
    exact of_decide_eq_true (mem_filter.1 (mem_of_mem_take hs)).2

theorem arrives {evts : List ℕ} (h : Outstanding m r fs qs) (hnd : evts.Nodup)
    (hin : ∀ slot ∈ evts, slot ∈ r.slots) :
    ∃ r' fs' qs', evts.foldlM SectorReads.arrive r = .ok r' ∧ Outstanding m r' fs' qs' ∧
      (fs' ++ qs').Perm (fs ++ qs) ∧ r'.numIos = r.numIos := by
  induction evts generalizing r fs qs with
  | nil => exact ⟨r, fs, qs, rfl, h, .refl _, rfl⟩
  | cons slot evts ih =>
    obtain ⟨hslot, hnd'⟩ := nodup_cons.1 hnd
    have hmem := hin slot mem_cons_self
    rw [h.slots_eq] at hmem
    obtain ⟨e, he, rfl⟩ := mem_map.1 hmem
    obtain ⟨fs1, fs2, rfl⟩ := append_of_mem he
    obtain ⟨r1, h1, hout, hnum⟩ := h.arrive
    have hin1 : ∀ slot ∈ evts, slot ∈ r1.slots := by
      intro slot hs
      have hold := hin slot (mem_cons_of_mem _ hs)
      rw [h.slots_eq] at hold
      rw [hout.slots_eq]
      rw [map_append, map_cons, mem_append, mem_cons] at hold
      rw [map_append, mem_append]
      refine hold.imp_right fun hold => hold.resolve_left fun heq => ?_
      exact hslot (heq ▸ hs)
    obtain ⟨r', fs', qs', h2, hout', hperm, hnum'⟩ := ih hout hnd' hin1
    refine ⟨r', fs', qs', ?_, hout', hperm.trans ?_, hnum'.trans hnum⟩
    · rw [foldlM_cons, h1]
      exact h2
    · have h3 : (fs1 ++ fs2 ++ (qs ++ [e])).Perm (e :: (fs1 ++ fs2 ++ qs)) := by
        rw [← append_assoc]
        exact perm_append_singleton e _
      refine h3.trans ?_
      rw [append_assoc, append_assoc]
      exact perm_middle.symm

/-! ### Processing -/

theorem oldest (h : Outstanding m r fs (e :: qs)) :
    (r.sectorBuffers.get maxNSectorReads).1 = e.slot ∧ r.secBuf2ftr e.slot = some e.fn ∧
      r.sector e.slot = e.fn.pid := by
  refine ⟨h.queue.get_fst, ?_, h.arrived e mem_cons_self⟩
  exact (h.tracked e.slot e.fn).2 ⟨e, mem_append_right _ mem_cons_self, rfl, rfl⟩

theorem processed (h : Outstanding m r fs (e :: qs)) :
    Outstanding m (r.processed e.slot) fs qs := by
  have hperm : (fs ++ e :: qs).Perm (e :: (fs ++ qs)) := perm_middle
  have hnd := h.nodup
  rw [(hperm.map Sent.slot).nodup_iff, map_cons, nodup_cons] at hnd
  constructor
  · exact h.idx
  · exact h.flying
  · exact h.nIo
  · exact h.queue.get_snd
  · show r.nProcInQ - 1 = _
    rw [h.nProc]
    rfl
  · exact h.recent
  · exact h.behind.2.2
  · exact hnd.2
  · intro slot fn
    show Function.update r.secBuf2ftr e.slot none slot = some fn ↔ _
    by_cases heq : slot = e.slot
    · subst heq
      rw [update_self]
      refine iff_of_false nofun ?_
      rintro ⟨e', he', hs, -⟩
      exact hnd.1 (mem_map.2 ⟨e', he', hs⟩)
    · rw [update_of_ne heq, h.tracked]
      simp only [hperm.mem_iff, mem_cons, or_and_right, exists_or, exists_eq_left]
      exact or_iff_right fun hs => heq hs.1.symm
  · exact fun e' he' => h.arrived e' (mem_cons_of_mem _ he')

theorem fresh {queue : RingQueue ℕ} (hq : queue.Holds maxNSectorReads []) (sector : ℕ → ℕ) :
    Outstanding m
      { sectorIdx := 0
        inFlight := []
        sector
        sectorBuffers := queue
        secBuf2ftr := fun _ => none
        nIoInQ := 0
        nProcInQ := 0
        numIos := 0 } [] [] where
  idx := rfl
  flying := rfl
  nIo := rfl
  queue := hq
  nProc := rfl
  recent _ he := absurd he not_mem_nil
  behind := trivial
  nodup := nodup_nil
  tracked _ _ := iff_of_false nofun fun ⟨_, he, _⟩ => absurd he not_mem_nil
  arrived _ he := absurd he not_mem_nil

end Outstanding

end DiskANNEval.Gorgeous
