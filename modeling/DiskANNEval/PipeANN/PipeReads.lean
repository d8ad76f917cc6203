import DiskANNEval.PipeANN.PipeSearch

/-!
# PipeReads — the queue of reads and the ring of buffers

The reads in `on_flight_ios` are the last ones that have been issued, so their buffers are
consecutive on the ring and there is room for the next one (`OnRing`).
-/

namespace DiskANNEval.PipeANN.PipeSearch

open List Function

variable {C L D : Type} {ix : SSDIndex C L} {b : ℕ} {s : Ios D} {done : List ℕ}

/-- The ids of the reads in the queue. -/
def Ios.onFlightIds (s : Ios D) : List ℕ := s.onFlightIos.map fun io => io.nbr.id

/-- At most `b` reads are in the queue. -/
structure OnRing (ix : SSDIndex C L) (b : ℕ) (s : Ios D) : Prop where
  room : s.onFlightIos.length ≤ b
  issued : s.onFlightIos.length ≤ s.nIos
  idx : s.sectorIdx = s.nIos % maxNSectorReads
  slots : s.onFlightIos.map Io.slot =
    (List.range' (s.nIos - s.onFlightIos.length) s.onFlightIos.length).map (· % maxNSectorReads)
  reads : ∀ r ∈ s.inFlight, s.finished r.slot = false ∧
    ∃ io ∈ s.onFlightIos, io.slot = r.slot ∧ io.pageId = r.pageId
  arrived : ∀ io ∈ s.onFlightIos, s.finished io.slot = true → s.sector io.slot = io.pageId
  places : ∀ io ∈ s.onFlightIos, io.loc = ix.id2loc io.nbr.id ∧ io.pageId = ix.locSectorNo io.loc
  nodes : ∀ id node, s.idBufMap id = some node → node.loc = ix.id2loc id
  locks : ∀ id, s.locked id = s.unlocked id + s.onFlightIds.count id

theorem nodup_range'_mod {a n : ℕ} (h : n ≤ maxNSectorReads) :
    ((range' a n).map (· % maxNSectorReads)).Nodup := by
  refine Nodup.map_on (fun x hx y hy he => ?_) nodup_range'
  rw [mem_range'_1] at hx hy
  simp only [maxNSectorReads] at h he
  omega

namespace OnRing

theorem io_unique (h : OnRing ix b s) (hb : b ≤ maxNSectorReads) {io io' : Io D}
    (hio : io ∈ s.onFlightIos) (hio' : io' ∈ s.onFlightIos) (hslot : io.slot = io'.slot) :
    io = io' := by
  have hnodup : (s.onFlightIos.map Io.slot).Nodup := by
    rw [h.slots]
    exact nodup_range'_mod (Nat.le_trans h.room hb)
  exact inj_on_of_nodup_map hnodup hio hio' hslot

theorem slot_eq (h : OnRing ix b s) {io : Io D} (hio : io ∈ s.onFlightIos) :
    ∃ no, no < s.nIos ∧ s.nIos ≤ no + s.onFlightIos.length ∧ io.slot = no % maxNSectorReads := by
  have hmem : io.slot ∈ s.onFlightIos.map Io.slot := mem_map_of_mem hio
  rw [h.slots, mem_map] at hmem
  obtain ⟨no, hno, he⟩ := hmem
  rw [mem_range'_1] at hno
  have := h.issued
  exact ⟨no, by omega, by omega, he.symm⟩

theorem slot_ne (h : OnRing ix b s) (hb : b ≤ maxNSectorReads) (hlt : s.onFlightIos.length < b)
    {io : Io D} (hio : io ∈ s.onFlightIos) : io.slot ≠ s.sectorIdx := by
  obtain ⟨no, h1, h2, h3⟩ := h.slot_eq hio
  rw [h.idx, h3]
  simp only [maxNSectorReads] at hb ⊢
  omega

end OnRing

/-! ### A poll -/

theorem foldl_readDone (l : List Read) (s : Ios D) : ∃ finished sector,
    l.foldl Ios.readDone s = { s with finished, sector } ∧ ∀ k,
      (finished k = s.finished k ∧ sector k = s.sector k ∧ ∀ r ∈ l, r.slot ≠ k) ∨
      (finished k = true ∧ ∃ r ∈ l, r.slot = k ∧ sector k = r.pageId) := by
  induction l generalizing s with
  | nil => exact ⟨s.finished, s.sector, rfl, fun k => .inl ⟨rfl, rfl, by simp⟩⟩
  | cons r l ih =>
    obtain ⟨finished, sector, heq, hk⟩ := ih (s.readDone r)
    refine ⟨finished, sector, heq, fun k => ?_⟩
    obtain ⟨hf, hs, hne⟩ | ⟨hf, r', hr', hslot, hs⟩ := hk k
    · by_cases hrk : r.slot = k
      · subst hrk
        refine .inr ⟨?_, r, mem_cons_self, rfl, ?_⟩
        · exact hf.trans (update_self ..)
        · exact hs.trans (update_self ..)
      · refine .inl ⟨?_, ?_, forall_mem_cons.2 ⟨hrk, hne⟩⟩
        · exact hf.trans (update_of_ne (Ne.symm hrk) ..)
        · exact hs.trans (update_of_ne (Ne.symm hrk) ..)
    · exact .inr ⟨hf, r', mem_cons_of_mem r hr', hslot, hs⟩

/-- What a poll leaves alone: buffers without a read are not written. -/
structure Polled (s s' : Ios D) : Prop where
  onFlightIos : s'.onFlightIos = s.onFlightIos
  nIos : s'.nIos = s.nIos
  idBufMap : s'.idBufMap = s.idBufMap
  sector : ∀ k, (∀ r ∈ s.inFlight, r.slot ≠ k) → s'.sector k = s.sector k
  inFlight : s'.inFlight.Sublist s.inFlight

theorem OnRing.complete (h : OnRing ix b s) (hb : b ≤ maxNSectorReads) :
    OnRing ix b (s.complete done) ∧ Polled s (s.complete done) := by
  obtain ⟨finished, sector, heq, hk⟩ := foldl_readDone (s.inFlight.filter fun r => r.slot ∈ done)
    { s with inFlight := s.inFlight.filter fun r => r.slot ∉ done }
  rw [Ios.complete, heq]
  have hsub : ∀ r ∈ s.inFlight.filter fun r => r.slot ∈ done, r ∈ s.inFlight ∧ r.slot ∈ done :=
    fun r hr => by simpa using hr
  refine ⟨⟨h.room, h.issued, h.idx, h.slots, fun r hr => ?_, fun io hio hfin => ?_, h.places,
    h.nodes, h.locks⟩, rfl, rfl, rfl, fun k hne => ?_, filter_sublist⟩
  · obtain ⟨hr, hnot⟩ : r ∈ s.inFlight ∧ r.slot ∉ done := by simpa using hr
    obtain ⟨hf, hio⟩ := h.reads r hr
    obtain ⟨hf', -, -⟩ | ⟨-, r', hr', hslot, -⟩ := hk r.slot
    · exact ⟨hf'.trans hf, hio⟩
    · exact absurd (hslot ▸ (hsub r' hr').2) hnot
  · obtain ⟨hf', hs', -⟩ | ⟨-, r', hr', hslot, hs'⟩ := hk io.slot
    · exact hs'.trans (h.arrived io hio (hf'.symm.trans hfin))
    · obtain ⟨-, io', hio', hslot', hpage⟩ := h.reads r' (hsub r' hr').1
      rw [h.io_unique hb hio hio' (hslot.symm.trans hslot'.symm), hpage]
      rwa [h.io_unique hb hio hio' (hslot.symm.trans hslot'.symm)] at hs'
  · obtain ⟨-, hs', -⟩ | ⟨-, r', hr', hslot, -⟩ := hk k
    · exact hs'
    · exact absurd hslot (hne r' (hsub r' hr').1)

/-! ### The front of the queue -/

theorem OnRing.popIo {io : Io D} {rest : List (Io D)} (h : OnRing ix b s)
    (hq : s.onFlightIos = io :: rest) (hfin : s.finished io.slot = true) :
    OnRing ix b (s.popIo io rest) := by
  have hmem : io ∈ s.onFlightIos := hq ▸ mem_cons_self
  have htail : ∀ io' ∈ rest, io' ∈ s.onFlightIos := fun io' hio' =>
    hq ▸ mem_cons_of_mem io hio'
  have hroom := h.room
  have hissued := h.issued
  have hslots := h.slots
  rw [hq, length_cons] at hroom hissued hslots
  refine ⟨by simp only [Ios.popIo]; omega, by simp only [Ios.popIo]; omega, h.idx, ?_, fun r hr => ?_,
    fun io' hio' => h.arrived io' (htail io' hio'), fun io' hio' => h.places io' (htail io' hio'),
    fun id node hnode => ?_, fun id => ?_⟩
  · rw [range'_succ, map_cons] at hslots
    have hstart : s.nIos - (rest.length + 1) + 1 = s.nIos - rest.length := by omega
    rw [hstart] at hslots
    exact (List.cons.inj hslots).2
  · obtain ⟨hf, io', hio', hslot, hpage⟩ := h.reads r hr
    refine ⟨hf, io', ?_, hslot, hpage⟩
    rw [hq] at hio'
    refine (mem_cons.1 hio').resolve_left ?_
    rintro rfl
    rw [hslot, hf] at hfin
    cases hfin
  · dsimp only [Ios.popIo] at hnode
    split_ifs at hnode with hnone
    · by_cases hid : id = io.nbr.id
      · subst hid
        rw [update_self] at hnode
        exact Option.some.inj hnode ▸ (h.places io hmem).1
      · rw [update_of_ne hid] at hnode
        exact h.nodes id node hnode
    · exact h.nodes id node hnode
  · have hlock := h.locks id
    simp only [Ios.onFlightIds, hq, map_cons, count_cons] at hlock
    simp only [Ios.popIo, Ios.onFlightIds]
    by_cases hid : id = io.nbr.id
    · subst hid
      rw [update_self]
      simp only [beq_self_eq_true, if_true] at hlock
      omega
    · rw [update_of_ne hid]
      have hbeq : (io.nbr.id == id) = false := beq_eq_false_iff_ne.2 (Ne.symm hid)
      simp only [hbeq, Bool.false_eq_true, if_false] at hlock
      omega

/-- What holds of the queue and is kept by each read that leaves it holds when no more do. -/
theorem popFinished_induct {inList : D → Bool} {I : Ios D → Prop} {l : List (Io D)} {nIn nOut : ℕ}
    (hq : s.onFlightIos = l) (h0 : I s)
    (hstep : ∀ (t : Ios D) io rest, t.onFlightIos = io :: rest → t.finished io.slot = true → I t →
      I (t.popIo io rest)) : I (Ios.popFinished inList l s nIn nOut).1 := by
  induction l generalizing s nIn nOut with
  | nil => exact h0
  | cons io rest ih =>
    rw [Ios.popFinished]
    split_ifs with hfin hin
    · exact ih rfl (hstep s io rest hq hfin h0)
    · exact ih rfl (hstep s io rest hq hfin h0)
    · exact h0

/-! ### A new read -/

theorem OnRing.sendReadReq (h : OnRing ix b s) (hb : b ≤ maxNSectorReads)
    (hlt : s.onFlightIos.length < b) (item : Neighbor D) (cached : Bool) :
    OnRing ix b (s.sendReadReq ix item cached) := by
  have hne : ∀ io ∈ s.onFlightIos, io.slot ≠ s.sectorIdx := fun io hio => h.slot_ne hb hlt hio
  have hissued := h.issued
  have hslots : (s.onFlightIos ++ [(⟨item, ix.locSectorNo (ix.id2loc item.id), ix.id2loc item.id,
      s.sectorIdx⟩ : Io D)]).map Io.slot =
        (range' (s.nIos + 1 - (s.onFlightIos.length + 1)) (s.onFlightIos.length + 1)).map
          (· % maxNSectorReads) := by
    rw [map_append, h.slots, range'_concat, map_append, Nat.add_sub_add_right,
      map_singleton, map_singleton, Nat.one_mul, Nat.sub_add_cancel hissued, h.idx]
  have hidx : (s.sectorIdx + 1) % maxNSectorReads = (s.nIos + 1) % maxNSectorReads := by
    rw [h.idx, Nat.mod_add_mod]
  have hlocks : ∀ id, Function.update s.locked item.id (s.locked item.id + 1) id =
      s.unlocked id + ((s.onFlightIos ++ [(⟨item, ix.locSectorNo (ix.id2loc item.id),
        ix.id2loc item.id, s.sectorIdx⟩ : Io D)]).map fun io => io.nbr.id).count id := by
    intro id
    have hlock := h.locks id
    rw [Ios.onFlightIds] at hlock
    rw [map_append, count_append, map_singleton, count_singleton]
    by_cases hid : id = item.id
    · subst hid
      rw [update_self]
      simp only [beq_self_eq_true, if_true]
      omega
    · rw [update_of_ne hid]
      have hbeq : (item.id == id) = false := beq_eq_false_iff_ne.2 (Ne.symm hid)
      simp only [hbeq, Bool.false_eq_true, if_false]
      omega
  have hplaces : ∀ io ∈ s.onFlightIos ++ [(⟨item, ix.locSectorNo (ix.id2loc item.id),
      ix.id2loc item.id, s.sectorIdx⟩ : Io D)],
        io.loc = ix.id2loc io.nbr.id ∧ io.pageId = ix.locSectorNo io.loc := by
    intro io hio
    obtain hio | hio := mem_append.1 hio
    · exact h.places io hio
    · rw [mem_singleton.1 hio]
      exact ⟨rfl, rfl⟩
  have hlen : (s.onFlightIos ++ [(⟨item, ix.locSectorNo (ix.id2loc item.id), ix.id2loc item.id,
      s.sectorIdx⟩ : Io D)]).length = s.onFlightIos.length + 1 := length_append
  cases cached with
  | true =>
    refine ⟨hlen ▸ hlt, hlen ▸ Nat.succ_le_succ hissued, hidx, by rw [← hlen] at hslots; exact hslots,
      fun r hr => ?_, fun io hio hfin => ?_, hplaces, h.nodes, hlocks⟩
    · obtain ⟨hf, io, hio, hslot, hpage⟩ := h.reads r hr
      refine ⟨?_, io, mem_append_left _ hio, hslot, hpage⟩
      exact (update_of_ne (hslot ▸ hne io hio) ..).trans hf
    · show Function.update s.sector s.sectorIdx _ io.slot = io.pageId
      have hfin : Function.update s.finished s.sectorIdx true io.slot = true := hfin
      obtain hio | hio := mem_append.1 hio
      · rw [update_of_ne (hne io hio)] at hfin ⊢
        exact h.arrived io hio hfin
      · rw [mem_singleton.1 hio, update_self]
  | false =>
    refine ⟨hlen ▸ hlt, hlen ▸ Nat.succ_le_succ hissued, hidx, by rw [← hlen] at hslots; exact hslots,
      fun r hr => ?_, fun io hio hfin => ?_, hplaces, h.nodes, hlocks⟩
    · show Function.update s.finished s.sectorIdx false r.slot = false ∧ _
      obtain hr | hr := mem_append.1 hr
      · obtain ⟨hf, io, hio, hslot, hpage⟩ := h.reads r hr
        refine ⟨?_, io, mem_append_left _ hio, hslot, hpage⟩
        rw [update_of_ne (hslot ▸ hne io hio)]
        exact hf
      · rw [mem_singleton.1 hr]
        exact ⟨update_self .., _, mem_append_right _ (mem_singleton_self _), rfl,
          rfl⟩
    · have hfin : Function.update s.finished s.sectorIdx false io.slot = true := hfin
      obtain hio | hio := mem_append.1 hio
      · rw [update_of_ne (hne io hio)] at hfin
        exact h.arrived io hio hfin
      · rw [mem_singleton.1 hio, update_self] at hfin
        cases hfin

end DiskANNEval.PipeANN.PipeSearch
