import DiskANNEval.Gorgeous.SearchRuns

/-!
# BufferRuns — no buffer in use is read into

`Room` is asked of the states in which reads are sent, and of those in which the I/O limit ends the
traversal.  A step that starts in a state with `Room` violates nothing (`Total.step_ok`).
-/

namespace DiskANNEval.Gorgeous

open Lib List

variable {σ κ ρ : Type}

namespace Search

/-- What the functions of a search must not run into. -/
structure Total (S : Search σ κ ρ) (m : ℕ) (Good : (ℕ → Prop) → List FrontierNode → σ → Prop) :
    Prop where
  m_le : m ≤ maxNSectorReads
  process : ∀ P fn fns slot mem, Good P (fn :: fns) mem →
    ∃ mem', S.process fn slot fn.pid mem = .ok mem'
  cached_le : ∀ P fns mem, Good P fns mem → (S.select mem).cached.length ≤ maxNSectorReads
  pinned : ∀ P fns mem slot, Good P fns mem → S.pinned mem slot = true → P slot

/-- The ring is not used up, or there is room for the next reads behind the oldest page and nothing
points into a buffer; and the I/O limit does not leave anything behind. -/
def Room (S : Search σ κ ρ) (m : ℕ) (s : State σ κ) : Prop :=
  match s.phase with
  | .process => s.reads.numIos < S.ioLimit ∨
      s.reads.nIoInQ = 0 ∧ s.reads.nProcInQ = 0 ∧ s.nCachedInQ = 0
  | .dispatch => s.reads.nIoInQ = 0 → s.nCachedInQ = 0 → S.mayDispatch s.reads.nProcInQ = true →
      s.reads.numIos + m ≤ maxNSectorReads ∨
        2 * m + s.reads.nProcInQ ≤ maxNSectorReads + 1 ∧ ∀ slot, S.pinned s.mem slot = false
  | _ => True

variable {S : Search σ κ ρ} {m : ℕ} {Good : (ℕ → Prop) → List FrontierNode → σ → Prop}
  {Fetch : List ℕ → List ℕ → ℕ → σ → Prop} {s : State σ κ}

theorem Room.clean (h : S.Room m s) : S.Clean s := by
  intro hphase
  rwa [Room, hphase] at h

/-! ### The traversal -/

theorem Total.processStep (hT : S.Total m Good) (hS : S.Keeps m Good Fetch)
    (h : Traversing m Good s) : ∃ s', S.processStep s = .ok s' := by
  obtain ⟨fs, qs, items, hout, -, -, hgood⟩ := h
  unfold Search.processStep
  split_ifs with hproc
  · exact ⟨_, rfl⟩
  obtain _ | ⟨e, qs⟩ := qs
  · exact absurd hout.nProc hproc
  obtain ⟨hslot, hfn, hsector⟩ := hout.oldest
  have hperm : ((fs ++ e :: qs).map Sent.fn).Perm (e.fn :: (fs ++ qs).map Sent.fn) :=
    Perm.map Sent.fn perm_middle
  have hcons := hS.mono _ _ _ _ _ hgood (fun _ hP => hP) hperm
  obtain ⟨mem', hmem⟩ := hT.process _ _ _ e.slot _ hcons
  dsimp only
  rw [hslot, hfn, hsector]
  dsimp only
  rw [hmem]
  exact ⟨_, rfl⟩

theorem Total.dispatchStep (hT : S.Total m Good) (hS : S.Keeps m Good Fetch)
    (h : Traversing m Good s)
    (hroom : s.reads.nIoInQ = 0 → s.nCachedInQ = 0 → S.mayDispatch s.reads.nProcInQ = true →
      s.reads.numIos + m ≤ maxNSectorReads ∨
        2 * m + s.reads.nProcInQ ≤ maxNSectorReads + 1 ∧ ∀ slot, S.pinned s.mem slot = false) :
    ∃ s', S.dispatchStep s = .ok s' := by
  obtain ⟨fs, qs, items, hout, -, -, hgood⟩ := h
  unfold Search.dispatchStep
  split_ifs with hmay
  swap
  · exact ⟨_, rfl⟩
  obtain ⟨hio, hcached, hmay⟩ := hmay
  obtain rfl := length_eq_zero_iff.1 (hout.nIo.symm.trans hio)
  rw [if_neg (Nat.not_lt.2 (hT.cached_le _ _ _ hgood))]
  have hroom' := hroom hio hcached hmay
  have hpin : ∀ i < m, S.pinned s.mem ((s.reads.numIos + i) % maxNSectorReads) = false := by
    intro i hi
    obtain hroom' | ⟨-, hroom'⟩ := hroom'
    · refine Bool.eq_false_iff.2 fun hpin => ?_
      obtain ⟨turn, hlt, heq⟩ := hT.pinned _ _ _ _ hgood hpin
      exact turn_ne (by omega) (by omega) heq.symm
    · exact hroom' _
  have hgap : s.reads.numIos + m ≤ maxNSectorReads ∨ 2 * m + qs.length ≤ maxNSectorReads + 1 :=
    hroom'.imp_right fun hroom' => hout.nProc ▸ hroom'.1
  have hround : Outstanding.Round m s.reads.numIos s.reads [] :=
    ⟨rfl, fun e he => absurd he not_mem_nil⟩
  obtain ⟨r', hread⟩ := hout.readNodes_ok hround (by simpa using hS.frontier_le _ _ _ hgood)
    hT.m_le hgap hpin
  rw [hread]
  exact ⟨_, rfl⟩

/-! ### The vectors -/

/-- The reads of a batch are in the buffers from `first` on. -/
structure Consecutive (first : ℕ) (s : State σ κ) : Prop where
  untracked : ∀ slot, s.reads.secBuf2ftr slot = none
  idx : s.reads.sectorIdx = (first + s.nOps) % maxNSectorReads
  slots : s.reads.slots = (List.range s.nOps).map fun i => (first + i) % maxNSectorReads

theorem Consecutive.gatherOne {first : ℕ} (h : Consecutive first s)
    (hops : s.nOps < maxNSectorReads) (ids : List ℕ) (i : ℕ) :
    ∃ acc, S.gatherOne (s, ids) i = .ok acc ∧ Consecutive first acc.1 ∧
      acc.1.nOps ≤ s.nOps + 1 := by
  unfold Search.gatherOne
  dsimp only
  cases S.lookUp i s.mem with
  | skip => exact ⟨_, rfl, h, Nat.le_succ _⟩
  | cached id => exact ⟨_, rfl, h, Nat.le_succ _⟩
  | page pid =>
    have hnot : s.reads.sectorIdx ∉ s.reads.slots := by
      rw [h.slots, h.idx]
      intro hmem
      obtain ⟨i, hi, heq⟩ := mem_map.1 hmem
      rw [List.mem_range] at hi
      exact RingQueue.add_mod_ne hi (by omega) heq
    have hreq : s.reads.request (fun _ => false) pid = .ok { s.reads with
        sectorIdx := (s.reads.sectorIdx + 1) % maxNSectorReads
        inFlight := s.reads.inFlight ++ [⟨s.reads.sectorIdx, pid⟩] } := by
      rw [SectorReads.request, SectorReads.busy, h.untracked, decide_eq_false hnot]
      rfl
    dsimp only
    rw [hreq]
    refine ⟨_, rfl, ⟨h.untracked, ?_, ?_⟩, Nat.le_refl _⟩
    · show (s.reads.sectorIdx + 1) % maxNSectorReads = (first + (s.nOps + 1)) % maxNSectorReads
      rw [h.idx, Nat.mod_add_mod, Nat.add_assoc]
    · show (s.reads.inFlight ++ [_]).map Read.slot = _
      rw [map_append, range_succ, map_append, ← h.slots]
      show s.reads.slots ++ [s.reads.sectorIdx] = _
      rw [h.idx]
      rfl

theorem Consecutive.foldlM {first : ℕ} {l ids : List ℕ} (h : Consecutive first s)
    (hops : s.nOps + l.length ≤ maxNSectorReads) :
    ∃ acc, l.foldlM S.gatherOne (s, ids) = .ok acc := by
  induction l generalizing s ids with
  | nil => exact ⟨_, rfl⟩
  | cons i l ih =>
    rw [length_cons] at hops
    obtain ⟨⟨s1, ids1⟩, h1, hc, hle⟩ := h.gatherOne (by omega) ids i
    dsimp only at hc hle
    obtain ⟨acc, h2⟩ : ∃ acc, l.foldlM S.gatherOne (s1, ids1) = .ok acc := ih hc (by omega)
    refine ⟨acc, ?_⟩
    rw [foldlM_cons, h1]
    exact h2

theorem Drained.gatherStep_ok (h : Drained s) (hops : s.nOps = 0) :
    ∃ s', S.gatherStep s = .ok s' := by
  unfold Search.gatherStep
  split_ifs with hlt
  swap
  · exact ⟨_, rfl⟩
  have hlen : (S.batch s).length ≤ maxNSectorReads := by
    rw [Search.batch, length_range']
    exact Nat.min_le_left ..
  have hc : Consecutive s.reads.sectorIdx { s with secBuf2pid := fun _ => none } := by
    refine ⟨h.untracked, ?_, ?_⟩
    · show s.reads.sectorIdx = (s.reads.sectorIdx + s.nOps) % maxNSectorReads
      rw [hops, Nat.add_zero, Nat.mod_eq_of_lt h.idx_lt]
    · show s.reads.inFlight.map Read.slot = (List.range s.nOps).map _
      rw [h.inFlight hops, hops]
      rfl
  obtain ⟨acc, hfold⟩ : ∃ acc,
      (S.batch s).foldlM S.gatherOne ({ s with secBuf2pid := fun _ => none }, []) = .ok acc :=
    hc.foldlM (by dsimp only; omega)
  rw [hfold]
  exact ⟨_, rfl⟩

/-! ### Runs -/

theorem Total.step_ok (hT : S.Total m Good) (hS : S.Keeps m Good Fetch) (h : Inv S m Good Fetch s)
    (hroom : S.Room m s) (a : Act ρ) : ∃ s', S.step s a = .ok s' := by
  unfold Inv at h
  unfold Room at hroom
  unfold Search.step
  split at h <;> rename_i hphase <;> rw [hphase] at hroom <;> rw [hphase] <;> dsimp only at hroom ⊢
  · split_ifs
    · exact hT.processStep hS h
    · exact ⟨_, rfl⟩
  · exact ⟨_, rfl⟩
  · obtain ⟨s', hs', -⟩ := hS.eventsStep a.done h
    exact ⟨s', hs'⟩
  · exact hT.dispatchStep hS h hroom
  · exact ⟨_, rfl⟩
  · exact h.1.gatherStep_ok h.2.1
  · exact ⟨_, rfl⟩

end Search

end DiskANNEval.Gorgeous
