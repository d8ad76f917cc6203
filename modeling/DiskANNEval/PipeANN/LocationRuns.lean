import DiskANNEval.PipeANN.LocationSteps

/-!
# LocationRuns — runs of concurrent inserts

From an index of two points or more the maps stay right in every run (`mapsOk_of_two_le`).  With one
point the first insert writes past the end of `id2loc_`, since `resize(1.5 * 1)` makes no room.
-/

namespace DiskANNEval.PipeANN.LocationMaps

open Lib List Option

variable {ι : Type} [DecidableEq ι] {L : PageLayout} {s s' : State ι}

theorem Inv.step (h : Inv L s) (a : Act ι) {r : Except LocFault (State ι)}
    (hs : LocationMaps.step L s a = some r) : ∃ s', r = .ok s' ∧ Inv L s' := by
  cases a with
  | start i =>
    simp only [LocationMaps.step] at hs
    split at hs
    · rename_i hpc
      cases hs
      exact ⟨_, rfl, h.start hpc⟩
    · cases hs
  | alloc i nhood hintPages =>
    simp only [LocationMaps.step] at hs
    split at hs
    · rename_i hpc
      split_ifs at hs with hcond
      obtain ⟨maps, locs, reads, heq, hinv⟩ := h.alloc hpc hcond.1 hcond.2.1 hcond.2.2
      rw [heq] at hs
      cases hs
      exact ⟨_, rfl, hinv⟩
    · cases hs
  | setTarget i =>
    simp only [LocationMaps.step] at hs
    split at hs
    · rename_i hpc
      obtain ⟨loc, maps, hloc, heq, hinv⟩ := h.setTarget hpc
      rw [hloc] at hs
      dsimp only at hs
      rw [heq] at hs
      cases hs
      exact ⟨_, rfl, hinv⟩
    · cases hs
  | lock i =>
    simp only [LocationMaps.step] at hs
    split at hs
    · rename_i id todo hpc
      split at hs
      · rename_i idxLocks hl
        cases hs
        exact ⟨_, rfl, h.lock hpc hl⟩
      · cases hs
    · cases hs
  | move i =>
    simp only [LocationMaps.step] at hs
    split at hs
    · rename_i nbr hpc hnbr
      obtain ⟨orig, loc, maps, horig, hloc, heq, hinv⟩ := h.move hpc hnbr
      rw [horig, hloc] at hs
      dsimp only at hs
      rw [heq] at hs
      cases hs
      exact ⟨_, rfl, hinv⟩
    · cases hs
  | commit i =>
    simp only [LocationMaps.step] at hs
    split at hs
    · rename_i hpc hdone
      obtain ⟨maps, heq, hinv⟩ := h.commit hpc hdone
      rw [heq] at hs
      cases hs
      exact ⟨_, rfl, hinv⟩
    · cases hs
  | unlock i =>
    simp only [LocationMaps.step] at hs
    split at hs
    · rename_i id todo hpc
      obtain ⟨idxLocks, heq, hinv⟩ := h.unlock hpc
      rw [heq] at hs
      cases hs
      exact ⟨_, rfl, hinv⟩
    · cases hs

omit [DecidableEq ι] in
theorem Init.inv (h : Init L s) (h2 : 2 ≤ s.npoints) : Inv L s := by
  have hcur : s.npoints ≤ s.maps.curLoc := h.curLoc_eq ▸ L.le_alignUp s.npoints
  have hcalls : ∀ i, s.calls i = ⟨.idle, 0, [], [], [], []⟩ := fun i => congrFun h.calls_eq i
  have hcomm : ∀ id, s.Committed id ↔ id < s.npoints := by
    intro id
    rw [State.Committed, h.committed_eq]
    simp
  have hmoved : ∀ id loc, ¬ s.Moved id loc := by
    rintro id loc ⟨i, hi⟩
    simp [hcalls, Call.moves] at hi
  exact {
    wf := ⟨h.loc2id_length ▸ h2.trans hcur, h.loc2id_length.ge, h.curLoc_eq ▸ L.aligned_alignUp _,
      by rw [h.emptyPages_eq]; exact ⟨nodup_nil, by simp, by simp⟩⟩
    two_le := h.id2loc_length ▸ h2
    npoints_le := h.curId_eq.ge
    callOk := fun i => by rw [hcalls i]; exact ⟨rfl, rfl, rfl, rfl⟩
    owned := by
      refine ⟨fun i j id hi => ?_, fun i id hi => ?_, fun id hid => ?_⟩
      · simp [hcalls] at hi
      · simp [hcalls] at hi
      · simp [h.idxLocks_eq] at hid
    target_lt := fun i hi => by simp [Call.Started, hcalls] at hi
    target_inj := fun i j hi => by simp [Call.Started, hcalls] at hi
    committed_lt := by simp [h.committed_eq]
    target_new := by simp [h.committed_eq]
    nhood := fun i hi => by simp [Call.Open, hcalls] at hi
    locs_nodup := fun i => by simp [hcalls]
    locs := fun i => by simp [hcalls]
    locs_disjoint := fun i j loc hi => by simp [hcalls] at hi
    target_loc := by
      rintro i ⟨todo, hpc⟩
      simp [hcalls] at hpc
    moved := fun i k o hk => by simp [hcalls] at hk
    home := fun id hid => by
      obtain ⟨loc, h1, h2⟩ := h.located id ((hcomm id).1 hid)
      exact ⟨loc, h.loc2id_length ▸ lt_of_getElem? h2, h2, .inr ⟨hmoved id, h1⟩⟩
    live := fun loc _ id hcell =>
      ⟨(hcomm id).2 (h.live loc id hcell).1, .inr ⟨hmoved id, (h.live loc id hcell).2⟩⟩ }

omit [DecidableEq ι] in
theorem Inv.alloc_ok (h : Inv L s) {n : ℕ} {hintPages : List ℕ} (hn : 0 < n)
    (hh : HintsOk L s.maps.curLoc hintPages) :
    ∃ maps locs reads, allocLoc L n s.maps hintPages = .ok (maps, locs, reads) ∧
      locs.length = n ∧ locs.Nodup ∧
      ∀ loc ∈ locs, ¬ s.Live loc ∧ (∀ i, loc ∉ (s.calls i).locs) ∧
        ∀ id, s.Committed id → s.maps.id2loc[id]? ≠ some loc := by
  obtain ⟨maps, locs, reads, heq, ha⟩ := allocLoc_spec h.wf hn hh
  refine ⟨maps, locs, reads, heq, ha.length_eq, ha.nodup, fun loc hloc => ?_⟩
  have hlive : ∀ id, loc < s.maps.curLoc → s.maps.loc2id[loc]? ≠ some (.id id) := by
    intro id hlt hcell
    rw [ha.free loc hloc hlt] at hcell
    simp at hcell
  have hcalls : ∀ i, loc ∉ (s.calls i).locs := by
    intro i hi
    obtain ⟨hlt, hcell⟩ := h.locs i loc hi
    rw [ha.free loc hloc hlt] at hcell
    simp at hcell
  refine ⟨fun ⟨hlt, id, hcell⟩ => hlive id hlt hcell, hcalls, fun id hid hid2 => ?_⟩
  obtain ⟨loc', hlt, hcell, ⟨i, hi⟩ | ⟨-, hloc'⟩⟩ := h.home id hid
  · -- while `id` is moved, `id2loc` has a location of the call that moves it
    obtain ⟨-, -, -, -, l, hl, hid2'⟩ := h.mem_moves hi
    exact hcalls i (Option.some.inj (hid2.symm.trans hid2') ▸ hl)
  · obtain rfl := Option.some.inj (hid2.symm.trans hloc')
    exact hlive id hlt hcell

theorem Inv.mapsOk (h : Inv L s) : MapsOk L s where
  no_fault a f hf := by
    obtain ⟨s', hs', -⟩ := h.step a hf
    cases hs'
  id_loc id hid hfree := by
    obtain ⟨loc, -, hcell, hh⟩ := h.home id hid
    exact ⟨loc, (hh.resolve_left (h.not_moved_of_unlocked hfree loc)).2, hcell⟩
  loc_id loc hlt id hcell := by
    obtain ⟨hid, hh⟩ := h.live loc hlt id hcell
    exact ⟨hid, fun hfree => (hh.resolve_left (h.not_moved_of_unlocked hfree loc)).2⟩
  empty_pages := h.wf.queue.free
  alloc _ _ hn hh := h.alloc_ok hn hh

theorem next_eq_some {a : Act ι} : next L s a = some s' ↔ step L s a = some (.ok s') := by
  rw [next, bind_eq_some_iff]
  constructor
  · rintro ⟨(f | r), h1, h2⟩
    · cases h2
    · rw [h1, Option.some.inj h2]
  · intro h
    exact ⟨_, h, rfl⟩

/-- The index with the mapping `loc = id`. -/
def State.equalMapping (L : PageLayout) (npoints : ℕ) : State ι where
  npoints
  curId := npoints
  committed := []
  maps :=
    { id2loc := List.range npoints
      loc2id := (List.range npoints).map Slot.id ++
        List.replicate (L.alignUp npoints - npoints) .invalid
      emptyPages := []
      curLoc := L.alignUp npoints }
  idxLocks := fun _ => none
  calls := fun _ => ⟨.idle, 0, [], [], [], []⟩

omit [DecidableEq ι] in
theorem init_equalMapping (npoints : ℕ) : Init L (State.equalMapping L npoints : State ι) := by
  have hcell : ∀ loc : ℕ, (State.equalMapping L npoints : State ι).maps.loc2id[loc]? =
      if loc < npoints then some (.id loc)
      else if loc < L.alignUp npoints then some .invalid else none := by
    intro loc
    simp only [State.equalMapping, getElem?_append, length_map, length_range, getElem?_replicate]
    split_ifs <;> first | rfl | omega | simp_all
  have hid : ∀ id < npoints, (State.equalMapping L npoints : State ι).maps.id2loc[id]? = some id :=
    fun id hlt => getElem?_range hlt
  have hle := L.le_alignUp npoints
  refine ⟨rfl, rfl, rfl, rfl, rfl, rfl, length_range, ?_, fun id hlt => ?_, fun loc id h => ?_,
    fun loc h => ?_⟩
  · simp only [State.equalMapping, length_append, length_map, length_range,
      length_replicate]
    omega
  · exact ⟨id, hid id hlt, (hcell id).trans (if_pos hlt)⟩
  · rw [hcell] at h
    split_ifs at h with hlt
    · obtain rfl := Slot.id.inj (Option.some.inj h)
      exact ⟨hlt, hid _ hlt⟩
    · simp at h
  · rw [hcell] at h
    split_ifs at h <;> simp at h

/-- From an index of two points or more, no step of any run goes wrong and the maps stay right. -/
theorem mapsOk_of_two_le (h : Reach (fun s => Init L s ∧ 2 ≤ s.npoints) (ofFn (next L)) s) :
    MapsOk L s := by
  refine Inv.mapsOk (Reach.invariant (P := Inv L) (fun s hs => hs.1.inv hs.2) ?_ h)
  intro s a s' hinv hs
  obtain ⟨s1, heq, hinv'⟩ := hinv.step a (next_eq_some.1 hs)
  cases heq
  exact hinv'

/-- Five nodes in a sector. -/
def fivePerSector : PageLayout := ⟨5, 1, Nat.one_pos⟩

/-- Two calls that share the neighbour `0`, on an index of two points; both have committed. -/
theorem mapsOk_of_two_calls : ∃ s : State Bool, s.maps.id2loc = [6, 5, 3, 7] ∧
    s.maps.curLoc = 10 ∧ MapsOk fivePerSector s := by
  have hrun : (runs (next fivePerSector) (State.equalMapping fivePerSector 2 : State Bool)
      [.start false, .start true, .alloc false [0] [1], .alloc true [1, 0] [], .setTarget false,
        .setTarget true, .lock false, .lock false, .move false, .commit false, .unlock false,
        .unlock false, .lock true, .lock true, .lock true, .move true, .move true, .commit true]).map
      (fun s => (s.maps.id2loc, s.maps.curLoc)) = some ([6, 5, 3, 7], 10) := by decide
  obtain ⟨s, hs, hv⟩ := map_eq_some_iff.mp hrun
  rw [Prod.mk.injEq] at hv
  exact ⟨s, hv.1, hv.2, mapsOk_of_two_le
    (reach_of_runs (.start ⟨init_equalMapping 2, le_rfl⟩) hs)⟩

/-- The fault of a step. -/
def faultOf (r : Option (Except LocFault (State ι))) : Option LocFault :=
  match r with
  | some (.error f) => some f
  | _ => none

omit [DecidableEq ι] in
theorem eq_of_faultOf {r : Option (Except LocFault (State ι))} {f : LocFault}
    (h : faultOf r = some f) : r = some (.error f) := by
  unfold faultOf at h
  split at h
  · rw [Option.some.inj h]
  · cases h

/-- With one point the first insert sets `id2loc_[1]`, and `resize(1.5 * 1)` makes no room. -/
theorem set_out_of_bounds : ∃ s : State Unit,
    Reach (Init fivePerSector) (ofFn (next fivePerSector)) s ∧
      step fivePerSector s (.setTarget ()) = some (.error .outOfBounds) ∧
      ¬ MapsOk fivePerSector s := by
  have hrun : (runs (next fivePerSector) (State.equalMapping fivePerSector 1 : State Unit)
      [.start (), .alloc () [0] []]).map (fun s =>
        faultOf (step fivePerSector s (.setTarget ()))) = some (some .outOfBounds) := by decide
  obtain ⟨s, hs, hv⟩ := map_eq_some_iff.mp hrun
  have hfault := eq_of_faultOf hv
  exact ⟨s, reach_of_runs (.start (init_equalMapping 1)) hs, hfault,
    fun hok => hok.no_fault _ _ hfault⟩

end DiskANNEval.PipeANN.LocationMaps
