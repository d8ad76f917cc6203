import DiskANNEval.PipeANN.LocationMaps

/-!
# LocationSteps — the invariant of the location maps

Between its allocation and its commit a call owns locations that nothing else has, and while it
moves its neighbours the old location still holds the record that `id2loc` no longer points to.
`Home` is the location that holds the record of an id in either case.  Each step of a call keeps
`Inv`, and none goes wrong.
-/

namespace DiskANNEval.PipeANN.LocationMaps

open Lib List Function Option

variable {ι : Type} [DecidableEq ι]

/-- How far a call has got. -/
def CallOk (c : Call) : Prop :=
  match c.pc with
  | .idle | .searching => c.nhood = [] ∧ c.locs = [] ∧ c.orig = [] ∧ c.held = []
  | .allocated =>
    c.nhood.Nodup ∧ c.locs.length = c.nhood.length + 1 ∧ c.orig = [] ∧ c.held = []
  | .locking todo =>
    c.nhood.Nodup ∧ c.locs.length = c.nhood.length + 1 ∧ c.orig.length ≤ c.nhood.length ∧
      (c.orig ≠ [] → todo = []) ∧ c.held ++ todo = lockIds c.target c.nhood
  | .unlocking todo => c.locs = [] ∧ c.orig = [] ∧ c.held = todo ∧ todo.Nodup

/-- Some call has moved `id` away from `loc`. -/
def State.Moved (s : State ι) (id loc : ℕ) : Prop := ∃ i, (id, loc) ∈ (s.calls i).moves

/-- The location that has the record of `id`. -/
def State.Home (s : State ι) (id loc : ℕ) : Prop :=
  s.Moved id loc ∨ (∀ loc', ¬ s.Moved id loc') ∧ s.maps.id2loc[id]? = some loc

structure Inv (L : PageLayout) (s : State ι) : Prop where
  wf : s.maps.Wf L
  two_le : 2 ≤ s.maps.id2loc.length
  npoints_le : s.npoints ≤ s.curId
  callOk : ∀ i, CallOk (s.calls i)
  owned : s.idxLocks.Owned fun i id => id ∈ (s.calls i).held
  target_lt : ∀ i, (s.calls i).Started →
    s.npoints ≤ (s.calls i).target ∧ (s.calls i).target < s.curId
  target_inj : ∀ i j, (s.calls i).Started → (s.calls j).Started →
    (s.calls i).target = (s.calls j).target → i = j
  committed_lt : ∀ id ∈ s.committed, id < s.curId
  target_new : ∀ i, (s.calls i).Open → (s.calls i).target ∉ s.committed
  nhood : ∀ i, (s.calls i).Open → ∀ id ∈ (s.calls i).nhood, s.Committed id
  locs_nodup : ∀ i, (s.calls i).locs.Nodup
  locs : ∀ i, ∀ loc ∈ (s.calls i).locs,
    loc < s.maps.curLoc ∧ s.maps.loc2id[loc]? = some .allocated
  locs_disjoint : ∀ i j loc, loc ∈ (s.calls i).locs → loc ∈ (s.calls j).locs → i = j
  target_loc : ∀ i, (s.calls i).Locking →
    s.maps.id2loc[(s.calls i).target]? = (s.calls i).locs[(s.calls i).nhood.length]?
  moved : ∀ i, ∀ k orig : ℕ, (s.calls i).orig[k]? = some orig → ∃ id loc,
    (s.calls i).nhood[k]? = some id ∧ (s.calls i).locs[k]? = some loc ∧
      orig < s.maps.curLoc ∧ s.maps.loc2id[orig]? = some (.id id) ∧
      s.maps.id2loc[id]? = some loc
  home : ∀ id, s.Committed id → ∃ loc < s.maps.curLoc,
    s.maps.loc2id[loc]? = some (.id id) ∧ s.Home id loc
  live : ∀ loc < s.maps.curLoc, ∀ id, s.maps.loc2id[loc]? = some (.id id) →
    s.Committed id ∧ s.Home id loc

variable {L : PageLayout} {s s' : State ι} {i : ι}

variable {id orig loc nbr : ℕ} {nhood : List ℕ}

omit [DecidableEq ι] in
theorem mem_lockIds {target : ℕ} : id ∈ lockIds target nhood ↔ id ∈ nhood ∨ id = target := by
  rw [lockIds]
  simp

omit [DecidableEq ι] in
theorem nodup_lockIds {target : ℕ} : (lockIds target nhood).Nodup := by
  rw [lockIds, (perm_insertionSort _ _).nodup_iff]
  exact nodup_dedup _

/-! ### What moves -/

section

omit [DecidableEq ι]

theorem Inv.mem_moves (h : Inv L s) (hm : (id, orig) ∈ (s.calls i).moves) :
    id ∈ (s.calls i).held ∧ s.Committed id ∧ orig < s.maps.curLoc ∧
      s.maps.loc2id[orig]? = some (.id id) ∧
      ∃ loc ∈ (s.calls i).locs, s.maps.id2loc[id]? = some loc := by
  obtain ⟨k, hk⟩ := mem_iff_getElem?.1 hm
  rw [Call.moves, getElem?_zip_eq_some] at hk
  obtain ⟨id', loc, hid, hloc, hlt, hcell, hid2⟩ := h.moved i k orig hk.2
  obtain rfl : id' = id := Option.some.inj (hid.symm.trans hk.1)
  refine ⟨?_, (h.live orig hlt id' hcell).1, hlt, hcell, loc, mem_of_getElem? hloc, hid2⟩
  -- a call that has moved something has all its locks
  have hne : (s.calls i).orig ≠ [] := by
    intro hnil
    simp [hnil] at hk
  have hok := h.callOk i
  cases hpc : (s.calls i).pc with
  | locking todo =>
    rw [CallOk, hpc] at hok
    obtain ⟨-, -, -, htodo, hheld⟩ := hok
    rw [htodo hne, append_nil] at hheld
    rw [hheld, mem_lockIds]
    exact .inl (mem_of_getElem? hid)
  | _ =>
    rw [CallOk, hpc] at hok
    first
      | exact absurd hok.2.2.1 hne
      | exact absurd hok.2.1 hne

theorem Inv.moved_unique (h : Inv L s) {j : ι} {orig' : ℕ} (hm : (id, orig) ∈ (s.calls i).moves)
    (hm' : (id, orig') ∈ (s.calls j).moves) : i = j ∧ orig = orig' := by
  obtain rfl := h.owned.exclusive i j id (h.mem_moves hm).1 (h.mem_moves hm').1
  refine ⟨rfl, ?_⟩
  have hnd : (s.calls i).nhood.Nodup := by
    have hok := h.callOk i
    cases hpc : (s.calls i).pc with
    | locking todo | allocated =>
      rw [CallOk, hpc] at hok
      exact hok.1
    | _ =>
      rw [CallOk, hpc] at hok
      first
        | exact hok.1 ▸ List.nodup_nil
        | (rw [Call.moves, hok.2.1] at hm; simp at hm)
  obtain ⟨k, hk⟩ := List.mem_iff_getElem?.1 hm
  obtain ⟨k', hk'⟩ := List.mem_iff_getElem?.1 hm'
  rw [Call.moves, getElem?_zip_eq_some] at hk hk'
  have hlt := (List.getElem?_eq_some_iff.1 hk.1).1
  obtain rfl : k = k' := (List.getElem?_inj hlt hnd).1 (hk.1.trans hk'.1.symm)
  exact Option.some.inj (hk.2.symm.trans hk'.2)

theorem Inv.not_moved_of_unlocked (h : Inv L s) (hfree : s.idxLocks id = none) (loc : ℕ) :
    ¬ s.Moved id loc := by
  rintro ⟨i, hi⟩
  have hheld := h.owned.held i id (h.mem_moves hi).1
  rw [hfree] at hheld
  cases hheld

theorem Inv.target_not_committed (h : Inv L s) (ho : (s.calls i).Open) :
    ¬ s.Committed (s.calls i).target := by
  have hst : (s.calls i).Started := by
    intro hpc
    simp [Call.Open, hpc] at ho
  rintro (hlt | hmem)
  · exact absurd hlt (Nat.not_lt.2 (h.target_lt i hst).1)
  · exact h.target_new i ho hmem

end

/-! ### The steps -/

theorem calls_setCall (c : Call) : (s.setCall i c).calls = Function.update s.calls i c := rfl

omit [DecidableEq ι] in
theorem home_of_home (hm : ∀ id loc, s'.Moved id loc ↔ s.Moved id loc)
    (hid : s.maps.id2loc[id]? = some loc → s'.maps.id2loc[id]? = some loc) (h : s.Home id loc) :
    s'.Home id loc := by
  obtain hmv | ⟨hnot, hloc⟩ := h
  · exact .inl ((hm id loc).2 hmv)
  · exact .inr ⟨fun l hl => hnot l ((hm id l).1 hl), hid hloc⟩

theorem moved_setCall {c : Call} (hc : c.moves = (s.calls i).moves) (id loc : ℕ) :
    (s.setCall i c).Moved id loc ↔ s.Moved id loc := by
  have hcalls : ∀ j, ((s.setCall i c).calls j).moves = (s.calls j).moves := by
    intro j
    rw [calls_setCall]
    by_cases hj : j = i
    · rw [hj, update_self, hc]
    · rw [update_of_ne hj]
  simp only [State.Moved, hcalls]

theorem Inv.setCall (h : Inv L s) {c : Call} {curId : ℕ} {idxLocks : LockTable ℕ}
    (hcur : s.curId ≤ curId) (hok : CallOk c)
    (howned : idxLocks.Owned fun j id => id ∈ (Function.update s.calls i c j).held)
    (htarget : c.Started → s.npoints ≤ c.target ∧ c.target < curId ∧
      ∀ j, j ≠ i → (s.calls j).Started → (s.calls j).target ≠ c.target)
    (hopen : c.Open → c.target ∉ s.committed ∧ ∀ id ∈ c.nhood, s.Committed id)
    (hlocs : c.locs = (s.calls i).locs) (horig : c.orig = (s.calls i).orig)
    (hnhood : c.nhood = (s.calls i).nhood)
    (hloc : c.Locking → (s.calls i).Locking ∧ c.target = (s.calls i).target) :
    Inv L (State.setCall { s with curId, idxLocks } i c) := by
  have hself : (State.setCall { s with curId, idxLocks } i c).calls i = c := update_self ..
  have hother : ∀ j, j ≠ i →
      (State.setCall { s with curId, idxLocks } i c).calls j = s.calls j :=
    fun j hj => update_of_ne hj ..
  have hmoves : c.moves = (s.calls i).moves := by rw [Call.moves, Call.moves, hnhood, horig]
  have hhome : ∀ id loc, s.Home id loc →
      (State.setCall { s with curId, idxLocks } i c).Home id loc := fun id loc => home_of_home
    (fun id loc => moved_setCall hmoves id loc) fun hl => hl
  have hview : ∀ j, ((State.setCall { s with curId, idxLocks } i c).calls j).locs =
      (s.calls j).locs ∧
      ((State.setCall { s with curId, idxLocks } i c).calls j).orig = (s.calls j).orig ∧
      ((State.setCall { s with curId, idxLocks } i c).calls j).nhood = (s.calls j).nhood := by
    intro j
    by_cases hj : j = i
    · subst hj
      rw [hself]
      exact ⟨hlocs, horig, hnhood⟩
    · rw [hother j hj]
      exact ⟨rfl, rfl, rfl⟩
  exact {
    wf := h.wf
    two_le := h.two_le
    npoints_le := h.npoints_le.trans hcur
    callOk := by
      intro j
      by_cases hj : j = i
      · rw [hj, hself]
        exact hok
      · rw [hother j hj]
        exact h.callOk j
    owned := howned
    target_lt := by
      intro j hst
      by_cases hj : j = i
      · rw [hj, hself] at hst ⊢
        exact ⟨(htarget hst).1, (htarget hst).2.1⟩
      · rw [hother j hj] at hst ⊢
        exact ⟨(h.target_lt j hst).1, (h.target_lt j hst).2.trans_le hcur⟩
    target_inj := by
      intro j k hj hk heq
      by_cases hji : j = i
      · subst hji
        by_cases hki : k = j
        · exact hki.symm
        · rw [hself] at hj heq
          rw [hother k hki] at hk heq
          exact absurd heq.symm ((htarget hj).2.2 k hki hk)
      · rw [hother j hji] at hj heq
        by_cases hki : k = i
        · subst hki
          rw [hself] at hk heq
          exact absurd heq ((htarget hk).2.2 j hji hj)
        · rw [hother k hki] at hk heq
          exact h.target_inj j k hj hk heq
    committed_lt := fun id hid => (h.committed_lt id hid).trans_le hcur
    target_new := by
      intro j ho
      by_cases hj : j = i
      · rw [hj, hself] at ho ⊢
        exact (hopen ho).1
      · rw [hother j hj] at ho ⊢
        exact h.target_new j ho
    nhood := by
      intro j ho
      by_cases hj : j = i
      · rw [hj, hself] at ho ⊢
        exact (hopen ho).2
      · rw [hother j hj] at ho ⊢
        exact h.nhood j ho
    locs_nodup := fun j => (hview j).1 ▸ h.locs_nodup j
    locs := fun j => (hview j).1 ▸ h.locs j
    locs_disjoint := by
      intro j k loc hj hk
      rw [(hview _).1] at hj hk
      exact h.locs_disjoint j k loc hj hk
    target_loc := by
      intro j hlk
      by_cases hj : j = i
      · subst hj
        rw [hself] at hlk ⊢
        obtain ⟨hlk', htgt⟩ := hloc hlk
        rw [htgt, hlocs, hnhood]
        exact h.target_loc j hlk'
      · rw [hother j hj] at hlk ⊢
        exact h.target_loc j hlk
    moved := by
      intro j k orig
      rw [(hview j).1, (hview j).2.1, (hview j).2.2]
      exact h.moved j k orig
    home := by
      intro id hid
      obtain ⟨loc, hlt, hcell, hh⟩ := h.home id hid
      exact ⟨loc, hlt, hcell, hhome id loc hh⟩
    live := fun loc hlt id hcell =>
      ⟨(h.live loc hlt id hcell).1, hhome id loc (h.live loc hlt id hcell).2⟩ }

theorem held_update {c : Call} (hc : c.held = (s.calls i).held) :
    (fun j id => id ∈ (Function.update s.calls i c j).held) = fun j id => id ∈ (s.calls j).held := by
  funext j id
  by_cases hj : j = i
  · rw [hj, update_self, hc]
  · rw [update_of_ne hj]

theorem Inv.start (h : Inv L s) (hpc : (s.calls i).pc = .idle) :
    Inv L ({ s with curId := s.curId + 1 }.setCall i ⟨.searching, s.curId, [], [], [], []⟩) := by
  have hok := h.callOk i
  rw [CallOk, hpc] at hok
  obtain ⟨hnhood, hlocs, horig, hheld⟩ := hok
  refine @Inv.setCall _ _ _ _ _ h _ _ s.idxLocks (Nat.le_succ _) ⟨rfl, rfl, rfl, rfl⟩ ?_ ?_ ?_
    hlocs.symm horig.symm hnhood.symm ?_
  · rw [held_update hheld.symm]
    exact h.owned
  · intro _
    refine ⟨h.npoints_le, Nat.lt_succ_self _, fun j _ hj => (h.target_lt j hj).2.ne⟩
  · intro _
    refine ⟨fun hmem => absurd (h.committed_lt _ hmem) (Nat.lt_irrefl _), ?_⟩
    rintro id (_ | _)
  · rintro ⟨todo, hpc'⟩
    cases hpc'

omit [DecidableEq ι] in
theorem Inv.target_ne (h : Inv L s) (hst : (s.calls i).Started) :
    ∀ j, j ≠ i → (s.calls j).Started → (s.calls j).target ≠ (s.calls i).target :=
  fun j hj hstj heq => hj (h.target_inj j i hstj hst heq)

theorem Inv.lock (h : Inv L s) {todo : List ℕ} {idxLocks : LockTable ℕ}
    (hpc : (s.calls i).pc = .locking (id :: todo))
    (hlock : s.idxLocks.trywrlock id = (idxLocks, true)) :
    Inv L ({ s with idxLocks }.setCall i { s.calls i with
      pc := .locking todo, held := (s.calls i).held ++ [id] }) := by
  have hst : (s.calls i).Started := by simp [Call.Started, hpc]
  have ho : (s.calls i).Open := by simp [Call.Open, hpc]
  have hok := h.callOk i
  rw [CallOk, hpc] at hok
  obtain ⟨hnd, hlen, hle, htodo, hheld⟩ := hok
  obtain ⟨hfree, rfl⟩ := h.owned.acquire hlock
  refine h.setCall le_rfl ?_ ?_ (fun _ => ⟨(h.target_lt i hst).1, (h.target_lt i hst).2,
    h.target_ne hst⟩) (fun _ => ⟨h.target_new i ho, h.nhood i ho⟩) rfl rfl rfl
    fun _ => ⟨⟨_, hpc⟩, rfl⟩
  · refine ⟨hnd, hlen, hle, fun hne => absurd (htodo hne) (by simp), ?_⟩
    rw [← hheld, append_assoc]
    rfl
  · refine h.owned.take (i := i) hfree fun j k => ?_
    by_cases hj : j = i
    · subst hj
      simp
    · simp [hj]

theorem Inv.unlock (h : Inv L s) {todo : List ℕ} (hpc : (s.calls i).pc = .unlocking (id :: todo)) :
    ∃ idxLocks, s.idxLocks.unlock id = some idxLocks ∧
      Inv L ({ s with idxLocks }.setCall i { s.calls i with
        pc := .unlocking todo, held := todo }) := by
  have hst : (s.calls i).Started := by simp [Call.Started, hpc]
  have hok := h.callOk i
  rw [CallOk, hpc] at hok
  obtain ⟨hlocs, horig, hheld, hnd⟩ := hok
  rw [nodup_cons] at hnd
  have howned := @LockTable.Owned.release _ _ _ _ _ (fun j k => k ∈ (Function.update s.calls i { s.calls i with
      pc := .unlocking todo, held := todo } j).held) i id h.owned (by simp [hheld]) fun j k => by
    by_cases hj : j = i
    · subst hj
      simp only [update_self, hheld, mem_cons, true_and]
      constructor
      · intro hk
        exact ⟨.inr hk, fun he => hnd.1 (he ▸ hk)⟩
      · rintro ⟨hk | hk, hne⟩
        · exact absurd hk hne
        · exact hk
    · simp [hj]
  refine ⟨_, howned.1, h.setCall le_rfl ⟨hlocs, horig, rfl, hnd.2⟩ howned.2
    (fun _ => ⟨(h.target_lt i hst).1, (h.target_lt i hst).2, h.target_ne hst⟩) ?_ rfl rfl rfl ?_⟩
  · intro ho
    simp [Call.Open] at ho
  · rintro ⟨todo', hpc'⟩
    cases hpc'

theorem Inv.targets (h : Inv L s) {c : Call} (hst : (s.calls i).Started)
    (hc : c.target = (s.calls i).target) :
    (∀ j, (Function.update s.calls i c j).Started →
      s.npoints ≤ (Function.update s.calls i c j).target ∧
        (Function.update s.calls i c j).target < s.curId) ∧
    ∀ j k, (Function.update s.calls i c j).Started → (Function.update s.calls i c k).Started →
      (Function.update s.calls i c j).target = (Function.update s.calls i c k).target → j = k := by
  have hview : ∀ j, (Function.update s.calls i c j).Started → (s.calls j).Started ∧
      (Function.update s.calls i c j).target = (s.calls j).target :=
    (forall_update_iff _ fun j (c : Call) => c.Started →
      (s.calls j).Started ∧ c.target = (s.calls j).target).2
      ⟨fun _ => ⟨hst, hc⟩, fun j _ hj => ⟨hj, rfl⟩⟩
  constructor
  · intro j hj
    obtain ⟨hj', hjt⟩ := hview j hj
    rw [hjt]
    exact h.target_lt j hj'
  · intro j k hj hk heq
    obtain ⟨hj', hjt⟩ := hview j hj
    obtain ⟨hk', hkt⟩ := hview k hk
    exact h.target_inj j k hj' hk' (hjt.symm.trans (heq.trans hkt))

theorem Inv.alloc (h : Inv L s) (hpc : (s.calls i).pc = .searching) {hintPages : List ℕ}
    (hnd : nhood.Nodup) (hcomm : ∀ id ∈ nhood, s.Committed id)
    (hhint : HintsOk L s.maps.curLoc hintPages) : ∃ maps locs reads,
      allocLoc L (nhood.length + 1) s.maps hintPages = .ok (maps, locs, reads) ∧
      Inv L ({ s with maps }.setCall i { s.calls i with pc := .allocated, nhood, locs }) := by
  obtain ⟨maps, locs, reads, heq, ha⟩ := allocLoc_spec h.wf (Nat.succ_pos nhood.length) hhint
  refine ⟨maps, locs, reads, heq, ?_⟩
  have hst : (s.calls i).Started := by simp [Call.Started, hpc]
  have ho : (s.calls i).Open := by simp [Call.Open, hpc]
  have hok := h.callOk i
  rw [CallOk, hpc] at hok
  obtain ⟨hnhood0, hlocs0, horig0, hheld0⟩ := hok
  set c : Call := { s.calls i with pc := .allocated, nhood, locs } with hc
  have hnot : ¬ c.Locking := by
    rintro ⟨todo, hpc'⟩
    cases hpc'
  have hmoved : ∀ id loc, (State.setCall { s with maps } i c).Moved id loc ↔ s.Moved id loc :=
    moved_setCall (by simp [Call.moves, hc, horig0])
  have hhome : ∀ id loc, s.Home id loc → (State.setCall { s with maps } i c).Home id loc :=
    fun id loc => home_of_home hmoved fun hid => by
      show maps.id2loc[id]? = some loc
      rwa [ha.id2loc_eq]
  -- the locations of the other calls are not handed out again
  have hother : ∀ j, ∀ loc ∈ (s.calls j).locs, loc < s.maps.curLoc ∧ loc ∉ locs := by
    intro j loc hloc
    obtain ⟨hlt, hcell⟩ := h.locs j loc hloc
    refine ⟨hlt, fun hmem => ?_⟩
    rw [ha.free loc hmem hlt] at hcell
    simp at hcell
  exact {
    wf := ha.wf
    two_le := ha.id2loc_eq.symm ▸ h.two_le
    npoints_le := h.npoints_le
    callOk := (forall_update_iff _ fun _ c => CallOk c).2
      ⟨⟨hnd, ha.length_eq, horig0, hheld0⟩, fun j _ => h.callOk j⟩
    owned := by
      have hheld := held_update (c := c) rfl
      exact hheld.symm ▸ h.owned
    target_lt := (h.targets (c := c) hst rfl).1
    target_inj := (h.targets (c := c) hst rfl).2
    committed_lt := h.committed_lt
    target_new := (forall_update_iff _ fun _ (c : Call) => c.Open →
        c.target ∉ s.committed).2 ⟨fun _ => h.target_new i ho, fun j _ => h.target_new j⟩
    nhood := (forall_update_iff _ fun _ (c : Call) => c.Open →
        ∀ id ∈ c.nhood, s.Committed id).2 ⟨fun _ => hcomm, fun j _ => h.nhood j⟩
    locs_nodup := (forall_update_iff _ fun _ (c : Call) => c.locs.Nodup).2
      ⟨ha.nodup, fun j _ => h.locs_nodup j⟩
    locs := (forall_update_iff _ fun _ (c : Call) => ∀ loc ∈ c.locs,
        loc < maps.curLoc ∧ maps.loc2id[loc]? = some .allocated).2
      ⟨fun loc hloc => ⟨ha.lt loc hloc, ha.allocated loc hloc⟩, fun j _ loc hloc => by
        obtain ⟨hlt, hnot⟩ := hother j loc hloc
        exact ⟨hlt.trans_le ha.curLoc_le, (ha.others loc hlt hnot).trans (h.locs j loc hloc).2⟩⟩
    locs_disjoint := by
      intro j k loc hj hk
      rw [calls_setCall] at hj hk
      by_cases hji : j = i
      · by_cases hki : k = i
        · exact hji.trans hki.symm
        · rw [hji, update_self] at hj
          rw [update_of_ne hki] at hk
          exact absurd hj (hother k loc hk).2
      · rw [update_of_ne hji] at hj
        by_cases hki : k = i
        · rw [hki, update_self] at hk
          exact absurd hk (hother j loc hj).2
        · rw [update_of_ne hki] at hk
          exact h.locs_disjoint j k loc hj hk
    target_loc := (forall_update_iff _ fun _ (c : Call) => c.Locking →
        maps.id2loc[c.target]? = c.locs[c.nhood.length]?).2
      ⟨fun hlk => absurd hlk hnot, fun j _ hj => ha.id2loc_eq.symm ▸ h.target_loc j hj⟩
    moved := by
      intro j k orig
      by_cases hj : j = i
      · rw [calls_setCall, hj]
        simp [hc, horig0]
      · rw [calls_setCall, update_of_ne hj]
        intro horig
        obtain ⟨id, loc, h1, h2, h3, h4, h5⟩ := h.moved j k orig horig
        obtain ⟨h3', h4'⟩ := ha.live_iff.2 ⟨h3, h4⟩
        exact ⟨id, loc, h1, h2, h3', h4', (congrArg (fun l : List ℕ => l[id]?) ha.id2loc_eq).trans h5⟩
    home := by
      intro id hid
      obtain ⟨loc, hlt, hcell, hh⟩ := h.home id hid
      obtain ⟨hlt', hcell'⟩ := ha.live_iff.2 ⟨hlt, hcell⟩
      exact ⟨loc, hlt', hcell', hhome id loc hh⟩
    live := by
      intro loc hlt id hcell
      obtain ⟨hlt', hcell'⟩ := ha.live_iff.1 ⟨hlt, hcell⟩
      obtain ⟨hid, hh⟩ := h.live loc hlt' id hcell'
      exact ⟨hid, hhome id loc hh⟩ }

omit [DecidableEq ι] in
theorem lt_of_getElem? {α : Type} {l : List α} {k : ℕ} {x : α} (h : l[k]? = some x) :
    k < l.length :=
  (List.getElem?_eq_some_iff.1 h).1

/-- A step of a call that sets `id2loc` under its locks. -/
theorem Inv.relocate (h : Inv L s) {id2loc : List ℕ} {pc : Pc} {orig : List ℕ}
    (hst : (s.calls i).Started) (ho : (s.calls i).Open) (htwo : 2 ≤ id2loc.length)
    (hok : CallOk { s.calls i with pc, orig })
    (htarget : ∀ j, (Function.update s.calls i { s.calls i with pc, orig } j).Locking →
      id2loc[(s.calls j).target]? = (s.calls j).locs[(s.calls j).nhood.length]?)
    (hmoved : ∀ j, ∀ k o : ℕ, (Function.update s.calls i { s.calls i with pc, orig } j).orig[k]? =
      some o → ∃ id loc, (s.calls j).nhood[k]? = some id ∧ (s.calls j).locs[k]? = some loc ∧
        o < s.maps.curLoc ∧ s.maps.loc2id[o]? = some (.id id) ∧ id2loc[id]? = some loc)
    (hhome : ∀ id loc, s.Committed id → s.Home id loc → (State.setCall { s with
      maps := { s.maps with id2loc } } i { s.calls i with pc, orig }).Home id loc) :
    Inv L (State.setCall { s with maps := { s.maps with id2loc } } i { s.calls i with pc, orig }) := by
  set c : Call := { s.calls i with pc, orig }
  have hview : ∀ j, (Function.update s.calls i c j).target = (s.calls j).target ∧
      (Function.update s.calls i c j).nhood = (s.calls j).nhood ∧
        (Function.update s.calls i c j).locs = (s.calls j).locs :=
    (forall_update_iff _ fun j (c : Call) => c.target = (s.calls j).target ∧
      c.nhood = (s.calls j).nhood ∧ c.locs = (s.calls j).locs).2
      ⟨⟨rfl, rfl, rfl⟩, fun _ _ => ⟨rfl, rfl, rfl⟩⟩
  have hopen : ∀ j, (Function.update s.calls i c j).Open → (s.calls j).Open :=
    (forall_update_iff _ fun j (c : Call) => c.Open → (s.calls j).Open).2
      ⟨fun _ => ho, fun _ _ => id⟩
  exact {
    wf := ⟨h.wf.two_le, h.wf.curLoc_le, h.wf.aligned, h.wf.queue⟩
    two_le := htwo
    npoints_le := h.npoints_le
    callOk := (forall_update_iff _ fun _ c => CallOk c).2 ⟨hok, fun j _ => h.callOk j⟩
    owned := by
      have hheld := held_update (c := c) rfl
      exact hheld.symm ▸ h.owned
    target_lt := (h.targets (c := c) hst rfl).1
    target_inj := (h.targets (c := c) hst rfl).2
    committed_lt := h.committed_lt
    target_new := fun j hj => (hview j).1.symm ▸ h.target_new j (hopen j hj)
    nhood := fun j hj => (hview j).2.1.symm ▸ h.nhood j (hopen j hj)
    locs_nodup := fun j => (hview j).2.2.symm ▸ h.locs_nodup j
    locs := fun j => (hview j).2.2.symm ▸ h.locs j
    locs_disjoint := by
      intro j k loc hj hk
      rw [calls_setCall, (hview _).2.2] at hj hk
      exact h.locs_disjoint j k loc hj hk
    target_loc := by
      intro j hj
      rw [calls_setCall, (hview j).1, (hview j).2.1, (hview j).2.2]
      exact htarget j hj
    moved := by
      intro j
      rw [calls_setCall, (hview j).2.1, (hview j).2.2]
      exact hmoved j
    home := by
      intro id hid
      obtain ⟨loc, hlt, hcell, hh⟩ := h.home id hid
      exact ⟨loc, hlt, hcell, hhome id loc hid hh⟩
    live := by
      intro loc hlt id hcell
      obtain ⟨hid, hh⟩ := h.live loc hlt id hcell
      exact ⟨hid, hhome id loc hid hh⟩ }

/-- Setting the location of an id that is not committed, and is not the target of another call. -/
theorem Inv.setTarget (h : Inv L s) (hpc : (s.calls i).pc = .allocated) :
    ∃ loc maps, (s.calls i).locs[(s.calls i).nhood.length]? = some loc ∧
      setId2loc s.maps (s.calls i).target loc = .ok maps ∧
      Inv L ({ s with maps }.setCall i { s.calls i with
        pc := .locking (lockIds (s.calls i).target (s.calls i).nhood) }) := by
  have hst : (s.calls i).Started := by simp [Call.Started, hpc]
  have ho : (s.calls i).Open := by simp [Call.Open, hpc]
  have hok := h.callOk i
  rw [CallOk, hpc] at hok
  obtain ⟨hnd, hlen, horig, hheld⟩ := hok
  have hlast : (s.calls i).nhood.length < (s.calls i).locs.length := by omega
  obtain ⟨id2loc, heq, hlen', hlt', hset, hkeep⟩ := resizeSet_spec (d := 0) h.two_le
    (s.calls i).target (s.calls i).locs[(s.calls i).nhood.length]
  refine ⟨_, { s.maps with id2loc }, getElem?_eq_getElem hlast, ?_, ?_⟩
  · simp only [setId2loc, heq]
    rfl
  set c : Call := { s.calls i with
    pc := .locking (lockIds (s.calls i).target (s.calls i).nhood) } with hc
  have hkeep' : ∀ id loc, id ≠ (s.calls i).target → s.maps.id2loc[id]? = some loc →
      id2loc[id]? = some loc := fun id loc hne hid => (hkeep id (lt_of_getElem? hid) hne).trans hid
  have hne : ∀ id, s.Committed id → id ≠ (s.calls i).target := by
    rintro id hid rfl
    exact h.target_not_committed ho hid
  have hmoved : ∀ id loc, (State.setCall { s with maps := { s.maps with id2loc } } i c).Moved id loc
      ↔ s.Moved id loc :=
    moved_setCall rfl
  have hhome : ∀ id loc, s.Committed id → s.Home id loc →
      (State.setCall { s with maps := { s.maps with id2loc } } i c).Home id loc :=
    fun id loc hid => home_of_home hmoved (hkeep' id loc (hne id hid))
  refine h.relocate hst ho (h.two_le.trans hlen')
    ⟨hnd, hlen, by simp [horig], by simp [horig], by simp [hheld]⟩ ?_ ?_ hhome
  · refine (forall_update_iff _ fun j (c : Call) => c.Locking →
      id2loc[(s.calls j).target]? = (s.calls j).locs[(s.calls j).nhood.length]?).2
      ⟨fun _ => hset.trans (getElem?_eq_getElem hlast).symm, fun j hj (hlk : (s.calls j).Locking) => ?_⟩
    -- the other targets are other ids
    obtain ⟨todo, hpcj⟩ := id hlk
    have hokj := h.callOk j
    rw [CallOk, hpcj] at hokj
    have hsome := getElem?_eq_getElem (l := (s.calls j).locs)
      (i := (s.calls j).nhood.length) (by omega)
    exact (hkeep' _ _ (h.target_ne hst j hj hlk.started)
      ((h.target_loc j hlk).trans hsome)).trans hsome.symm
  · have horig' : ∀ j, (Function.update s.calls i c j).orig = (s.calls j).orig :=
      (forall_update_iff _ fun j (c : Call) => c.orig = (s.calls j).orig).2 ⟨rfl, fun _ _ => rfl⟩
    intro j k orig hk
    rw [horig'] at hk
    obtain ⟨id, loc, h1, h2, h3, h4, h5⟩ := h.moved j k orig hk
    exact ⟨id, loc, h1, h2, h3, h4, hkeep' id loc (hne id (h.live orig h3 id h4).1) h5⟩

section

omit [DecidableEq ι]

theorem zip_concat {α β : Type} {l : List α} {m : List β} {a : α} (h : l[m.length]? = some a)
    (b : β) : l.zip (m ++ [b]) = l.zip m ++ [(a, b)] := by
  induction m generalizing l with
  | nil =>
    cases l with
    | nil => simp at h
    | cons x l => simpa using h
  | cons y m ih =>
    cases l with
    | nil => simp at h
    | cons x l => simpa using ih (by simpa using h)

theorem Inv.not_moved_of_held (h : Inv L s) (hheld : id ∈ (s.calls i).held)
    (hnot : (id, loc) ∉ (s.calls i).moves) : ¬ s.Moved id loc := by
  rintro ⟨j, hj⟩
  obtain rfl := h.owned.exclusive i j id hheld (h.mem_moves hj).1
  exact hnot hj

theorem Inv.held_of_locked (h : Inv L s) (hpc : (s.calls i).pc = .locking []) :
    id ∈ (s.calls i).held ↔ id ∈ (s.calls i).nhood ∨ id = (s.calls i).target := by
  have hok := h.callOk i
  rw [CallOk, hpc] at hok
  rw [← mem_lockIds, ← hok.2.2.2.2, append_nil]

theorem not_mem_moves (hnd : (s.calls i).nhood.Nodup)
    (hnbr : (s.calls i).nhood[(s.calls i).orig.length]? = some nbr) (loc : ℕ) :
    (nbr, loc) ∉ (s.calls i).moves := by
  intro hm
  obtain ⟨k, hk⟩ := mem_iff_getElem?.1 hm
  rw [Call.moves, getElem?_zip_eq_some] at hk
  have hlt := lt_of_getElem? hk.2
  have hlt' := lt_of_getElem? hk.1
  have := (getElem?_inj hlt' hnd).1 (hk.1.trans hnbr.symm)
  omega

end

theorem moved_setCall_concat {c : Call} (hc : c.moves = (s.calls i).moves ++ [(nbr, orig)])
    (id loc : ℕ) : (s.setCall i c).Moved id loc ↔ s.Moved id loc ∨ id = nbr ∧ loc = orig := by
  constructor
  · rintro ⟨j, hj⟩
    by_cases hji : j = i
    · rw [calls_setCall, hji, update_self, hc, mem_append, mem_singleton,
        Prod.mk.injEq] at hj
      exact hj.imp_left fun hj => ⟨i, hj⟩
    · rw [calls_setCall, update_of_ne hji] at hj
      exact .inl ⟨j, hj⟩
  · rintro (⟨j, hj⟩ | ⟨rfl, rfl⟩)
    · refine ⟨j, ?_⟩
      rw [calls_setCall]
      by_cases hji : j = i
      · rw [hji, update_self, hc]
        exact mem_append_left _ (hji ▸ hj)
      · rwa [update_of_ne hji]
    · refine ⟨i, ?_⟩
      rw [calls_setCall, update_self, hc]
      exact mem_append_right _ (mem_singleton_self _)

theorem Inv.move (h : Inv L s) (hpc : (s.calls i).pc = .locking [])
    (hnbr : (s.calls i).nhood[(s.calls i).orig.length]? = some nbr) :
    ∃ orig loc maps, s.maps.id2loc[nbr]? = some orig ∧
      (s.calls i).locs[(s.calls i).orig.length]? = some loc ∧
      setId2loc s.maps nbr loc = .ok maps ∧
      Inv L ({ s with maps }.setCall i { s.calls i with
        orig := (s.calls i).orig ++ [orig] }) := by
  have hst : (s.calls i).Started := by simp [Call.Started, hpc]
  have ho : (s.calls i).Open := by simp [Call.Open, hpc]
  have hok := h.callOk i
  rw [CallOk, hpc] at hok
  obtain ⟨hnd, hlen, hle, -, hheld⟩ := hok
  have hk := lt_of_getElem? hnbr
  have hcomm := h.nhood i ho nbr (mem_of_getElem? hnbr)
  have hnbrheld := (h.held_of_locked hpc).2 (.inl (mem_of_getElem? hnbr))
  have hnmoved : ∀ loc, ¬ s.Moved nbr loc := fun loc =>
    h.not_moved_of_held hnbrheld (not_mem_moves hnd hnbr loc)
  obtain ⟨orig, horig, hcell, hhome⟩ := h.home nbr hcomm
  have hid := (hhome.resolve_left (hnmoved orig)).2
  have hloc := getElem?_eq_getElem (l := (s.calls i).locs) (i := (s.calls i).orig.length)
    (by omega)
  set loc := (s.calls i).locs[(s.calls i).orig.length] with hlocdef
  refine ⟨orig, loc, { s.maps with id2loc := s.maps.id2loc.set nbr loc }, hid, hloc, ?_, ?_⟩
  · simp only [setId2loc, resizeSet_of_lt (lt_of_getElem? hid)]
    rfl
  set c : Call := { s.calls i with orig := (s.calls i).orig ++ [orig] } with hc
  set s' := State.setCall { s with maps :=
    { s.maps with id2loc := s.maps.id2loc.set nbr loc } } i c with hs'
  have hset : (s.maps.id2loc.set nbr loc)[nbr]? = some loc :=
    getElem?_set_self (lt_of_getElem? hid)
  have hkeep : ∀ id, id ≠ nbr → (s.maps.id2loc.set nbr loc)[id]? = s.maps.id2loc[id]? :=
    fun id hne => getElem?_set_ne (Ne.symm hne)
  have hmoved : ∀ id l, s'.Moved id l ↔ s.Moved id l ∨ id = nbr ∧ l = orig :=
    moved_setCall_concat (zip_concat hnbr orig)
  have hhome' : ∀ id l, s.Home id l → s'.Home id l := by
    intro id l hh
    by_cases hne : id = nbr
    · subst hne
      have hl := (hh.resolve_left (hnmoved l)).2
      exact .inl ((hmoved id l).2 (.inr ⟨rfl, Option.some.inj (hl.symm.trans hid)⟩))
    · refine hh.imp (fun hm => (hmoved id l).2 (.inl hm)) fun hnl => ⟨fun l' hm => ?_, ?_⟩
      · exact ((hmoved id l').1 hm).elim (hnl.1 l') fun hm => hne hm.1
      · exact (hkeep id hne).trans hnl.2
  have hmovedkeep : ∀ j, ∀ k o : ℕ, (s.calls j).orig[k]? = some o → ∃ id l,
      (s.calls j).nhood[k]? = some id ∧ (s.calls j).locs[k]? = some l ∧
        o < s.maps.curLoc ∧ s.maps.loc2id[o]? = some (.id id) ∧
        (s.maps.id2loc.set nbr loc)[id]? = some l := by
    intro j k o ho
    obtain ⟨id, l, h1, h2, h3, h4, h5⟩ := h.moved j k o ho
    refine ⟨id, l, h1, h2, h3, h4, (hkeep id ?_).trans h5⟩
    rintro rfl
    exact hnmoved o ⟨j, mem_iff_getElem?.2 ⟨k, getElem?_zip_eq_some.2 ⟨h1, ho⟩⟩⟩
  refine h.relocate hst ho (by rw [length_set]; exact h.two_le) ?_ ?_ ?_
    fun id l _ => hhome' id l
  · rw [CallOk, hpc]
    refine ⟨hnd, hlen, ?_, fun _ => rfl, hheld⟩
    rw [length_append]
    exact hk
  · have hkeep' : ∀ j, (s.calls j).Locking → (s.maps.id2loc.set nbr loc)[(s.calls j).target]? =
        (s.calls j).locs[(s.calls j).nhood.length]? := by
      intro j hlk
      refine (hkeep _ fun he => ?_).trans (h.target_loc j hlk)
      exact h.target_not_committed hlk.open (he ▸ hcomm)
    exact (forall_update_iff _ fun j (c : Call) => c.Locking →
      (s.maps.id2loc.set nbr loc)[(s.calls j).target]? =
        (s.calls j).locs[(s.calls j).nhood.length]?).2
      ⟨fun _ => hkeep' i ⟨[], hpc⟩, fun j _ => hkeep' j⟩
  · intro j k o hko
    by_cases hj : j = i
    · subst hj
      rw [update_self, getElem?_append] at hko
      split_ifs at hko with hklt
      · exact hmovedkeep j k o hko
      · rw [getElem?_singleton] at hko
        split_ifs at hko with hk0
        obtain rfl : k = (s.calls j).orig.length := by omega
        cases hko
        exact ⟨nbr, loc, hnbr, hloc, horig, hcell, hset⟩
    · rw [update_of_ne hj] at hko
      exact hmovedkeep j k o hko

omit [DecidableEq ι] in
theorem mem_zip_of_getElem? {α β : Type} {l : List α} {m : List β} {k : ℕ} {a : α} {b : β}
    (ha : l[k]? = some a) (hb : m[k]? = some b) : (a, b) ∈ l.zip m :=
  mem_iff_getElem?.2 ⟨k, getElem?_zip_eq_some.2 ⟨ha, hb⟩⟩

/-! ### The commit -/

section

omit [DecidableEq ι]

theorem Inv.orig_cell (h : Inv L s) {o : ℕ} (ho : o ∈ (s.calls i).orig) :
    o < s.maps.curLoc ∧ ∃ id ∈ (s.calls i).nhood, s.maps.loc2id[o]? = some (.id id) ∧
      (id, o) ∈ (s.calls i).moves := by
  obtain ⟨k, hk⟩ := mem_iff_getElem?.1 ho
  obtain ⟨id, loc, h1, -, h3, h4, -⟩ := h.moved i k o hk
  exact ⟨h3, id, mem_of_getElem? h1, h4, mem_zip_of_getElem? h1 hk⟩

theorem Inv.nodup_orig (h : Inv L s) (hnd : (s.calls i).nhood.Nodup) : (s.calls i).orig.Nodup := by
  rw [nodup_iff_getElem?_ne_getElem?]
  intro k k' hkk hk' heq
  have hk := getElem?_eq_getElem (l := (s.calls i).orig) (i := k) (by omega)
  obtain ⟨id, -, h1, -, -, h4, -⟩ := h.moved i k _ hk
  obtain ⟨id', -, h1', -, -, h4', -⟩ := h.moved i k' _ (heq.symm.trans hk)
  rw [h4, Option.some.injEq, Slot.id.injEq] at h4'
  have := (getElem?_inj (lt_of_getElem? h1) hnd).1 (h1.trans (h4' ▸ h1'.symm))
  omega

/-- Before the commit there is an old location for each neighbour, and a new one for the target too. -/
theorem Inv.lengths (h : Inv L s) (hpc : (s.calls i).pc = .locking [])
    (hdone : (s.calls i).nhood[(s.calls i).orig.length]? = none) :
    (s.calls i).orig.length = (s.calls i).nhood.length ∧
      (s.calls i).locs.length = (s.calls i).nhood.length + 1 := by
  have hok := h.callOk i
  rw [CallOk, hpc] at hok
  obtain ⟨-, hlen, hle, -, -⟩ := hok
  exact ⟨le_antisymm hle (getElem?_eq_none_iff.1 hdone), hlen⟩

theorem Inv.new_loc (h : Inv L s) (hpc : (s.calls i).pc = .locking [])
    (hdone : (s.calls i).nhood[(s.calls i).orig.length]? = none) :
    ∀ p ∈ (s.calls i).locs.zip ((s.calls i).nhood ++ [(s.calls i).target]),
      s.maps.id2loc[p.2]? = some p.1 ∧ p.2 ∈ (s.calls i).held := by
  rintro ⟨loc, id⟩ hp
  obtain ⟨horiglen, hlen⟩ := h.lengths hpc hdone
  obtain ⟨k, hk⟩ := mem_iff_getElem?.1 hp
  obtain ⟨hkl, hki⟩ := getElem?_zip_eq_some.1 hk
  rw [getElem?_append] at hki
  split_ifs at hki with hlt
  · obtain ⟨id', loc', h1, h2, -, -, h5⟩ := h.moved i k _ (getElem?_eq_getElem (by omega))
    obtain rfl : id' = id := Option.some.inj (h1.symm.trans hki)
    obtain rfl : loc' = loc := Option.some.inj (h2.symm.trans hkl)
    exact ⟨h5, (h.held_of_locked hpc).2 (.inl (mem_of_getElem? h1))⟩
  · rw [getElem?_singleton] at hki
    split_ifs at hki with hk0
    obtain rfl : k = (s.calls i).nhood.length := by omega
    cases hki
    exact ⟨(h.target_loc i ⟨[], hpc⟩).trans hkl, (h.held_of_locked hpc).2 (.inr rfl)⟩

theorem Inv.exists_new_loc (h : Inv L s) (hpc : (s.calls i).pc = .locking [])
    (hdone : (s.calls i).nhood[(s.calls i).orig.length]? = none) (hid : id ∈ (s.calls i).held) :
    ∃ loc ∈ (s.calls i).locs,
      (loc, id) ∈ (s.calls i).locs.zip ((s.calls i).nhood ++ [(s.calls i).target]) := by
  obtain ⟨-, hlen⟩ := h.lengths hpc hdone
  have hmem : id ∈ (s.calls i).nhood ++ [(s.calls i).target] := by
    rw [mem_append, mem_singleton]
    exact (h.held_of_locked hpc).1 hid
  obtain ⟨k, hk⟩ := mem_iff_getElem?.1 hmem
  have hlt := lt_of_getElem? hk
  rw [length_append, length_singleton] at hlt
  have hloc := getElem?_eq_getElem (l := (s.calls i).locs) (i := k) (by omega)
  exact ⟨_, mem_of_getElem? hloc, mem_zip_of_getElem? hloc hk⟩

theorem Inv.not_held_of_live (h : Inv L s) (hpc : (s.calls i).pc = .locking [])
    (hdone : (s.calls i).nhood[(s.calls i).orig.length]? = none) (hlt : loc < s.maps.curLoc)
    (hcell : s.maps.loc2id[loc]? = some (.id id)) (horig : loc ∉ (s.calls i).orig) :
    id ∉ (s.calls i).held := by
  intro hmem
  obtain ⟨hcomm, hhome⟩ := h.live loc hlt id hcell
  obtain hn | rfl := (h.held_of_locked hpc).1 hmem
  · obtain ⟨k, hk⟩ := mem_iff_getElem?.1 hn
    have hklt := lt_of_getElem? hk
    have horiglen := (h.lengths hpc hdone).1
    have hko := getElem?_eq_getElem (l := (s.calls i).orig) (i := k) (by omega)
    have hmv := mem_zip_of_getElem? hk hko
    obtain ⟨j, hj⟩ | ⟨hnot, -⟩ := hhome
    · exact horig ((h.moved_unique hmv hj).2 ▸ mem_of_getElem? hko)
    · exact hnot _ ⟨i, hmv⟩
  · have hlk : (s.calls i).Locking := ⟨[], hpc⟩
    exact h.target_not_committed hlk.open hcomm

end

theorem Inv.commit (h : Inv L s) (hpc : (s.calls i).pc = .locking [])
    (hdone : (s.calls i).nhood[(s.calls i).orig.length]? = none) :
    ∃ maps, eraseAndSetLoc L s.maps (s.calls i).orig (s.calls i).locs
        ((s.calls i).nhood ++ [(s.calls i).target]) = .ok maps ∧
      Inv L ({ s with maps, committed := (s.calls i).target :: s.committed }.setCall i
        { s.calls i with
          pc := .unlocking (lockIds (s.calls i).target (s.calls i).nhood)
          locs := [], orig := [] }) := by
  have hlk : (s.calls i).Locking := ⟨[], hpc⟩
  have hok := h.callOk i
  rw [CallOk, hpc] at hok
  obtain ⟨hnd, hlen, hle, -, hheld⟩ := hok
  rw [append_nil] at hheld
  have hheld' : ∀ id, id ∈ (s.calls i).held ↔ id ∈ (s.calls i).nhood ∨ id = (s.calls i).target :=
    fun id => h.held_of_locked hpc
  obtain ⟨maps, heq, hm⟩ := @eraseAndSetLoc_spec _ _ _ _
    ((s.calls i).nhood ++ [(s.calls i).target]) h.wf (by simp [hlen]) (h.locs_nodup i)
    (h.nodup_orig hnd) (h.locs i) fun o ho =>
      ⟨(h.orig_cell ho).1, (h.orig_cell ho).2.imp fun _ hid => hid.2.1⟩
  refine ⟨maps, heq, ?_⟩
  -- the other live cells stay
  have hkeep : ∀ loc id : ℕ, s.maps.loc2id[loc]? = some (.id id) → loc ∉ (s.calls i).orig →
      maps.loc2id[loc]? = some (.id id) := by
    intro loc id hcell horig
    refine (hm.others loc (fun hmem => ?_) horig).trans hcell
    rw [(h.locs i loc hmem).2] at hcell
    simp at hcell
  set c : Call := { s.calls i with
    pc := .unlocking (lockIds (s.calls i).target (s.calls i).nhood), locs := [], orig := [] } with hc
  set s' := State.setCall { s with maps, committed := (s.calls i).target :: s.committed } i c with hs'
  have hself : s'.calls i = c := update_self ..
  have hother : ∀ j, j ≠ i → s'.calls j = s.calls j := fun j hj => update_of_ne hj ..
  have hid2loc : s'.maps.id2loc = s.maps.id2loc := hm.id2loc_eq
  have hmoved : ∀ id loc, s'.Moved id loc → ∃ j, j ≠ i ∧ (id, loc) ∈ (s.calls j).moves := by
    rintro id loc ⟨j, hj⟩
    by_cases hji : j = i
    · rw [hji, hself, Call.moves, hc] at hj
      simp at hj
    · exact ⟨j, hji, hother j hji ▸ hj⟩
  have hhomenew : ∀ p ∈ (s.calls i).locs.zip ((s.calls i).nhood ++ [(s.calls i).target]),
      s'.Home p.2 p.1 := by
    intro p hp
    obtain ⟨hid, hph⟩ := h.new_loc hpc hdone p hp
    refine .inr ⟨fun loc hmv => ?_, hid2loc ▸ hid⟩
    obtain ⟨j, hji, hj⟩ := hmoved _ _ hmv
    exact hji (h.owned.exclusive j i _ (h.mem_moves hj).1 hph)
  have hhomeold : ∀ id loc, id ∉ (s.calls i).held → s.Home id loc → s'.Home id loc := by
    rintro id loc hnh (⟨j, hj⟩ | ⟨hnot, hloc⟩)
    · have hji : j ≠ i := by
        rintro rfl
        exact hnh (h.mem_moves hj).1
      exact .inl ⟨j, hother j hji ▸ hj⟩
    · refine .inr ⟨fun loc' hmv => ?_, hid2loc ▸ hloc⟩
      obtain ⟨j, -, hj⟩ := hmoved _ _ hmv
      exact hnot loc' ⟨j, hj⟩
  have hcommnew : ∀ id, s'.Committed id ↔ s.Committed id ∨ id = (s.calls i).target := by
    intro id
    rw [hs', State.setCall, State.Committed, State.Committed, mem_cons]
    tauto
  have hcommheld : ∀ id ∈ (s.calls i).held, s'.Committed id := by
    intro id hid
    exact (hcommnew id).2 (((hheld' id).1 hid).imp_left (h.nhood i hlk.open id))
  exact {
    wf := hm.wf
    two_le := hid2loc ▸ h.two_le
    npoints_le := h.npoints_le
    callOk := (forall_update_iff _ fun _ c => CallOk c).2
      ⟨⟨rfl, rfl, hheld, nodup_lockIds⟩, fun j _ => h.callOk j⟩
    owned := by
      have hheld := held_update (c := c) rfl
      exact hheld.symm ▸ h.owned
    target_lt := (h.targets (c := c) hlk.started rfl).1
    target_inj := (h.targets (c := c) hlk.started rfl).2
    committed_lt := forall_mem_cons.2 ⟨(h.target_lt i hlk.started).2, h.committed_lt⟩
    target_new := (forall_update_iff _ fun _ (c : Call) => c.Open →
        c.target ∉ (s.calls i).target :: s.committed).2
      ⟨fun ho => absurd ho (by simp [Call.Open]), fun j hji ho => by
        rw [mem_cons, not_or]
        refine ⟨h.target_ne hlk.started j hji fun hidle => ?_, h.target_new j ho⟩
        simp [Call.Open, hidle] at ho⟩
    nhood := (forall_update_iff _ fun _ (c : Call) => c.Open →
        ∀ id ∈ c.nhood, s'.Committed id).2
      ⟨fun ho => absurd ho (by simp [Call.Open]),
        fun j _ ho id hid => (hcommnew id).2 (.inl (h.nhood j ho id hid))⟩
    locs_nodup := (forall_update_iff _ fun _ (c : Call) => c.locs.Nodup).2
      ⟨nodup_nil, fun j _ => h.locs_nodup j⟩
    locs := (forall_update_iff _ fun _ (c : Call) => ∀ loc ∈ c.locs,
        loc < maps.curLoc ∧ maps.loc2id[loc]? = some .allocated).2
      ⟨by simp [hc], fun j hji loc hloc => by
        obtain ⟨hlt, hcell⟩ := h.locs j loc hloc
        refine ⟨hm.curLoc_eq ▸ hlt, (hm.others loc (fun hmem => ?_) fun hmem => ?_).trans hcell⟩
        · exact hji (h.locs_disjoint j i loc hloc hmem)
        · obtain ⟨-, id, -, hcell', -⟩ := h.orig_cell hmem
          rw [hcell] at hcell'
          simp at hcell'⟩
    locs_disjoint := by
      intro j k loc hj hk
      by_cases hji : j = i
      · rw [hji, hself, hc] at hj
        simp at hj
      · by_cases hki : k = i
        · rw [hki, hself, hc] at hk
          simp at hk
        · rw [hother j hji] at hj
          rw [hother k hki] at hk
          exact h.locs_disjoint j k loc hj hk
    target_loc := (forall_update_iff _ fun _ (c : Call) => c.Locking →
        s'.maps.id2loc[c.target]? = c.locs[c.nhood.length]?).2
      ⟨fun ⟨todo, hpc'⟩ => absurd hpc' (by simp [hc]), fun j _ hj => hid2loc ▸ h.target_loc j hj⟩
    moved := by
      intro j k o hko
      by_cases hji : j = i
      · rw [hji, hself, hc] at hko
        simp at hko
      · rw [hother j hji] at hko ⊢
        obtain ⟨id, loc, h1, h2, h3, h4, h5⟩ := h.moved j k o hko
        have hj := mem_zip_of_getElem? h1 hko
        refine ⟨id, loc, h1, h2, hm.curLoc_eq.symm ▸ h3, hkeep o id h4 fun hmem => ?_, hid2loc ▸ h5⟩
        obtain ⟨-, id', -, hcell', hmv⟩ := h.orig_cell hmem
        rw [h4, Option.some.injEq, Slot.id.injEq] at hcell'
        exact hji (h.moved_unique hj (hcell' ▸ hmv)).1
    home := by
      intro id hid
      by_cases hmem : id ∈ (s.calls i).held
      · obtain ⟨loc, hloc, hp⟩ := h.exists_new_loc hpc hdone hmem
        exact ⟨loc, hm.curLoc_eq.symm ▸ (h.locs i loc hloc).1, hm.news_eq _ hp, hhomenew _ hp⟩
      · have hcomm : s.Committed id := ((hcommnew id).1 hid).resolve_right fun he =>
          hmem ((hheld' id).2 (.inr he))
        obtain ⟨loc, hlt, hcell, hh⟩ := h.home id hcomm
        refine ⟨loc, hm.curLoc_eq.symm ▸ hlt, hkeep loc id hcell fun horig => ?_,
          hhomeold id loc hmem hh⟩
        obtain ⟨-, id', hn, hcell', -⟩ := h.orig_cell horig
        rw [hcell, Option.some.injEq, Slot.id.injEq] at hcell'
        exact hmem ((hheld' id).2 (.inl (hcell' ▸ hn)))
    live := by
      intro loc hlt id hcell
      have hlt : loc < s.maps.curLoc := hm.curLoc_eq ▸ hlt
      have hcell : maps.loc2id[loc]? = some (.id id) := hcell
      by_cases horig : loc ∈ (s.calls i).orig
      · rw [hm.olds_eq loc horig] at hcell
        simp at hcell
      by_cases hloc : loc ∈ (s.calls i).locs
      · -- a new location: its id is one of the call's
        obtain ⟨k, hk⟩ := mem_iff_getElem?.1 hloc
        have hklt := lt_of_getElem? hk
        have hki := getElem?_eq_getElem
          (l := (s.calls i).nhood ++ [(s.calls i).target]) (i := k) (by simp; omega)
        have hp := mem_zip_of_getElem? hk hki
        rw [hm.news_eq _ hp, Option.some.injEq, Slot.id.injEq] at hcell
        rw [← hcell]
        exact ⟨hcommheld _ (h.new_loc hpc hdone _ hp).2, hhomenew _ hp⟩
      · rw [hm.others loc hloc horig] at hcell
        obtain ⟨hcomm, hh⟩ := h.live loc hlt id hcell
        exact ⟨(hcommnew id).2 (.inl hcomm), hhomeold id loc (h.not_held_of_live hpc hdone hlt hcell horig) hh⟩ }

end DiskANNEval.PipeANN.LocationMaps
