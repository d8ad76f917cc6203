import DiskANNEval.PipeANN.BeamSearch

/-!
# BeamCoords — the coordinates that an insertion prunes on

`do_beam_search` copies the coordinates of each expanded node to `coord_buf`, but enters the scratch
area of the query into `coord_map`, and the next node is read into the same area.  The places of
`coord_buf` are counted in elements, and its size is asked for in bytes.
-/

namespace DiskANNEval.PipeANN

open Lib BeamSearch List Option

variable {C D : Type}

/-- The search of `insert_in_place`; `sizeofT` is the size of a component. -/
structure InsertSearch (C D : Type) where
  entryPointId : ℕ
  curId : ℕ
  paramsL : ℕ
  beamWidth : ℕ
  dataDim : ℕ
  sizeofT : ℕ
  node : ℕ → BeamSearch.DiskNode C
  computeDist : ℕ → D
  compare : C → D
  isExcluded : ℕ → Bool
  paramsL_pos : 0 < paramsL
  beamWidth_pos : 0 < beamWidth

namespace InsertSearch

variable (a : InsertSearch C D)

/-- `ROUND_UP(data_dim, 8)` -/
def alignedDim : ℕ := (a.dataDim + 7) / 8 * 8

/-- The size of `coord_buf`. -/
def layout : CoordLayout where
  paramsL := a.paramsL
  alignedDim := a.alignedDim
  dataDim := a.dataDim
  sizeofT := a.sizeofT
  coordBufLen := 10 * a.paramsL * a.alignedDim

def search : Search C D where
  memTags := []
  entryPointId := a.entryPointId
  curId := a.curId
  lSearch := a.paramsL
  beamWidth := a.beamWidth
  node := a.node
  computeDist := a.computeDist
  compare := a.compare
  isExcluded := a.isExcluded
  dynSearchL := false
  layout := some a.layout
  lSearch_pos := a.paramsL_pos
  beamWidth_pos := a.beamWidth_pos

/-- Each expanded node has its own coordinates where `coord_map` leads, and all bytes that have been
written are in `coord_buf`. -/
structure Recorded (s : State C D) : Prop where
  coords : ∀ e ∈ s.fullRetset, ∃ p, s.coords.coordMap.lookup e.id = some p ∧
    s.coords.deref p = some (a.node e.id).coords
  inBuf : ∀ w ∈ s.coords.coordWrites, w.1 + w.2 ≤ a.layout.coordBufLen

/-- A node that is expanded next is the first one, or the scratch area has its coordinates already;
and its place is in `coord_buf`. -/
def Fits (s : State C D) (_ : Unit) : Prop :=
  ∀ id ∈ s.beam.head?,
    (s.fullRetset = [] ∨ s.coords.scratch = some (a.node id).coords) ∧
      s.coords.coordBufIdx * a.alignedDim * a.sizeofT + a.dataDim * a.sizeofT ≤
        a.layout.coordBufLen

variable {a} [LinearOrder D] [Zero D] {s s' : State C D}

/-! ### What a step does to the coordinates -/

omit [LinearOrder D] [Zero D] in
theorem record_eq_some {lay : CoordLayout} {id : ℕ} {c : C} {r r' : Coords C}
    (h : r.record lay id c = some r') :
    r'.scratch = r.scratch ∧
      r'.coordMap = (if r.coordMap.lookup id = none then r.coordMap ++ [(id, .scratch)]
        else r.coordMap) ∧
      r'.coordBufIdx = r.coordBufIdx + 1 ∧
      r'.coordWrites = r.coordWrites ++
        [(r.coordBufIdx * lay.alignedDim * lay.sizeofT, lay.dataDim * lay.sizeofT)] := by
  unfold Coords.record at h
  by_cases hguard : lay.paramsL * 10 < r.coordBufIdx
  · rw [if_pos hguard] at h
    cases h
  · rw [if_neg hguard] at h
    cases h
    exact ⟨rfl, rfl, rfl, rfl⟩

theorem expand_eq_some {id : ℕ} (h : a.search.expand s id = some s') :
    Coords.record a.layout id (a.node id).coords
        { s.coords with scratch := some (a.node id).coords } = some s'.coords ∧
      s'.fullRetset = s.fullRetset ++ [.new id (a.compare (a.node id).coords) true] := by
  obtain ⟨coords, hcoords, h⟩ := bind_eq_some_iff.1 h
  split_ifs at h
  cases h
  exact ⟨hcoords, rfl⟩

theorem step_cases (h : a.search.step s = some s') :
    (s.beam = [] ∧ s'.coords = s.coords ∧ s'.fullRetset = s.fullRetset) ∨
      ∃ id beam, s.beam = id :: beam ∧
        Coords.record a.layout id (a.node id).coords
          { s.coords with scratch := some (a.node id).coords } = some s'.coords ∧
        s'.fullRetset = s.fullRetset ++ [.new id (a.compare (a.node id).coords) true] := by
  unfold Search.step at h
  split at h
  · next hbeam =>
    by_cases hk : s.k < s.cands.curListSize
    · rw [if_pos hk] at h
      cases h
      refine Or.inl ⟨hbeam, ?_⟩
      by_cases hnone : (a.search.selectBeam s).beam = []
      · rw [if_pos hnone]
        exact ⟨rfl, rfl⟩
      · rw [if_neg hnone]
        exact ⟨rfl, rfl⟩
    · rw [if_neg hk] at h
      cases h
  · next id beam hbeam =>
    obtain ⟨t, ht, h⟩ := map_eq_some_iff.1 h
    obtain ⟨hcoords, hfull⟩ := expand_eq_some ht
    refine Or.inr ⟨id, beam, hbeam, ?_⟩
    split_ifs at h
    · obtain rfl := h
      exact ⟨hcoords, hfull⟩
    · obtain rfl := h
      exact ⟨hcoords, hfull⟩

/-- What has been expanded is entered with the scratch area, which the last one is in. -/
structure Mapped (a : InsertSearch C D) (s : State C D) : Prop where
  lookup : ∀ e ∈ s.fullRetset, s.coords.coordMap.lookup e.id = some .scratch
  pointers : ∀ id p, s.coords.coordMap.lookup id = some p → p = .scratch
  last : ∀ e ∈ s.fullRetset.getLast?, s.coords.scratch = some (a.node e.id).coords

theorem mapped_init (h : a.search.Init s) : a.Mapped s := by
  obtain ⟨scratch, buf, rfl⟩ := h
  refine ⟨?_, ?_, ?_⟩
  · exact fun e he => absurd he not_mem_nil
  · exact fun id p h => by cases h
  · exact fun e he => by cases he

omit [LinearOrder D] [Zero D] in
theorem lookup_enter (map : List (ℕ × Pointer)) (id : ℕ) {map' : List (ℕ × Pointer)}
    (h : map' = if map.lookup id = none then map ++ [(id, .scratch)] else map) :
    (map'.lookup id).isSome ∧ (∀ i p, map.lookup i = some p → map'.lookup i = some p) ∧
      ∀ i p, map'.lookup i = some p → map.lookup i = some p ∨ p = .scratch := by
  split_ifs at h with hnone
  · subst h
    refine ⟨?_, ?_, ?_⟩
    · simp [lookup_append, hnone]
    · intro i p hp
      rw [lookup_append, hp, some_or]
    · intro i p hp
      rw [lookup_append] at hp
      rcases or_eq_some_iff.1 hp with hp | ⟨-, hp⟩
      · exact Or.inl hp
      · by_cases hi : i = id
        · rw [hi, lookup_cons_self] at hp
          exact Or.inr (Option.some.inj hp).symm
        · rw [lookup_cons, beq_false_of_ne hi] at hp
          cases hp
  · subst h
    exact ⟨isSome_iff_ne_none.2 hnone, fun _ _ h => h, fun _ _ h => Or.inl h⟩

theorem Mapped.step (h : a.Mapped s) (hstep : a.search.step s = some s') : a.Mapped s' := by
  rcases step_cases hstep with ⟨-, hcoords, hfull⟩ | ⟨id, beam, -, hcoords, hfull⟩
  · refine ⟨?_, ?_, ?_⟩
    · rw [hfull, hcoords]
      exact h.lookup
    · rw [hcoords]
      exact h.pointers
    · rw [hfull, hcoords]
      exact h.last
  · obtain ⟨hscratch, hmap, -⟩ := record_eq_some hcoords
    obtain ⟨hnew, hkeep, hold⟩ := lookup_enter s.coords.coordMap id hmap
    have hpointers : ∀ i p, s'.coords.coordMap.lookup i = some p → p = .scratch :=
      fun i p hp => (hold i p hp).elim (h.pointers i p) fun hp => hp
    refine ⟨?_, hpointers, ?_⟩
    · intro e he
      rw [hfull] at he
      rcases mem_append.1 he with he | he
      · exact hkeep _ _ (h.lookup e he)
      · obtain ⟨p, hp⟩ := isSome_iff_exists.1 hnew
        obtain rfl := hpointers id p hp
        rw [mem_singleton.1 he]
        exact hp
    · intro e he
      rw [hfull, getLast?_concat] at he
      cases he
      rw [hscratch]
      rfl

section

omit [LinearOrder D] [Zero D]

theorem Mapped.coords_iff (h : a.Mapped s) :
    (∀ e ∈ s.fullRetset, ∃ p, s.coords.coordMap.lookup e.id = some p ∧
        s.coords.deref p = some (a.node e.id).coords) ↔
      ∀ e ∈ s.fullRetset, s.coords.scratch = some (a.node e.id).coords := by
  constructor
  · intro hcoords e he
    obtain ⟨p, hp, hderef⟩ := hcoords e he
    obtain rfl := h.pointers e.id p hp
    exact hderef
  · intro hscratch e he
    exact ⟨.scratch, h.lookup e he, hscratch e he⟩

theorem recorded_of_nil (hfull : s.fullRetset = []) (hwrites : s.coords.coordWrites = []) :
    a.Recorded s := by
  constructor
  · rw [hfull]
    simp
  · rw [hwrites]
    simp

/-- The scratch area holds what was expanded last, so it can hold what all have only if the next
node has the same coordinates. -/
theorem Mapped.scratch_iff (h : a.Mapped s) {id : ℕ} {d : D}
    (hscratch : s'.coords.scratch = some (a.node id).coords)
    (hfull : s'.fullRetset = s.fullRetset ++ [.new id d true]) :
    (∀ e ∈ s'.fullRetset, s'.coords.scratch = some (a.node e.id).coords) ↔
      (∀ e ∈ s.fullRetset, s.coords.scratch = some (a.node e.id).coords) ∧
        (s.fullRetset = [] ∨ s.coords.scratch = some (a.node id).coords) := by
  rw [hfull]
  rcases eq_nil_or_concat' s.fullRetset with hnil | ⟨front, last, hlast⟩
  · simp [hnil, hscratch, Neighbor.new]
  · have hs : s.coords.scratch = some (a.node last.id).coords := by
      refine h.last last ?_
      rw [hlast, getLast?_concat]
      rfl
    have hmem : last ∈ s.fullRetset := hlast ▸ mem_append_right _ (mem_singleton_self _)
    constructor
    · intro hall
      have heq : s.coords.scratch = s'.coords.scratch := by
        rw [hs, hall last (mem_append_left _ hmem)]
      rw [heq]
      exact ⟨fun e he => hall e (mem_append_left _ he), Or.inr hscratch⟩
    · rintro ⟨hall, hnext⟩ e he
      have heq : s'.coords.scratch = s.coords.scratch := by
        rcases hnext with hnil | hnext
        · rw [hnil] at hmem
          exact absurd hmem not_mem_nil
        · rw [hnext, hscratch]
      rw [heq]
      rcases mem_append.1 he with he | he
      · exact hall e he
      · rw [mem_singleton.1 he, ← heq]
        exact hscratch

end

theorem Mapped.recorded_step (h : a.Mapped s) (hstep : a.search.step s = some s') :
    a.Recorded s' ↔ a.Recorded s ∧ a.Fits s () := by
  have h' := h.step hstep
  rcases step_cases hstep with ⟨hbeam, hcoords, hfull⟩ | ⟨id, beam, hbeam, hcoords, hfull⟩
  · have hfits : a.Fits s () := by
      rintro id hid
      rw [hbeam] at hid
      cases hid
    constructor
    · intro hr
      refine ⟨⟨?_, ?_⟩, hfits⟩
      · rw [← hfull, ← hcoords]
        exact hr.coords
      · rw [← hcoords]
        exact hr.inBuf
    · rintro ⟨hr, -⟩
      refine ⟨?_, ?_⟩
      · rw [hfull, hcoords]
        exact hr.coords
      · rw [hcoords]
        exact hr.inBuf
  · obtain ⟨hscratch, -, -, hwrites⟩ := record_eq_some hcoords
    have hiff := h.scratch_iff hscratch hfull
    have hwrite : (∀ w ∈ s'.coords.coordWrites, w.1 + w.2 ≤ a.layout.coordBufLen) ↔
        (∀ w ∈ s.coords.coordWrites, w.1 + w.2 ≤ a.layout.coordBufLen) ∧
          s.coords.coordBufIdx * a.alignedDim * a.sizeofT + a.dataDim * a.sizeofT ≤
            a.layout.coordBufLen := by
      rw [hwrites, forall_mem_append, forall_mem_singleton]
      rfl
    have hfits : a.Fits s () ↔ (s.fullRetset = [] ∨ s.coords.scratch = some (a.node id).coords) ∧
        s.coords.coordBufIdx * a.alignedDim * a.sizeofT + a.dataDim * a.sizeofT ≤
          a.layout.coordBufLen := by
      simp [Fits, hbeam]
    constructor
    · rintro ⟨hmap, hbuf⟩
      obtain ⟨hall, hnext⟩ := hiff.1 (h'.coords_iff.1 hmap)
      obtain ⟨hbuf, hlast⟩ := hwrite.1 hbuf
      exact ⟨⟨h.coords_iff.2 hall, hbuf⟩, hfits.2 ⟨hnext, hlast⟩⟩
    · rintro ⟨⟨hmap, hbuf⟩, hok⟩
      obtain ⟨hnext, hlast⟩ := hfits.1 hok
      exact ⟨h'.coords_iff.2 (hiff.2 ⟨h.coords_iff.1 hmap, hnext⟩), hwrite.2 ⟨hbuf, hlast⟩⟩

theorem mapped_of_reach (h : Reach a.search.Init a.search.Step s) : a.Mapped s :=
  h.invariant (fun _ h => mapped_init h) fun _ _ _ h hstep => h.step hstep

/-- The coordinates of the expanded nodes are all there, and written in the buffer, in the runs that
expand only nodes that have the coordinates of the first one, as far as the buffer goes. -/
theorem recorded_iff (h : Reach a.search.Init a.search.Step s) :
    a.Recorded s ↔ Reach a.search.Init (guarded a.Fits a.search.Step) s := by
  constructor
  · intro hr
    induction h with
    | start h => exact .start h
    | @next s s' u h hstep ih =>
      obtain ⟨hr, hfits⟩ := ((mapped_of_reach h).recorded_step hstep).1 hr
      exact .next (ih hr) (a := u) ⟨hfits, hstep⟩
  · intro hr
    clear h
    induction hr with
    | start h =>
      obtain ⟨scratch, buf, rfl⟩ := h
      exact recorded_of_nil rfl rfl
    | @next s s' u hr hstep ih =>
      exact ((mapped_of_reach hr.of_guarded).recorded_step hstep.2).2 ⟨ih, hstep.1⟩

/-- Two nodes, of eight components of four bytes; the coordinates are numbers. -/
def twoNodes : InsertSearch ℕ ℕ where
  entryPointId := 0
  curId := 1
  paramsL := 2
  beamWidth := 1
  dataDim := 8
  sizeofT := 4
  node id := ⟨10 * (id + 1), [1 - id]⟩
  computeDist := id
  compare := id
  isExcluded _ := false
  paramsL_pos := Nat.two_pos
  beamWidth_pos := Nat.one_pos

theorem recorded_iff_twoNodes :
    twoNodes.Recorded (twoNodes.search.newState none fun _ => none) ↔
      Reach twoNodes.search.Init (guarded twoNodes.Fits twoNodes.search.Step)
        (twoNodes.search.newState none fun _ => none) :=
  recorded_iff (.start ⟨none, fun _ => none, rfl⟩)

/-- The search expands both nodes and ends, and the first one has the coordinates of the second. -/
theorem twoNodes_not_recorded :
    ∃ s, Reach twoNodes.search.Init twoNodes.search.Step s ∧ twoNodes.search.step s = none ∧
      ¬ twoNodes.Recorded s := by
  have hrun : ((runs (fun s (_ : Unit) => twoNodes.search.step s)
      (twoNodes.search.newState none fun _ => none) [(), (), (), ()]).map fun s =>
        ((twoNodes.search.step s).isNone, s.fullRetset.map Neighbor.id, s.coords.coordMap,
          s.coords.scratch)) = some (true, [0, 1], [(0, .scratch), (1, .scratch)], some 20) := by
    decide +kernel
  obtain ⟨s, hs, hview⟩ := map_eq_some_iff.1 hrun
  simp only [Prod.mk.injEq] at hview
  obtain ⟨hnone, hfull, hmap, hscratch⟩ := hview
  refine ⟨s, reach_of_runs (.start ⟨none, fun _ => none, rfl⟩) hs,
    isNone_iff_eq_none.1 hnone, fun hr => ?_⟩
  obtain ⟨e, he, hid⟩ : ∃ e ∈ s.fullRetset, e.id = 0 := List.mem_map.1 (by simp [hfull])
  obtain ⟨p, hp, hderef⟩ := hr.coords e he
  rw [hid, hmap] at hp
  obtain rfl := Option.some.inj hp
  rw [Coords.deref, hscratch, hid] at hderef
  exact absurd hderef (by decide)

end InsertSearch

end DiskANNEval.PipeANN
