import DiskANNEval.AiSAQ.Invariant
import DiskANNEval.Lib.Loops

/-!
# Build — `build` on a dynamic index

`build` fills the slots `[0, n)` from a file and sets `_nd`, and leaves `_empty_slots` as it finds it.
The constructor of a dynamic index has already put every slot there (`enable_delete`), so after `build`
the two only agree if the index had been in use and its empty slots were those from `n` on
(`slotsExact_build_iff`).
-/

namespace DiskANNEval.AiSAQ

open Lib Finset

variable {Vec Tag D : Type}

namespace Index

section Ops

variable (cfg : Config Vec D)

/-! ### `link` -/

/-- One point of `link`: its list, then the links back. -/
def linkNode (data : DataStore Vec) (start fuel : ℕ) (graph : Graph) (node : ℕ) :
    Except Fault Graph :=
  (searchForPointAndPrune cfg graph data start node fuel).bind fun pruned =>
    interInsert cfg data node pruned fuel (Function.update graph node pruned)

/-- One point of the final cleanup. -/
def cleanNode (data : DataStore Vec) (fuel : ℕ) (graph : Graph) (node : ℕ) : Except Fault Graph :=
  if cfg.indexingRange < (graph node).length then
    let dummyPool := ((graph node).eraseDups.filter (· ≠ node)).map fun nbr =>
      Neighbor.new nbr (cfg.compare (data node) (data nbr))
    (pruneNeighbors cfg data node dummyPool fuel).map (Function.update graph node)
  else .ok graph

/-- `order`: the order in which the threads come to the points. -/
def link (order : SetOrder) (fuel : ℕ) (s : Index Vec Tag) : Except Fault (Index Vec Tag) :=
  let visitOrder := order.order (List.range s.nd ++ cfg.frozen)
  ((visitOrder.foldlM (linkNode cfg s.data cfg.maxPoints fuel) s.graph).bind fun graph =>
    visitOrder.foldlM (cleanNode cfg s.data fuel) graph).map fun graph =>
      { s with graph, start := cfg.maxPoints }

/-! ### `build` -/

/-- `medoid`: what `calculate_entry_point` gives for the vectors. -/
def generateFrozenPoint (medoid : DataStore Vec → ℕ) (s : Index Vec Tag) :
    Option String × Index Vec Tag :=
  if 1 < cfg.numFrozenPts then
    (some "More than one frozen point not supported in generate_frozen_point", s)
  else if s.nd = 0 then (some "ERROR: Can not pick a frozen point since nd=0", s)
  else (none, { s with data := Function.update s.data cfg.maxPoints (s.data (medoid s.data)) })

variable [DecidableEq Tag] [Zero Tag]

/-- The tags of the points, in the order of their slots. -/
def setTags (tags : List Tag) (s : Index Vec Tag) : Index Vec Tag :=
  { s with
    tagToLocation := tags.zipIdx.foldl (fun m e => m.insert e.1 e.2) s.tagToLocation
    locationToTag := tags.zipIdx.foldl (fun m e => m.set e.2 e.1) s.locationToTag }

/-- `none`: the search does not return. -/
def buildWithDataPopulated (tags : List Tag) (medoid : DataStore Vec → ℕ) (order : SetOrder)
    (fuel : ℕ) (s : Index Vec Tag) : Option (Outcome Tag × Index Vec Tag) :=
  if s.nd < 1 then some (.threw "Error: Trying to build an index with 0 points", s)
  else if tags.length ≠ s.nd then
    some (.threw ("ERROR: Driver requests loading " ++ toString s.nd ++
      " points from file,but tags vector is of size " ++ toString tags.length ++ ".\n"), s)
  else
    match (s.setTags tags).generateFrozenPoint cfg medoid with
    | (some msg, s) => some (.threw msg, s)
    | (none, s) =>
      match s.link cfg order fuel with
      | .error .stuck => none
      | .error (.threw msg) => some (.threw msg, s)
      | .ok s => some (.void, s)

/-- `file`: the points of the data file, which all go into the data store. -/
def build (file : List Vec) (numPointsToLoad : ℕ) (tags : List Tag) (medoid : DataStore Vec → ℕ)
    (order : SetOrder) (fuel : ℕ) (s : Index Vec Tag) : Option (Outcome Tag × Index Vec Tag) :=
  if numPointsToLoad = 0 then some (.threw "Do not call build with 0 points", s)
  else if cfg.maxPoints < file.length then
    some (.threw ("ERROR: Driver requests loading " ++ toString numPointsToLoad ++
      " points and file has " ++ toString file.length ++ " points, but index can support only " ++
      toString cfg.maxPoints ++ " points as specified in constructor.\n"), s)
  else if file.length < numPointsToLoad then
    some (.threw ("ERROR: Driver requests loading " ++ toString numPointsToLoad ++
      " points and file has only " ++ toString file.length ++ " points.\n"), s)
  else
    buildWithDataPopulated cfg tags medoid order fuel
      { s with
        nd := numPointsToLoad
        data := fun k => if k < cfg.totalPoints then cfg.preprocess (file[k]?.getD (s.data k))
          else s.data k }

end Ops

/-! ### The slots after `build` -/

section Slots

variable [DecidableEq Tag] [Zero Tag] (cfg : Config Vec D)

/-- The empty slots are exactly the locations with no point, and their number goes with `_nd`. -/
structure SlotsExact (s : Index Vec Tag) : Prop where
  empty_iff : ∀ k < cfg.maxPoints,
    k ∈ s.emptySlots.valuesVector ↔ ¬ (s.Live k ∨ k ∈ s.deleteSet)
  count : s.emptySlots.size + s.nd = cfg.maxPoints

variable {cfg} {s s' : Index Vec Tag} {tags : List Tag} {file : List Vec} {n fuel : ℕ}
  {medoid : DataStore Vec → ℕ} {order : SetOrder}

omit [DecidableEq Tag] in
theorem live_foldl_set {es : List (Tag × ℕ)} {m : NaturalNumberMap Tag} (k : ℕ) :
    (es.foldl (fun m e => m.set e.2 e.1) m).contains k = true ↔
      k ∈ es.map Prod.snd ∨ m.contains k = true := by
  induction es generalizing m with
  | nil => simp
  | cons e es ih =>
    rw [List.foldl_cons, ih, NaturalNumberMap.contains_iff_tryGet,
      NaturalNumberMap.contains_iff_tryGet]
    by_cases hk : k = e.2
    · rw [hk, NaturalNumberMap.tryGet_set_self]
      simp
    · rw [NaturalNumberMap.tryGet_set_ne _ _ hk]
      simp [hk]

theorem live_setTags (s : Index Vec Tag) (tags : List Tag) (k : ℕ) :
    (s.setTags tags).Live k ↔ k < tags.length ∨ s.Live k := by
  show (tags.zipIdx.foldl (fun m e => m.set e.2 e.1) s.locationToTag).contains k = true ↔ _
  rw [live_foldl_set]
  simp [Live]

omit [DecidableEq Tag] [Zero Tag] in
theorem link_eq_ok (h : s.link cfg order fuel = .ok s') :
    ∃ graph, s' = { s with graph, start := cfg.maxPoints } := by
  obtain ⟨graph, -, hs'⟩ := exists_of_map_eq_ok h
  exact ⟨graph, hs'⟩

theorem build_slots (h : s.build cfg file n tags medoid order fuel = some (.void, s')) :
    0 < n ∧ n ≤ cfg.maxPoints ∧ s'.nd = n ∧ s'.emptySlots = s.emptySlots ∧
      s'.deleteSet = s.deleteSet ∧ ∀ k, s'.Live k ↔ k < n ∨ s.Live k := by
  have hthrew : ∀ (msg : String) (s1 : Index Vec Tag),
      some (Outcome.threw msg, s1) ≠ some ((.void : Outcome Tag), s') := by simp
  unfold build at h
  split_ifs at h with h0 hmax hfile
  · exact absurd h (hthrew _ _)
  · exact absurd h (hthrew _ _)
  · exact absurd h (hthrew _ _)
  unfold buildWithDataPopulated at h
  split_ifs at h with h1 htags
  · exact absurd h (hthrew _ _)
  · exact absurd h (hthrew _ _)
  unfold generateFrozenPoint at h
  split_ifs at h
  · exact absurd h (hthrew _ _)
  · exact absurd h (hthrew _ _)
  dsimp only at h
  split at h
  · cases h
  · exact absurd h (hthrew _ _)
  · rename_i s1 hlink
    obtain rfl := (Prod.mk.inj (Option.some.inj h)).2
    obtain ⟨graph, rfl⟩ := link_eq_ok hlink
    have hlen : tags.length = n := by simpa using htags
    refine ⟨by omega, by omega, rfl, rfl, rfl, fun k => ?_⟩
    rw [← hlen]
    exact live_setTags s tags k

theorem slots_new : Slots cfg ∅ (new cfg : Index Vec Tag) :=
  { (Inv.init (fun _ => cfg.zeroVec) : Inv cfg (Index.init cfg fun _ => cfg.zeroVec : Index Vec Tag)).slots with }

/-- After `build` the slots agree exactly when the empty slots were those from `n` on before.  On an
index that has just been constructed all slots are empty, and `n` is not `0`. -/
theorem slotsExact_build_iff (hs : s = new cfg ∨ Reachable cfg s)
    (h : s.build cfg file n tags medoid order fuel = some (.void, s')) :
    SlotsExact cfg s' ↔ ∀ k, k ∈ s.emptySlots.valuesVector ↔ n ≤ k ∧ k < cfg.maxPoints := by
  have hslots : Slots cfg ∅ s := by
    rcases hs with rfl | hs
    · exact slots_new
    · exact (Inv.of_reachable hs).slots
  obtain ⟨hpos, hmax, hnd, hempty, hdel, hlive⟩ := build_slots h
  have hcard : s.emptySlots.valuesVector.toFinset.card = s.emptySlots.size :=
    List.toFinset_card_of_nodup hslots.emptyOk.nodup
  constructor
  · intro hexact
    have hcount := hexact.count
    rw [hnd, hempty] at hcount
    have hin : ∀ k, k ∈ s.emptySlots.valuesVector → n ≤ k ∧ k < cfg.maxPoints := by
      intro k hk
      have hlt := hslots.empty_lt k hk
      have hfree := (hexact.empty_iff k hlt).1 (hempty ▸ hk)
      rw [hlive] at hfree
      omega
    -- there are as many empty slots as slots from `n` on
    have heq : s.emptySlots.valuesVector.toFinset = Finset.Ico n cfg.maxPoints := by
      apply eq_of_subset_of_card_le
      · intro k hk
        rw [mem_Ico]
        exact hin k (List.mem_toFinset.1 hk)
      · rw [hcard, Nat.card_Ico]
        omega
    intro k
    rw [← List.mem_toFinset, heq, mem_Ico]
  · intro hk
    have heq : s.emptySlots.valuesVector.toFinset = Finset.Ico n cfg.maxPoints := by
      ext k
      rw [List.mem_toFinset, hk, mem_Ico]
    refine ⟨fun k hlt => ?_, ?_⟩
    · have hcov := hslots.covered k hlt
      have hl := hslots.live_free k
      have hd := hslots.deleted_free k
      simp only [notMem_empty, false_or] at hcov
      rw [hempty, hdel, hlive]
      constructor
      · rintro he ((hkn | hkl) | hkd)
        · have := ((hk k).1 he).1
          omega
        · exact (hl hkl).2 he
        · exact hd hkd he
      · intro hno
        tauto
    · rw [heq, Nat.card_Ico] at hcard
      rw [hempty, hnd]
      omega

/-- One point built into a new index of capacity `2`: both slots are empty, and there is one point. -/
theorem slotsExact_build_one : ∃ s' : Index ℕ ℕ, (new natConfig : Index ℕ ℕ).build natConfig [7] 1 [5]
      (fun _ => 0) .asIs 20 = some (.void, s') ∧ ¬ SlotsExact natConfig s' := by
  obtain ⟨s', hb⟩ : ∃ s', (new natConfig : Index ℕ ℕ).build natConfig [7] 1 [5] (fun _ => 0) .asIs 20 =
      some (.void, s') := by
    have h : ((new natConfig : Index ℕ ℕ).build natConfig [7] 1 [5] (fun _ => 0) .asIs 20).map
        (fun r => r.1.isVoid) = some true := by decide +kernel
    obtain ⟨⟨out, s'⟩, hs', hv⟩ := Option.map_eq_some_iff.mp h
    obtain rfl := Outcome.eq_void_of_isVoid hv
    exact ⟨s', hs'⟩
  refine ⟨s', hb, fun hexact => ?_⟩
  have hmem := (slotsExact_build_iff (Or.inl rfl) hb).1 hexact 0
  exact absurd (hmem.1 (by decide)).1 (by decide)

/-- In that index the slot of the point is among the empty ones, and `3` slots are counted of `2`. -/
theorem build_breaks_slots : ∃ s' : Index ℕ ℕ, (new natConfig : Index ℕ ℕ).build natConfig [7] 1 [5]
      (fun _ => 0) .asIs 20 = some (.void, s') ∧ s'.emptySlots.size + s'.nd = 3 ∧
    s'.Live 0 ∧ 0 ∈ s'.emptySlots.valuesVector ∧ ¬ SlotsExact natConfig s' := by
  have h : ((new natConfig : Index ℕ ℕ).build natConfig [7] 1 [5] (fun _ => 0) .asIs 20).map
      (fun r => (r.1.isVoid, r.2.emptySlots.size + r.2.nd, decide (r.2.Live 0),
        decide (0 ∈ r.2.emptySlots.valuesVector))) = some (true, 3, true, true) := by decide +kernel
  obtain ⟨⟨out, s'⟩, hs', hv⟩ := Option.map_eq_some_iff.mp h
  simp only [Prod.mk.injEq, decide_eq_true_eq] at hv
  obtain ⟨hout, hcount, hlive, hempty⟩ := hv
  obtain rfl := Outcome.eq_void_of_isVoid hout
  refine ⟨s', hs', hcount, hlive, hempty, fun hexact => ?_⟩
  have := hexact.count
  rw [hcount] at this
  exact absurd this (by decide)

end Slots

end Index

end DiskANNEval.AiSAQ
