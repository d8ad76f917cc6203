import DiskANNEval.AiSAQ.FilteredIndex
import DiskANNEval.AiSAQ.Invariant
import DiskANNEval.Lib.Lockstep

/-!
# FilteredRuns — what `insert_point` does to a filtered index, and what holds in every run

`InsertResult` lists the ways in which `insert_point` returns, each with the index it leaves.  An
exception for want of a frozen point leaves the slot that had been reserved in no container; the
invariant of the runs (`Inv`) therefore speaks of `Slots` with some slots held.  Without labels a run
is one of `Index` (`trace_unfiltered`).
-/

namespace DiskANNEval.AiSAQ

open Lib List Option

variable {Vec Tag Label D : Type} [LinearOrder Label]

/-- `insert_point` has not inserted the point. -/
def Outcome.failed : Outcome Tag → Bool
  | .code c => c == -1
  | .threw _ => true
  | _ => false

/-! ### The graph work throws nothing -/

namespace Filtered

variable {cfg : FilterConfig Vec D} {graph : Graph} {data : DataStore Vec}
  {labels : Option (List (List Label))}

theorem noThrow_occludeRounds {location degree : ℕ} {pool : List (Neighbor D)} {alpha : D}
    {deleted : ℕ → Bool} (fuel : ℕ) (curAlpha : D) (st : List D × List ℕ) :
    NoThrow (occludeRounds cfg.toConfig data labels location pool alpha degree deleted fuel curAlpha
      st) := by
  induction fuel generalizing curAlpha st with
  | zero => exact fun msg h => by cases h
  | succ fuel ih =>
    rw [occludeRounds]
    split
    · exact ih _ _
    · exact fun msg h => by cases h

theorem noThrow_pruneNeighbors {pqDist : Bool} {location range maxc : ℕ} {pool : List (Neighbor D)}
    {alpha : D} (fuel : ℕ) :
    NoThrow (pruneNeighbors cfg.toConfig data labels pqDist location pool range maxc alpha fuel) := by
  rw [pruneNeighbors_eq]
  apply NoThrow.map
  unfold occludeList
  split
  · exact fun msg h => by cases h
  · exact noThrow_occludeRounds _ _ _

theorem noThrow_iterateLoop (detect : ℕ → Option Bool) (dist : ℕ → D) (fuel : ℕ)
    (st : SearchState D) : NoThrow (iterateLoop cfg.toConfig graph detect dist fuel st) := by
  induction fuel generalizing st with
  | zero => exact fun msg h => by cases h
  | succ fuel ih =>
    rw [iterateLoop]
    split
    · exact fun msg h => by cases h
    · apply NoThrow.bind
      · unfold expandNode
        dsimp only
        split_ifs
        all_goals exact fun msg h => by cases h
      · intro st' _
        exact ih st'

theorem noThrow_iterateToFixedPoint (detect : ℕ → Option Bool) (dist : ℕ → D) (lSize fuel : ℕ)
    {initIds : List ℕ} (h : ∀ i ∈ initIds, i < cfg.totalPoints) :
    NoThrow (iterateToFixedPoint cfg.toConfig graph detect dist lSize initIds fuel) := by
  apply NoThrow.bind
  · apply NoThrow.foldlM
    intro st i hi
    have hlt := h i hi
    unfold insertInit AiSAQ.insertInit
    rw [if_neg (by omega)]
    split
    · exact fun msg h => by cases h
    · exact fun msg h => by cases h
    · rw [if_neg (by omega)]
      split_ifs
      all_goals exact fun msg h => by cases h
  · intro st _
    exact noThrow_iterateLoop detect dist fuel st

theorem noThrow_filteredPool {cfg : FilterConfig Vec D} {labels : List (List Label)}
    {universal : Option Label} {dist : ℕ → D} {start location fuel : ℕ} {startIds : List ℕ}
    (hinit : ∀ i ∈ getInitIds cfg.toConfig start, i < cfg.totalPoints)
    (hstart : ∀ i ∈ startIds, i < cfg.totalPoints) :
    NoThrow (filteredPool cfg labels universal graph dist start location startIds fuel) := by
  apply NoThrow.bind
  · exact noThrow_iterateToFixedPoint _ _ _ _ hstart
  · intro pool _
    exact (AiSAQ.noThrow_iterateToFixedPoint _ _ _ _ hinit).map _

theorem noThrow_searchForPointAndPrune {labels : List (List Label)} {universal : Option Label}
    {start location fuel : ℕ} {startIds : List ℕ}
    (hinit : ∀ i ∈ getInitIds cfg.toConfig start, i < cfg.totalPoints)
    (hstart : ∀ i ∈ startIds, i < cfg.totalPoints) :
    NoThrow (searchForPointAndPrune cfg labels universal graph data start location startIds
      fuel) := by
  apply NoThrow.bind
  · split_ifs
    · exact noThrow_filteredPool hinit hstart
    · exact AiSAQ.noThrow_iterateToFixedPoint _ _ _ _ hinit
  · intro pool _
    exact noThrow_pruneNeighbors _

theorem noThrow_interInsert {labels : List (List Label)} (n : ℕ) (pruned : List ℕ) (fuel : ℕ)
    (graph : Graph) : NoThrow (interInsert cfg labels data n pruned fuel graph) := by
  apply NoThrow.foldlM
  intro g des _
  unfold linkBack
  dsimp only
  split_ifs
  · exact fun msg h => by cases h
  · exact fun msg h => by cases h
  · exact (noThrow_pruneNeighbors _).map _

end Filtered

namespace FilteredIndex

variable [DecidableEq Tag] [Zero Tag] {cfg : FilterConfig Vec D}
  {s s' s1 : FilteredIndex Vec Tag Label} {point : Vec} {tag : Tag} {labels : List Label} {k fuel : ℕ}
  {held : Finset ℕ} {out : Outcome Tag}

/-! ### The labels of a point -/

/-- What the loop over the labels leaves as it was. -/
structure Registered (cfg : FilterConfig Vec D) (s s1 : FilteredIndex Vec Tag Label) : Prop where
  toIndex_eq : s1.toIndex = { s.toIndex with data := s1.data }
  length_eq : s1.locationToLabels.length = s.locationToLabels.length
  labels_eq : ∀ k < cfg.maxPoints, s1.locationToLabels[k]? = s.locationToLabels[k]?
  used_le : s.frozenPtsUsed ≤ s1.frozenPtsUsed
  start_lt : (∀ label id, s.labelToStartId.lookup label = some id → id < cfg.totalPoints) →
    ∀ label id, s1.labelToStartId.lookup label = some id → id < cfg.totalPoints
  universal_eq : s1.universal = s.universal

section

omit [DecidableEq Tag] [Zero Tag]

theorem Registered.refl (s : FilteredIndex Vec Tag Label) : Registered cfg s s :=
  ⟨rfl, rfl, fun _ _ => rfl, le_rfl, id, rfl⟩

theorem registered_registerLabels {msg : Option String}
    (h : registerLabels cfg point labels s = some (msg, s1)) : Registered cfg s s1 := by
  induction labels generalizing s with
  | nil =>
    cases h
    exact .refl _
  | cons label rest ih =>
    rw [registerLabels] at h
    split_ifs at h with hin hfull
    · exact ih h
    · cases h
      exact .refl _
    · dsimp only at h
      split_ifs at h
      have hr := ih h
      refine ⟨?_, ?_, ?_, ?_, ?_, hr.universal_eq⟩
      · rw [hr.toIndex_eq]
      · rw [hr.length_eq, length_set]
      · intro k hk
        rw [hr.labels_eq k hk, getElem?_set_ne (by omega)]
      · have := hr.used_le
        dsimp only at this
        omega
      · intro hs
        apply hr.start_lt
        intro l id hl
        by_cases hll : l = label
        · rw [hll, AList.lookup_insert, Option.some.injEq] at hl
          unfold Config.totalPoints
          omega
        · rw [AList.lookup_insert_ne hll] at hl
          exact hs l id hl

theorem registerLabels_of_known (h : ∀ label ∈ labels, label ∈ s.labels) :
    registerLabels cfg point labels s = some (none, s) := by
  induction labels with
  | nil => rfl
  | cons label rest ih =>
    rw [registerLabels, if_pos (h label mem_cons_self)]
    exact ih fun l hl => h l (mem_cons_of_mem _ hl)

theorem used_lt_of_new {msg : Option String}
    (h : registerLabels cfg point labels s = some (msg, s1)) (hnew : ∃ label ∈ labels, label ∉ s.labels) :
    s.frozenPtsUsed < s1.frozenPtsUsed ∨ msg.isSome := by
  induction labels with
  | nil => simp at hnew
  | cons label rest ih =>
    rw [registerLabels] at h
    split_ifs at h with hin hfull
    · apply ih h
      obtain ⟨l, hl, hls⟩ := hnew
      rcases mem_cons.1 hl with rfl | hl
      · exact absurd hin hls
      · exact ⟨l, hl, hls⟩
    · cases h
      exact Or.inr rfl
    · dsimp only at h
      split_ifs at h
      have := (registered_registerLabels h).used_le
      dsimp only at this
      exact Or.inl (by omega)

end

/-! ### The ways in which `insert_point` returns -/

/-- The slot `k` has been taken out of `_empty_slots`, and the labels have been written for it. -/
def reserved (cfg : FilterConfig Vec D) (labels : List Label) (k : ℕ) (e : NaturalNumberSet)
    (s : FilteredIndex Vec Tag Label) : FilteredIndex Vec Tag Label :=
  { s with
    toIndex := { s.toIndex with emptySlots := e, nd := s.nd + 1 }
    locationToLabels :=
      if cfg.filteredIndex then s.locationToLabels.set k labels else s.locationToLabels }

inductive InsertResult (cfg : FilterConfig Vec D) (point : Vec) (tag : Tag) (labels : List Label)
    (s : FilteredIndex Vec Tag Label) : Outcome Tag → FilteredIndex Vec Tag Label → Prop
  | unchanged {out : Outcome Tag} (hout : out.failed = true)
      (h : tag = 0 ∨ cfg.filteredIndex = false ∨ labels = []) : InsertResult cfg point tag labels s out s
  | noFrozenPoint {k : ℕ} {e : NaturalNumberSet} {msg : String} {s1 : FilteredIndex Vec Tag Label}
      (hf : cfg.filteredIndex = true) (h0 : tag ≠ 0) (hl : labels ≠ [])
      (hpop : s.emptySlots.popAny = some (k, e))
      (hreg : registerLabels cfg point labels (reserved cfg labels k e s) = some (some msg, s1)) :
      InsertResult cfg point tag labels s (.threw msg) s1
  | tagTaken {k : ℕ} {e : NaturalNumberSet} {s1 : FilteredIndex Vec Tag Label}
      (hf : cfg.filteredIndex = true) (h0 : tag ≠ 0) (hl : labels ≠ [])
      (hpop : s.emptySlots.popAny = some (k, e))
      (hreg : registerLabels cfg point labels (reserved cfg labels k e s) = some (none, s1))
      (ht : (s.tagToLocation.lookup tag).isSome) :
      InsertResult cfg point tag labels s (.code (-1))
        { s1 with toIndex := { s1.toIndex with emptySlots := s.emptySlots, nd := s.nd } }
  | inserted {k : ℕ} {e : NaturalNumberSet} {s1 : FilteredIndex Vec Tag Label} {graph : Graph}
      {m : AList (fun _ : Label => ℕ)} (h0 : tag ≠ 0)
      (hpop : s.emptySlots.popAny = some (k, e))
      (hreg : Registered cfg (reserved cfg labels k e s) s1)
      (ht : s.tagToLocation.lookup tag = none)
      (hm : ∀ label id, m.lookup label = some id → id < cfg.totalPoints) :
      InsertResult cfg point tag labels s (.code 0)
        { s1 with
          toIndex := { s1.toIndex.setPoint cfg.toConfig k point tag with graph }
          labelToStartId := m }

omit [DecidableEq Tag] [Zero Tag] in
theorem startIds_lt {ls : List Label} {m : AList (fun _ : Label => ℕ)}
    (h : ∀ label id, m.lookup label = some id → id < cfg.totalPoints) :
    (∀ id ∈ (startIds ls m).1, id < cfg.totalPoints) ∧
      ∀ label id, (startIds ls m).2.lookup label = some id → id < cfg.totalPoints := by
  have hpos : 0 < cfg.totalPoints := cfg.maxPoints_pos.trans_le (Nat.le_add_right _ _)
  induction ls generalizing m with
  | nil => exact ⟨fun id hid => absurd hid not_mem_nil, h⟩
  | cons x xs ih =>
    rw [startIds]
    split
    · rename_i id hid
      refine ⟨?_, (ih h).2⟩
      intro j hj
      rcases mem_cons.1 hj with rfl | hj
      · exact h x _ hid
      · exact (ih h).1 j hj
    · have h' : ∀ label id, (m.insert x 0).lookup label = some id → id < cfg.totalPoints := by
        intro label id hid
        by_cases hl : label = x
        · rw [hl, AList.lookup_insert, Option.some.injEq] at hid
          omega
        · rw [AList.lookup_insert_ne hl] at hid
          exact h label id hid
      refine ⟨?_, (ih h').2⟩
      intro j hj
      rcases mem_cons.1 hj with rfl | hj
      · exact hpos
      · exact (ih h').1 j hj

/-- `insert_point` from the check of the tag on, for a slot that has been reserved. -/
theorem insertAt_cases (hk : k ∉ held) (h : Index.Slots cfg.toConfig (insert k held) s1.toIndex)
    (hstart : ∀ label id, s1.labelToStartId.lookup label = some id → id < cfg.totalPoints)
    (hi : s1.insertAt cfg k point tag fuel = some (out, s')) :
    ((s1.tagToLocation.lookup tag).isSome ∧ out = .code (-1) ∧
      s' = { s1 with toIndex := { s1.toIndex with
        emptySlots := s1.emptySlots.insert k, nd := s1.nd - 1 } }) ∨
    (s1.tagToLocation.lookup tag = none ∧ out = .code 0 ∧ ∃ graph m,
      (∀ label id, m.lookup label = some id → id < cfg.totalPoints) ∧
      s' = { s1 with
        toIndex := { s1.toIndex.setPoint cfg.toConfig k point tag with graph }
        labelToStartId := m }) := by
  unfold insertAt at hi
  by_cases ht : (s1.tagToLocation.lookup tag).isSome
  · rw [if_pos ht] at hi
    cases hrel : s1.toIndex.releaseLocation k with
    | none =>
      rw [hrel] at hi
      cases hi
    | some r =>
      obtain ⟨msg, idx⟩ := r
      obtain ⟨rfl, hidx, -⟩ := Index.Slots.release hk h hrel
      rw [hrel] at hi
      cases hi
      exact Or.inl ⟨ht, rfl, by rw [hidx]⟩
  · rw [if_neg ht] at hi
    dsimp only at hi
    rw [Bool.not_eq_true, isSome_eq_false_iff, isNone_iff_eq_none] at ht
    generalize hst : (if cfg.filteredIndex = true then
      startIds (s1.locationToLabels.getD k []) s1.labelToStartId else ([], s1.labelToStartId)) =
        starts at hi
    have hlt : (∀ id ∈ starts.1, id < cfg.totalPoints) ∧
        ∀ label id, starts.2.lookup label = some id → id < cfg.totalPoints := by
      rw [← hst]
      split_ifs
      · exact startIds_lt hstart
      · exact ⟨fun id hid => absurd hid not_mem_nil, hstart⟩
    split at hi
    · cases hi
    · rename_i msg hlink
      refine absurd hlink (NoThrow.bind ?_ (fun _ _ => Filtered.noThrow_interInsert _ _ _ _) msg)
      exact Filtered.noThrow_searchForPointAndPrune h.initIds_lt hlt.1
    · rename_i graph hlink
      cases hi
      exact Or.inr ⟨ht, rfl, graph, _, hlt.2, rfl⟩

theorem Registered.slots (h : Registered cfg s s1) {held : Finset ℕ}
    (hs : Index.Slots cfg.toConfig held s.toIndex) : Index.Slots cfg.toConfig held s1.toIndex := by
  rw [h.toIndex_eq]
  exact { hs with }

theorem insertResult (h : Index.Slots cfg.toConfig held s.toIndex)
    (hstart : ∀ label id, s.labelToStartId.lookup label = some id → id < cfg.totalPoints)
    (hi : s.insertPoint cfg point tag labels fuel = some (out, s')) :
    InsertResult cfg point tag labels s out s' := by
  unfold insertPoint at hi
  by_cases h0 : tag = 0
  · rw [if_pos h0] at hi
    cases hi
    exact .unchanged rfl (Or.inl h0)
  rw [if_neg h0] at hi
  rcases h.reserveLocation_cases rfl with hr | ⟨k, e, hpop, hr⟩
  · rw [hr] at hi
    split_ifs at hi with hf
    cases hi
    exact .unchanged rfl (Or.inr (Or.inl (by simpa using hf)))
  rw [hr] at hi
  dsimp only at hi
  obtain ⟨hk, hslots⟩ := h.reserve hpop
  -- the slot that is given back is the one that was taken
  have hback : e.insert k = s.emptySlots := h.emptyOk.insert_popAny hpop
  by_cases hf : cfg.filteredIndex = true
  · rw [if_pos hf] at hi
    unfold insertLabelled at hi
    by_cases hl : labels.isEmpty
    · rw [if_pos hl] at hi
      cases hrel : Index.releaseLocation k
          ({ s.toIndex with emptySlots := e, nd := s.nd + 1 } : Index Vec Tag) with
      | none =>
        rw [hrel] at hi
        cases hi
      | some r =>
        obtain ⟨msg, idx⟩ := r
        obtain ⟨rfl, hidx, -⟩ := Index.Slots.release hk hslots hrel
        rw [hrel] at hi
        rw [hback] at hidx
        subst hidx
        cases hi
        exact .unchanged rfl (Or.inr (Or.inr (isEmpty_iff.1 hl)))
    · rw [if_neg hl] at hi
      have hne : labels ≠ [] := fun he => hl (isEmpty_iff.2 he)
      split_ifs at hi with hlt
      have hres : ({ s with
          toIndex := { s.toIndex with emptySlots := e, nd := s.nd + 1 }
          locationToLabels := s.locationToLabels.set k labels } : FilteredIndex Vec Tag Label) =
            reserved cfg labels k e s := by
        rw [reserved, if_pos hf]
      rw [hres] at hi
      cases hreg : registerLabels cfg point labels (reserved cfg labels k e s) with
      | none =>
        rw [hreg] at hi
        cases hi
      | some r =>
        obtain ⟨msg, s1⟩ := r
        rw [hreg] at hi
        have hr1 := registered_registerLabels hreg
        cases msg with
        | some msg =>
          cases hi
          exact .noFrozenPoint hf h0 hne hpop hreg
        | none =>
          have htags : s1.tagToLocation = s.tagToLocation := by rw [hr1.toIndex_eq]; rfl
          have hempty : s1.emptySlots = e := by rw [hr1.toIndex_eq]; rfl
          have hnd : s1.nd = s.nd + 1 := by rw [hr1.toIndex_eq]; rfl
          rcases insertAt_cases hk (hr1.slots hslots) (hr1.start_lt hstart) hi with
            ⟨ht, rfl, rfl⟩ | ⟨ht, rfl, graph, m, hm, rfl⟩
          · rw [hempty, hnd, hback]
            exact .tagTaken hf h0 hne hpop hreg (htags ▸ ht)
          · exact .inserted h0 hpop hr1 (htags ▸ ht) hm
  · rw [if_neg hf] at hi
    have hres : ({ s with toIndex := { s.toIndex with emptySlots := e, nd := s.nd + 1 } } :
        FilteredIndex Vec Tag Label) = reserved cfg labels k e s := by
      rw [reserved, if_neg hf]
    rw [hres] at hi
    have hslots' : Index.Slots cfg.toConfig (insert k held) (reserved cfg labels k e s).toIndex :=
      hslots
    rcases insertAt_cases hk hslots' hstart hi with ⟨ht, rfl, rfl⟩ | ⟨ht, rfl, graph, m, hm, rfl⟩
    · have hs : ({ reserved cfg labels k e s with toIndex := { (reserved cfg labels k e s).toIndex with
          emptySlots := (reserved cfg labels k e s).emptySlots.insert k
          nd := (reserved cfg labels k e s).nd - 1 } } : FilteredIndex Vec Tag Label) = s := by
        rw [← hres]
        rw [hback, Nat.add_sub_cancel]
      rw [hs]
      exact .unchanged rfl (Or.inr (Or.inl (by simpa using hf)))
    · exact .inserted h0 hpop (Registered.refl _) ht hm

/-! ### The invariant of the runs -/

/-- The slots in `held` have been reserved by an `insert_point` that threw. -/
structure Inv (cfg : FilterConfig Vec D) (s : FilteredIndex Vec Tag Label) : Prop where
  slots : ∃ held, Index.Slots cfg.toConfig held s.toIndex
  length_eq : cfg.filteredIndex = true → s.locationToLabels.length = cfg.totalPoints
  start_lt : ∀ label id, s.labelToStartId.lookup label = some id → id < cfg.totalPoints

theorem Inv.init (points : ℕ → Vec) (useUniversal : Bool) (universal : Label) :
    Inv cfg (init cfg points useUniversal universal : FilteredIndex Vec Tag Label) := by
  refine ⟨⟨∅, (Index.Inv.init points).slots⟩, ?_, ?_⟩
  · intro hf
    show (if _ then _ else _ : List (List Label)).length = _
    rw [if_pos hf, length_replicate]
  · intro label id hid
    have hnone : (∅ : AList (fun _ : Label => ℕ)).lookup label = some id := hid
    cases hnone

omit [DecidableEq Tag] [Zero Tag] [LinearOrder Label] in
theorem length_reserved (labels : List Label) (k : ℕ) (e : NaturalNumberSet)
    (s : FilteredIndex Vec Tag Label) :
    (reserved cfg labels k e s).locationToLabels.length = s.locationToLabels.length := by
  show (if _ then _ else _ : List (List Label)).length = _
  split_ifs
  · exact length_set
  · rfl

theorem Inv.insertPoint (h : Inv cfg s)
    (hi : s.insertPoint cfg point tag labels fuel = some (out, s')) : Inv cfg s' := by
  obtain ⟨⟨held, hslots⟩, hlen, hstart⟩ := h
  cases insertResult hslots hstart hi with
  | unchanged hout hc => exact ⟨⟨held, hslots⟩, hlen, hstart⟩
  | noFrozenPoint hf h0 hl hpop hreg =>
    have hr := registered_registerLabels hreg
    refine ⟨⟨_, hr.slots (hslots.reserve hpop).2⟩, ?_, hr.start_lt hstart⟩
    rw [hr.length_eq, length_reserved]
    exact hlen
  | tagTaken hf h0 hl hpop hreg ht =>
    have hr := registered_registerLabels hreg
    refine ⟨⟨held, ?_⟩, ?_, hr.start_lt hstart⟩
    · rw [hr.toIndex_eq]
      exact { hslots with }
    · show _ → List.length _ = _
      rw [hr.length_eq, length_reserved]
      exact hlen
  | inserted h0 hpop hreg ht hm =>
    obtain ⟨hk, hres⟩ := hslots.reserve hpop
    refine ⟨⟨held, ?_⟩, ?_, hm⟩
    · have hset := Index.Slots.setPoint hk (hreg.slots hres) h0
        (by rw [hreg.toIndex_eq]; exact ht) point
      exact { hset with }
    · show _ → List.length _ = _
      rw [hreg.length_eq, length_reserved]
      exact hlen

theorem Inv.consolidateDeletes (h : Inv cfg s) {p : DeleteParams D} {lockFree : Bool}
    {order : SetOrder} {orders : ℕ → SetOrder}
    (hr : s.consolidateDeletes cfg p lockFree order orders fuel = some (out, s')) : Inv cfg s' := by
  obtain ⟨⟨held, hslots⟩, hlen, hstart⟩ := h
  unfold FilteredIndex.consolidateDeletes at hr
  split_ifs at hr with hempty hcount
  · cases hr
    exact ⟨⟨held, hslots⟩, hlen, hstart⟩
  · cases hr
    exact ⟨⟨held, hslots⟩, hlen, hstart⟩
  · cases hr
    exact ⟨⟨held, hslots⟩, hlen, hstart⟩
  · cases hr
    exact ⟨⟨held, hslots⟩, hlen, hstart⟩
  -- the counts only agree when no slot is held
  obtain rfl : held = ∅ := by
    have := hslots.used_count
    rw [← Finset.card_eq_zero]
    omega
  dsimp only at hr
  split_ifs at hr with hst
  · have := hslots.deleted_lt _ (Index.mem_order.mp hst)
    rw [hslots.start_eq] at this
    omega
  split at hr
  · cases hr
  · rename_i graph numCalls hp
    have hs : Index.Slots cfg.toConfig (order.order (s.deleteSet.sort (· ≤ ·))).toFinset
        ({ s.toIndex with deleteSet := ∅, graph := graph } : Index Vec Tag) := by
      rw [Index.toFinset_order]
      exact { hslots.takeDeleted with }
    split at hr
    · cases hr
    · rename_i msg idx hrel
      cases (hs.releaseLocations Index.nodup_order hrel).1
    · rename_i idx hrel
      cases hr
      exact ⟨⟨∅, (hs.releaseLocations Index.nodup_order hrel).2.1⟩, hlen, hstart⟩

omit [LinearOrder Label] [DecidableEq Tag] [Zero Tag] in
theorem length_compactLabels {idx : Index Vec Tag} {ls ls' : List (List Label)}
    (h : compactLabels cfg idx ls = some ls') : ls'.length = ls.length := by
  unfold compactLabels at h
  rw [bind_eq_some_iff] at h
  obtain ⟨ls1, h1, h⟩ := h
  split_ifs at h
  cases h
  rw [length_mapIdx]
  apply foldlM_keeps (P := fun l => l.length = ls.length) rfl ?_ h1
  intro l hl old _ l' hl'
  unfold compactLabelsAt at hl'
  dsimp only at hl'
  split_ifs at hl'
  · rw [length_swapCells hl', hl]
  · cases hl'
    exact hl

theorem Inv.compactData (h : Inv cfg s) (hc : s.compactData cfg = some (out, s')) : Inv cfg s' := by
  unfold FilteredIndex.compactData at hc
  split_ifs at hc with h1 h2 h3 hf
  · cases hc
    exact h
  · cases hc
    exact h
  · cases hc
    exact h
  all_goals
    obtain ⟨⟨held, hslots⟩, hlen, hstart⟩ := h
    obtain ⟨ls, hls, heq⟩ := map_eq_some_iff.1 hc
    cases heq
    refine ⟨⟨_, hslots.compactSlots_held (Finset.card_eq_zero.mp (by omega))⟩, ?_, hstart⟩
    intro hf'
  · rw [length_compactLabels hls]
    exact hlen hf'
  · exact absurd hf' hf

theorem Inv.call (h : Inv cfg s) {a : Call Vec Tag Label D}
    (hc : s.call cfg a = some (out, s')) : Inv cfg s' := by
  cases a with
  | insertPoint point tag labels fuel => exact h.insertPoint hc
  | lazyDelete tag =>
    rw [← (Prod.mk.inj (Option.some.inj hc)).2]
    obtain ⟨⟨held, hslots⟩, hlen, hstart⟩ := h
    exact ⟨⟨held, hslots.lazyDelete tag⟩, hlen, hstart⟩
  | lazyDeleteBatch tags =>
    rw [← (Prod.mk.inj (Option.some.inj hc)).2]
    obtain ⟨⟨held, hslots⟩, hlen, hstart⟩ := h
    exact ⟨⟨held, hslots.lazyDeleteBatch tags⟩, hlen, hstart⟩
  | consolidateDeletes p lockFree order orders fuel => exact h.consolidateDeletes hc
  | compactData => exact h.compactData hc

theorem Inv.of_reachable (h : Reachable cfg s) : Inv cfg s := by
  refine Reach.invariant ?_ (fun s a s' hs hstep => ?_) h
  · rintro s ⟨points, useUniversal, universal, rfl⟩
    exact Inv.init points useUniversal universal
  · obtain ⟨out, hc⟩ := hstep
    exact hs.call hc

/-! ### Without labels -/

theorem searchForPointAndPrune_unfiltered (hf : cfg.filteredIndex = false)
    (labels : List (List Label)) (universal : Option Label) (graph : Graph) (data : DataStore Vec)
    (start location : ℕ) (starts : List ℕ) (fuel : ℕ) :
    Filtered.searchForPointAndPrune cfg labels universal graph data start location starts fuel =
      AiSAQ.searchForPointAndPrune cfg.toConfig graph data start location fuel := by
  unfold Filtered.searchForPointAndPrune AiSAQ.searchForPointAndPrune Filtered.pruneLabels
  rw [hf]
  simp only [Bool.false_eq_true, if_false, Filtered.pruneNeighbors_none]

theorem interInsert_unfiltered (hf : cfg.filteredIndex = false) (labels : List (List Label))
    (data : DataStore Vec) (n : ℕ) (pruned : List ℕ) (fuel : ℕ) (graph : Graph) :
    Filtered.interInsert cfg labels data n pruned fuel graph =
      AiSAQ.interInsert cfg.toConfig data n pruned fuel graph := by
  unfold Filtered.interInsert AiSAQ.interInsert
  unfold Filtered.linkBack AiSAQ.linkBack Filtered.pruneLabels
  rw [hf]
  simp only [Bool.false_eq_true, if_false, Filtered.pruneNeighbors_none]

/-- Without `_filtered_index` the labels are not looked at, and `insert_point` is that of `Index`. -/
theorem insertPoint_unfiltered (hf : cfg.filteredIndex = false) :
    s.insertPoint cfg point tag labels fuel =
      (s.toIndex.insertPoint cfg.toConfig point tag fuel).map fun r =>
        (r.1, { s with toIndex := r.2 }) := by
  have hlink : ∀ (s : FilteredIndex Vec Tag Label) (location : ℕ) (starts : List ℕ),
      s.linkPoint cfg location starts fuel = s.toIndex.linkPoint cfg.toConfig location fuel := by
    intro s location starts
    unfold linkPoint Index.linkPoint
    simp only [searchForPointAndPrune_unfiltered hf, interInsert_unfiltered hf]
  unfold insertPoint Index.insertPoint
  by_cases h0 : tag = 0
  · rw [if_pos h0, if_pos h0]
    rfl
  rw [if_neg h0, if_neg h0]
  rcases s.toIndex.reserveLocation cfg.toConfig with _ | ⟨_ | location, idx⟩
  · rfl
  · dsimp only
    rw [hf]
    rfl
  · dsimp only
    rw [hf]
    unfold insertAt
    dsimp only
    by_cases ht : (idx.tagToLocation.lookup tag).isSome
    · rw [if_pos ht, if_pos ht]
      rcases Index.releaseLocation location idx with _ | ⟨_ | msg, idx'⟩
      · rfl
      · rfl
      · rfl
    · rw [if_neg ht, if_neg ht, hf, hlink]
      rcases Index.linkPoint cfg.toConfig location fuel
        (Index.setPoint cfg.toConfig location point tag idx) with (msg | _) | graph
      · rfl
      · rfl
      · rfl

omit [DecidableEq Tag] [Zero Tag] in
theorem processDelete_unfiltered (hf : cfg.filteredIndex = false) (labels : List (List Label))
    (data : DataStore Vec) (graph : Graph) (deleted : List ℕ) (o : SetOrder) (p : DeleteParams D)
    (fuel loc : ℕ) :
    Filtered.processDelete cfg labels data graph deleted o p fuel loc =
      AiSAQ.processDelete cfg.toConfig data graph deleted o p fuel loc := by
  unfold Filtered.processDelete AiSAQ.processDelete Filtered.pruneLabels
  rw [hf, if_neg Bool.false_ne_true]
  split_ifs
  · dsimp only
    split_ifs
    · rfl
    · -- the list is longer than `range`, so there is something to choose from
      unfold Filtered.occludeList AiSAQ.occludeList
      rw [if_neg]
      · exact Filtered.occludeRounds_none cfg.toConfig data loc _ p.alpha p.range _ fuel _ _
      · rw [List.isEmpty_iff_length_eq_zero, sortPool, List.length_insertionSort, List.length_map]
        omega
  · rfl

omit [DecidableEq Tag] [Zero Tag] in
theorem processDeletes_unfiltered (hf : cfg.filteredIndex = false) (deleted : List ℕ)
    (orders : ℕ → SetOrder) (p : DeleteParams D) (fuel : ℕ) :
    processDeletes cfg s deleted orders p fuel =
      Index.processDeletes cfg.toConfig s.toIndex deleted orders p fuel := by
  have hslot : processSlot cfg s deleted orders p fuel =
      Index.processSlot cfg.toConfig s.toIndex deleted orders p fuel := by
    unfold processSlot Index.processSlot
    simp only [processDelete_unfiltered hf]
  have hused : processIfUsed cfg s deleted orders p fuel =
      Index.processIfUsed cfg.toConfig s.toIndex deleted orders p fuel := by
    unfold processIfUsed Index.processIfUsed
    exact hslot ▸ rfl
  unfold processDeletes Index.processDeletes
  rw [hslot, hused]

omit [DecidableEq Tag] [Zero Tag] in
theorem consolidateDeletes_unfiltered (hf : cfg.filteredIndex = false) (p : DeleteParams D)
    (lockFree : Bool) (order : SetOrder) (orders : ℕ → SetOrder) (fuel : ℕ) :
    s.consolidateDeletes cfg p lockFree order orders fuel =
      (s.toIndex.consolidateDeletes cfg.toConfig p lockFree order orders fuel).map fun r =>
        (r.1, { s with toIndex := r.2 }) := by
  unfold consolidateDeletes Index.consolidateDeletes
  dsimp only
  split_ifs
  · rfl
  · rfl
  · rfl
  · rfl
  · rfl
  · rw [processDeletes_unfiltered hf]
    cases Index.processDeletes cfg.toConfig ({ s.toIndex with deleteSet := ∅ } : Index Vec Tag)
        (order.order (s.deleteSet.sort (· ≤ ·))) orders p fuel with
    | error e => rfl
    | ok st =>
      obtain ⟨graph, numCalls⟩ := st
      dsimp only
      rcases Index.releaseLocations cfg.toConfig (order.order (s.deleteSet.sort (· ≤ ·)))
        ({ s.toIndex with deleteSet := ∅, graph } : Index Vec Tag) with _ | ⟨_ | msg, idx⟩
      · rfl
      · rfl
      · rfl

omit [LinearOrder Label] in
theorem compactData_unfiltered (hf : cfg.filteredIndex = false) :
    s.compactData cfg = some ((s.toIndex.compactData cfg.toConfig).1,
      { s with toIndex := (s.toIndex.compactData cfg.toConfig).2 }) := by
  unfold compactData Index.compactData
  rw [hf, if_neg Bool.false_ne_true]
  split_ifs
  · rfl
  · rfl
  · rfl
  · rfl

/-- The call of an index that has no labels. -/
def Call.unlabelled : Call Vec Tag Label D → Index.Call Vec Tag D
  | .insertPoint point tag _ fuel => .insertPoint point tag fuel
  | .lazyDelete tag => .lazyDelete tag
  | .lazyDeleteBatch tags => .lazyDeleteBatch tags
  | .consolidateDeletes p lockFree order orders fuel =>
    .consolidateDeletes p lockFree order orders fuel
  | .compactData => .compactData

theorem call_unfiltered (hf : cfg.filteredIndex = false) (a : Call Vec Tag Label D) :
    s.call cfg a = (s.toIndex.call cfg.toConfig a.unlabelled).map fun r =>
      (r.1, { s with toIndex := r.2 }) := by
  cases a with
  | insertPoint point tag labels fuel => exact insertPoint_unfiltered hf
  | lazyDelete tag => rfl
  | lazyDeleteBatch tags => rfl
  | consolidateDeletes p lockFree order orders fuel =>
    exact consolidateDeletes_unfiltered hf p lockFree order orders fuel
  | compactData => exact compactData_unfiltered hf

/-- Without `_filtered_index` the labels of the calls are not looked at: a run hands out what the
same run of an `Index` hands out, and fails where that fails. -/
theorem trace_unfiltered (hf : cfg.filteredIndex = false) (points : ℕ → Vec) (useUniversal : Bool)
    (universal : Label) (as : List (Call Vec Tag Label D)) :
    trace (call cfg) (init cfg points useUniversal universal) as =
      trace (fun s a => Index.call cfg.toConfig s a.unlabelled) (Index.init cfg.toConfig points) as := by
  refine trace_eq (R := fun s idx => s.toIndex = idx) (fun s idx a h => ?_) rfl as
  subst h
  rw [call_unfiltered hf]
  cases s.toIndex.call cfg.toConfig a.unlabelled with
  | none => exact .inl ⟨rfl, rfl⟩
  | some r => exact .inr ⟨r.1, _, r.2, rfl, rfl, rfl⟩

/-- Capacity `2` and one frozen point; the point is inserted with labels, which the index has no room
for. -/
theorem trace_plain :
    trace (call { labelConfig with filteredIndex := false })
      (init { labelConfig with filteredIndex := false } id true 0)
      [.insertPoint 4 1 [0, 3] 5, .lazyDelete 1, .compactData] =
    trace (fun s (a : Call ℕ ℕ ℕ ℕ) => Index.call natConfig s a.unlabelled)
      (Index.init natConfig id) [.insertPoint 4 1 [0, 3] 5, .lazyDelete 1, .compactData] :=
  trace_unfiltered rfl id true 0 _

end FilteredIndex

end DiskANNEval.AiSAQ
