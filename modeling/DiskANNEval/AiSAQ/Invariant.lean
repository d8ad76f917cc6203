import DiskANNEval.AiSAQ.Compact

/-!
# Invariant — the slots of an `Index` over runs

`Inv` adds to the split of the slots (`Slots`) that no list of a live, deleted or frozen slot
leads to an empty one.  `Inv.call` goes through the calls; `Inv.of_reachable` is the run.
-/

namespace DiskANNEval.AiSAQ

open Lib List

variable {Vec Tag D : Type}

namespace Index

section

variable {cfg : Config Vec D} {s : Index Vec Tag}

/-- The graph of an insert links the new slot and linked slots only.  The search runs before the
old list of `k` is replaced, on the slots that were linked without `k`. -/
theorem closed_linkPoint {S S' : ℕ → Prop} (hS : Closed S s.graph)
    (hinit : ∀ i ∈ getInitIds cfg s.start, S i) {k fuel : ℕ} (hS' : ∀ j, S' j ↔ j = k ∨ S j)
    {g : Graph} (h : s.linkPoint cfg k fuel = .ok g) : Closed S' g := by
  unfold Index.linkPoint at h
  cases hp : searchForPointAndPrune cfg s.graph s.data s.start k fuel with
  | error e => rw [hp] at h; cases h
  | ok pruned =>
    rw [hp] at h
    have hpr : ∀ j ∈ pruned, S' j := fun j hj =>
      (hS' j).mpr (Or.inr (mem_searchForPointAndPrune hS hinit hp j hj))
    refine Closed.interInsert ?_ ((hS' k).mpr (Or.inl rfl)) hpr h
    intro i hi j hj
    by_cases hik : i = k
    · subst hik
      rw [Function.update_self] at hj
      split_ifs at hj
      · exact hpr j (mem_filter.mp hj).1
      · exact hpr j hj
    · rw [Function.update_of_ne hik] at hj
      exact (hS' j).mpr (Or.inr (hS i (((hS' i).mp hi).resolve_left hik) j hj))

end

variable [DecidableEq Tag] [Zero Tag] (cfg : Config Vec D)

/-- The slots a list may name. -/
def Linked (s : Index Vec Tag) (k : ℕ) : Prop := s.Live k ∨ k ∈ s.deleteSet ∨ cfg.IsFrozen k

structure Inv (s : Index Vec Tag) : Prop where
  slots : Slots cfg ∅ s
  closed : Closed (s.Linked cfg) s.graph

variable {cfg} {s s' : Index Vec Tag}

theorem Inv.init (points : ℕ → Vec) : Inv cfg (Index.init cfg points : Index Vec Tag) := by
  have hv : (Index.init cfg points : Index Vec Tag).emptySlots.valuesVector =
      (List.range cfg.maxPoints).reverse := by
    refine (NaturalNumberSet.valuesVector_insertAll _ _).trans ?_
    exact append_nil _
  have hno : ∀ k, ¬ (Index.init cfg points : Index Vec Tag).Live k := by
    intro k hk
    obtain ⟨t, ht⟩ := (live_iff _ _).mp hk
    exact absurd ht (by rw [show (Index.init cfg points : Index Vec Tag).locationToTag = .empty from rfl]; simp)
  refine ⟨{
    start_eq := rfl
    emptyOk := NaturalNumberSet.ok_empty.insertAll nodup_range fun _ _ => not_mem_nil
    covered := fun k hk => ?_
    held_lt := fun k hk => absurd hk (Finset.notMem_empty k)
    live_lt := fun k hk => absurd hk (hno k)
    deleted_lt := fun k hk => absurd hk (Finset.notMem_empty k)
    empty_lt := fun k hk => ?_
    held_free := fun k hk => absurd hk (Finset.notMem_empty k)
    live_free := fun k hk => absurd hk (hno k)
    deleted_free := fun k hk => absurd hk (Finset.notMem_empty k)
    empty_count := ?_
    used_count := rfl
    inverse := fun t k => ?_
    tags_count := rfl
    zero_free := AList.lookup_empty _ }, fun k _ j hj => absurd hj not_mem_nil⟩
  · rw [hv, mem_reverse, List.mem_range]
    exact Or.inr (Or.inr (Or.inr hk))
  · rw [hv, mem_reverse, List.mem_range] at hk
    exact hk
  · rw [NaturalNumberSet.size, hv, length_reverse, length_range]
    rfl
  · show (∅ : AList fun _ : Tag => ℕ).lookup t = some k ↔
      (NaturalNumberMap.empty : NaturalNumberMap Tag).tryGet k = some t
    simp

theorem Inv.linked_initIds (h : Inv cfg s) : ∀ i ∈ getInitIds cfg s.start, s.Linked cfg i := by
  intro i hi
  refine Or.inr (Or.inr ?_)
  rcases mem_cons.mp hi with rfl | hi
  · have := cfg.numFrozenPts_pos
    rw [h.slots.start_eq]
    exact ⟨le_rfl, by omega⟩
  · exact (cfg.mem_frozen i).mp (mem_filter.mp hi).1

theorem Slots.initIds_lt {held : Finset ℕ} (h : Slots cfg held s) :
    ∀ i ∈ getInitIds cfg s.start, i < cfg.totalPoints := by
  have := cfg.numFrozenPts_pos
  intro i hi
  rw [Config.totalPoints]
  rcases mem_cons.mp hi with rfl | hi
  · rw [h.start_eq]
    omega
  · exact ((cfg.mem_frozen i).mp (mem_filter.mp hi).1).2

/-! ### `insert_point` -/

theorem live_setPoint (s : Index Vec Tag) (k j : ℕ) (point : Vec) (tag : Tag) :
    (s.setPoint cfg k point tag).Live j ↔ j = k ∨ s.Live j := by
  rw [live_iff, live_iff]
  show (∃ t, (s.locationToTag.set k tag).tryGet j = some t) ↔ _
  by_cases hj : j = k
  · subst hj
    simp [NaturalNumberMap.tryGet_set_self]
  · simp [NaturalNumberMap.tryGet_set_ne _ _ hj, hj]

theorem linked_setPoint (s : Index Vec Tag) (k j : ℕ) (point : Vec) (tag : Tag) :
    (s.setPoint cfg k point tag).Linked cfg j ↔ j = k ∨ s.Linked cfg j := by
  rw [Linked, live_setPoint, or_assoc]
  rfl

variable {tag : Tag} {fuel : ℕ} {out : Outcome Tag}

theorem Inv.insertPoint (h : Inv cfg s) {point : Vec}
    (hi : s.insertPoint cfg point tag fuel = some (out, s')) : Inv cfg s' := by
  unfold Index.insertPoint at hi
  split_ifs at hi with h0
  · cases hi
    exact h
  · rcases h.slots.reserveLocation_cases rfl with hr | ⟨k, e, hpop, hr⟩
    · -- the index is full
      rw [hr] at hi
      cases hi
      exact h
    · rw [hr] at hi
      obtain ⟨hk, hslots⟩ := h.slots.reserve hpop
      dsimp only at hi
      split_ifs at hi with ht
      · -- the tag is taken: the slot goes back
        cases hrel : Index.releaseLocation k
            ({ s with emptySlots := e, nd := s.nd + 1 } : Index Vec Tag) with
        | none => rw [hrel] at hi; cases hi
        | some r =>
          obtain ⟨msg, s1⟩ := r
          obtain ⟨rfl, hs1, hslots1⟩ := Slots.release hk hslots hrel
          rw [hrel] at hi
          cases hi
          subst hs1
          exact ⟨hslots1, h.closed⟩
      · rw [Bool.not_eq_true, Option.isSome_eq_false_iff, Option.isNone_iff_eq_none] at ht
        have hset := Slots.setPoint hk hslots h0 ht point
        have hlinked := fun j => @linked_setPoint _ _ _ _ _ cfg
          ({ s with emptySlots := e, nd := s.nd + 1 } : Index Vec Tag) k j point tag
        cases hl : Index.linkPoint cfg k fuel (Index.setPoint cfg k point tag
            ({ s with emptySlots := e, nd := s.nd + 1 } : Index Vec Tag)) with
        | ok g =>
          rw [hl] at hi
          cases hi
          exact ⟨{ hset with }, closed_linkPoint (s := Index.setPoint cfg k point tag
            ({ s with emptySlots := e, nd := s.nd + 1 } : Index Vec Tag)) h.closed
            h.linked_initIds hlinked hl⟩
        | error f =>
          rw [hl] at hi
          cases f with
          | stuck => cases hi
          | threw msg =>
            refine absurd hl (NoThrow.bind ?_ (fun _ _ => noThrow_interInsert _ _ _ _) msg)
            exact noThrow_searchForPointAndPrune h.slots.initIds_lt

/-! ### `lazy_delete` -/

theorem Inv.linked_deletePoint (h : Inv cfg s) {k : ℕ} (ht : s.tagToLocation.lookup tag = some k)
    (j : ℕ) : (s.deletePoint tag k).Linked cfg j ↔ s.Linked cfg j := by
  have hl : s.Live k := (live_iff s k).mpr ⟨tag, (h.slots.inverse tag k).mp ht⟩
  rw [Linked, live_deletePoint, Linked]
  show _ ∨ j ∈ insert k s.deleteSet ∨ _ ↔ _
  by_cases hj : j = k
  · subst hj
    simp [hl]
  · simp [hj]

theorem Inv.deletePoint (h : Inv cfg s) {k : ℕ} (ht : s.tagToLocation.lookup tag = some k) :
    Inv cfg (s.deletePoint tag k) :=
  ⟨h.slots.deletePoint ht, fun i hi j hj => (h.linked_deletePoint ht j).mpr
    (h.closed i ((h.linked_deletePoint ht i).mp hi) j hj)⟩

theorem Inv.setCompacted (h : Inv cfg s) (b : Bool) : Inv cfg { s with dataCompacted := b } :=
  ⟨{ h.slots with }, h.closed⟩

theorem Inv.lazyDelete (h : Inv cfg s) (tag : Tag) : Inv cfg (s.lazyDelete tag).2 :=
  lazyDelete_keeps (fun _ h => h.setCompacted false) (fun _ _ _ h ht => h.deletePoint ht) h tag

theorem Inv.lazyDeleteBatch (h : Inv cfg s) (tags : List Tag) :
    Inv cfg (s.lazyDeleteBatch tags).2 :=
  lazyDeleteBatch_keeps (fun _ h => h.setCompacted false) (fun _ _ _ h ht => h.deletePoint ht) h
    tags

/-! ### `consolidate_deletes` -/

/-- The lists of the slots in `done` lead to slots of `S` that are not deleted. -/
structure Repaired (S : ℕ → Prop) (deleted : List ℕ) (done : ℕ → Prop) (g : Graph) : Prop where
  closed : Closed S g
  clean : ∀ k, done k → ∀ j ∈ g k, S j ∧ j ∉ deleted

section Repair

variable {S done : ℕ → Prop} {deleted : List ℕ} {orders : ℕ → SetOrder} {p : DeleteParams D}
  {fuel loc n n' : ℕ} {g g' : Graph}

section

omit [DecidableEq Tag] [Zero Tag]

theorem Repaired.processSlot (h : Repaired S deleted done g) (hloc : S loc)
    (hp : processSlot cfg s deleted orders p fuel (g, n) loc = .ok (g', n')) :
    Repaired S deleted (fun k => done k ∨ k = loc) g' := by
  unfold Index.processSlot at hp
  cases hl : processDelete cfg s.data g deleted (orders loc) p fuel loc with
  | error e =>
    simp only [hl] at hp
    cases hp
  | ok l =>
    simp only [hl] at hp
    cases hp
    have hclean := mem_processDelete h.closed hloc hl
    refine ⟨h.closed.update loc fun j hj => (hclean j hj).1, fun k hk j hj => ?_⟩
    by_cases hkl : k = loc
    · subst hkl
      rw [Function.update_self] at hj
      exact hclean j hj
    · rw [Function.update_of_ne hkl] at hj
      exact h.clean k (hk.resolve_right hkl) j hj

theorem Repaired.processIfUsed (h : Repaired S deleted done g) (hok : s.emptySlots.Ok)
    (hloc : loc ∉ deleted → loc ∉ s.emptySlots.valuesVector → S loc)
    (hp : processIfUsed cfg s deleted orders p fuel (g, n) loc = .ok (g', n')) :
    Repaired S deleted (fun k => done k ∨
      k = loc ∧ k ∉ deleted ∧ k ∉ s.emptySlots.valuesVector) g' := by
  unfold Index.processIfUsed at hp
  split_ifs at hp with hd
  · cases hp
    refine ⟨h.closed, fun k hk => h.clean k (hk.resolve_right ?_)⟩
    rintro ⟨rfl, hd', _⟩
    exact hd' hd
  · cases hb : s.emptySlots.isInSet loc with
    | none =>
      rw [hb] at hp
      cases hp
    | some b =>
      rw [hb] at hp
      have hb := hok.isInSet_eq hb
      cases b with
      | true =>
        cases hp
        refine ⟨h.closed, fun k hk => h.clean k (hk.resolve_right ?_)⟩
        rintro ⟨rfl, _, he⟩
        exact he (hb.mp rfl)
      | false =>
        have hr := h.processSlot (hloc hd fun he => absurd (hb.mpr he) Bool.false_ne_true) hp
        exact ⟨hr.closed, fun k hk => hr.clean k (hk.imp_right And.left)⟩

end

/-- A loop over `ks` each of whose rounds repairs the slot it is at, if that slot is used. -/
theorem Repaired.foldlM (used : ℕ → Prop) {f : Graph × ℕ → ℕ → Except Fault (Graph × ℕ)} {ks : List ℕ}
    (hf : ∀ (done : ℕ → Prop) (st st' : Graph × ℕ), ∀ loc ∈ ks, Repaired S deleted done st.1 →
      f st loc = .ok st' → Repaired S deleted (fun k => done k ∨ k = loc ∧ used k) st'.1)
    {st st' : Graph × ℕ} (h : Repaired S deleted done st.1) (hr : ks.foldlM f st = .ok st') :
    Repaired S deleted (fun k => done k ∨ k ∈ ks ∧ used k) st'.1 := by
  induction ks generalizing done st with
  | nil =>
    cases hr
    exact ⟨h.closed, fun k hk => h.clean k (hk.resolve_right fun hk => not_mem_nil hk.1)⟩
  | cons loc ks ih =>
    rw [foldlM_cons] at hr
    cases h1 : f st loc with
    | error e =>
      rw [h1] at hr
      cases hr
    | ok st1 =>
      rw [h1] at hr
      have := ih (fun done st st' l hl => hf done st st' l (mem_cons_of_mem _ hl))
        (hf done st st1 loc mem_cons_self h h1) hr
      refine ⟨this.closed, fun k hk => this.clean k ?_⟩
      rw [mem_cons] at hk
      tauto

end Repair

theorem Slots.repaired (h : Slots cfg s.deleteSet { s with deleteSet := ∅ })
    (hc : Closed (s.Linked cfg) s.graph) {deleted : List ℕ}
    (hdel : ∀ k, k ∈ deleted ↔ k ∈ s.deleteSet) {orders : ℕ → SetOrder} {p : DeleteParams D}
    {st : Graph × ℕ}
    (hp : processDeletes cfg { s with deleteSet := ∅ } deleted orders p fuel = .ok st) :
    Closed (fun k => s.Live k ∨ cfg.IsFrozen k) st.1 := by
  have h0 : Repaired (s.Linked cfg) deleted (fun _ => False) s.graph :=
    ⟨hc, fun _ hk => absurd hk id⟩
  unfold processDeletes at hp
  cases h1 : (List.range cfg.maxPoints).foldlM (processIfUsed cfg
      ({ s with deleteSet := ∅ } : Index Vec Tag) deleted orders p fuel) (s.graph, 0) with
  | error e =>
    rw [h1] at hp
    cases hp
  | ok st1 =>
    rw [h1] at hp
    have hr1 := h0.foldlM (fun k => k ∉ deleted ∧ k ∉ s.emptySlots.valuesVector)
      (fun done st st' loc hloc hd hf => hd.processIfUsed h.emptyOk (fun hnd hne => by
        rcases h.covered loc (List.mem_range.mp hloc) with hh | hl | hh | he
        · exact absurd ((hdel loc).mpr hh) hnd
        · exact Or.inl hl
        · exact absurd hh (Finset.notMem_empty _)
        · exact absurd he hne) hf) h1
    have hr2 := hr1.foldlM (fun _ => True) (fun done st st' loc hloc hd hf => by
      have := hd.processSlot (Or.inr (Or.inr ((cfg.mem_frozen loc).mp hloc))) hf
      exact ⟨this.closed, fun k hk => this.clean k (hk.imp_right And.left)⟩) hp
    intro k hk j hj
    have hdone : ((False ∨ k ∈ List.range cfg.maxPoints ∧
        k ∉ deleted ∧ k ∉ s.emptySlots.valuesVector) ∨ k ∈ cfg.frozen ∧ True) := by
      rcases hk with hl | hf
      · have hfree := h.live_free k hl
        refine Or.inl (Or.inr ⟨List.mem_range.mpr (h.live_lt k hl), fun hd => ?_, hfree.2⟩)
        exact (h.held_free k ((hdel k).mp hd)).1 hl
      · exact Or.inr ⟨(cfg.mem_frozen k).mpr hf, trivial⟩
    obtain ⟨hS, hnd⟩ := hr2.clean k hdone j hj
    rcases hS with hl | hd | hf
    · exact Or.inl hl
    · exact absurd ((hdel j).mpr hd) hnd
    · exact Or.inr hf

theorem Inv.consolidateDeletes (h : Inv cfg s) {p : DeleteParams D} {lockFree : Bool}
    {order : SetOrder} {orders : ℕ → SetOrder}
    (hr : s.consolidateDeletes cfg p lockFree order orders fuel = some (out, s')) : Inv cfg s' := by
  obtain ⟨rfl, -⟩ | ⟨⟨g, calls⟩, -, hp, hslots, hs'⟩ := h.slots.consolidateDeletes_cases hr
  · exact h
  · refine ⟨hslots, ?_⟩
    rw [hs']
    intro k hk j hj
    have hk' : s.Live k ∨ cfg.IsFrozen k := by
      rcases hk with hl | hd | hf
      · exact Or.inl hl
      · exact absurd hd (Finset.notMem_empty _)
      · exact Or.inr hf
    exact (h.slots.takeDeleted.repaired h.closed (fun _ => mem_order) hp k hk' j hj).imp id Or.inr

/-! ### `compact_data` -/

theorem Inv.compactSlots (h : Inv cfg s) (hd : s.deleteSet = ∅) : Inv cfg (s.compactSlots cfg) := by
  have hrenamed : ∀ k, s.Linked cfg k → ∀ j ∈ s.renamed cfg (s.graph k),
      (s.compactSlots cfg).Linked cfg j := by
    intro k hk j hj
    rw [renamed, mem_map] at hj
    obtain ⟨i, hi, rfl⟩ := hj
    rcases h.closed k hk i (mem_filter.mp hi).1 with hl | hdel | hf
    · exact Or.inl ((h.slots.live_compactSlots hd _).mpr (h.slots.newLocation_lt_nd hd hl))
    · exact absurd (hd ▸ hdel) (Finset.notMem_empty _)
    · rw [newLocation_frozen hf.1]
      exact Or.inr (Or.inr hf)
  refine ⟨h.slots.compactSlots hd, fun k hk j hj => ?_⟩
  rcases hk with hl | hdel | hf
  · obtain ⟨o, ho, rfl⟩ := h.slots.exists_newLocation hd ((h.slots.live_compactSlots hd k).mp hl)
    have hlt : o < cfg.totalPoints := lt_of_lt_of_le (h.slots.live_lt o ho) (Nat.le_add_right _ _)
    rw [(h.slots.compactSlots_kept (h.slots.kept ho) hlt).1] at hj
    exact hrenamed o (Or.inl ho) j hj
  · exact absurd (show k ∈ s.deleteSet from hdel) (hd ▸ Finset.notMem_empty _)
  · have hkept := (h.slots.compactSlots_kept (Or.inr hf.1) hf.2).1
    rw [newLocation_frozen hf.1] at hkept
    rw [hkept] at hj
    exact hrenamed k (Or.inr (Or.inr hf)) j hj

theorem Inv.compactData (h : Inv cfg s) : Inv cfg (s.compactData cfg).2 := by
  unfold Index.compactData
  split_ifs with h1 h2 h3
  · exact h
  · exact h
  · exact h
  · exact h.compactSlots (Finset.card_eq_zero.mp (by omega))

/-! ### Runs -/

theorem Inv.call (h : Inv cfg s) {a : Call Vec Tag D} (hc : s.call cfg a = some (out, s')) :
    Inv cfg s' := by
  cases a with
  | insertPoint point tag fuel => exact h.insertPoint hc
  | lazyDelete tag =>
    rw [← (Prod.mk.inj (Option.some.inj hc)).2]
    exact h.lazyDelete tag
  | lazyDeleteBatch tags =>
    rw [← (Prod.mk.inj (Option.some.inj hc)).2]
    exact h.lazyDeleteBatch tags
  | consolidateDeletes p lockFree order orders fuel => exact h.consolidateDeletes hc
  | compactData =>
    rw [← (Prod.mk.inj (Option.some.inj hc)).2]
    exact h.compactData

theorem Inv.of_reachable (h : Reachable cfg s) : Inv cfg s := by
  refine Reach.invariant ?_ (fun s a s' hs hstep => ?_) h
  · rintro s ⟨points, rfl⟩
    exact Inv.init points
  · obtain ⟨out, hc⟩ := hstep
    exact hs.call hc

/-- The slots `[0, _max_points)` are the live ones, those in `_delete_set` and those in
`_empty_slots`, each slot in one of the three, the counters agree and the tag maps are inverse. -/
structure Accounted (cfg : Config Vec D) (s : Index Vec Tag) : Prop where
  slot_iff : ∀ k, k < cfg.maxPoints ↔
    s.Live k ∨ k ∈ s.deleteSet ∨ k ∈ s.emptySlots.valuesVector
  live_or_deleted : ∀ k, ¬ (s.Live k ∧ k ∈ s.deleteSet)
  live_or_empty : ∀ k, ¬ (s.Live k ∧ k ∈ s.emptySlots.valuesVector)
  deleted_or_empty : ∀ k, ¬ (k ∈ s.deleteSet ∧ k ∈ s.emptySlots.valuesVector)
  empty_once : s.emptySlots.valuesVector.Nodup
  empty_count : s.emptySlots.size + s.nd = cfg.maxPoints
  used_count : s.locationToTag.size + s.deleteSet.card = s.nd
  inverse : ∀ tag k, s.tagToLocation.lookup tag = some k ↔ s.locationToTag.tryGet k = some tag

theorem accounted_of_reachable (h : Reachable cfg s) : Accounted cfg s := by
  have hs := (Inv.of_reachable h).slots
  refine ⟨fun k => ⟨fun hk => ?_, ?_⟩, fun k hk => (hs.live_free k hk.1).1 hk.2,
    fun k hk => (hs.live_free k hk.1).2 hk.2, fun k hk => hs.deleted_free k hk.1 hk.2,
    hs.emptyOk.nodup, hs.empty_count, hs.used_count, hs.inverse⟩
  · exact (hs.covered k hk).resolve_left (Finset.notMem_empty k)
  · rintro (hl | hd | he)
    · exact hs.live_lt k hl
    · exact hs.deleted_lt k hd
    · exact hs.empty_lt k he

theorem accounted_after_insert : ∃ s : Index ℕ ℕ, s.nd = 1 ∧ Accounted natConfig s := by
  have h1 : ((init natConfig id : Index ℕ ℕ).call natConfig (.insertPoint 7 5 20)).map
      (fun r => r.2.nd) = some 1 := by decide
  obtain ⟨⟨out, s⟩, hs, hnd⟩ := Option.map_eq_some_iff.mp h1
  exact ⟨s, hnd, accounted_of_reachable (.next (.start ⟨id, rfl⟩) ⟨out, hs⟩)⟩

end Index

end DiskANNEval.AiSAQ
