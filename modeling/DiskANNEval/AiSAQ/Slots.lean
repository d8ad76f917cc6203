import DiskANNEval.AiSAQ.Index
import DiskANNEval.Lib.Maps

/-!
# Slots — where every slot of an `Index` is

`Slots cfg held s`: the slots `[0, _max_points)` are split into live, deleted and empty ones and
those in `held`, which an operation has taken out of one container and not yet put into another.
Each container move has its lemma here (`Slots.reserve`, `Slots.release`, `Slots.setPoint`,
`Slots.deletePoint`, `Slots.takeDeleted`).
-/

namespace DiskANNEval.AiSAQ

open Lib Finset List

variable {Vec Tag D : Type}

namespace Index

theorem live_iff (s : Index Vec Tag) (k : ℕ) : s.Live k ↔ ∃ t, s.locationToTag.tryGet k = some t :=
  NaturalNumberMap.contains_iff_tryGet _ _

/-! ### The deleted slots in the order of `old_delete_set` -/

section

variable {order : SetOrder} {S : Finset ℕ} {k : ℕ}

theorem mem_order : k ∈ order.order (S.sort (· ≤ ·)) ↔ k ∈ S := by
  rw [(order.perm _).mem_iff, mem_sort]

theorem nodup_order : (order.order (S.sort (· ≤ ·))).Nodup :=
  (order.perm _).nodup_iff.mpr (sort_nodup _ _)

theorem toFinset_order : (order.order (S.sort (· ≤ ·))).toFinset = S := by
  ext k
  rw [mem_toFinset, mem_order]

end

/-! ### The split of the slots -/

variable [DecidableEq Tag] [Zero Tag] (cfg : Config Vec D)

structure Slots (held : Finset ℕ) (s : Index Vec Tag) : Prop where
  start_eq : s.start = cfg.maxPoints
  emptyOk : s.emptySlots.Ok
  covered : ∀ k < cfg.maxPoints,
    k ∈ held ∨ s.Live k ∨ k ∈ s.deleteSet ∨ k ∈ s.emptySlots.valuesVector
  held_lt : ∀ k ∈ held, k < cfg.maxPoints
  live_lt : ∀ k, s.Live k → k < cfg.maxPoints
  deleted_lt : ∀ k ∈ s.deleteSet, k < cfg.maxPoints
  empty_lt : ∀ k ∈ s.emptySlots.valuesVector, k < cfg.maxPoints
  held_free : ∀ k ∈ held, ¬ s.Live k ∧ k ∉ s.deleteSet ∧ k ∉ s.emptySlots.valuesVector
  live_free : ∀ k, s.Live k → k ∉ s.deleteSet ∧ k ∉ s.emptySlots.valuesVector
  deleted_free : ∀ k ∈ s.deleteSet, k ∉ s.emptySlots.valuesVector
  empty_count : s.emptySlots.size + s.nd = cfg.maxPoints
  used_count : s.locationToTag.size + s.deleteSet.card + held.card = s.nd
  inverse : ∀ tag k, s.tagToLocation.lookup tag = some k ↔ s.locationToTag.tryGet k = some tag
  tags_count : s.tagToLocation.entries.length = s.locationToTag.size
  zero_free : s.tagToLocation.lookup 0 = none

/-! ### Moves between the containers -/

variable {cfg} {held : Finset ℕ} {s s' : Index Vec Tag}

theorem Slots.tag_injective (h : Slots cfg held s) {i j : ℕ} {t : Tag}
    (hi : s.locationToTag.tryGet i = some t) (hj : s.locationToTag.tryGet j = some t) : i = j := by
  have := (h.inverse t i).mpr hi
  rw [(h.inverse t j).mpr hj] at this
  exact (Option.some.inj this).symm

/-- What `reserve_location` does: nothing when the index is full, else it takes the last empty
slot.  The branch that counts up `_nd` without `_empty_slots` is not taken. -/
theorem Slots.reserveLocation_cases (h : Slots cfg held s)
    {o : Option (Option ℕ × Index Vec Tag)} (ho : s.reserveLocation cfg = o) :
    o = some (none, s) ∨ ∃ k e, s.emptySlots.popAny = some (k, e) ∧
      o = some (some k, { s with emptySlots := e, nd := s.nd + 1 }) := by
  subst ho
  unfold reserveLocation
  by_cases hfull : cfg.maxPoints ≤ s.nd
  · rw [if_pos hfull]
    exact Or.inl rfl
  · rw [if_neg hfull]
    cases hv : s.emptySlots.valuesVector with
    | nil =>
      have hc := h.empty_count
      rw [NaturalNumberSet.size, hv, length_nil] at hc
      omega
    | cons k rest =>
      have hne : s.emptySlots.isEmpty = false := by rw [NaturalNumberSet.isEmpty, hv]; rfl
      have hdel : s.deleteSet.erase k = s.deleteSet := by
        refine erase_eq_of_notMem fun hk => h.deleted_free k hk ?_
        rw [hv]
        exact mem_cons_self
      have hp : s.emptySlots.popAny = some (k, ⟨rest, s.emptySlots.valuesBitset.set k false⟩) := by
        rw [NaturalNumberSet.popAny, hv]
      rw [hne, Bool.and_false, if_neg Bool.false_ne_true, hp]
      exact Or.inr ⟨k, _, rfl, by simp only [hdel]⟩

theorem Slots.reserve (h : Slots cfg held s) {k : ℕ} {e : NaturalNumberSet}
    (hp : s.emptySlots.popAny = some (k, e)) :
    k ∉ held ∧ Slots cfg (insert k held) { s with emptySlots := e, nd := s.nd + 1 } := by
  obtain ⟨hok, hv⟩ := h.emptyOk.popAny hp
  have hnd := h.emptyOk.nodup
  rw [hv, nodup_cons] at hnd
  have hk : k ∈ s.emptySlots.valuesVector := by rw [hv]; exact mem_cons_self
  have hheld : k ∉ held := fun hh => (h.held_free k hh).2.2 hk
  have hsub : ∀ j ∈ e.valuesVector, j ∈ s.emptySlots.valuesVector := fun j hj => by
    rw [hv]; exact mem_cons_of_mem _ hj
  have hlen : s.emptySlots.size = e.size + 1 := by
    rw [NaturalNumberSet.size, hv, length_cons, NaturalNumberSet.size]
  refine ⟨hheld, { h with
    emptyOk := hok
    covered := fun j hj => ?_
    held_lt := ?_
    empty_lt := fun j hj => h.empty_lt j (hsub j hj)
    held_free := ?_
    live_free := fun j hj => ⟨(h.live_free j hj).1, fun he => (h.live_free j hj).2 (hsub j he)⟩
    deleted_free := fun j hj he => h.deleted_free j hj (hsub j he)
    empty_count := ?_
    used_count := ?_ }⟩
  · have := h.covered j hj
    rw [hv, List.mem_cons] at this
    rw [mem_insert]
    have hL : ∀ i, ({ s with emptySlots := e, nd := s.nd + 1 } : Index Vec Tag).Live i ↔ s.Live i :=
      fun _ => Iff.rfl
    tauto
  · intro j hj
    rcases mem_insert.mp hj with rfl | hj
    · exact h.empty_lt _ hk
    · exact h.held_lt j hj
  · intro j hj
    rcases mem_insert.mp hj with rfl | hj
    · exact ⟨fun hl => (h.live_free j hl).2 hk, fun hd => h.deleted_free j hd hk, hnd.1⟩
    · have := h.held_free j hj
      exact ⟨this.1, this.2.1, fun he => this.2.2 (hsub j he)⟩
  · have := h.empty_count
    show e.size + (s.nd + 1) = _
    omega
  · have := h.used_count
    show s.locationToTag.size + s.deleteSet.card + _ = s.nd + 1
    rw [card_insert_of_notMem hheld]
    omega

theorem Slots.release {k : ℕ} (hk : k ∉ held) (h : Slots cfg (insert k held) s)
    {msg : Option String} (hr : s.releaseLocation k = some (msg, s')) :
    msg = none ∧ s' = { s with emptySlots := s.emptySlots.insert k, nd := s.nd - 1 } ∧
      Slots cfg held s' := by
  have hfree := h.held_free k (mem_insert_self _ _)
  have hcard := h.used_count
  rw [card_insert_of_notMem hk] at hcard
  unfold releaseLocation at hr
  cases hb : s.emptySlots.isInSet k with
  | none => rw [hb] at hr; cases hr
  | some b =>
    cases b with
    | true => exact absurd ((h.emptyOk.isInSet_eq hb).mp rfl) hfree.2.2
    | false =>
      rw [hb] at hr
      cases hr
      refine ⟨rfl, rfl, { h with
        emptyOk := h.emptyOk.insert hfree.2.2
        covered := fun j hj => ?_
        held_lt := fun j hj => h.held_lt j (mem_insert_of_mem hj)
        empty_lt := fun j hj => ?_
        held_free := fun j hj => ?_
        live_free := fun j hj => ?_
        deleted_free := fun j hj => ?_
        empty_count := ?_
        used_count := ?_ }⟩
      · have := h.covered j hj
        rw [mem_insert] at this
        show _ ∨ s.Live j ∨ _ ∨ j ∈ k :: s.emptySlots.valuesVector
        rw [List.mem_cons]
        tauto
      · rcases mem_cons.mp hj with rfl | hj
        · exact h.held_lt _ (mem_insert_self _ _)
        · exact h.empty_lt j hj
      · have := h.held_free j (mem_insert_of_mem hj)
        refine ⟨this.1, this.2.1, fun he => ?_⟩
        rcases mem_cons.mp he with rfl | he
        · exact hk hj
        · exact this.2.2 he
      · have := h.live_free j hj
        refine ⟨this.1, fun he => ?_⟩
        rcases mem_cons.mp he with rfl | he
        · exact hfree.1 hj
        · exact this.2 he
      · intro he
        rcases mem_cons.mp he with rfl | he
        · exact hfree.2.1 hj
        · exact h.deleted_free j hj he
      · have := h.empty_count
        show s.emptySlots.size + 1 + (s.nd - 1) = _
        omega
      · show s.locationToTag.size + s.deleteSet.card + held.card = s.nd - 1
        omega

theorem Slots.setPoint {k : ℕ} (hk : k ∉ held) (h : Slots cfg (insert k held) s) {tag : Tag}
    (h0 : tag ≠ 0) (ht : s.tagToLocation.lookup tag = none) (point : Vec) :
    Slots cfg held (s.setPoint cfg k point tag) := by
  have hfree := h.held_free k (mem_insert_self k held)
  have hnone : s.locationToTag.tryGet k = none := by
    rw [← Option.not_isSome_iff_eq_none, Option.isSome_iff_exists, ← live_iff]
    exact hfree.1
  have hlive : ∀ j, (s.setPoint cfg k point tag).Live j ↔ j = k ∨ s.Live j := by
    intro j
    rw [live_iff, live_iff]
    show (∃ t, (s.locationToTag.set k tag).tryGet j = some t) ↔ _
    by_cases hj : j = k
    · subst hj
      simp [NaturalNumberMap.tryGet_set_self]
    · simp [NaturalNumberMap.tryGet_set_ne _ _ hj, hj]
  have hsize : (s.locationToTag.set k tag).size = s.locationToTag.size + 1 :=
    NaturalNumberMap.size_set_of_none _ hnone
  refine { h with
    covered := fun j hj => ?_
    held_lt := fun j hj => h.held_lt j (mem_insert_of_mem hj)
    live_lt := fun j hj => ?_
    held_free := fun j hj => ?_
    live_free := fun j hj => ?_
    used_count := ?_
    inverse := fun t j => ?_
    tags_count := ?_
    zero_free := ?_ }
  · have := h.covered j hj
    rw [mem_insert] at this
    rw [hlive]
    show _ ∨ _ ∨ j ∈ s.deleteSet ∨ j ∈ s.emptySlots.valuesVector
    tauto
  · rcases (hlive j).mp hj with rfl | hj
    · exact h.held_lt _ (mem_insert_self _ _)
    · exact h.live_lt j hj
  · have := h.held_free j (mem_insert_of_mem hj)
    refine ⟨fun hl => ?_, this.2⟩
    rcases (hlive j).mp hl with rfl | hl
    · exact hk hj
    · exact this.1 hl
  · rcases (hlive j).mp hj with rfl | hj
    · exact hfree.2
    · exact h.live_free j hj
  · have := h.used_count
    rw [card_insert_of_notMem hk] at this
    show (s.locationToTag.set k tag).size + s.deleteSet.card + held.card = s.nd
    omega
  · show (s.tagToLocation.insert tag k).lookup t = some j ↔
      (s.locationToTag.set k tag).tryGet j = some t
    by_cases htt : t = tag
    · subst htt
      by_cases hj : j = k
      · subst hj
        simp [NaturalNumberMap.tryGet_set_self]
      · rw [NaturalNumberMap.tryGet_set_ne _ _ hj, ← h.inverse, ht]
        simp [Ne.symm hj]
    · rw [AList.lookup_insert_ne htt]
      by_cases hj : j = k
      · subst hj
        rw [NaturalNumberMap.tryGet_set_self, h.inverse, hnone]
        simp [Ne.symm htt]
      · rw [NaturalNumberMap.tryGet_set_ne _ _ hj, h.inverse]
  · show (s.tagToLocation.insert tag k).entries.length = (s.locationToTag.set k tag).size
    rw [length_insert k ht, hsize, h.tags_count]
  · show (s.tagToLocation.insert tag k).lookup 0 = none
    rw [AList.lookup_insert_ne (Ne.symm h0)]
    exact h.zero_free

theorem live_deletePoint (s : Index Vec Tag) (tag : Tag) (k j : ℕ) :
    (s.deletePoint tag k).Live j ↔ j ≠ k ∧ s.Live j := by
  rw [live_iff, live_iff]
  show (∃ t, (s.locationToTag.erase k).tryGet j = some t) ↔ _
  by_cases hj : j = k
  · subst hj
    simp [NaturalNumberMap.tryGet_erase_self]
  · simp [NaturalNumberMap.tryGet_erase_ne _ hj, hj]

theorem Slots.deletePoint {k : ℕ} (h : Slots cfg held s) {tag : Tag}
    (ht : s.tagToLocation.lookup tag = some k) : Slots cfg held (s.deletePoint tag k) := by
  have hget : s.locationToTag.tryGet k = some tag := (h.inverse tag k).mp ht
  have hl : s.Live k := (live_iff s k).mpr ⟨tag, hget⟩
  have hfree := h.live_free k hl
  have hsize : (s.locationToTag.erase k).size + 1 = s.locationToTag.size :=
    NaturalNumberMap.size_erase_of_some hget
  refine { h with
    covered := fun j hj => ?_
    live_lt := fun j hj => h.live_lt j ((live_deletePoint s tag k j).mp hj).2
    deleted_lt := fun j hj => ?_
    held_free := fun j hj => ?_
    live_free := fun j hj => ?_
    deleted_free := fun j hj => ?_
    used_count := ?_
    inverse := fun t j => ?_
    tags_count := ?_
    zero_free := ?_ }
  · have := h.covered j hj
    rw [live_deletePoint]
    show _ ∨ _ ∨ j ∈ insert k s.deleteSet ∨ j ∈ s.emptySlots.valuesVector
    rw [mem_insert]
    tauto
  · rcases mem_insert.mp hj with rfl | hj
    · exact h.live_lt _ hl
    · exact h.deleted_lt j hj
  · have := h.held_free j hj
    refine ⟨fun hl' => this.1 ((live_deletePoint s tag k j).mp hl').2, fun hd => ?_, this.2.2⟩
    rcases mem_insert.mp hd with rfl | hd
    · exact this.1 hl
    · exact this.2.1 hd
  · obtain ⟨hne, hj⟩ := (live_deletePoint s tag k j).mp hj
    refine ⟨fun hd => ?_, (h.live_free j hj).2⟩
    rcases mem_insert.mp hd with rfl | hd
    · exact hne rfl
    · exact (h.live_free j hj).1 hd
  · rcases mem_insert.mp hj with rfl | hj
    · exact hfree.2
    · exact h.deleted_free j hj
  · have := h.used_count
    show (s.locationToTag.erase k).size + (insert k s.deleteSet).card + held.card = s.nd
    rw [Finset.card_insert_of_notMem hfree.1]
    omega
  · show (s.tagToLocation.erase tag).lookup t = some j ↔
      (s.locationToTag.erase k).tryGet j = some t
    by_cases htt : t = tag
    · subst htt
      rw [AList.lookup_erase]
      by_cases hj : j = k
      · subst hj
        simp [NaturalNumberMap.tryGet_erase_self]
      · rw [NaturalNumberMap.tryGet_erase_ne _ hj]
        refine iff_of_false (by simp) fun hjt => hj (h.tag_injective hjt hget)
    · rw [AList.lookup_erase_ne htt]
      by_cases hj : j = k
      · subst hj
        rw [NaturalNumberMap.tryGet_erase_self, h.inverse, hget]
        simp [Ne.symm htt]
      · rw [NaturalNumberMap.tryGet_erase_ne _ hj, h.inverse]
  · have := length_erase ht
    show (s.tagToLocation.erase tag).entries.length = (s.locationToTag.erase k).size
    have := h.tags_count
    omega
  · show (s.tagToLocation.erase tag).lookup 0 = none
    by_cases h0 : (0 : Tag) = tag
    · rw [← h0, AList.lookup_erase]
    · rw [AList.lookup_erase_ne h0, h.zero_free]

theorem Slots.takeDeleted (h : Slots cfg ∅ s) :
    Slots cfg s.deleteSet { s with deleteSet := ∅ } := by
  refine { h with
    covered := fun j hj => ?_
    held_lt := h.deleted_lt
    deleted_lt := fun j hj => absurd hj (notMem_empty j)
    held_free := fun j hj => ?_
    live_free := fun j hj => ⟨notMem_empty j, (h.live_free j hj).2⟩
    deleted_free := fun j hj => absurd hj (notMem_empty j)
    used_count := ?_ }
  · have := h.covered j hj
    show j ∈ s.deleteSet ∨ s.Live j ∨ j ∈ (∅ : Finset ℕ) ∨ _
    tauto
  · exact ⟨fun hl => (h.live_free j hl).1 hj, notMem_empty j, h.deleted_free j hj⟩
  · have := h.used_count
    show s.locationToTag.size + (∅ : Finset ℕ).card + s.deleteSet.card = s.nd
    omega

/-! ### `lazy_delete` -/

section LazyDelete

variable {P : Index Vec Tag → Prop} (hflag : ∀ s, P s → P { s with dataCompacted := false })
  (hdelete : ∀ s tag k, P s → s.tagToLocation.lookup tag = some k → P (s.deletePoint tag k))

include hflag hdelete

omit [Zero Tag] in
/-- What `_data_compacted` has no part in, and each deletion of a tagged point keeps. -/
theorem lazyDelete_keeps (h : P s) (tag : Tag) : P (s.lazyDelete tag).2 := by
  unfold Index.lazyDelete
  dsimp only
  split
  · exact hflag s h
  · rename_i k ht
    exact hdelete _ tag k (hflag s h) ht

omit [Zero Tag] in
theorem lazyDeleteBatch_keeps (h : P s) (tags : List Tag) : P (s.lazyDeleteBatch tags).2 := by
  refine foldlRecOn (motive := fun st : List Tag × Index Vec Tag => P st.2) tags _
    (hflag s h) fun st hst tag _ => ?_
  unfold Index.lazyDeleteOne
  split
  · exact hst
  · rename_i k ht
    exact hdelete _ tag k hst ht

end LazyDelete

theorem Slots.setCompacted (h : Slots cfg held s) (b : Bool) :
    Slots cfg held { s with dataCompacted := b } :=
  { h with }

theorem Slots.lazyDelete (h : Slots cfg held s) (tag : Tag) :
    Slots cfg held (s.lazyDelete tag).2 :=
  lazyDelete_keeps (fun _ h => h.setCompacted false) (fun _ _ _ h ht => h.deletePoint ht) h tag

theorem Slots.lazyDeleteBatch (h : Slots cfg held s) (tags : List Tag) :
    Slots cfg held (s.lazyDeleteBatch tags).2 :=
  lazyDeleteBatch_keeps (fun _ h => h.setCompacted false) (fun _ _ _ h ht => h.deletePoint ht) h
    tags

/-! ### `consolidate_deletes` -/

theorem Slots.releaseLocations {ks : List ℕ} (hnd : ks.Nodup) (h : Slots cfg ks.toFinset s)
    {msg : Option String} (hr : Index.releaseLocations cfg ks s = some (msg, s')) :
    msg = none ∧ Slots cfg ∅ s' ∧
      s' = { s with emptySlots := s'.emptySlots, nd := s'.nd } := by
  induction ks generalizing s with
  | nil =>
    have hc := h.empty_count
    simp only [Index.releaseLocations, hc, ne_eq] at hr
    cases hr
    exact ⟨rfl, h, rfl⟩
  | cons k ks ih =>
    obtain ⟨hk, hnd⟩ := nodup_cons.mp hnd
    rw [toFinset_cons] at h
    rw [Index.releaseLocations] at hr
    cases h1 : s.releaseLocation k with
    | none => rw [h1] at hr; cases hr
    | some r =>
      obtain ⟨msg1, s1⟩ := r
      obtain ⟨rfl, hs1, hslots⟩ := h.release (by simpa using hk) h1
      rw [h1] at hr
      obtain ⟨hm, hs, he⟩ := ih hnd hslots hr
      refine ⟨hm, hs, ?_⟩
      rw [he, hs1]

/-- What `consolidate_deletes` does: nothing, or the loops and the release of the deleted slots. -/
theorem Slots.consolidateDeletes_cases (h : Slots cfg ∅ s) {p : DeleteParams D} {lockFree : Bool}
    {order : SetOrder} {orders : ℕ → SetOrder} {fuel : ℕ} {out : Outcome Tag}
    (hr : s.consolidateDeletes cfg p lockFree order orders fuel = some (out, s')) :
    (s' = s ∧ lockFree = false ∧ ∀ r, out = .report r → r.status ≠ .success) ∨
      ∃ st, (lockFree = true ∧ ∃ r, out = .report r ∧ r.status = .success) ∧
        processDeletes cfg { s with deleteSet := ∅ } (order.order (s.deleteSet.sort (· ≤ ·)))
          orders p fuel = .ok st ∧
        Slots cfg ∅ s' ∧
        s' = { s with
          graph := st.1
          deleteSet := ∅
          emptySlots := s'.emptySlots
          nd := s'.nd } := by
  have hused : s.locationToTag.size + s.deleteSet.card = s.nd := h.used_count
  unfold Index.consolidateDeletes at hr
  -- the counts agree, so none of the three checks fails
  rw [if_neg (not_not_intro h.empty_count), if_neg (not_not_intro hused),
    if_neg (not_not_intro h.tags_count.symm)] at hr
  cases lockFree
  · cases hr
    exact Or.inl ⟨rfl, rfl, fun r hrep => by cases hrep; exact StatusCode.noConfusion⟩
  · rw [Bool.not_true, if_neg Bool.false_ne_true] at hr
    dsimp only at hr
    split_ifs at hr with hst
    · -- the start point is frozen, so it is never in the delete set
      have := h.deleted_lt _ (mem_order.mp hst)
      rw [h.start_eq] at this
      omega
    · cases hp : processDeletes cfg ({ s with deleteSet := ∅ } : Index Vec Tag)
          (order.order (s.deleteSet.sort (· ≤ ·))) orders p fuel with
      | error e =>
        rw [hp] at hr
        cases hr
      | ok st =>
        rw [hp] at hr
        dsimp only at hr
        cases hrel : Index.releaseLocations cfg (order.order (s.deleteSet.sort (· ≤ ·)))
            ({ s with deleteSet := ∅, graph := st.1 } : Index Vec Tag) with
        | none =>
          rw [hrel] at hr
          cases hr
        | some r =>
          obtain ⟨msg, s1⟩ := r
          have hs : Slots cfg (order.order (s.deleteSet.sort (· ≤ ·))).toFinset
              ({ s with deleteSet := ∅, graph := st.1 } : Index Vec Tag) := by
            rw [toFinset_order]
            exact { h.takeDeleted with }
          obtain ⟨rfl, hslots', hs1⟩ := hs.releaseLocations nodup_order hrel
          rw [hrel] at hr
          cases hr
          exact Or.inr ⟨st, ⟨rfl, _, rfl, rfl⟩, rfl, hslots', hs1⟩

end Index

end DiskANNEval.AiSAQ
