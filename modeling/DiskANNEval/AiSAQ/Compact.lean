import DiskANNEval.AiSAQ.Slots
import DiskANNEval.Lib.Packed

/-!
# Compact — what `compact_data` does to an index without deleted slots

`newLocation` numbers the live slots in their order, so it maps them onto `[0, _nd)`.  The loop
over the slots moves each list and each vector down to its new location before a later round can
overwrite it (`compactLoop`), and the two tag maps are rebuilt as inverse maps.
-/

namespace DiskANNEval.AiSAQ

open Lib List Function

variable {Vec Tag D : Type} {cfg : Config Vec D}

namespace Index

variable {s : Index Vec Tag}

/-! ### The new locations -/

/-- The slots `compact_data` keeps: the live and the frozen ones. -/
def Kept (cfg : Config Vec D) (s : Index Vec Tag) (k : ℕ) : Prop :=
  s.Live k ∧ k < cfg.maxPoints ∨ cfg.maxPoints ≤ k

variable {k : ℕ}

theorem newLocation_live (hl : s.Live k) (hk : k < cfg.maxPoints) :
    s.newLocation cfg k = Nat.count s.Live k := by
  rw [newLocation, if_pos hk, if_pos hl, liveBelow]

theorem newLocation_frozen (hk : cfg.maxPoints ≤ k) : s.newLocation cfg k = k := by
  rw [newLocation, if_neg (by omega)]

theorem newLocation_le (hk : s.Kept cfg k) : s.newLocation cfg k ≤ k := by
  rcases hk with ⟨hl, hk⟩ | hk
  · rw [newLocation_live hl hk]
    exact Nat.count_le _
  · rw [newLocation_frozen hk]

theorem newLocation_lt {i j : ℕ} (hi : s.Kept cfg i) (hj : s.Kept cfg j) (hij : i < j) :
    s.newLocation cfg i < s.newLocation cfg j := by
  rcases hj with ⟨hlj, hj⟩ | hj
  · have hli : s.Live i := by
      rcases hi with ⟨hl, _⟩ | hi
      · exact hl
      · omega
    rw [newLocation_live hli (by omega), newLocation_live hlj hj]
    exact Nat.count_strict_mono hli hij
  · rw [newLocation_frozen hj]
    exact lt_of_le_of_lt (newLocation_le hi) hij

theorem newLocation_inj {i j : ℕ} (hi : s.Kept cfg i) (hj : s.Kept cfg j)
    (h : s.newLocation cfg i = s.newLocation cfg j) : i = j := by
  rcases lt_trichotomy i j with hlt | heq | hgt
  · exact absurd h (newLocation_lt hi hj hlt).ne
  · exact heq
  · exact absurd h.symm (newLocation_lt hj hi hgt).ne

/-! ### The loop over the slots -/

/-- Before round `m` the kept slots below `m` have moved and the others are as they were. -/
def CompactedTo (cfg : Config Vec D) (s : Index Vec Tag) (m : ℕ) (st : Graph × DataStore Vec) :
    Prop :=
  (∀ k < m, s.Kept cfg k → st.1 (s.newLocation cfg k) = s.renamed cfg (s.graph k) ∧
    st.2 (s.newLocation cfg k) = s.data k) ∧
  ∀ k, m ≤ k → st.1 k = s.graph k ∧ st.2 k = s.data k

theorem kept_iff (hlt : ∀ k, s.Live k → s.newLocation cfg k < cfg.maxPoints) (k : ℕ) :
    s.newLocation cfg k < cfg.maxPoints ∨ cfg.maxPoints ≤ k ↔ s.Kept cfg k := by
  by_cases hk : cfg.maxPoints ≤ k
  · exact iff_of_true (Or.inr hk) (Or.inr hk)
  · by_cases hl : s.Live k
    · exact iff_of_true (Or.inl (hlt k hl)) (Or.inl ⟨hl, by omega⟩)
    · refine iff_of_false ?_ ?_
      · rw [newLocation, if_pos (by omega), if_neg hl]
        have := cfg.totalPoints_lt
        omega
      · rintro (⟨hl', _⟩ | hk')
        · exact hl hl'
        · exact hk hk'

theorem CompactedTo.step (hlt : ∀ k, s.Live k → s.newLocation cfg k < cfg.maxPoints) {m : ℕ}
    {st : Graph × DataStore Vec} (h : CompactedTo cfg s m st) :
    CompactedTo cfg s (m + 1) (s.compactSlot cfg st m) := by
  obtain ⟨hdone, hrest⟩ := h
  obtain ⟨hgm, hdm⟩ := hrest m le_rfl
  unfold compactSlot
  by_cases hkept : s.Kept cfg m
  · rw [if_pos ((kept_iff hlt m).mpr hkept), hgm, hdm]
    have hle := newLocation_le hkept
    by_cases hne : s.newLocation cfg m = m
    · -- the slot stays where it is
      simp only [hne, ne_eq, not_true_eq_false, if_false]
      refine ⟨fun k hk hkk => ?_, fun k hk => ?_⟩
      · rcases Nat.lt_succ_iff_lt_or_eq.mp hk with hk | rfl
        · have := newLocation_le hkk
          dsimp only
          rw [update_of_ne (by omega)]
          exact hdone k hk hkk
        · dsimp only
          rw [hne, update_self]
          exact ⟨rfl, hdm⟩
      · dsimp only
        rw [update_of_ne (by omega)]
        exact hrest k (by omega)
    · -- the slot moves down to `newLocation m`, which no kept slot below `m` uses
      simp only [ne_eq, hne, not_false_eq_true, if_true, swapNeighbours, update_self]
      refine ⟨fun k hk hkk => ?_, fun k hk => ?_⟩
      · rcases Nat.lt_succ_iff_lt_or_eq.mp hk with hk | rfl
        · have h1 := newLocation_le hkk
          have h2 := newLocation_lt hkk hkept hk
          dsimp only
          rw [update_of_ne (by omega), update_of_ne (by omega),
            update_of_ne (by omega), update_of_ne (by omega)]
          exact hdone k hk hkk
        · dsimp only
          rw [update_of_ne (by omega), update_self, update_self]
          exact ⟨rfl, rfl⟩
      · dsimp only
        rw [update_of_ne (by omega), update_of_ne (by omega),
          update_of_ne (by omega), update_of_ne (by omega)]
        exact hrest k (by omega)
  · rw [if_neg fun hc => hkept ((kept_iff hlt m).mp hc)]
    refine ⟨fun k hk hkk => ?_, fun k hk => ?_⟩
    · rcases Nat.lt_succ_iff_lt_or_eq.mp hk with hk | rfl
      · have := newLocation_le hkk
        dsimp only
        rw [update_of_ne (by omega)]
        exact hdone k hk hkk
      · exact absurd hkk hkept
    · dsimp only
      rw [update_of_ne (by omega)]
      exact hrest k (by omega)

theorem compactLoop (hlt : ∀ k, s.Live k → s.newLocation cfg k < cfg.maxPoints) (m : ℕ) :
    CompactedTo cfg s m ((List.range m).foldl (s.compactSlot cfg) (s.graph, s.data)) := by
  induction m with
  | zero => exact ⟨fun k hk => absurd hk (by omega), fun k _ => ⟨rfl, rfl⟩⟩
  | succ m ih =>
    rw [range_succ, foldl_append]
    exact ih.step hlt

/-! ### The tag maps -/

section Maps

variable [DecidableEq Tag]

theorem tryGet_foldl_set {V : Type} [Zero V] (es : List (V × ℕ))
    (hnd : (es.map Prod.snd).Nodup) (m : NaturalNumberMap V) (k : ℕ) (v : V) :
    (es.foldl (fun m e => m.set e.2 e.1) m).tryGet k = some v ↔
      (v, k) ∈ es ∨ k ∉ es.map Prod.snd ∧ m.tryGet k = some v := by
  induction es generalizing m with
  | nil => simp
  | cons e es ih =>
    rw [map_cons, nodup_cons] at hnd
    obtain ⟨he, hnd⟩ := hnd
    obtain ⟨v', k'⟩ := e
    rw [foldl_cons, ih hnd]
    by_cases hk : k = k'
    · subst hk
      have hno : ∀ w, (w, k) ∉ es := fun w hw => he (mem_map.mpr ⟨_, hw, rfl⟩)
      simp only [map_cons, mem_cons, Prod.mk.injEq, hno, false_or, and_true]
      rw [NaturalNumberMap.tryGet_set_self]
      simp only [he, not_false_eq_true, true_and, Option.some.injEq, not_true_eq_false,
        false_and, or_false]
      exact eq_comm
    · rw [NaturalNumberMap.tryGet_set_ne _ _ hk]
      simp [hk]

theorem size_foldl_set {V : Type} [Zero V] (es : List (V × ℕ)) (hnd : (es.map Prod.snd).Nodup)
    (m : NaturalNumberMap V) (hm : ∀ e ∈ es, m.tryGet e.2 = none) :
    (es.foldl (fun m e => m.set e.2 e.1) m).size = m.size + es.length := by
  induction es generalizing m with
  | nil => rfl
  | cons e es ih =>
    rw [map_cons, nodup_cons] at hnd
    obtain ⟨he, hnd⟩ := hnd
    rw [foldl_cons, ih hnd, NaturalNumberMap.size_set_of_none _ (hm e mem_cons_self),
      length_cons]
    · omega
    · intro e' he'
      have hne : e'.2 ≠ e.2 := fun h => he (mem_map.mpr ⟨e', he', h⟩)
      rw [NaturalNumberMap.tryGet_set_ne _ _ hne]
      exact hm e' (mem_cons_of_mem _ he')

end Maps

/-! ### An index without deleted slots -/

section Compacted

variable [DecidableEq Tag] [Zero Tag]

variable {held : Finset ℕ}

theorem Slots.count_live (h : Slots cfg held s) :
    Nat.count s.Live cfg.maxPoints = s.locationToTag.size := by
  rw [← NaturalNumberMap.length_keys, Nat.count_eq_card_filter_range,
    ← toFinset_card_of_nodup (NaturalNumberMap.nodup_keys _)]
  congr 1
  ext k
  rw [Finset.mem_filter, Finset.mem_range, mem_toFinset, NaturalNumberMap.mem_keys,
    ← NaturalNumberMap.contains_iff_tryGet]
  exact ⟨fun hk => hk.2, fun hk => ⟨h.live_lt k hk, hk⟩⟩

theorem Slots.size_le_nd (h : Slots cfg held s) : s.locationToTag.size ≤ s.nd := by
  have := h.used_count
  omega

theorem Slots.nd_le (h : Slots cfg held s) : s.nd ≤ cfg.maxPoints := by
  have := h.empty_count
  omega

variable {k : ℕ}

theorem Slots.newLocation_lt_size (h : Slots cfg held s) (hl : s.Live k) :
    s.newLocation cfg k < s.locationToTag.size := by
  have hk := h.live_lt k hl
  rw [newLocation_live hl hk, ← h.count_live]
  exact Nat.count_strict_mono hl hk

theorem Slots.exists_newLocation_of_lt (h : Slots cfg held s) {j : ℕ}
    (hj : j < s.locationToTag.size) : ∃ k, s.Live k ∧ s.newLocation cfg k = j := by
  rw [← h.count_live] at hj
  obtain ⟨k, hk, hl, he⟩ := exists_count_eq hj
  exact ⟨k, hl, by rw [newLocation_live hl hk, he]⟩

theorem Slots.newLocation_lt_max (h : Slots cfg held s) (k : ℕ) (hl : s.Live k) :
    s.newLocation cfg k < cfg.maxPoints :=
  (h.newLocation_lt_size hl).trans_le (h.size_le_nd.trans h.nd_le)

theorem Slots.size_eq_nd (h : Slots cfg ∅ s) (hd : s.deleteSet = ∅) :
    s.locationToTag.size = s.nd := by
  have := h.used_count
  rw [hd, Finset.card_empty] at this
  omega

theorem Slots.count_live_eq_nd (h : Slots cfg ∅ s) (hd : s.deleteSet = ∅) :
    Nat.count s.Live cfg.maxPoints = s.nd := by
  rw [h.count_live, h.size_eq_nd hd]

theorem Slots.newLocation_lt_nd (h : Slots cfg ∅ s) (hd : s.deleteSet = ∅) (hl : s.Live k) :
    s.newLocation cfg k < s.nd :=
  h.size_eq_nd hd ▸ h.newLocation_lt_size hl

theorem Slots.exists_newLocation (h : Slots cfg ∅ s) (hd : s.deleteSet = ∅) {j : ℕ}
    (hj : j < s.nd) : ∃ k, s.Live k ∧ s.newLocation cfg k = j :=
  h.exists_newLocation_of_lt (h.size_eq_nd hd ▸ hj)

theorem Slots.kept (h : Slots cfg held s) (hl : s.Live k) :
    s.Kept cfg k := Or.inl ⟨hl, h.live_lt k hl⟩

theorem Slots.compactSlots_kept (h : Slots cfg held s) (hk : s.Kept cfg k)
    (hlt : k < cfg.totalPoints) :
    (s.compactSlots cfg).graph (s.newLocation cfg k) = s.renamed cfg (s.graph k) ∧
      (s.compactSlots cfg).data (s.newLocation cfg k) = s.data k := by
  have hloop := (compactLoop h.newLocation_lt_max cfg.totalPoints).1 k hlt hk
  refine ⟨?_, hloop.2⟩
  have hnot : ¬ (s.nd ≤ s.newLocation cfg k ∧ s.newLocation cfg k < cfg.maxPoints) := by
    rcases hk with ⟨hl, _⟩ | hk
    · have := h.newLocation_lt_size hl
      have := h.size_le_nd
      omega
    · rw [newLocation_frozen hk]
      omega
  show (if _ then [] else _) = _
  rw [if_neg hnot]
  exact hloop.1

/-- The tags of the live slots with their new locations, in the order of the slots. -/
def tagEntries (cfg : Config Vec D) (s : Index Vec Tag) : List (Tag × ℕ) :=
  s.locationToTag.keys.filterMap fun pos =>
    (s.locationToTag.tryGet pos).map fun tag => (tag, s.newLocation cfg pos)

omit [Zero Tag] in
theorem compactTags_eq (cfg : Config Vec D) (s : Index Vec Tag) :
    s.compactTags cfg = (s.tagEntries cfg).foldl (fun m e => m.insert e.1 e.2) ∅ := by
  rw [tagEntries, foldl_filterMap, compactTags]
  congr 1
  funext m pos
  cases s.locationToTag.tryGet pos <;> rfl

omit [DecidableEq Tag] [Zero Tag] in
theorem mem_tagEntries (t : Tag) (k : ℕ) :
    (t, k) ∈ s.tagEntries cfg ↔
      ∃ pos, s.locationToTag.tryGet pos = some t ∧ s.newLocation cfg pos = k := by
  rw [tagEntries, mem_filterMap]
  constructor
  · rintro ⟨pos, _, h⟩
    obtain ⟨tag, ht, h⟩ := Option.map_eq_some_iff.mp h
    cases h
    exact ⟨pos, ht, rfl⟩
  · rintro ⟨pos, ht, rfl⟩
    exact ⟨pos, (NaturalNumberMap.mem_keys _ _).mpr ⟨t, ht⟩, by rw [ht]; rfl⟩

theorem Slots.nodup_tagEntries (h : Slots cfg held s) :
    ((s.tagEntries cfg).map Prod.fst).Nodup := by
  rw [tagEntries, map_filterMap]
  refine (NaturalNumberMap.nodup_keys _).filterMap fun i j t hi hj => ?_
  rw [Option.mem_def, Option.map_map, Option.map_eq_some_iff] at hi hj
  obtain ⟨ti, hi, rfl⟩ := hi
  obtain ⟨tj, hj, (rfl : tj = ti)⟩ := hj
  exact h.tag_injective hi hj

omit [DecidableEq Tag] [Zero Tag] in
theorem length_tagEntries : (s.tagEntries cfg).length = s.locationToTag.size := by
  rw [← NaturalNumberMap.length_keys, tagEntries, length_filterMap_eq_countP]
  refine countP_eq_length.mpr fun pos hpos => ?_
  obtain ⟨t, ht⟩ := (NaturalNumberMap.mem_keys _ _).mp hpos
  rw [ht]
  rfl

theorem Slots.lookup_compactSlots (h : Slots cfg held s) (t : Tag) (k : ℕ) :
    (s.compactSlots cfg).tagToLocation.lookup t = some k ↔
      ∃ pos, s.locationToTag.tryGet pos = some t ∧ s.newLocation cfg pos = k := by
  show (s.compactTags cfg).lookup t = some k ↔ _
  rw [compactTags_eq, lookup_foldl_insert h.nodup_tagEntries, mem_tagEntries]
  simp [AList.lookup_empty]

theorem Slots.nodup_compactTags (h : Slots cfg held s) :
    (((s.compactTags cfg).entries.map fun e => (e.1, e.2)).map Prod.snd).Nodup := by
  rw [map_map]
  refine Nodup.map_on ?_ (Nodup.of_map Sigma.fst (AList.keys_nodup _))
  rintro ⟨t1, k1⟩ h1 ⟨t2, k2⟩ h2 (rfl : k1 = k2)
  obtain ⟨p1, ht1, hk1⟩ := (h.lookup_compactSlots t1 k1).mp (AList.mem_lookup_iff.mpr h1)
  obtain ⟨p2, ht2, hk2⟩ := (h.lookup_compactSlots t2 k1).mp (AList.mem_lookup_iff.mpr h2)
  have hp : p1 = p2 := newLocation_inj (h.kept ((live_iff _ _).mpr ⟨_, ht1⟩))
    (h.kept ((live_iff _ _).mpr ⟨_, ht2⟩)) (hk1.trans hk2.symm)
  rw [hp, ht2] at ht1
  rw [Option.some.inj ht1]

theorem locationToTag_compactSlots (s : Index Vec Tag) :
    (s.compactSlots cfg).locationToTag =
      ((s.compactTags cfg).entries.map fun e => (e.1, e.2)).foldl (fun m e => m.set e.2 e.1)
        .empty := by
  rw [foldl_map]
  rfl

theorem Slots.tryGet_compactSlots (h : Slots cfg held s) (k : ℕ) (t : Tag) :
    (s.compactSlots cfg).locationToTag.tryGet k = some t ↔
      (s.compactSlots cfg).tagToLocation.lookup t = some k := by
  rw [locationToTag_compactSlots, tryGet_foldl_set _ h.nodup_compactTags]
  simp only [NaturalNumberMap.tryGet_empty, reduceCtorEq, and_false, or_false, mem_map]
  constructor
  · rintro ⟨⟨t', k'⟩, he, heq⟩
    obtain ⟨rfl, rfl⟩ := Prod.mk.injEq .. ▸ heq
    exact AList.mem_lookup_iff.mpr he
  · exact fun hl => ⟨⟨t, k⟩, AList.mem_lookup_iff.mp hl, rfl⟩

theorem Slots.live_compactSlots_iff (h : Slots cfg held s) (k : ℕ) :
    (s.compactSlots cfg).Live k ↔ k < s.locationToTag.size := by
  rw [live_iff]
  constructor
  · rintro ⟨t, ht⟩
    obtain ⟨pos, hpos, rfl⟩ := (h.lookup_compactSlots t k).mp ((h.tryGet_compactSlots k t).mp ht)
    exact h.newLocation_lt_size ((live_iff _ _).mpr ⟨t, hpos⟩)
  · intro hk
    obtain ⟨pos, hl, rfl⟩ := h.exists_newLocation_of_lt hk
    obtain ⟨t, ht⟩ := (live_iff _ _).mp hl
    exact ⟨t, (h.tryGet_compactSlots _ t).mpr ((h.lookup_compactSlots t _).mpr ⟨pos, ht, rfl⟩)⟩

theorem Slots.live_compactSlots (h : Slots cfg ∅ s) (hd : s.deleteSet = ∅) (k : ℕ) :
    (s.compactSlots cfg).Live k ↔ k < s.nd := by
  rw [h.live_compactSlots_iff, h.size_eq_nd hd]

theorem Slots.size_compactSlots (h : Slots cfg held s) :
    (s.compactSlots cfg).tagToLocation.entries.length = s.locationToTag.size ∧
      (s.compactSlots cfg).locationToTag.size = s.locationToTag.size := by
  have hlen : (s.compactTags cfg).entries.length = s.locationToTag.size := by
    rw [compactTags_eq, length_foldl_insert h.nodup_tagEntries _
      (fun _ _ => AList.lookup_empty _), length_tagEntries]
    exact Nat.zero_add _
  refine ⟨hlen, ?_⟩
  rw [locationToTag_compactSlots, size_foldl_set _ h.nodup_compactTags _
    (fun _ _ => NaturalNumberMap.tryGet_empty _), length_map, hlen]
  exact Nat.zero_add _

/-- After `compact_data` the tagged slots come first and the empty ones from `_nd` on; what is between
are slots that an operation has taken out and left behind. -/
theorem Slots.compactSlots_held (h : Slots cfg held s) (hd : s.deleteSet = ∅) :
    Slots cfg (Finset.Ico s.locationToTag.size s.nd) (s.compactSlots cfg) := by
  have hlive := h.live_compactSlots_iff
  have hempty : (s.compactSlots cfg).emptySlots.valuesVector =
      (range' s.nd (cfg.maxPoints - s.nd)).reverse := by
    refine (NaturalNumberSet.valuesVector_insertAll _ _).trans ?_
    exact append_nil _
  have hmem : ∀ k, k ∈ (s.compactSlots cfg).emptySlots.valuesVector ↔
      s.nd ≤ k ∧ k < cfg.maxPoints := by
    intro k
    have := h.nd_le
    rw [hempty, mem_reverse, mem_range'_1]
    omega
  obtain ⟨hlen, hsize⟩ := h.size_compactSlots
  have hdel : (s.compactSlots cfg).deleteSet = ∅ := hd
  refine {
    start_eq := h.start_eq
    emptyOk := NaturalNumberSet.ok_empty.insertAll nodup_range' fun _ _ => not_mem_nil
    covered := fun k hk => ?_
    held_lt := fun k hk => ((Finset.mem_Ico.mp hk).2).trans_le h.nd_le
    live_lt := fun k hk => ((hlive k).mp hk).trans_le (h.size_le_nd.trans h.nd_le)
    deleted_lt := fun k hk => absurd (hdel ▸ hk) (Finset.notMem_empty k)
    empty_lt := fun k hk => ((hmem k).mp hk).2
    held_free := fun k hk => ?_
    live_free := fun k hk => ⟨by rw [hdel]; exact Finset.notMem_empty k, fun he => ?_⟩
    deleted_free := fun k hk => absurd (hdel ▸ hk) (Finset.notMem_empty k)
    empty_count := ?_
    used_count := ?_
    inverse := fun t k => (h.tryGet_compactSlots k t).symm
    tags_count := hlen.trans hsize.symm
    zero_free := ?_ }
  · rw [Finset.mem_Ico, hlive, hmem]
    omega
  · rw [Finset.mem_Ico] at hk
    rw [hlive, hmem, hdel]
    exact ⟨by omega, Finset.notMem_empty k, by omega⟩
  · have h1 := (hlive k).mp hk
    have h2 := ((hmem k).mp he).1
    have := h.size_le_nd
    omega
  · have := h.nd_le
    rw [NaturalNumberSet.size, hempty, length_reverse, length_range']
    show cfg.maxPoints - s.nd + s.nd = _
    omega
  · have := h.size_le_nd
    rw [hsize, hdel, Nat.card_Ico]
    show s.locationToTag.size + 0 + (s.nd - s.locationToTag.size) = s.nd
    omega
  · by_contra h0
    obtain ⟨k, hk⟩ := Option.ne_none_iff_exists'.mp h0
    obtain ⟨pos, hpos, _⟩ := (h.lookup_compactSlots 0 k).mp hk
    have := (h.inverse 0 pos).mpr hpos
    rw [h.zero_free] at this
    cases this

/-- `compact_data` keeps the accounting; afterwards `[0, _nd)` is live and the rest empty. -/
theorem Slots.compactSlots (h : Slots cfg ∅ s) (hd : s.deleteSet = ∅) :
    Slots cfg ∅ (s.compactSlots cfg) := by
  have hnone : Finset.Ico s.locationToTag.size s.nd = ∅ := by
    rw [h.size_eq_nd hd, Finset.Ico_self]
  exact hnone ▸ h.compactSlots_held hd

end Compacted

end Index

end DiskANNEval.AiSAQ
