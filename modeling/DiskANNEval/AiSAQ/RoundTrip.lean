import DiskANNEval.AiSAQ.Save

/-!
# RoundTrip — what `load` makes of what `save` wrote

`load_savedFiles` describes the loaded index slot by slot; when the live slots are the prefix
`[0, _nd)` it is the saved one again (`Slots.loaded`).  `compact_data` makes them the prefix and
keeps everything that is seen through tags (`Inv.sameView_compactSlots`), but it returns at once
when `_data_compacted` is set, and then a slot of the prefix that is not live is saved with tag `0`.
-/

namespace DiskANNEval.AiSAQ

open Lib List Function

variable {Vec Tag D : Type}

namespace Index

/-! ### Moving a block of points -/

section Move

variable {cfg : Config Vec D} {s : Index Vec Tag}

theorem swapNeighbours_right (g : Graph) (a b : ℕ) : swapNeighbours g a b b = g a :=
  update_self ..

theorem swapNeighbours_left (g : Graph) {a b : ℕ} (h : a ≠ b) : swapNeighbours g a b a = g b := by
  rw [swapNeighbours, update_of_ne h, update_self]

theorem swapNeighbours_of_ne (g : Graph) {a b k : ℕ} (ha : k ≠ a) (hb : k ≠ b) :
    swapNeighbours g a b k = g k := by
  rw [swapNeighbours, update_of_ne hb, update_of_ne ha]

variable {old new num : ℕ}

/-- The swaps of a move, in an order in which none takes what a later one is to bring. -/
theorem foldl_swapNeighbours (hne : old ≠ new) {offs : List ℕ}
    (h : offs.Pairwise fun a b => a ≠ b ∧ new + a ≠ old + b) (g : Graph) :
    (∀ a ∈ offs, offs.foldl (fun g off => swapNeighbours g (new + off) (old + off)) g (new + a) =
      g (old + a)) ∧
    ∀ k, (∀ a ∈ offs, k ≠ new + a ∧ k ≠ old + a) →
      offs.foldl (fun g off => swapNeighbours g (new + off) (old + off)) g k = g k := by
  induction offs generalizing g with
  | nil => exact ⟨fun a ha => absurd ha not_mem_nil, fun _ _ => rfl⟩
  | cons a offs ih =>
    obtain ⟨ha, hp⟩ := pairwise_cons.mp h
    obtain ⟨hmoved, hother⟩ := ih hp (swapNeighbours g (new + a) (old + a))
    refine ⟨fun b hb => ?_, fun k hk => ?_⟩
    · rw [foldl_cons]
      rcases mem_cons.mp hb with rfl | hb
      · rw [hother (new + b) fun c hc => ⟨by have := (ha c hc).1; omega, (ha c hc).2⟩,
          swapNeighbours_left _ (by omega)]
      · rw [hmoved b hb, swapNeighbours_of_ne _ (ha b hb).2.symm (by have := (ha b hb).1; omega)]
    · rw [foldl_cons, hother k fun c hc => hk c (mem_cons_of_mem _ hc)]
      exact swapNeighbours_of_ne _ (hk a mem_cons_self).1 (hk a mem_cons_self).2

theorem mem_moveOffsets (old new num j : ℕ) : j ∈ moveOffsets old new num ↔ j < num := by
  unfold moveOffsets
  split_ifs <;> simp

theorem pairwise_moveOffsets (old new num : ℕ) :
    (moveOffsets old new num).Pairwise fun a b => a ≠ b ∧ new + a ≠ old + b := by
  unfold moveOffsets
  split_ifs with hlt
  · exact pairwise_lt_range.imp fun h => by omega
  · rw [pairwise_reverse]
    exact pairwise_lt_range.imp fun h => by omega

theorem map_shift_self (h : num = 0 ∨ old = new) (l : List ℕ) : l.map (shift old new num) = l := by
  have hs : shift old new num = id := by
    funext loc
    rw [shift, id_eq]
    split_ifs <;> omega
  rw [hs, map_id]

theorem repositionPoints_moved (s : Index Vec Tag) {old new num j : ℕ} (hj : j < num)
    (hlt : old + num ≤ cfg.totalPoints) :
    (s.repositionPoints cfg old new num).graph (new + j) =
        (s.graph (old + j)).map (shift old new num) ∧
      (s.repositionPoints cfg old new num).data (new + j) = s.data (old + j) := by
  by_cases h : num = 0 ∨ old = new
  · rw [repositionPoints, if_pos h, map_shift_self h, h.resolve_left (by omega)]
    exact ⟨rfl, rfl⟩
  · have hne : old ≠ new := fun hc => h (Or.inr hc)
    rw [repositionPoints, if_neg h]
    refine ⟨?_, ?_⟩
    · refine ((foldl_swapNeighbours hne (pairwise_moveOffsets old new num) _).1 j
        ((mem_moveOffsets old new num j).mpr hj)).trans ?_
      exact if_pos (by omega)
    · show moveVectors cfg old new num s.data (new + j) = _
      rw [moveVectors]
      simp only
      rw [if_pos (by omega), Nat.add_sub_cancel_left]

theorem repositionPoints_other (s : Index Vec Tag) {k : ℕ} (hk : k < cfg.totalPoints)
    (hnew : ¬ (new ≤ k ∧ k < new + num)) (hold : ¬ (old ≤ k ∧ k < old + num)) :
    (s.repositionPoints cfg old new num).graph k = (s.graph k).map (shift old new num) ∧
      (s.repositionPoints cfg old new num).data k = s.data k := by
  by_cases h : num = 0 ∨ old = new
  · rw [repositionPoints, if_pos h, map_shift_self h]
    exact ⟨rfl, rfl⟩
  · have hne : old ≠ new := fun hc => h (Or.inr hc)
    rw [repositionPoints, if_neg h]
    refine ⟨?_, ?_⟩
    · have hout : ∀ a ∈ moveOffsets old new num, k ≠ new + a ∧ k ≠ old + a := by
        intro a ha
        rw [mem_moveOffsets] at ha
        omega
      refine ((foldl_swapNeighbours hne (pairwise_moveOffsets old new num) _).2 k hout).trans ?_
      exact if_pos hk
    · show moveVectors cfg old new num s.data k = _
      rw [moveVectors]
      simp only
      rw [if_neg hnew, if_neg]
      split_ifs <;> omega

end Move

/-! ### Saving -/

section Frozen

variable {cfg : Config Vec D} {s : Index Vec Tag}

theorem compactFrozenPoint_start (hst : s.start = cfg.maxPoints) (hnd : s.nd ≤ cfg.maxPoints) :
    (s.compactFrozenPoint cfg).start = s.nd := by
  have := cfg.numFrozenPts_pos
  unfold compactFrozenPoint
  split_ifs with h
  · rfl
  · omega

theorem compactFrozenPoint_eq (cfg : Config Vec D) (s : Index Vec Tag) :
    (s.compactFrozenPoint cfg).nd = s.nd ∧
      (s.compactFrozenPoint cfg).locationToTag = s.locationToTag ∧
      (s.compactFrozenPoint cfg).deleteSet = s.deleteSet := by
  unfold compactFrozenPoint repositionPoints
  split_ifs <;> exact ⟨rfl, rfl, rfl⟩

theorem compactFrozenPoint_point (hnd : s.nd ≤ cfg.maxPoints) {i : ℕ} (hi : i < s.nd) :
    (s.compactFrozenPoint cfg).graph i =
        (s.graph i).map (shift cfg.maxPoints s.nd cfg.numFrozenPts) ∧
      (s.compactFrozenPoint cfg).data i = s.data i := by
  have := cfg.numFrozenPts_pos
  unfold compactFrozenPoint
  split_ifs with h
  · exact repositionPoints_other s (by rw [Config.totalPoints]; omega) (by omega) (by omega)
  · rw [map_shift_self (Or.inr (by omega))]
    exact ⟨rfl, rfl⟩

theorem compactFrozenPoint_frozen (hnd : s.nd ≤ cfg.maxPoints) {j : ℕ}
    (hj : j < cfg.numFrozenPts) :
    (s.compactFrozenPoint cfg).graph (s.nd + j) =
        (s.graph (cfg.maxPoints + j)).map (shift cfg.maxPoints s.nd cfg.numFrozenPts) ∧
      (s.compactFrozenPoint cfg).data (s.nd + j) = s.data (cfg.maxPoints + j) := by
  unfold compactFrozenPoint
  split_ifs with h
  · exact repositionPoints_moved s hj le_rfl
  · have he : s.nd = cfg.maxPoints := by omega
    rw [he, map_shift_self (Or.inr rfl)]
    exact ⟨rfl, rfl⟩

end Frozen

/-! ### Loading -/

section Load

variable [DecidableEq Tag] [Zero Tag] {cfg : Config Vec D} {s : Index Vec Tag}

/-- The tags of the slots below `_nd` as they are loaded: `0` where the saved index had none. -/
def loadEntries (s : Index Vec Tag) : List (Tag × ℕ) :=
  (List.range s.nd).map fun i => ((s.locationToTag.tryGet i).getD 0, i)

theorem foldl_loadTag (its : List (ℕ × Tag)) (m : AList (fun _ : Tag => ℕ))
    (m' : NaturalNumberMap Tag) :
    its.foldl (loadTag ∅) (m, m') =
      ((its.map Prod.swap).foldl (fun m e => m.insert e.1 e.2) m,
        (its.map Prod.swap).foldl (fun m e => m.set e.2 e.1) m') := by
  induction its generalizing m m' with
  | nil => rfl
  | cons it its ih =>
    rw [foldl_cons, ih]
    rfl

omit [DecidableEq Tag] in
theorem zip_saveTags (hst : s.start = s.nd) :
    ((List.range s.nd).zip (s.saveTags cfg)).map Prod.swap = s.loadEntries := by
  have hzip : ∀ (n m : ℕ) (f : ℕ → Tag),
      (List.range n).zip ((List.range (n + m)).map f) = (List.range n).map fun i => (i, f i) := by
    intro n m f
    have h1 : (List.range n ++ []).zip ((List.range n).map f ++ ((List.range m).map (n + ·)).map f) =
        (List.range n).zip ((List.range n).map f) ++ [].zip (((List.range m).map (n + ·)).map f) :=
      zip_append (by simp)
    have h2 := zip_map' (f := id) (g := f) (l := List.range n)
    rw [append_nil, zip_nil_left, append_nil] at h1
    rw [map_id] at h2
    rw [range_add, map_append, h1, h2]
    rfl
  rw [saveTags, hzip, map_map]
  refine map_congr_left fun i hi => ?_
  have := List.mem_range.mp hi
  show (if _ then _ else _, i) = _
  rw [if_neg (by omega)]

theorem loadTags_saveTags (hst : s.start = s.nd) {s0 : Index Vec Tag} (hd : s0.deleteSet = ∅)
    (ht : s0.tagToLocation = ∅) (hl : s0.locationToTag = .empty) :
    s0.loadTags cfg (s.saveTags cfg) =
      (s.loadEntries.foldl (fun m e => m.insert e.1 e.2) ∅,
        s.loadEntries.foldl (fun m e => m.set e.2 e.1) .empty) := by
  have hlen : (s.saveTags cfg).length - cfg.numFrozenPts = s.nd := by simp [saveTags]
  rw [loadTags, hlen, hd, ht, hl, foldl_loadTag, zip_saveTags hst]

theorem getD_map_range {α : Type} (f : ℕ → α) {n i : ℕ} (hi : i < n) (d : α) :
    (((List.range n).map f)[i]?).getD d = f i := by
  rw [getElem?_map, getElem?_range hi]
  rfl

/-- The loaded index, slot by slot. -/
structure LoadedFrom (cfg : Config Vec D) (s s' : Index Vec Tag) : Prop where
  start_eq : s'.start = cfg.maxPoints
  point : ∀ i < s.nd, s'.graph i = (s.graph i).map (shift s.nd cfg.maxPoints cfg.numFrozenPts) ∧
    s'.data i = s.data i
  frozen : ∀ j < cfg.numFrozenPts,
    s'.graph (cfg.maxPoints + j) =
        (s.graph (s.nd + j)).map (shift s.nd cfg.maxPoints cfg.numFrozenPts) ∧
      s'.data (cfg.maxPoints + j) = s.data (s.nd + j)
  tagToLocation_eq : s'.tagToLocation = s.loadEntries.foldl (fun m e => m.insert e.1 e.2) ∅
  locationToTag_eq : s'.locationToTag = s.loadEntries.foldl (fun m e => m.set e.2 e.1) .empty

/-- Moving the frozen points to the end, from an index that holds them from `_nd` on. -/
theorem LoadedFrom.reposition {s1 : Index Vec Tag} (hnd : s.nd ≤ cfg.maxPoints)
    (hnd1 : s1.nd = s.nd) (hst : s1.start = s.nd)
    (hcell : ∀ i < s.nd + cfg.numFrozenPts, s1.graph i = s.graph i ∧ s1.data i = s.data i)
    (ht : s1.tagToLocation = s.loadEntries.foldl (fun m e => m.insert e.1 e.2) ∅)
    (hl : s1.locationToTag = s.loadEntries.foldl (fun m e => m.set e.2 e.1) .empty) :
    LoadedFrom cfg s (s1.repositionFrozenPointToEnd cfg) := by
  have hpos := cfg.numFrozenPts_pos
  unfold repositionFrozenPointToEnd
  split_ifs with h
  · have he : s.nd = cfg.maxPoints := by omega
    refine ⟨hst.trans he, fun i hi => ?_, fun j hj => ?_, ht, hl⟩
    · rw [map_shift_self (Or.inr he)]
      exact hcell i (by omega)
    · rw [map_shift_self (Or.inr he), ← he]
      exact hcell (s.nd + j) (by omega)
  · refine ⟨rfl, fun i hi => ?_, fun j hj => ?_, ?_, ?_⟩
    · have hc := hcell i (by omega)
      rw [← hc.1, ← hc.2, hnd1]
      exact repositionPoints_other s1 (by rw [Config.totalPoints]; omega) (by omega) (by omega)
    · have hc := hcell (s.nd + j) (by omega)
      rw [← hc.1, ← hc.2, hnd1]
      exact repositionPoints_moved s1 hj (by rw [Config.totalPoints]; omega)
    · rw [← ht]
      unfold repositionPoints
      split_ifs
      all_goals rfl
    · rw [← hl]
      unfold repositionPoints
      split_ifs
      all_goals rfl

/-- Loading what was saved of an index whose frozen points are at `_nd` never fails. -/
theorem load_savedFiles (hst : s.start = s.nd) (hnd : s.nd ≤ cfg.maxPoints)
    (hd : s.deleteSet = ∅) (order : SetOrder) :
    ∃ s', (Index.new cfg : Index Vec Tag).load cfg (s.savedFiles cfg order) = some (.void, s') ∧
      LoadedFrom cfg s s' := by
  have hdel : (s.savedFiles cfg order).deleteList = none := by
    show (if s.deleteSet.card = 0 then none else _) = _
    rw [hd, Finset.card_empty, if_pos rfl]
  have hlen : (s.savedFiles cfg order).data.length = s.nd + cfg.numFrozenPts := by
    simp [savedFiles]
  have htags : (s.savedFiles cfg order).tags.length = s.nd + cfg.numFrozenPts := by
    simp [savedFiles, saveTags]
  have hgraph : loadGraph (s.savedFiles cfg order).graph =
      some ((List.range (s.nd + cfg.numFrozenPts)).map s.graph) := loadGraph_saveGraph ..
  unfold load
  rw [if_neg (by
    rw [hlen, Config.totalPoints]
    exact not_or.mpr ⟨by omega, fun h => h rfl⟩)]
  rw [hgraph, hdel]
  simp only [hlen, htags, length_map, length_range, ne_eq, Nat.add_sub_cancel]
  refine ⟨_, rfl, LoadedFrom.reposition hnd rfl hst (fun i hi => ?_) ?_ ?_⟩
  · exact ⟨getD_map_range s.graph hi _, getD_map_range s.data hi _⟩
  · exact congrArg Prod.fst (loadTags_saveTags hst rfl rfl rfl)
  · exact congrArg Prod.snd (loadTags_saveTags hst rfl rfl rfl)

end Load

/-! ### What is seen through tags -/

section View

variable [DecidableEq Tag] [Zero Tag] (cfg : Config Vec D)

/-- The name of a slot that outlives a move: its number among the frozen slots, or its tag. -/
def name (s : Index Vec Tag) (k : ℕ) : Option (Tag ⊕ ℕ) :=
  if cfg.maxPoints ≤ k ∧ k < cfg.totalPoints then some (.inr (k - cfg.maxPoints))
  else (s.locationToTag.tryGet k).map .inl

def vectorOf (s : Index Vec Tag) (t : Tag) : Option Vec := (s.tagToLocation.lookup t).map s.data

def neighboursOf (s : Index Vec Tag) (t : Tag) : Option (List (Option (Tag ⊕ ℕ))) :=
  (s.tagToLocation.lookup t).map fun k => (s.graph k).map (s.name cfg)

/-- `s'` shows the same points as `s`, under the same tags, and the same frozen points. -/
structure SameView (s s' : Index Vec Tag) : Prop where
  vectors : ∀ t, s'.vectorOf t = s.vectorOf t
  neighbours : ∀ t, s'.neighboursOf cfg t = s.neighboursOf cfg t
  start_eq : s'.start = s.start
  frozenVectors : ∀ k, cfg.IsFrozen k → s'.data k = s.data k
  frozenNeighbours : ∀ k, cfg.IsFrozen k →
    (s'.graph k).map (s'.name cfg) = (s.graph k).map (s.name cfg)

variable {cfg} {s s1 s2 : Index Vec Tag}

omit [Zero Tag] in
theorem SameView.trans (h1 : SameView cfg s s1) (h2 : SameView cfg s1 s2) : SameView cfg s s2 where
  vectors t := (h2.vectors t).trans (h1.vectors t)
  neighbours t := (h2.neighbours t).trans (h1.neighbours t)
  start_eq := h2.start_eq.trans h1.start_eq
  frozenVectors k hk := (h2.frozenVectors k hk).trans (h1.frozenVectors k hk)
  frozenNeighbours k hk := (h2.frozenNeighbours k hk).trans (h1.frozenNeighbours k hk)

variable {k : ℕ}

section

omit [DecidableEq Tag] [Zero Tag]

theorem name_frozen (hk : cfg.IsFrozen k) : s.name cfg k = some (.inr (k - cfg.maxPoints)) :=
  if_pos hk

theorem name_point (hk : k < cfg.maxPoints) : s.name cfg k = (s.locationToTag.tryGet k).map .inl :=
  if_neg fun h => by omega

end

/-! ### `compact_data` keeps the view -/

theorem Slots.tryGet_newLocation (h : Slots cfg ∅ s) (hl : s.Live k) :
    (s.compactSlots cfg).locationToTag.tryGet (s.newLocation cfg k) = s.locationToTag.tryGet k := by
  obtain ⟨t, ht⟩ := (live_iff s k).mp hl
  rw [ht, h.tryGet_compactSlots, h.lookup_compactSlots]
  exact ⟨k, ht, rfl⟩

theorem Slots.lookup_compactSlots_eq (h : Slots cfg ∅ s) (t : Tag) :
    (s.compactSlots cfg).tagToLocation.lookup t =
      (s.tagToLocation.lookup t).map (s.newLocation cfg) := by
  ext k
  rw [h.lookup_compactSlots, Option.map_eq_some_iff]
  simp only [h.inverse]

theorem Inv.name_newLocation (h : Inv cfg s) (hd : s.deleteSet = ∅) (hk : s.Linked cfg k) :
    (s.compactSlots cfg).name cfg (s.newLocation cfg k) = s.name cfg k := by
  rcases hk with hl | hdel | hf
  · have h1 := h.slots.live_lt k hl
    have h2 := h.slots.newLocation_lt_max k hl
    rw [name_point h2, name_point h1, h.slots.tryGet_newLocation hl]
  · exact absurd (hd ▸ hdel) (Finset.notMem_empty _)
  · rw [newLocation_frozen hf.1, name_frozen hf, name_frozen hf]

theorem Inv.renamed_eq (h : Inv cfg s) (hd : s.deleteSet = ∅) (hk : s.Linked cfg k) :
    s.renamed cfg (s.graph k) = (s.graph k).map (s.newLocation cfg) := by
  rw [renamed, filter_eq_self.mpr]
  intro j hj
  rw [decide_eq_true_eq]
  rintro ⟨hlt, hnl⟩
  rcases h.closed k hk j hj with hl | hdel | hf
  · exact hnl hl
  · exact absurd (hd ▸ hdel) (Finset.notMem_empty _)
  · have := hf.1
    omega

theorem Inv.map_name_renamed (h : Inv cfg s) (hd : s.deleteSet = ∅) (hk : s.Linked cfg k) :
    (s.renamed cfg (s.graph k)).map ((s.compactSlots cfg).name cfg) =
      (s.graph k).map (s.name cfg) := by
  rw [h.renamed_eq hd hk, map_map]
  exact map_congr_left fun j hj => h.name_newLocation hd (h.closed k hk j hj)

theorem Inv.sameView_compactSlots (h : Inv cfg s) (hd : s.deleteSet = ∅) :
    SameView cfg s (s.compactSlots cfg) := by
  have hkept : ∀ k, s.Live k → (s.compactSlots cfg).graph (s.newLocation cfg k) =
      s.renamed cfg (s.graph k) ∧ (s.compactSlots cfg).data (s.newLocation cfg k) = s.data k :=
    fun k hl => h.slots.compactSlots_kept (h.slots.kept hl)
      (lt_of_lt_of_le (h.slots.live_lt k hl) (Nat.le_add_right _ _))
  have hfrozen : ∀ k, cfg.IsFrozen k → (s.compactSlots cfg).graph k =
      s.renamed cfg (s.graph k) ∧ (s.compactSlots cfg).data k = s.data k := fun k hk => by
    have := h.slots.compactSlots_kept (Or.inr hk.1) hk.2
    rwa [newLocation_frozen hk.1] at this
  have hlive : ∀ t k, s.tagToLocation.lookup t = some k → s.Live k := fun t k ht =>
    (live_iff s k).mpr ⟨t, (h.slots.inverse t k).mp ht⟩
  refine ⟨fun t => ?_, fun t => ?_, rfl, fun k hk => (hfrozen k hk).2, fun k hk => ?_⟩
  · rw [vectorOf, h.slots.lookup_compactSlots_eq, Option.map_map]
    exact Option.map_congr fun k hk => (hkept k (hlive t k hk)).2
  · rw [neighboursOf, h.slots.lookup_compactSlots_eq, Option.map_map]
    refine Option.map_congr fun k hk => ?_
    show ((s.compactSlots cfg).graph (s.newLocation cfg k)).map _ = _
    rw [(hkept k (hlive t k hk)).1, h.map_name_renamed hd (Or.inl (hlive t k hk))]
  · rw [(hfrozen k hk).1, h.map_name_renamed hd (Or.inr (Or.inr hk))]

/-! ### A saved prefix comes back -/

/-- The live slots are the ones in front of `_nd`. -/
def PrefixLive (s : Index Vec Tag) : Prop := ∀ k, s.Live k ↔ k < s.nd

omit [DecidableEq Tag] in
theorem mem_loadEntries (hp : s.PrefixLive) (t : Tag) (k : ℕ) :
    (t, k) ∈ s.loadEntries ↔ s.locationToTag.tryGet k = some t := by
  rw [loadEntries, mem_map]
  constructor
  · rintro ⟨i, hi, he⟩
    obtain ⟨t', ht'⟩ := (live_iff s i).mp ((hp i).mpr (List.mem_range.mp hi))
    obtain ⟨h1, rfl⟩ := Prod.mk.inj he
    rw [ht', Option.getD_some] at h1
    rw [ht', h1]
  · intro ht
    exact ⟨k, List.mem_range.mpr ((hp k).mp ((live_iff s k).mpr ⟨t, ht⟩)), by rw [ht]; rfl⟩

omit [DecidableEq Tag] in
theorem snd_loadEntries : s.loadEntries.map Prod.snd = List.range s.nd := by
  rw [loadEntries, map_map]
  exact map_id _

theorem Slots.nodup_fst_loadEntries (h : Slots cfg ∅ s) (hp : s.PrefixLive) :
    (s.loadEntries.map Prod.fst).Nodup := by
  have hnd : s.loadEntries.Nodup :=
    Nodup.of_map Prod.snd (by rw [snd_loadEntries]; exact nodup_range)
  refine Nodup.map_on ?_ hnd
  rintro ⟨t1, k1⟩ h1 ⟨t2, k2⟩ h2 (rfl : t1 = t2)
  rw [h.tag_injective ((mem_loadEntries hp _ _).mp h1) ((mem_loadEntries hp _ _).mp h2)]

theorem Inv.shift_shift (h : Inv cfg s) (hd : s.deleteSet = ∅) (hp : s.PrefixLive)
    (hk : s.Linked cfg k) : ((s.graph k).map (shift cfg.maxPoints s.nd cfg.numFrozenPts)).map
      (shift s.nd cfg.maxPoints cfg.numFrozenPts) = s.graph k := by
  have hnd := h.slots.nd_le
  rw [map_map]
  refine (map_congr_left fun j hj => ?_).trans (map_id _)
  show shift _ _ _ (shift _ _ _ j) = id j
  rcases h.closed k hk j hj with hl | hdel | hf
  · have := (hp j).mp hl
    have h1 : shift cfg.maxPoints s.nd cfg.numFrozenPts j = j := if_neg (by omega)
    rw [h1, shift, if_neg (by omega), id_eq]
  · exact absurd (hd ▸ hdel) (Finset.notMem_empty _)
  · have h1 := hf.1
    have h2 := hf.2
    have h3 : shift cfg.maxPoints s.nd cfg.numFrozenPts j = j - cfg.maxPoints + s.nd :=
      if_pos (by omega)
    rw [shift, if_pos (by omega), id_eq]
    omega

omit [DecidableEq Tag] in
theorem loadEntries_compactFrozenPoint (s : Index Vec Tag) :
    (s.compactFrozenPoint cfg).loadEntries = s.loadEntries := by
  obtain ⟨h1, h2, _⟩ := compactFrozenPoint_eq cfg s
  rw [loadEntries, loadEntries, h1, h2]

/-- The loaded index of a saved prefix has the same points in the same slots. -/
structure SameSlots (cfg : Config Vec D) (s s' : Index Vec Tag) : Prop where
  lookup_eq : ∀ t, s'.tagToLocation.lookup t = s.tagToLocation.lookup t
  tryGet_eq : ∀ k, s'.locationToTag.tryGet k = s.locationToTag.tryGet k
  start_eq : s'.start = s.start
  cell_eq : ∀ k, s.Live k ∨ cfg.IsFrozen k → s'.graph k = s.graph k ∧ s'.data k = s.data k

theorem Inv.sameSlots_loaded (h : Inv cfg s) (hd : s.deleteSet = ∅) (hp : s.PrefixLive)
    (hl : LoadedFrom cfg (s.compactFrozenPoint cfg) s2) : SameSlots cfg s s2 := by
  have hnd := h.slots.nd_le
  have hnd' := (compactFrozenPoint_eq cfg s).1
  have hpt := hl.point
  have hfz := hl.frozen
  rw [hnd'] at hpt hfz
  refine ⟨fun t => ?_, fun k => ?_, hl.start_eq.trans h.slots.start_eq.symm, fun k hk => ?_⟩
  · ext k
    rw [hl.tagToLocation_eq, loadEntries_compactFrozenPoint,
      lookup_foldl_insert (h.slots.nodup_fst_loadEntries hp), mem_loadEntries hp,
      h.slots.inverse]
    simp [AList.lookup_empty]
  · ext t
    rw [hl.locationToTag_eq, loadEntries_compactFrozenPoint,
      tryGet_foldl_set _ (by rw [snd_loadEntries]; exact nodup_range), mem_loadEntries hp]
    simp
  · rcases hk with hlive | hf
    · have hk := (hp k).mp hlive
      have h1 := hpt k hk
      have h2 := compactFrozenPoint_point hnd hk
      rw [h2.1, h2.2, h.shift_shift hd hp (Or.inl hlive)] at h1
      exact h1
    · have hj : k - cfg.maxPoints < cfg.numFrozenPts := by
        have := hf.1
        have := hf.2
        omega
      have hk : cfg.maxPoints + (k - cfg.maxPoints) = k := by
        have := hf.1
        omega
      have h1 := hfz _ hj
      have h2 := compactFrozenPoint_frozen hnd hj
      rw [h2.1, h2.2, hk, h.shift_shift hd hp (Or.inr (Or.inr hf))] at h1
      exact h1

theorem SameSlots.sameView (hs : SameSlots cfg s s2) (h : Slots cfg ∅ s) : SameView cfg s s2 := by
  have hname : s2.name cfg = s.name cfg := by
    funext k
    rw [name, name, hs.tryGet_eq]
  have hlive : ∀ t k, s.tagToLocation.lookup t = some k → s.Live k := fun t k ht =>
    (live_iff s k).mpr ⟨t, (h.inverse t k).mp ht⟩
  refine ⟨fun t => ?_, fun t => ?_, hs.start_eq, fun k hk => (hs.cell_eq k (Or.inr hk)).2,
    fun k hk => ?_⟩
  · rw [vectorOf, hs.lookup_eq]
    exact Option.map_congr fun k hk => (hs.cell_eq k (Or.inl (hlive t k hk))).2
  · rw [neighboursOf, hs.lookup_eq]
    refine Option.map_congr fun k hk => ?_
    rw [(hs.cell_eq k (Or.inl (hlive t k hk))).1, hname]
  · rw [(hs.cell_eq k (Or.inr hk)).1, hname]

/-! ### Save and load -/

/-- The loaded index shows what the saved one showed, and presents nothing else as a point. -/
structure RoundTrip (cfg : Config Vec D) (s s' : Index Vec Tag) : Prop
    extends SameView cfg s s' where
  points : ∀ k t, s'.locationToTag.tryGet k = some t ↔ s'.tagToLocation.lookup t = some k

/-- `save(filename, true)` writes its files, and loading them into a new index of the same capacity
gives the saved index back. -/
def SavesAndLoads (cfg : Config Vec D) (order : SetOrder) (s : Index Vec Tag) : Prop :=
  ∃ s' files s2, s.save cfg true order = (.void, s', some files) ∧
    (Index.new cfg).load cfg files = some (.void, s2) ∧ RoundTrip cfg s s2

theorem save_compact (order : SetOrder) (h : s.compactData cfg = (.void, s1)) :
    s.save cfg true order = (.void, (s1.compactFrozenPoint cfg).repositionFrozenPointToEnd cfg,
      some ((s1.compactFrozenPoint cfg).savedFiles cfg order)) := by
  rw [save, if_pos rfl, h]

theorem Inv.load_save (h : Inv cfg s1) (hd : s1.deleteSet = ∅) (order : SetOrder) :
    ∃ s2, (Index.new cfg : Index Vec Tag).load cfg ((s1.compactFrozenPoint cfg).savedFiles cfg order) =
      some (.void, s2) ∧ LoadedFrom cfg (s1.compactFrozenPoint cfg) s2 := by
  obtain ⟨hnd, _, hdel⟩ := compactFrozenPoint_eq cfg s1
  exact load_savedFiles ((compactFrozenPoint_start h.slots.start_eq h.slots.nd_le).trans hnd.symm)
    (hnd ▸ h.slots.nd_le) (hdel.trans hd) order

theorem savesAndLoads_of_prefixLive (hc : s.compactData cfg = (.void, s1))
    (h1 : Inv cfg s1) (hd : s1.deleteSet = ∅) (hp : s1.PrefixLive) (hv : SameView cfg s s1)
    (order : SetOrder) : SavesAndLoads cfg order s := by
  obtain ⟨s2, hload, hfrom⟩ := h1.load_save hd order
  have hs := h1.sameSlots_loaded hd hp hfrom
  refine ⟨_, _, s2, save_compact order hc, hload, ?_⟩
  refine { hv.trans (hs.sameView h1.slots) with points := fun k t => ?_ }
  rw [hs.lookup_eq, hs.tryGet_eq, h1.slots.inverse]

theorem not_savesAndLoads (h : Inv cfg s) (hd : s.deleteSet = ∅) (hc : s.dataCompacted = true)
    (hk : k < s.nd) (hl : ¬ s.Live k) (order : SetOrder) : ¬ SavesAndLoads cfg order s := by
  rintro ⟨s', files, s2, hsave, hload, hr⟩
  have hcompact : s.compactData cfg = (.void, s) := by rw [compactData, if_pos hc]
  rw [save_compact order hcompact] at hsave
  simp only [Prod.mk.injEq, Option.some.injEq, true_and] at hsave
  obtain ⟨s3, hload', hfrom⟩ := h.load_save hd order
  rw [hsave.2, hload] at hload'
  obtain rfl : s2 = s3 := by simpa using hload'
  have hnone : s.locationToTag.tryGet k = none := by
    rw [← Option.not_isSome_iff_eq_none, Option.isSome_iff_exists, ← live_iff]
    exact hl
  have hmem : (0, k) ∈ s.loadEntries :=
    mem_map.mpr ⟨k, List.mem_range.mpr hk, by rw [hnone]; rfl⟩
  have hsome : (s2.tagToLocation.lookup 0).isSome := by
    rw [AList.lookup_isSome, hfrom.tagToLocation_eq, loadEntries_compactFrozenPoint, mem_foldl_insert]
    exact Or.inl (mem_map.mpr ⟨_, hmem, rfl⟩)
  have hv := hr.vectors 0
  rw [vectorOf, vectorOf, h.slots.zero_free] at hv
  rw [Option.map_none, Option.map_eq_none_iff] at hv
  rw [hv] at hsome
  cases hsome

theorem Inv.exists_not_live (h : Inv cfg s) (hd : s.deleteSet = ∅) (hp : ¬ s.PrefixLive) :
    ∃ k < s.nd, ¬ s.Live k := by
  by_contra hall
  push Not at hall
  refine hp fun k => ⟨fun hl => ?_, hall k⟩
  by_contra hk
  -- with every slot below `_nd` live, a live slot above it would make `_nd + 1` of them
  have h1 : Nat.count s.Live s.nd = s.nd := by
    rw [Nat.count_iff_forall]
    exact fun i hi => hall i hi
  have h2 : Nat.count s.Live s.nd ≤ Nat.count s.Live k := Nat.count_monotone _ (by omega)
  have h3 := Nat.count_strict_mono hl (h.slots.live_lt k hl)
  rw [h.slots.count_live_eq_nd hd] at h3
  omega

theorem savesAndLoads_iff (h : Reachable cfg s) (hd : s.deleteSet = ∅) (order : SetOrder) :
    SavesAndLoads cfg order s ↔ s.dataCompacted = false ∨ ∀ k, s.Live k ↔ k < s.nd := by
  have hinv := Inv.of_reachable h
  constructor
  · intro hs
    by_contra hc
    rw [not_or, Bool.not_eq_false] at hc
    obtain ⟨k, hk, hl⟩ := hinv.exists_not_live hd hc.2
    exact not_savesAndLoads hinv hd hc.1 hk hl order hs
  · intro hc
    cases hcomp : s.dataCompacted with
    | true =>
      have hp : s.PrefixLive := hc.resolve_left (by rw [hcomp]; exact Bool.noConfusion)
      have hcompact : s.compactData cfg = (.void, s) := by rw [compactData, if_pos hcomp]
      exact savesAndLoads_of_prefixLive hcompact hinv hd hp
        ⟨fun _ => rfl, fun _ => rfl, rfl, fun _ _ => rfl, fun _ _ => rfl⟩ order
    | false =>
      have hcompact : s.compactData cfg = (.void, s.compactSlots cfg) := by
        rw [compactData, hcomp, if_neg Bool.false_ne_true, if_neg (by rw [hd]; simp),
          if_neg (by rw [hinv.slots.start_eq]; omega)]
      exact savesAndLoads_of_prefixLive hcompact (hinv.compactSlots hd) hd
        (fun k => hinv.slots.live_compactSlots hd k) (hinv.sameView_compactSlots hd) order

/-- An insert and a delete of a tag that is not there, which sets `_data_compacted` back. -/
theorem savesAndLoads_after_delete : ∃ s : Index ℕ ℕ, s.tagToLocation.lookup 5 = some 1 ∧
    SavesAndLoads natConfig .asIs s := by
  have h1 : ((init natConfig id : Index ℕ ℕ).call natConfig (.insertPoint 7 5 20)).map
      (fun r => ((r.2.lazyDelete 9).2.tagToLocation.lookup 5, (r.2.lazyDelete 9).2.dataCompacted,
        (r.2.lazyDelete 9).2.deleteSet)) = some (some 1, false, ∅) := by decide
  obtain ⟨⟨out, s⟩, hs, hv⟩ := Option.map_eq_some_iff.mp h1
  simp only [Prod.mk.injEq] at hv
  refine ⟨_, hv.1, (savesAndLoads_iff ?_ hv.2.2 .asIs).mpr (Or.inl hv.2.1)⟩
  exact .next (a := .lazyDelete 9) (.next (.start ⟨id, rfl⟩) ⟨out, hs⟩) ⟨_, rfl⟩

/-- One insert into a new index of capacity `2`: the point is in slot `1`, `_data_compacted` is
still set, and `save` writes the empty slot `0` in its place. -/
theorem save_loses_point : ∃ s : Index ℕ ℕ, Reachable natConfig s ∧ s.deleteSet = ∅ ∧
    s.tagToLocation.lookup 5 = some 1 ∧ ¬ SavesAndLoads natConfig .asIs s := by
  have h1 : ((init natConfig id : Index ℕ ℕ).call natConfig (.insertPoint 7 5 20)).map
      (fun r => (r.2.tagToLocation.lookup 5, r.2.dataCompacted, r.2.deleteSet, r.2.nd,
        decide (r.2.Live 0))) = some (some 1, true, ∅, 1, false) := by decide
  obtain ⟨⟨out, s⟩, hs, hv⟩ := Option.map_eq_some_iff.mp h1
  simp only [Prod.mk.injEq, decide_eq_false_iff_not] at hv
  obtain ⟨hlookup, hc, hd, hnd, hlive⟩ := hv
  have hr : Reachable natConfig s := .next (.start ⟨id, rfl⟩) ⟨out, hs⟩
  exact ⟨s, hr, hd, hlookup,
    not_savesAndLoads (Inv.of_reachable hr) hd hc (by omega) hlive .asIs⟩

end View

end Index

end DiskANNEval.AiSAQ
