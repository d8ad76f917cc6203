import DiskANNEval.PipeANN.MemIndexCompacted

/-!
# MemIndexEntry — the entry point after `consolidate`

The search for the new entry point starts at the old one, which is a number that may mean another
point by now.  If it is one of the first `_nd` locations, the search stays there; if not, its list has
been cleared and nothing else is found (`entryOk_consolidate_iff`).
-/

namespace DiskANNEval.PipeANN.MemIndex

open List Option

variable {D Vec Tag : Type} [DecidableEq Tag] [LinearOrder D] [Zero D] {c : MemConfig D Vec Tag}
  {p : MemParams D} {s s' : MemIndex Vec Tag}

/-! ### Indices that are built -/

section

omit [DecidableEq Tag] [Zero D]

theorem nearest_mem (ids : List ℕ) : (s.nearest c ids).1 = 0 ∨ (s.nearest c ids).1 ∈ ids := by
  have hfold : ∀ (dist : ℕ → D) (ids : List ℕ) (b : ℕ × D),
      (ids.foldl (fun b i => if dist i < b.2 then (i, dist i) else b) b).1 = b.1 ∨
        (ids.foldl (fun b i => if dist i < b.2 then (i, dist i) else b) b).1 ∈ ids := by
    intro dist ids
    induction ids with
    | nil => exact fun b => .inl rfl
    | cons i ids ih =>
      intro b
      rw [foldl_cons]
      obtain h | h := ih (if dist i < b.2 then (i, dist i) else b)
      · rw [h]
        split_ifs
        · exact .inr mem_cons_self
        · exact .inl rfl
      · exact .inr (mem_cons_of_mem i h)
  exact hfold _ ids (0, c.maxDist)

theorem calculateEntryPoint_lt : s.calculateEntryPoint c = 0 ∨ s.calculateEntryPoint c < s.nd := by
  have hblock : ∀ k, (s.nearest c ((List.range s.nd).filter fun i => i / 65536 % 256 = k)).1 = 0 ∨
      (s.nearest c ((List.range s.nd).filter fun i => i / 65536 % 256 = k)).1 < s.nd := by
    intro k
    refine (nearest_mem _).imp_right fun h => ?_
    exact List.mem_range.1 (mem_filter.1 h).1
  refine foldlRecOn (motive := fun b : ℕ × D => b.1 = 0 ∨ b.1 < s.nd) _ _ (.inl rfl) ?_
  intro b hb k _
  split_ifs
  · exact hblock k
  · exact hb

end

omit [LinearOrder D] [Zero D] in
theorem tagMap_eq_some {tags : List Tag} (h : tags.Nodup) (t : Tag) (i : ℕ) :
    tagMap tags t = some i ↔ tags[i]? = some t := by
  induction tags using reverseRecOn with
  | nil => simp [tagMap]
  | append_singleton tags a ih =>
    obtain ⟨hnd, -, hdisj⟩ := nodup_append'.1 h
    have ha : a ∉ tags := fun hm => hdisj hm mem_cons_self
    rw [tagMap, zipIdx_append, foldl_append, zipIdx_singleton, foldl_cons,
      foldl_nil, ← tagMap]
    by_cases ht : t = a
    · subst ht
      rw [Function.update_self, Option.some.injEq]
      constructor
      · rintro rfl
        simp
      · intro hi
        obtain ⟨hlt, hget⟩ := List.getElem?_eq_some_iff.1 hi
        rw [length_append, length_singleton] at hlt
        by_contra hne
        have hlt' : i < tags.length := by omega
        rw [getElem_append_left hlt'] at hget
        exact ha (hget ▸ getElem_mem hlt')
    · rw [Function.update_of_ne ht, ih hnd]
      by_cases hlt : i < tags.length
      · rw [getElem?_append_left hlt]
      · rw [getElem?_append_right (Nat.not_lt.1 hlt), getElem?_eq_none (Nat.not_lt.1 hlt)]
        refine iff_of_false (by simp) fun he => ht ?_
        exact mem_singleton.1 (mem_of_getElem? he)

variable {order : List ℕ}

omit [DecidableEq Tag] in
theorem linked_foldlM_linkNode (horder : ∀ node ∈ order, node < s.maxPoints) (h : s.ListsIn)
    (hep : order ≠ [] → s.ep < s.maxPoints)
    (hs' : order.foldlM (fun s node => s.linkNode c p node) s = some s') : Linked s s' := by
  induction order generalizing s with
  | nil =>
    cases hs'
    exact .refl h
  | cons node order ih =>
    rw [foldlM_cons] at hs'
    obtain ⟨s₁, hs₁, hs'⟩ := bind_eq_some_iff.1 hs'
    obtain ⟨s₂, hs₂, hl⟩ := exists_linkNode (c := c) h
      (hep (cons_ne_nil node order)) (horder node mem_cons_self)
    rw [hs₁, Option.some.injEq] at hs₂
    subst hs₂
    have hmax : s₁.maxPoints = s.maxPoints := by rw [hl.1]
    have hep₁ : s₁.ep = s.ep := by rw [hl.1]
    refine hl.trans (ih (fun n hn => ?_) hl.2 (fun _ => ?_) hs')
    · rw [hmax]
      exact horder n (mem_cons_of_mem node hn)
    · rw [hep₁, hmax]
      exact hep (cons_ne_nil node order)

omit [DecidableEq Tag] in
theorem linked_link (horder : order.Perm (List.range s.nd)) (h : s.ListsIn)
    (hnd : s.nd ≤ s.maxPoints) (hs' : s.link c p order = some s') :
    Linked { s with ep := s.calculateEntryPoint c } s' := by
  obtain ⟨s₁, hs₁, hs'⟩ := bind_eq_some_iff.1 hs'
  have hlt : ∀ node ∈ order, node < s.nd := fun node hn => List.mem_range.1 (horder.mem_iff.1 hn)
  have hl := linked_foldlM_linkNode (s := { s with ep := s.calculateEntryPoint c })
    (fun node hn => (hlt node hn).trans_le hnd) h (fun hne => ?_) hs₁
  · cases hs'
    have hcleanup : ∀ nodes : List ℕ, ∀ s₂ : MemIndex Vec Tag, s₂.ListsIn →
        Linked s₂ (nodes.foldl (fun s node => s.cleanup c p node) s₂) := by
      intro nodes
      induction nodes with
      | nil => exact fun s₂ h₂ => .refl h₂
      | cons node nodes ih =>
        intro s₂ h₂
        have hone := linked_cleanup (c := c) (p := p) h₂ node
        exact hone.trans (ih _ hone.2)
    exact hl.trans (hcleanup _ s₁ hl.2)
  · obtain ⟨node, hn⟩ := exists_mem_of_ne_nil order hne
    have hpos := hlt node hn
    show s.calculateEntryPoint c < s.maxPoints
    obtain h0 | h0 := calculateEntryPoint_lt (c := c) (s := s)
    · omega
    · omega

theorem Inv.build {vecs : List Vec} {normalizeCosine : Bool} {tags : List Tag} (htags : tags.Nodup)
    (horder : order.Perm (List.range tags.length))
    (h : build c p vecs normalizeCosine tags order = some s) : s.Inv := by
  rw [MemIndex.build] at h
  by_cases hlen : vecs.length < tags.length
  · rw [if_pos hlen] at h
    cases h
  rw [if_neg hlen] at h
  set vecs' := if normalizeCosine then vecs.map c.normalize else vecs with hvecs
  have hlen' : tags.length ≤ vecs'.length := by
    rw [hvecs]
    split_ifs
    · rw [length_map]
      omega
    · omega
  obtain ⟨s₁, hs₁, h⟩ := bind_eq_some_iff.1 h
  have hl := linked_link horder (fun _ _ hn => absurd hn not_mem_nil)
    hlen' hs₁
  have htag : ∀ i t, tags[i]? = some t → i < tags.length :=
    fun i t ht => (List.getElem?_eq_some_iff.1 ht).1
  have hbase : ({ loaded c vecs' tags with
      ep := (loaded c vecs' tags).calculateEntryPoint c
      emptySlots := Finset.Ico tags.length vecs'.length } : MemIndex Vec Tag).Inv := by
    refine ⟨fun i t => (tagMap_eq_some htags t i).symm, fun i t ht => (htag i t ht).trans_le hlen',
      fun i hi => ?_, fun i hi => ?_, fun i hi => absurd hi (Finset.notMem_empty i), ?_,
      fun _ _ hn => absurd hn not_mem_nil, ?_⟩
    · by_cases hlt : i < tags.length
      · refine .inr (.inr ?_)
        show (tags[i]?).isSome = true
        rw [getElem?_eq_getElem hlt]
        rfl
      · exact .inl (Finset.mem_Ico.2 ⟨Nat.not_lt.1 hlt, hi⟩)
    · obtain ⟨h1, h2⟩ := Finset.mem_Ico.1 hi
      exact ⟨h2, Finset.notMem_empty i, getElem?_eq_none h1⟩
    · show tags.length + (Finset.Ico tags.length vecs'.length).card = vecs'.length
      rw [Nat.card_Ico]
      omega
    · show (loaded c vecs' tags).calculateEntryPoint c < vecs'.length ∨
        vecs'.length = 0 ∧ (loaded c vecs' tags).calculateEntryPoint c = 0
      have hnd : (loaded c vecs' tags).nd = tags.length := rfl
      obtain h0 | h0 := calculateEntryPoint_lt (c := c) (s := loaded c vecs' tags)
      · omega
      · omega
  have hempty : s₁.emptySlots = ∅ := by rw [hl.1]; rfl
  have hnd : s₁.nd = tags.length := by rw [hl.1]; rfl
  have hmax : s₁.maxPoints = vecs'.length := by rw [hl.1]; rfl
  cases h
  refine hbase.linked ⟨?_, hl.2⟩
  conv_lhs => rw [hl.1]
  rfl

/-! ### Reachable indices -/

/-- The states of an index: new, or built for some different tags, and after some calls; each
insertion takes any free location. -/
inductive Reach (c : MemConfig D Vec Tag) : MemIndex Vec Tag → Prop
  | fresh : Reach c (MemIndex.fresh c)
  | build {p : MemParams D} {vecs : List Vec} {normalizeCosine : Bool} {tags : List Tag}
      {order : List ℕ} {s : MemIndex Vec Tag} (htags : tags.Nodup)
      (horder : order.Perm (List.range tags.length))
      (h : MemIndex.build c p vecs normalizeCosine tags order = some s) : Reach c s
  | insert {s s' : MemIndex Vec Tag} {p : MemParams D} {point : Vec} {tag : Tag} {loc : ℕ}
      (hs : Reach c s) (h : s.insertPoint c p point tag loc = some s') : Reach c s'
  | delete {s : MemIndex Vec Tag} {tag : Tag} (hs : Reach c s) : Reach c (s.lazyDelete tag)
  | consolidate {s s' : MemIndex Vec Tag} {p : MemParams D} (hs : Reach c s)
      (h : s.consolidate c p = some s') : Reach c s'

/-! ### The entry point -/

/-- The entry point is a live location before `_nd`. -/
def EntryOk (s : MemIndex Vec Tag) : Prop := (s.locationToTag s.ep).isSome = true ∧ s.ep < s.nd

/-- The live points. -/
def liveCount (s : MemIndex Vec Tag) : ℕ :=
  ((Finset.range s.maxPoints).filter fun i => (s.locationToTag i).isSome = true).card

omit [DecidableEq Tag] in
theorem newNd_eq_liveCount : s.newNd = s.liveCount := Nat.count_eq_card_filter_range ..

theorem Inv.exists_consolidate (h : s.Inv) (hdel : s.deleteSet ≠ ∅) : ∃ ep,
    s.consolidate c p = some { s.compacted c p with ep } ∧ ep < s.maxPoints ∧
      (ep < s.newNd ↔ s.ep < s.newNd) := by
  have hep : s.ep < s.maxPoints := by
    refine h.ep.resolve_right fun hz => ?_
    obtain ⟨i, hi⟩ := Finset.nonempty_iff_ne_empty.2 hdel
    have := (h.deleted i hi).1
    omega
  rw [MemIndex.consolidate, if_neg hdel]
  by_cases hlt : s.ep < s.newNd
  · obtain ⟨id, hid, hP⟩ := @exists_search _ _ _ c (s.compacted c p) _ _ (· < s.newNd) hlt
      (fun id hid => ⟨hid.trans_le newNd_le, fun n hn => (lt_newNd_of_mem_compacted hn).2⟩)
      (s.data s.ep) 10 (by decide)
    refine ⟨id, ?_, hP.trans_le newNd_le, iff_of_true hP hlt⟩
    dsimp only
    rw [hid]
    rfl
  · obtain ⟨id, hid, rfl⟩ := @exists_search _ _ _ c (s.compacted c p) _ _ (· = s.ep) rfl
      (fun id hid => ⟨hid ▸ hep, fun n hn => by
        rw [hid] at hn
        exact absurd (lt_newNd_of_mem_compacted hn).1 hlt⟩)
      (s.data s.ep) 10 (by decide)
    refine ⟨s.ep, ?_, hep, Iff.rfl⟩
    dsimp only
    rw [hid]
    rfl

theorem Reach.inv (hr : Reach c s) : s.Inv := by
  induction hr with
  | fresh => exact .fresh c
  | build htags horder h => exact .build htags horder h
  | insert _ h ih =>
    rename_i s s' p point tag loc _
    have hloc : loc ∈ ((s.dropTag tag).grow c).emptySlots := by
      by_contra hnot
      rw [insertPoint, if_neg hnot] at h
      cases h
    obtain ⟨s₁, hs₁, hinv, -⟩ := ih.exists_insertPoint (p := p) hloc point
    rw [h, Option.some.injEq] at hs₁
    rwa [hs₁]
  | delete _ ih => exact (ih.dropTag _).1
  | consolidate _ h ih =>
    rename_i s s' p _
    by_cases hdel : s.deleteSet = ∅
    · rw [MemIndex.consolidate, if_pos hdel] at h
      cases h
      exact ih
    · obtain ⟨ep, hc, hep, -⟩ := ih.exists_consolidate (c := c) hdel
      rw [h, Option.some.injEq] at hc
      rw [hc]
      exact { ih.compacted (p := p) with ep := .inl hep }

/-- After `consolidate` the entry point is a live location before `_nd` exactly when there was nothing
to consolidate and it was one before, or when its number was below the number of live points. -/
theorem entryOk_consolidate_iff (c : MemConfig D Vec Tag) (p : MemParams D) (s : MemIndex Vec Tag)
    (hr : Reach c s) : ∃ s', s.consolidate c p = some s' ∧
      (s'.EntryOk ↔ s.deleteSet = ∅ ∧ s.EntryOk ∨ s.deleteSet ≠ ∅ ∧ s.ep < s.liveCount) := by
  by_cases hdel : s.deleteSet = ∅
  · refine ⟨s, by rw [MemIndex.consolidate, if_pos hdel], ?_⟩
    simp [hdel]
  · obtain ⟨ep, hc, -, hiff⟩ := hr.inv.exists_consolidate (c := c) (p := p) hdel
    refine ⟨_, hc, ?_⟩
    have hlive : ((s.compacted c p).locationToTag ep).isSome = true ↔ ep < s.newNd :=
      hr.inv.isSome_compacted
    have hok : EntryOk { s.compacted c p with ep } ↔ ep < s.newNd :=
      ⟨fun h => h.2, fun h => ⟨hlive.2 h, h⟩⟩
    rw [hok, hiff, newNd_eq_liveCount]
    simp [hdel]

/-- Three points, the one in the middle being the entry point, of which it alone is left. -/
def middleLeft : Option (MemIndex ℕ ℕ) :=
  (build natMem natParams [0, 10, 12] true [5, 6, 7] [0, 1, 2]).map fun s =>
    (s.lazyDelete 5).lazyDelete 7

theorem reach_middleLeft {s : MemIndex ℕ ℕ} (h : middleLeft = some s) : Reach natMem s := by
  obtain ⟨s₀, hs₀, rfl⟩ := map_eq_some_iff.1 h
  exact .delete (.delete (.build (by decide) (Perm.refl _) hs₀))

theorem entryOk_consolidate_iff_middleLeft : ∃ s, middleLeft = some s ∧ Reach natMem s ∧
    ∃ s', s.consolidate natMem natParams = some s' ∧
      (s'.EntryOk ↔ s.deleteSet = ∅ ∧ s.EntryOk ∨ s.deleteSet ≠ ∅ ∧ s.ep < s.liveCount) := by
  have hsome : middleLeft.isSome = true := by decide +kernel
  obtain ⟨s, hs⟩ := isSome_iff_exists.1 hsome
  have hr := reach_middleLeft hs
  exact ⟨s, hs, hr, entryOk_consolidate_iff natMem natParams s hr⟩

/-- The point that is left moves to location `0`, and the entry point stays at `1`. -/
theorem middleLeft_entry_wrong : ∃ s s', middleLeft = some s ∧ Reach natMem s ∧
    s.tagToLocation 6 = some 1 ∧ s.consolidate natMem natParams = some s' ∧
    s'.tagToLocation 6 = some 0 ∧ s'.nd = 1 ∧ s'.ep = 1 ∧ ¬ s'.EntryOk := by
  have hbefore : (middleLeft.map fun s => s.tagToLocation 6) = some (some 1) := by decide +kernel
  have hafter : ((middleLeft.bind fun s => s.consolidate natMem natParams).map fun s =>
      (s.tagToLocation 6, s.nd, s.ep)) = some (some 0, 1, 1) := by
    decide +kernel
  obtain ⟨s, hs, htag⟩ := map_eq_some_iff.1 hbefore
  obtain ⟨s', hs', hvals⟩ := map_eq_some_iff.1 hafter
  rw [hs, bind_some] at hs'
  obtain ⟨htag', hnd, hep⟩ : s'.tagToLocation 6 = some 0 ∧ s'.nd = 1 ∧ s'.ep = 1 := by
    simpa using hvals
  refine ⟨s, s', hs, reach_middleLeft hs, htag, hs', htag', hnd, hep, fun h => ?_⟩
  have hlt := h.2
  rw [hnd, hep] at hlt
  exact lt_irrefl 1 hlt

end DiskANNEval.PipeANN.MemIndex
