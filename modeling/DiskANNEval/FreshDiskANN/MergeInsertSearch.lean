import DiskANNEval.FreshDiskANN.MergeInsertTags
import DiskANNEval.Lib.Loops

/-!
# MergeInsertSearch — the results of one `search_sync`

What the searches of the components find goes into a `std::set` of `Neighbor_Tag`, which compares
distances: of the entries with one distance the set has the first, whatever their tags, and a tag
that is found at two distances is in it twice.  The results are copied only when the set has more
than `K` elements, since the statement behind the test is commented out. So the results are the
nearest live tags under conditions on what is found (`searchSync_nearest_iff`).
-/

namespace DiskANNEval.FreshDiskANN.MergeInsert

open Lib List Finset

structure NeighborTag (Tag D : Type) where
  tag : Tag
  dist : D
  deriving DecidableEq

/-- `_mem_index_0` or `_mem_index_1`, with `_clearing_index` and what `Index::search` gives. -/
structure MemComponent (Tag D : Type) where
  clearing : Bool
  numPoints : ℕ
  found : List (NeighborTag Tag D)

/-- What a call of `search_sync` depends on; `expandedNodesInfo` are the nodes that
`disk_iterate_to_fixed_point` has expanded, nearest first, with their tags. -/
structure SearchCall (Tag D : Type) where
  expandedNodesInfo : List (NeighborTag Tag D)
  memIndex0 : MemComponent Tag D
  memIndex1 : MemComponent Tag D
  deletionSet0 : Finset Tag
  deletionSet1 : Finset Tag
  k : ℕ
  searchL : ℕ

variable {Tag D : Type}

/-- The loop at the end of `cached_beam_search`; `none`: it reads behind the expanded nodes. -/
def cachedBeamSearch (expandedNodesInfo : List (NeighborTag Tag D)) (kSearch : ℕ) :
    Option (List (NeighborTag Tag D)) :=
  (List.range kSearch).mapM fun i => expandedNodesInfo[i]?

theorem cachedBeamSearch_eq (l : List (NeighborTag Tag D)) (k : ℕ) :
    cachedBeamSearch l k = if k ≤ l.length then some (l.take k) else none := by
  split_ifs with h
  · have hlen : (l.take k).length = k := by rw [List.length_take, Nat.min_eq_left h]
    conv_lhs => rw [← hlen]
    refine mapM_range_of_getElem? fun i hi => ?_
    rw [hlen] at hi
    rw [getElem?_take_of_lt hi]
  · refine Option.eq_none_iff_forall_ne_some.2 fun r hr => h ?_
    obtain ⟨b, -, hb⟩ := getElem?_of_mapM hr (k := l.length) (getElem?_range (by omega))
    simp at hb

/-- A memory index is searched when it is not being cleared and has points. -/
def MemComponent.results (c : MemComponent Tag D) : List (NeighborTag Tag D) :=
  if c.clearing = false ∧ 0 < c.numPoints then c.found else []

variable [DecidableEq Tag] [LinearOrder D]

/-- The loop over `best_vec` that fills `tags` and `distances`. -/
def copyLive (deletionSet0 deletionSet1 : Finset Tag) (k : ℕ) :
    List (NeighborTag Tag D) → List (NeighborTag Tag D) → List (NeighborTag Tag D)
  | [], res => res
  | n :: bestVec, res =>
    let res := if n.tag ∉ deletionSet0 ∧ n.tag ∉ deletionSet1 then res ++ [n] else res
    if res.length = k then res else copyLive deletionSet0 deletionSet1 k bestVec res

namespace SearchCall

variable (q : SearchCall Tag D)

/-- `tags` and `distances` up to the last one that is written. -/
def searchSync : Option (List (NeighborTag Tag D)) :=
  (cachedBeamSearch q.expandedNodesInfo q.searchL).map fun diskResults =>
    let best := diskResults.foldl (insertKey NeighborTag.dist) []
    let best := q.memIndex0.results.foldl (insertKey NeighborTag.dist) best
    let best := q.memIndex1.results.foldl (insertKey NeighborTag.dist) best
    if q.k < best.length then copyLive q.deletionSet0 q.deletionSet1 q.k best [] else []

/-! ### What the results are to be -/

/-- What the searches of the components find, in the order in which it is inserted. -/
def found : List (NeighborTag Tag D) :=
  q.expandedNodesInfo.take q.searchL ++ q.memIndex0.results ++ q.memIndex1.results

def deleted : Finset Tag := q.deletionSet0 ∪ q.deletionSet1

/-- The live tags that are found. -/
def liveTags : Finset Tag := (q.found.map NeighborTag.tag).toFinset \ q.deleted

/-- No entry of the tag is nearer. -/
def NearestOfTag (n : NeighborTag Tag D) : Prop := ∀ n' ∈ q.found, n'.tag = n.tag → n.dist ≤ n'.dist

/-- The results are the nearest live tags, as many as are asked for or all of them. -/
structure Nearest (res : List (NeighborTag Tag D)) : Prop where
  length_eq : res.length = min q.k q.liveTags.card
  ascending : res.Pairwise fun a b => a.dist ≤ b.dist
  nodup : (res.map NeighborTag.tag).Nodup
  live : ∀ n ∈ res, n ∈ q.found ∧ n.tag ∉ q.deleted ∧ q.NearestOfTag n
  nearest : ∀ n ∈ q.found, n.tag ∉ q.deleted → n.tag ∉ res.map NeighborTag.tag →
    ∀ r ∈ res, r.dist ≤ n.dist

/-! ### When they are -/

/-- The entry is found before all others at its distance. -/
def First (n : NeighborTag Tag D) : Prop := q.found.find? (fun n' => n'.dist = n.dist) = some n

instance (n : NeighborTag Tag D) : Decidable (q.First n) := inferInstanceAs (Decidable (_ = _))

/-- The live entries that are the first at their distances. -/
def shown : Finset (NeighborTag Tag D) :=
  q.found.toFinset.filter fun n => q.First n ∧ n.tag ∉ q.deleted

/-- No entry hides the nearest one of a live tag, and no tag is shown twice, before there are `K`
shown ones. -/
structure NoneHidden : Prop where
  hidden : ∀ n ∈ q.found, n.tag ∉ q.deleted → q.NearestOfTag n → ¬ q.First n →
    q.k ≤ (q.shown.filter fun n' => n'.dist ≤ n.dist).card
  twice : ∀ n ∈ q.shown, ¬ q.NearestOfTag n → q.k ≤ (q.shown.filter fun n' => n'.dist < n.dist).card

/-- The nearest of all entries, the first at its distance, has a deleted tag. -/
def NearestDeleted : Prop :=
  ∀ n ∈ q.found, q.First n → (∀ n' ∈ q.found, n.dist ≤ n'.dist) → n.tag ∈ q.deleted

/-- With no more distances than asked for nothing is returned; when nothing is asked for, the loop
goes on behind the arrays unless the first tag is deleted. -/
def Finds : Prop :=
  q.searchL ≤ q.expandedNodesInfo.length ∧
    if (q.found.map NeighborTag.dist).toFinset.card ≤ q.k then ∀ n ∈ q.found, n.tag ∈ q.deleted
    else if q.k = 0 then q.NearestDeleted
    else q.NoneHidden

end SearchCall

/-! ### The loop over `best_vec` -/

omit [LinearOrder D] in
theorem copyLive_eq {d₀ d₁ : Finset Tag} {k : ℕ} {best res : List (NeighborTag Tag D)}
    (h : res.length < k) : copyLive d₀ d₁ k best res =
      res ++ (best.filter fun n => n.tag ∉ d₀ ∪ d₁).take (k - res.length) := by
  induction best generalizing res with
  | nil => simp [copyLive]
  | cons n best ih =>
    have hlive : (n.tag ∉ d₀ ∧ n.tag ∉ d₁) ↔ n.tag ∉ d₀ ∪ d₁ := by
      rw [mem_union, not_or]
    simp only [copyLive, hlive]
    by_cases hn : n.tag ∈ d₀ ∪ d₁
    · rw [if_neg (not_not.2 hn), if_neg h.ne, ih h, List.filter_cons_of_neg]
      rw [decide_eq_true_iff]
      exact not_not.2 hn
    · rw [if_pos hn, List.filter_cons_of_pos (by simpa using hn)]
      obtain ⟨j, hj⟩ := Nat.exists_eq_add_of_lt h
      rw [show k - res.length = j + 1 by omega, take_succ_cons]
      by_cases hfull : (res ++ [n]).length = k
      · rw [if_pos hfull]
        rw [length_append, length_singleton] at hfull
        rw [show j = 0 by omega, take_zero]
      · rw [if_neg hfull]
        rw [length_append, length_singleton] at hfull
        rw [ih (by rw [length_append, length_singleton]; omega), append_assoc,
          length_append, length_singleton, show k - (res.length + 1) = j by omega]
        rfl

omit [LinearOrder D] in
/-- When nothing is asked for, all live entries are written, unless the first is deleted. -/
theorem copyLive_zero {d₀ d₁ : Finset Tag} {n : NeighborTag Tag D} {best : List (NeighborTag Tag D)} :
    copyLive d₀ d₁ 0 (n :: best) [] = [] ↔ n.tag ∈ d₀ ∪ d₁ := by
  have hlive : (n.tag ∉ d₀ ∧ n.tag ∉ d₁) ↔ n.tag ∉ d₀ ∪ d₁ := by
    rw [mem_union, not_or]
  have hgrow : ∀ best res : List (NeighborTag Tag D), res ≠ [] → copyLive d₀ d₁ 0 best res ≠ [] := by
    intro best
    induction best with
    | nil => exact fun res h => h
    | cons m best ih =>
      intro res h
      rw [copyLive]
      have hne : (if m.tag ∉ d₀ ∧ m.tag ∉ d₁ then res ++ [m] else res) ≠ [] := by
        split_ifs
        · exact append_ne_nil_of_left_ne_nil h _
        · exact h
      rw [if_neg fun h0 => hne (length_eq_zero_iff.1 h0)]
      exact ih _ hne
  simp only [copyLive, hlive]
  by_cases hn : n.tag ∈ d₀ ∪ d₁
  · rw [if_neg (not_not.2 hn)]
    simp [hn]
  · rw [if_pos hn]
    simp only [hn, iff_false]
    exact hgrow best [n] (cons_ne_nil n [])

namespace SearchCall

variable {q : SearchCall Tag D}

/-! ### The results -/

theorem searchSync_eq : q.searchSync = if q.searchL ≤ q.expandedNodesInfo.length then
    some (if q.k < (keySet NeighborTag.dist q.found).length then
      copyLive q.deletionSet0 q.deletionSet1 q.k (keySet NeighborTag.dist q.found) [] else [])
    else none := by
  rw [searchSync, cachedBeamSearch_eq]
  split_ifs with hlen hk
  · rw [found, keySet, foldl_append, foldl_append] at hk
    rw [found, keySet, foldl_append, foldl_append]
    exact congrArg some (if_pos hk)
  · rw [found, keySet, foldl_append, foldl_append] at hk
    exact congrArg some (if_neg hk)
  · rfl

/-- The live entries of the set, in its order. -/
def shownList (q : SearchCall Tag D) : List (NeighborTag Tag D) :=
  (keySet NeighborTag.dist q.found).filter fun n => n.tag ∉ q.deleted

theorem pairwise_shownList (q : SearchCall Tag D) :
    q.shownList.Pairwise fun a b => a.dist < b.dist :=
  (pairwise_keySet NeighborTag.dist q.found).filter _

theorem nodup_shownList (q : SearchCall Tag D) : q.shownList.Nodup :=
  q.pairwise_shownList.imp fun {_ _} h heq => h.ne (by rw [heq])

variable {n : NeighborTag Tag D}

theorem mem_shownList : n ∈ q.shownList ↔ n ∈ q.shown := by
  rw [shownList, mem_filter, mem_keySet, shown, Finset.mem_filter, mem_toFinset]
  simp only [decide_eq_true_eq]
  constructor
  · rintro ⟨hfirst, hlive⟩
    exact ⟨mem_of_find?_eq_some hfirst, hfirst, hlive⟩
  · rintro ⟨-, hfirst, hlive⟩
    exact ⟨hfirst, hlive⟩

theorem toFinset_shownList (q : SearchCall Tag D) : q.shownList.toFinset = q.shown := by
  ext n
  rw [mem_toFinset, mem_shownList]

theorem length_shownList (q : SearchCall Tag D) : q.shownList.length = q.shown.card := by
  rw [← toFinset_shownList, toFinset_card_of_nodup q.nodup_shownList]

theorem mem_take_shownList {k : ℕ} : n ∈ q.shownList.take k ↔
    n ∈ q.shown ∧ (q.shown.filter fun n' => n'.dist < n.dist).card < k := by
  rw [mem_take_iff q.pairwise_shownList, mem_shownList]
  have hcard : (q.shownList.filter fun n' => n'.dist < n.dist).length =
      (q.shown.filter fun n' => n'.dist < n.dist).card := by
    rw [← toFinset_card_of_nodup (q.nodup_shownList.filter _), toFinset_filter,
      toFinset_shownList]
    simp only [decide_eq_true_eq]
  rw [hcard]

omit [LinearOrder D] in
theorem mem_liveTags {t : Tag} : t ∈ q.liveTags ↔ (∃ n ∈ q.found, n.tag = t) ∧ t ∉ q.deleted := by
  rw [liveTags, mem_sdiff, mem_toFinset, List.mem_map]

omit [LinearOrder D] in
theorem deleted_of_no_liveTags (h : q.liveTags = ∅) (hn : n ∈ q.found) : n.tag ∈ q.deleted := by
  by_contra hlive
  have hmem : n.tag ∈ q.liveTags := mem_liveTags.2 ⟨⟨n, hn, rfl⟩, hlive⟩
  rw [h] at hmem
  cases hmem

theorem exists_nearestOfTag (hn : n ∈ q.found) :
    ∃ n₀ ∈ q.found, n₀.tag = n.tag ∧ n₀.dist ≤ n.dist ∧ q.NearestOfTag n₀ := by
  obtain ⟨n₀, hmem, hmin⟩ := exists_min_image
    (q.found.toFinset.filter fun n' => n'.tag = n.tag) NeighborTag.dist
    ⟨n, mem_filter.2 ⟨mem_toFinset.2 hn, rfl⟩⟩
  obtain ⟨hfound, htag⟩ := Finset.mem_filter.1 hmem
  refine ⟨n₀, mem_toFinset.1 hfound, htag, ?_, fun n' hn' htag' => ?_⟩
  · exact hmin n (mem_filter.2 ⟨mem_toFinset.2 hn, rfl⟩)
  · exact hmin n' (mem_filter.2 ⟨mem_toFinset.2 hn', htag'.trans htag⟩)

theorem mem_shown : n ∈ q.shown ↔ n ∈ q.found ∧ q.First n ∧ n.tag ∉ q.deleted := by
  rw [shown, Finset.mem_filter, mem_toFinset]

theorem nearest_nil_iff : q.Nearest [] ↔ q.k = 0 ∨ q.liveTags = ∅ := by
  constructor
  · intro h
    have hlen := h.length_eq
    rw [length_nil] at hlen
    rcases Nat.eq_zero_or_pos q.k with h0 | hpos
    · exact .inl h0
    · exact .inr (card_eq_zero.1 (by omega))
  · intro h
    refine ⟨?_, Pairwise.nil, nodup_nil, by simp, by simp⟩
    rw [length_nil]
    rcases h with h | h
    · rw [h, Nat.zero_min]
    · rw [h, card_empty, Nat.min_zero]

/-! ### The first `K` shown entries -/

theorem noneHidden_of_nearest (h : q.Nearest (q.shownList.take q.k)) : q.NoneHidden := by
  constructor
  · intro n hn hlive hnear hfirst
    by_contra hlt
    rw [not_le] at hlt
    -- the tag is not among the results, since its entry there would be this one
    have hnot : n.tag ∉ (q.shownList.take q.k).map NeighborTag.tag := by
      intro hmem
      obtain ⟨r, hr, htag⟩ := mem_map.1 hmem
      obtain ⟨hfound, -, hrnear⟩ := h.live r hr
      have hdist : r.dist = n.dist := le_antisymm (hrnear n hn htag.symm) (hnear r hfound htag)
      have hrn : r = n := by
        cases r
        simp_all
      rw [hrn, mem_take_shownList, mem_shown] at hr
      exact hfirst hr.1.2.1
    -- so no result is behind it, and there are fewer than asked for
    have hle := h.nearest n hn hlive hnot
    have hlen : (q.shownList.take q.k).length < q.k := by
      rw [← toFinset_card_of_nodup (q.nodup_shownList.sublist (take_sublist _ _))]
      refine (card_le_card fun r hr => ?_).trans_lt hlt
      rw [mem_toFinset] at hr
      exact mem_filter.2 ⟨(mem_take_shownList.1 hr).1, hle r hr⟩
    -- which are then all live tags
    have hcard := h.length_eq
    have hsub : ((q.shownList.take q.k).map NeighborTag.tag).toFinset ⊆ q.liveTags := by
      intro t ht
      obtain ⟨r, hr, rfl⟩ := mem_map.1 (mem_toFinset.1 ht)
      obtain ⟨hfound, hrlive, -⟩ := h.live r hr
      exact mem_liveTags.2 ⟨⟨r, hfound, rfl⟩, hrlive⟩
    have hall := eq_of_subset_of_card_le hsub (by
      rw [toFinset_card_of_nodup h.nodup, length_map]
      omega)
    refine hnot (mem_toFinset.1 ?_)
    rw [hall]
    exact mem_liveTags.2 ⟨⟨n, hn, rfl⟩, hlive⟩
  · intro n hn hnear
    by_contra hlt
    rw [not_le] at hlt
    exact hnear (h.live n (mem_take_shownList.2 ⟨hn, hlt⟩)).2.2

theorem NoneHidden.exists_result (h : q.NoneHidden) (hn : n ∈ q.found) (hlive : n.tag ∉ q.deleted)
    (hfew : (q.shown.filter fun n' => n'.dist ≤ n.dist).card < q.k) :
    n.tag ∈ (q.shownList.take q.k).map NeighborTag.tag := by
  obtain ⟨n₀, hn₀, htag, hle, hnear⟩ := exists_nearestOfTag hn
  have hfew₀ : (q.shown.filter fun n' => n'.dist ≤ n₀.dist).card < q.k := by
    refine (card_le_card fun n' hn' => ?_).trans_lt hfew
    obtain ⟨hmem, hle'⟩ := Finset.mem_filter.1 hn'
    exact mem_filter.2 ⟨hmem, hle'.trans hle⟩
  rw [← htag] at hlive ⊢
  have hfirst : q.First n₀ := by
    by_contra hfirst
    exact absurd (h.hidden n₀ hn₀ hlive hnear hfirst) (not_le.2 hfew₀)
  refine mem_map.2 ⟨n₀, mem_take_shownList.2 ⟨mem_shown.2 ⟨hn₀, hfirst, hlive⟩, ?_⟩, rfl⟩
  refine (card_le_card fun n' hn' => ?_).trans_lt hfew₀
  obtain ⟨hmem, hlt⟩ := Finset.mem_filter.1 hn'
  exact mem_filter.2 ⟨hmem, hlt.le⟩

theorem NoneHidden.nearest (h : q.NoneHidden) : q.Nearest (q.shownList.take q.k) := by
  have hlive : ∀ n ∈ q.shownList.take q.k,
      n ∈ q.found ∧ n.tag ∉ q.deleted ∧ q.NearestOfTag n := by
    intro n hn
    obtain ⟨hshown, hfew⟩ := mem_take_shownList.1 hn
    obtain ⟨hfound, -, hdel⟩ := mem_shown.1 hshown
    refine ⟨hfound, hdel, ?_⟩
    by_contra hnear
    exact absurd (h.twice n hshown hnear) (not_le.2 hfew)
  have hnodup : ((q.shownList.take q.k).map NeighborTag.tag).Nodup := by
    refine Nodup.map_on ?_ (q.nodup_shownList.sublist (take_sublist _ _))
    intro a ha b hb heq
    obtain ⟨hfa, -, hna⟩ := hlive a ha
    obtain ⟨hfb, -, hnb⟩ := hlive b hb
    have hdist : a.dist = b.dist := le_antisymm (hna b hfb heq.symm) (hnb a hfa heq)
    cases a
    simp_all
  have hsub : ((q.shownList.take q.k).map NeighborTag.tag).toFinset ⊆ q.liveTags := by
    intro t ht
    obtain ⟨r, hr, rfl⟩ := mem_map.1 (mem_toFinset.1 ht)
    obtain ⟨hfound, hrlive, -⟩ := hlive r hr
    exact mem_liveTags.2 ⟨⟨r, hfound, rfl⟩, hrlive⟩
  have hcard := card_le_card hsub
  rw [toFinset_card_of_nodup hnodup, length_map] at hcard
  constructor
  case length_eq =>
    rcases Nat.lt_or_ge q.shownList.length q.k with hshort | hlong
    · -- all shown entries are results, and all live tags are shown
      have hall : q.liveTags ⊆ ((q.shownList.take q.k).map NeighborTag.tag).toFinset := by
        intro t ht
        obtain ⟨⟨n, hn, rfl⟩, hdel⟩ := mem_liveTags.1 ht
        rw [mem_toFinset]
        refine h.exists_result hn hdel ?_
        refine (card_le_card (filter_subset _ _)).trans_lt ?_
        rwa [← length_shownList]
      have hcard' := card_le_card hall
      rw [toFinset_card_of_nodup hnodup, length_map] at hcard'
      rw [List.length_take] at hcard hcard' ⊢
      omega
    · rw [List.length_take] at hcard ⊢
      omega
  case ascending =>
    exact (q.pairwise_shownList.sublist (take_sublist _ _)).imp fun {_ _} h => h.le
  case nodup => exact hnodup
  case live => exact hlive
  case nearest =>
    intro n hn hdel hnot r hr
    by_contra hlt
    rw [not_le] at hlt
    refine hnot (h.exists_result hn hdel ?_)
    refine (card_le_card fun n' hn' => ?_).trans_lt (mem_take_shownList.1 hr).2
    obtain ⟨hmem, hle⟩ := Finset.mem_filter.1 hn'
    exact mem_filter.2 ⟨hmem, hle.trans_lt hlt⟩

theorem nearest_take_iff : q.Nearest (q.shownList.take q.k) ↔ q.NoneHidden :=
  ⟨noneHidden_of_nearest, NoneHidden.nearest⟩

/-! ### All cases -/

theorem nearestDeleted_iff {b : NeighborTag Tag D} {best : List (NeighborTag Tag D)}
    (h : keySet NeighborTag.dist q.found = b :: best) : q.NearestDeleted ↔ b.tag ∈ q.deleted := by
  have hsorted := pairwise_keySet NeighborTag.dist q.found
  rw [h] at hsorted
  have hbefore := (pairwise_cons.1 hsorted).1
  have hfirst : ∀ n, q.First n ↔ n = b ∨ n ∈ best := fun n => by
    rw [← List.mem_cons, ← h, mem_keySet]
    rfl
  have hb : q.First b := (hfirst b).2 (.inl rfl)
  have hbfound : b ∈ q.found := mem_of_find?_eq_some hb
  constructor
  · refine fun hdel => hdel b hbfound hb fun n hn => ?_
    obtain ⟨y, hy, hdist⟩ : ∃ y ∈ keySet NeighborTag.dist q.found, y.dist = n.dist :=
      exists_mem_keySet hn
    rw [h] at hy
    rw [← hdist]
    obtain rfl | hy := mem_cons.1 hy
    · exact le_rfl
    · exact (hbefore y hy).le
  · intro hdel n hn hnfirst hmin
    obtain rfl | hmem := (hfirst n).1 hnfirst
    · exact hdel
    · exact absurd (hmin b hbfound) (not_le.2 (hbefore n hmem))

theorem nearest_copyLive_zero (h0 : q.k = 0) (hne : q.found ≠ []) :
    q.Nearest (copyLive q.deletionSet0 q.deletionSet1 0 (keySet NeighborTag.dist q.found) []) ↔
      q.NearestDeleted := by
  have hset : keySet NeighborTag.dist q.found ≠ [] := fun h => hne (keySet_eq_nil.1 h)
  obtain ⟨b, best, hbest⟩ := exists_cons_of_ne_nil hset
  have hzero : copyLive q.deletionSet0 q.deletionSet1 0 (b :: best) [] = [] ↔ b.tag ∈ q.deleted :=
    copyLive_zero
  rw [nearestDeleted_iff hbest, hbest, ← hzero]
  constructor
  · intro h
    have hlen := h.length_eq
    rw [h0] at hlen
    exact length_eq_zero_iff.1 hlen
  · intro h
    rw [h]
    exact nearest_nil_iff.2 (.inl h0)

/-- `search_sync` returns the nearest live tags exactly under the condition `Finds`. -/
theorem searchSync_nearest_iff (q : SearchCall Tag D) :
    (∃ res, q.searchSync = some res ∧ q.Nearest res) ↔ q.Finds := by
  rw [searchSync_eq, Finds, length_keySet]
  by_cases hlen : q.searchL ≤ q.expandedNodesInfo.length
  swap
  · rw [if_neg hlen]
    simp [hlen]
  rw [if_pos hlen]
  simp only [hlen, true_and, Option.some_inj, exists_eq_left']
  by_cases hfew : (q.found.map NeighborTag.dist).toFinset.card ≤ q.k
  · rw [if_neg (not_lt.2 hfew), if_pos hfew, nearest_nil_iff]
    constructor
    · rintro (h0 | hnone) n hn
      · rw [h0, Nat.le_zero, card_eq_zero, toFinset_eq_empty_iff,
          map_eq_nil_iff] at hfew
        rw [hfew] at hn
        cases hn
      · exact deleted_of_no_liveTags hnone hn
    · intro hdel
      refine .inr (eq_empty_of_forall_notMem fun t ht => ?_)
      obtain ⟨⟨n, hn, rfl⟩, hlive⟩ := mem_liveTags.1 ht
      exact hlive (hdel n hn)
  rw [if_pos (not_le.1 hfew), if_neg hfew]
  split_ifs with h0
  · rw [h0]
    refine nearest_copyLive_zero h0 fun hnil => hfew ?_
    rw [hnil]
    exact Nat.zero_le _
  · rw [copyLive_eq (by rw [length_nil]; omega), nil_append, length_nil, Nat.sub_zero]
    exact nearest_take_iff

/-- A disk index with the tags 1, 2 and so on at the distances `dists`, and empty memory indices. -/
def diskOnly (dists : List ℕ) (k : ℕ) : SearchCall ℕ ℕ where
  expandedNodesInfo := dists.zipIdx.map fun (d, i) => ⟨i + 1, d⟩
  memIndex0 := ⟨false, 0, []⟩
  memIndex1 := ⟨false, 0, []⟩
  deletionSet0 := ∅
  deletionSet1 := ∅
  k
  searchL := dists.length

/-- One tag is found and one is asked for: nothing is returned.  Of two tags at one distance the
second is not returned, but a farther one. -/
theorem diskOnly_not_nearest :
    ((diskOnly [7] 1).searchSync = some [] ∧ ¬ (diskOnly [7] 1).Nearest []) ∧
      (diskOnly [5, 5, 6, 7] 2).searchSync = some [⟨1, 5⟩, ⟨3, 6⟩] ∧
      ¬ (diskOnly [5, 5, 6, 7] 2).Nearest [⟨1, 5⟩, ⟨3, 6⟩] := by
  refine ⟨⟨by decide +kernel, fun h => ?_⟩, by decide +kernel, fun h => ?_⟩
  · exact absurd h.length_eq (by decide +kernel)
  · exact absurd (h.nearest ⟨2, 5⟩ (by decide +kernel) (by decide +kernel) (by decide +kernel) ⟨3, 6⟩
      (by decide +kernel)) (by decide +kernel)

/-! ### The searches of the state machine -/

omit [LinearOrder D] in
theorem map_copyLive {d₀ d₁ : Finset Tag} {k : ℕ} {best res : List (NeighborTag Tag D)} :
    (copyLive d₀ d₁ k best res).map NeighborTag.tag =
      filterTags (d₀ ∪ d₁) k (best.map NeighborTag.tag) (res.map NeighborTag.tag) := by
  induction best generalizing res with
  | nil => rfl
  | cons n best ih =>
    rw [copyLive, List.map_cons, filterTags]
    have hlive : (n.tag ∉ d₀ ∧ n.tag ∉ d₁) ↔ n.tag ∉ d₀ ∪ d₁ := by
      rw [mem_union, not_or]
    have hres : (if n.tag ∉ d₀ ∧ n.tag ∉ d₁ then res ++ [n] else res).map NeighborTag.tag =
        if n.tag ∉ d₀ ∪ d₁ then res.map NeighborTag.tag ++ [n.tag] else res.map NeighborTag.tag := by
      simp only [hlive]
      split_ifs
      · rfl
      · rw [map_append]
        rfl
    rw [← hres, length_map]
    split_ifs
    · rfl
    · exact ih
    · rfl
    · exact ih

variable {ι : Type}

/-- The tags that a search of `MergeInsert` returns are those of `search_sync` on what it has found.
-/
theorem results_eq_searchSync {s : State ι Tag D} {sq : Search Tag D}
    (hfound : q.found = sq.found.map fun n => ⟨n.1.tag, n.2⟩) (hk : q.k = sq.k)
    (h₀ : q.deletionSet0 = s.deletionSets false) (h₁ : q.deletionSet1 = s.deletionSets true)
    {res : List (NeighborTag Tag D)} (h : q.searchSync = some res) :
    s.results sq = res.map NeighborTag.tag := by
  have hbest : keySet NeighborTag.dist q.found = sq.best.map fun n => ⟨n.1.tag, n.2⟩ := by
    rw [hfound]
    exact (map_keySet (fun _ => rfl) sq.found).symm
  rw [searchSync_eq, hbest, length_map, h₀, h₁, hk] at h
  split_ifs at h with hlen hlt
  · cases h
    rw [State.results, if_pos hlt, map_copyLive, List.map_map]
    rfl
  · cases h
    rw [State.results, if_neg hlt]
    rfl

end SearchCall

end DiskANNEval.FreshDiskANN.MergeInsert
