import DiskANNEval.Lib.Run
import Mathlib.Data.Finset.Basic
import Mathlib.Data.Finset.Insert
import Mathlib.Data.Fintype.Basic

/-!
# DynamicIndex — tags in `DynamicSSDIndex`

Deletes are kept as tags in two sets, one of which is active.  A merge makes the other one active,
cleared, and removes the points whose tags are in the set that was active before.  A search drops
the tags in the set that was active when it started, and no insert takes a tag out of a set.

So while a merge runs a search does not see the deletes that the merge is working off, and a point
inserted under a tag of the active set is dropped by the searches and removed by the next merge.
Outside of these two cases the tags are right (`tagsOk_of_calm`).

`active_del` only decides what is logged, and `merge_deletes` only logs the size of `deleted_tags`;
both are left out.
-/

namespace DiskANNEval.PipeANN.DynamicIndex

open Lib List Function

/-- A point of the index; `uid` tells points with one tag apart. -/
structure Point (Tag : Type) where
  uid : ℕ
  tag : Tag
  deriving DecidableEq

/-- A search: the number `k` of tags asked for, the index of its `deletion_set`, and what the disk
index has returned.  `gone` are the tags that were deleted when it started, and not inserted since. -/
structure Search (Tag : Type) where
  k : ℕ
  delSet : Bool
  found : Option (List (Point Tag))
  gone : Finset Tag

/-- `merging`: `_merge_lock` is held exclusively, and shared by the calls of `insert` in `inserting`.
`live` are the points that no delete has come after, and `deleted` the tags that no insert has come
after. -/
structure State (ι Tag : Type) where
  points : List (Point Tag)
  nextUid : ℕ
  deletionSets : Bool → Finset Tag
  activeDeleteSet : Bool
  merging : Bool
  inserting : List Tag
  searching : ι → Option (Search Tag)
  live : List (Point Tag)
  deleted : Finset Tag

variable {ι Tag : Type} [DecidableEq ι] [DecidableEq Tag]

/-- The loop of `search` over the tags found. -/
def filterTags (deletionSet : Finset Tag) (k : ℕ) : List Tag → List Tag → List Tag
  | [], tags => tags
  | t :: best, tags =>
    let tags := if t ∉ deletionSet then tags ++ [t] else tags
    if tags.length = k then tags else filterTags deletionSet k best tags

/-- What a search returns if it filters now. -/
def State.results (s : State ι Tag) (q : Search Tag) (found : List (Point Tag)) : List Tag :=
  filterTags (s.deletionSets q.delSet) q.k (found.map Point.tag) []

inductive Act (ι Tag : Type)
  | insertStart (tag : Tag)
  | insertEnd (tag : Tag)
  | lazyDelete (tag : Tag)
  | searchStart (i : ι) (k : ℕ)
  | searchDisk (i : ι) (found : List (Point Tag))
  | searchEnd (i : ι)
  | mergeStart
  | mergeEnd

/-- What a search makes of an insert of `tag`. -/
def Search.inserted (tag : Tag) (q : Search Tag) : Search Tag := { q with gone := q.gone.erase tag }

def State.setSearch (s : State ι Tag) (i : ι) (q : Option (Search Tag)) : State ι Tag :=
  { s with searching := Function.update s.searching i q }

/-- `insert_in_place`: the point is in the index. -/
def State.insertPoint (s : State ι Tag) (tag : Tag) : State ι Tag :=
  { s with
    points := s.points ++ [⟨s.nextUid, tag⟩]
    nextUid := s.nextUid + 1
    searching := fun j => (s.searching j).map (Search.inserted tag)
    live := s.live ++ [⟨s.nextUid, tag⟩]
    deleted := s.deleted.erase tag }

def State.lazyDelete (s : State ι Tag) (tag : Tag) : State ι Tag :=
  { s with
    deletionSets := Function.update s.deletionSets s.activeDeleteSet
      (insert tag (s.deletionSets s.activeDeleteSet))
    live := s.live.filter fun p => p.tag ≠ tag
    deleted := insert tag s.deleted }

def State.saveDelSet (s : State ι Tag) : State ι Tag :=
  { s with
    deletionSets := Function.update s.deletionSets (!s.activeDeleteSet) ∅
    activeDeleteSet := !s.activeDeleteSet }

/-- `merge_deletes` with the set that is not active, and `reload`. -/
def State.mergeDeletes (s : State ι Tag) : State ι Tag :=
  { s with points := s.points.filter fun p => p.tag ∉ s.deletionSets (!s.activeDeleteSet) }

/-- One step; `none`: it is not possible here, or waits for a lock. -/
def step (s : State ι Tag) : Act ι Tag → Option (State ι Tag)
  | .insertStart tag => if s.merging then none else some { s with inserting := tag :: s.inserting }
  | .insertEnd tag =>
    if tag ∈ s.inserting then
      some { s.insertPoint tag with inserting := s.inserting.erase tag }
    else none
  | .lazyDelete tag => some (s.lazyDelete tag)
  | .searchStart i k =>
    match s.searching i with
    | none => some (s.setSearch i (some ⟨k, s.activeDeleteSet, none, s.deleted⟩))
    | some _ => none
  | .searchDisk i found =>
    match s.searching i with
    | some q =>
      if q.found = none ∧ found ⊆ s.points then
        some (s.setSearch i (some { q with found := some found }))
      else none
    | none => none
  | .searchEnd i =>
    match s.searching i with
    | some ⟨_, _, some _, _⟩ => some (s.setSearch i none)
    | _ => none
  | .mergeStart =>
    if s.merging = false ∧ s.inserting = [] then some { s.saveDelSet with merging := true } else none
  | .mergeEnd => if s.merging then some { s.mergeDeletes with merging := false } else none

/-- A loaded index. -/
def Init (s : State ι Tag) : Prop :=
  (∀ b, s.deletionSets b = ∅) ∧ s.merging = false ∧ s.inserting = [] ∧
    (∀ i, s.searching i = none) ∧ s.live = s.points ∧ s.deleted = ∅

/-- (a) A search that has its points returns no tag that was deleted before it started and not
inserted since; (b) it returns the points it has found that no delete has come after, up to `k`; and
those are in the index. -/
structure TagsOk (s : State ι Tag) : Prop where
  not_deleted : ∀ i q found, s.searching i = some q → q.found = some found →
    ∀ t ∈ s.results q found, t ∉ q.gone
  returned : ∀ i q found, s.searching i = some q → q.found = some found →
    ∀ p ∈ found, p ∈ s.live → p.tag ∈ s.results q found ∨ (s.results q found).length = q.k
  kept : ∀ p ∈ s.live, p ∈ s.points

/-- A search and a merge overlap only if the merge has no deletes to work off, and no insert uses a
tag that is in the active deletion set. -/
def Calm (s : State ι Tag) : Act ι Tag → Prop
  | .insertEnd tag => tag ∉ s.deletionSets s.activeDeleteSet
  | .searchStart _ _ => s.merging = true → s.deletionSets (!s.activeDeleteSet) = ∅
  | .mergeStart => (∃ i, (s.searching i).isSome) → s.deletionSets s.activeDeleteSet = ∅
  | _ => True

instance [Fintype ι] (s : State ι Tag) (a : Act ι Tag) : Decidable (Calm s a) :=
  match a with
  | .insertEnd tag => inferInstanceAs (Decidable (tag ∉ s.deletionSets s.activeDeleteSet))
  | .searchStart _ _ =>
    inferInstanceAs (Decidable (s.merging = true → s.deletionSets (!s.activeDeleteSet) = ∅))
  | .mergeStart => inferInstanceAs (Decidable
      ((∃ i, (s.searching i).isSome) → s.deletionSets s.activeDeleteSet = ∅))
  | .insertStart _ | .lazyDelete _ | .searchDisk _ _ | .searchEnd _ | .mergeEnd => isTrue trivial

/-! ### The filter -/

omit [DecidableEq ι] in
theorem filterTags_spec {del : Finset Tag} {k : ℕ} {best tags : List Tag} :
    (∀ t ∈ tags, t ∈ filterTags del k best tags) ∧
    (∀ t ∈ filterTags del k best tags, t ∈ tags ∨ t ∈ best ∧ t ∉ del) ∧
    ∀ t ∈ best, t ∉ del → t ∈ filterTags del k best tags ∨
      (filterTags del k best tags).length = k := by
  induction best generalizing tags with
  | nil => exact ⟨fun t ht => ht, fun t ht => .inl ht, by simp⟩
  | cons b best ih =>
    rw [filterTags]
    set tags' := if b ∉ del then tags ++ [b] else tags with htags'
    have hsub : ∀ t ∈ tags, t ∈ tags' := by
      intro t ht
      rw [htags']
      split_ifs
      · exact ht
      · exact mem_append_left _ ht
    have hsup : ∀ t ∈ tags', t ∈ tags ∨ t ∈ b :: best ∧ t ∉ del := by
      intro t ht
      rw [htags'] at ht
      split_ifs at ht with hb
      · exact .inl ht
      · obtain ht | ht := mem_append.1 ht
        · exact .inl ht
        · obtain rfl := mem_singleton.1 ht
          exact .inr ⟨mem_cons_self, hb⟩
    have hb : b ∉ del → b ∈ tags' := by
      intro hb
      rw [htags', if_pos hb]
      exact mem_append_right _ (mem_singleton_self b)
    split_ifs with hlen
    · exact ⟨hsub, hsup, fun _ _ _ => .inr hlen⟩
    · obtain ⟨h1, h2, h3⟩ := @ih tags'
      refine ⟨fun t ht => h1 t (hsub t ht), fun t ht => ?_, fun t ht hdel => ?_⟩
      · obtain ht | ⟨ht, hdel⟩ := h2 t ht
        · exact hsup t ht
        · exact .inr ⟨mem_cons_of_mem b ht, hdel⟩
      · obtain rfl | ht := mem_cons.1 ht
        · exact .inl (h1 t (hb hdel))
        · exact h3 t ht hdel

/-! ### The invariant -/

/-- No point has the tag. -/
def Gone (ps : List (Point Tag)) (t : Tag) : Prop := ∀ p ∈ ps, p.tag ≠ t

/-- The deletion set of a search is active or empty, and a tag that it must not return is in it, or
is the tag of no point that it has found or can find. -/
structure SearchOk (s : State ι Tag) (q : Search Tag) : Prop where
  delSet : q.delSet = s.activeDeleteSet ∨ s.deletionSets q.delSet = ∅
  gone : ∀ t ∈ q.gone, q.delSet = s.activeDeleteSet ∧ t ∈ s.deletionSets s.activeDeleteSet ∨
    Gone s.points t ∧ ∀ found, q.found = some found → Gone found t

structure Inv (s : State ι Tag) : Prop where
  live_points : ∀ p ∈ s.live, p ∈ s.points
  live_active : ∀ p ∈ s.live, p.tag ∉ s.deletionSets s.activeDeleteSet
  live_merging : s.merging = true → ∀ p ∈ s.live, p.tag ∉ s.deletionSets (!s.activeDeleteSet)
  inserting : s.merging = true → s.inserting = []
  deleted : ∀ t ∈ s.deleted, t ∈ s.deletionSets s.activeDeleteSet ∨
    s.merging = true ∧ t ∈ s.deletionSets (!s.activeDeleteSet) ∨ Gone s.points t
  search : ∀ i q, s.searching i = some q → SearchOk s q

variable {s s' : State ι Tag}

section

omit [DecidableEq ι] [DecidableEq Tag]

theorem Init.inv (h : Init s) : Inv s := by
  obtain ⟨hdel, hmerge, hins, hsearch, hlive, hdeleted⟩ := h
  refine ⟨fun p hp => hlive ▸ hp, ?_, ?_, fun _ => hins, ?_, ?_⟩
  · simp [hdel]
  · simp [hdel]
  · simp [hdeleted]
  · simp [hsearch]

theorem Inv.setSearching (h : Inv s) {searching : ι → Option (Search Tag)}
    (hs : ∀ i q, searching i = some q → SearchOk s q) : Inv { s with searching } where
  live_points := h.live_points
  live_active := h.live_active
  live_merging := h.live_merging
  inserting := h.inserting
  deleted := h.deleted
  search i q hq := ⟨(hs i q hq).delSet, (hs i q hq).gone⟩

end

omit [DecidableEq Tag] in
theorem Inv.setSearch (h : Inv s) {i : ι} {q : Option (Search Tag)}
    (hq : ∀ q', q = some q' → SearchOk s q') : Inv (s.setSearch i q) := by
  refine h.setSearching fun j q' hj => ?_
  by_cases hji : j = i
  · rw [hji, update_self] at hj
    exact hq q' hj
  · rw [update_of_ne hji] at hj
    exact h.search j q' hj

omit [DecidableEq ι] in
theorem Inv.insertPoint (h : Inv s) {tag : Tag} (hm : s.merging = false)
    (htag : tag ∉ s.deletionSets s.activeDeleteSet) : Inv (s.insertPoint tag) := by
  have hgone : ∀ t, t ≠ tag → Gone s.points t → Gone (s.points ++ [⟨s.nextUid, tag⟩]) t := by
    intro t hne hg p hp
    obtain hp | hp := mem_append.1 hp
    · exact hg p hp
    · rw [mem_singleton.1 hp]
      exact Ne.symm hne
  refine ⟨fun p hp => ?_, fun p hp => ?_, fun hm' => ?_, fun hm' => ?_, fun t ht => ?_,
    fun i q hq => ?_⟩
  · obtain hp | hp := mem_append.1 hp
    · exact mem_append_left _ (h.live_points p hp)
    · exact mem_append_right _ hp
  · obtain hp | hp := mem_append.1 hp
    · exact h.live_active p hp
    · rw [mem_singleton.1 hp]
      exact htag
  · exact absurd hm' (by simp [State.insertPoint, hm])
  · exact absurd hm' (by simp [State.insertPoint, hm])
  · obtain ⟨hne, ht⟩ := Finset.mem_erase.1 ht
    exact (h.deleted t ht).imp_right (Or.imp_right (hgone t hne))
  · obtain ⟨q', hq', rfl⟩ := Option.map_eq_some_iff.1 hq
    refine ⟨(h.search i q' hq').delSet, fun t ht => ?_⟩
    obtain ⟨hne, ht⟩ := Finset.mem_erase.1 ht
    exact ((h.search i q' hq').gone t ht).imp_right fun hg => ⟨hgone t hne hg.1, hg.2⟩

omit [DecidableEq ι] in
theorem Inv.lazyDelete (h : Inv s) (tag : Tag) : Inv (s.lazyDelete tag) := by
  have hactive : (s.lazyDelete tag).deletionSets s.activeDeleteSet =
      insert tag (s.deletionSets s.activeDeleteSet) := update_self ..
  have hother : ∀ b, b ≠ s.activeDeleteSet →
      (s.lazyDelete tag).deletionSets b = s.deletionSets b :=
    fun b hb => update_of_ne hb ..
  have hnot : (s.lazyDelete tag).deletionSets (!s.activeDeleteSet) =
      s.deletionSets (!s.activeDeleteSet) := hother _ (by simp)
  have hmem : ∀ p ∈ (s.lazyDelete tag).live, p ∈ s.live ∧ p.tag ≠ tag := by
    intro p hp
    simpa using mem_filter.1 hp
  refine ⟨fun p hp => h.live_points p (hmem p hp).1, fun p hp => ?_, fun hm p hp => ?_,
    h.inserting, fun t ht => ?_, fun i q hq => ⟨?_, fun t ht => ?_⟩⟩
  · show p.tag ∉ (s.lazyDelete tag).deletionSets s.activeDeleteSet
    rw [hactive, Finset.mem_insert, not_or]
    exact ⟨(hmem p hp).2, h.live_active p (hmem p hp).1⟩
  · show p.tag ∉ (s.lazyDelete tag).deletionSets (!s.activeDeleteSet)
    rw [hnot]
    exact h.live_merging hm p (hmem p hp).1
  · show t ∈ (s.lazyDelete tag).deletionSets s.activeDeleteSet ∨
      s.merging = true ∧ t ∈ (s.lazyDelete tag).deletionSets (!s.activeDeleteSet) ∨
        Gone s.points t
    rw [hactive, hnot, Finset.mem_insert]
    obtain rfl | ht := Finset.mem_insert.1 ht
    · exact .inl (.inl rfl)
    · exact (h.deleted t ht).imp_left .inr
  · by_cases hq' : q.delSet = s.activeDeleteSet
    · exact .inl hq'
    · rw [hother _ hq']
      exact .inr ((h.search i q hq).delSet.resolve_left hq')
  · show q.delSet = s.activeDeleteSet ∧ t ∈ (s.lazyDelete tag).deletionSets s.activeDeleteSet ∨ _
    rw [hactive, Finset.mem_insert]
    exact ((h.search i q hq).gone t ht).imp_left fun hg => ⟨hg.1, .inr hg.2⟩

omit [DecidableEq ι] [DecidableEq Tag] in
/-- The flip at the start of a merge: the searches under way have nothing to filter. -/
theorem Inv.mergeStart (h : Inv s) (hins : s.inserting = [])
    (hcalm : (∃ i, (s.searching i).isSome) → s.deletionSets s.activeDeleteSet = ∅)
    (hm : s.merging = false) : Inv { s.saveDelSet with merging := true } := by
  have hcleared : s.saveDelSet.deletionSets (!s.activeDeleteSet) = ∅ := update_self ..
  have hfrozen : s.saveDelSet.deletionSets s.activeDeleteSet = s.deletionSets s.activeDeleteSet :=
    update_of_ne (by simp) ..
  refine ⟨h.live_points, fun p _ => ?_, fun _ p hp => ?_, fun _ => hins, fun t ht => ?_,
    fun i q hq => ⟨?_, fun t ht => ?_⟩⟩
  · show p.tag ∉ s.saveDelSet.deletionSets (!s.activeDeleteSet)
    simp [hcleared]
  · show p.tag ∉ s.saveDelSet.deletionSets (!!s.activeDeleteSet)
    rw [Bool.not_not, hfrozen]
    exact h.live_active p hp
  · show t ∈ s.saveDelSet.deletionSets (!s.activeDeleteSet) ∨
      true = true ∧ t ∈ s.saveDelSet.deletionSets (!!s.activeDeleteSet) ∨ Gone s.points t
    rw [Bool.not_not, hfrozen]
    obtain ht | ⟨hm', -⟩ | hg := h.deleted t ht
    · exact .inr (.inl ⟨rfl, ht⟩)
    · exact absurd hm' (by simp [hm])
    · exact .inr (.inr hg)
  · show q.delSet = (!s.activeDeleteSet) ∨ s.saveDelSet.deletionSets q.delSet = ∅
    have hempty := hcalm ⟨i, by simp [show s.searching i = some q from hq]⟩
    by_cases hq' : q.delSet = s.activeDeleteSet
    · rw [hq', hfrozen]
      exact .inr hempty
    · exact .inl (Bool.eq_not.2 hq')
  · have hempty := hcalm ⟨i, by simp [show s.searching i = some q from hq]⟩
    obtain ⟨-, ht'⟩ | hg := (h.search i q hq).gone t ht
    · rw [hempty] at ht'
      simp at ht'
    · exact .inr hg

omit [DecidableEq ι] in
theorem Inv.mergeEnd (h : Inv s) (hm : s.merging = true) :
    Inv { s.mergeDeletes with merging := false } := by
  have hgone : ∀ t, Gone s.points t → Gone s.mergeDeletes.points t :=
    fun t hg p hp => hg p (mem_filter.1 hp).1
  refine ⟨fun p hp => ?_, h.live_active, fun hm' => ?_, fun hm' => ?_, fun t ht => ?_,
    fun i q hq => ⟨(h.search i q hq).delSet, fun t ht => ?_⟩⟩
  · exact mem_filter.2 ⟨h.live_points p hp, by simpa using h.live_merging hm p hp⟩
  · cases hm'
  · cases hm'
  · obtain ht | ⟨-, ht⟩ | hg := h.deleted t ht
    · exact .inl ht
    · refine .inr (.inr fun p hp he => ?_)
      have := (mem_filter.1 hp).2
      rw [he] at this
      simp [ht] at this
    · exact .inr (.inr (hgone t hg))
  · exact ((h.search i q hq).gone t ht).imp_right fun hg => ⟨hgone t hg.1, hg.2⟩

omit [DecidableEq ι] [DecidableEq Tag] in
theorem Inv.setInserting (h : Inv s) {inserting : List Tag}
    (hins : s.merging = true → inserting = []) : Inv { s with inserting } :=
  ⟨h.live_points, h.live_active, h.live_merging, hins, h.deleted,
    fun i q hq => ⟨(h.search i q hq).delSet, (h.search i q hq).gone⟩⟩

theorem Inv.step (h : Inv s) {a : Act ι Tag} (hcalm : Calm s a)
    (hs : DynamicIndex.step s a = some s') : Inv s' := by
  cases a with
  | insertStart tag =>
    simp only [DynamicIndex.step] at hs
    split_ifs at hs with hm
    cases hs
    exact h.setInserting fun hm' => absurd hm' hm
  | insertEnd tag =>
    simp only [DynamicIndex.step] at hs
    split_ifs at hs with hmem
    cases hs
    have hm : s.merging = false := by
      by_contra hm
      rw [h.inserting (by simpa using hm)] at hmem
      exact absurd hmem not_mem_nil
    exact (h.insertPoint hm hcalm).setInserting fun hm' => absurd hm' (by
      simp [State.insertPoint, hm])
  | lazyDelete tag =>
    cases hs
    exact h.lazyDelete tag
  | searchStart i k =>
    simp only [DynamicIndex.step] at hs
    split at hs
    · cases hs
      refine h.setSearch fun q hq => ?_
      cases hq
      refine ⟨.inl rfl, fun t ht => ?_⟩
      obtain ht | ⟨hm, ht⟩ | hg := h.deleted t ht
      · exact .inl ⟨rfl, ht⟩
      · rw [hcalm hm] at ht
        simp at ht
      · exact .inr ⟨hg, by simp⟩
    · cases hs
  | searchDisk i found =>
    simp only [DynamicIndex.step] at hs
    split at hs
    · rename_i q hq
      split_ifs at hs with hcond
      cases hs
      refine h.setSearch fun q' hq' => ?_
      cases hq'
      refine ⟨(h.search i q hq).delSet, fun t ht => ?_⟩
      refine ((h.search i q hq).gone t ht).imp_right fun hg => ⟨hg.1, ?_⟩
      rintro ps hps p hp
      cases hps
      exact hg.1 p (hcond.2 hp)
    · cases hs
  | searchEnd i =>
    simp only [DynamicIndex.step] at hs
    split at hs
    · cases hs
      exact h.setSearch fun q hq => by cases hq
    · cases hs
  | mergeStart =>
    simp only [DynamicIndex.step] at hs
    split_ifs at hs with hcond
    cases hs
    exact h.mergeStart hcond.2 hcalm hcond.1
  | mergeEnd =>
    simp only [DynamicIndex.step] at hs
    split_ifs at hs with hm
    cases hs
    exact h.mergeEnd hm

omit [DecidableEq ι] in
theorem Inv.tagsOk (h : Inv s) : TagsOk s := by
  refine ⟨fun i q found hq hfound t ht => ?_, fun i q found hq hfound p hp hlive => ?_,
    h.live_points⟩
  · intro hgone
    obtain hnil | ⟨hmem, hnot⟩ := filterTags_spec.2.1 t ht
    · exact absurd hnil not_mem_nil
    obtain ⟨hset, hdel⟩ | ⟨-, hg⟩ := (h.search i q hq).gone t hgone
    · exact hnot (hset ▸ hdel)
    · obtain ⟨p, hp, rfl⟩ := mem_map.1 hmem
      exact hg found hfound p hp rfl
  · refine filterTags_spec.2.2 p.tag (mem_map_of_mem hp) ?_
    obtain hset | hempty := (h.search i q hq).delSet
    · exact hset ▸ h.live_active p hlive
    · simp [hempty]

/-- An index with points under the given tags. -/
def State.load (tags : List Tag) : State ι Tag where
  points := tags.mapIdx Point.mk
  nextUid := tags.length
  deletionSets := fun _ => ∅
  activeDeleteSet := false
  merging := false
  inserting := []
  searching := fun _ => none
  live := tags.mapIdx Point.mk
  deleted := ∅

omit [DecidableEq ι] [DecidableEq Tag] in
theorem init_load (tags : List Tag) : Init (State.load tags : State ι Tag) :=
  ⟨fun _ => rfl, rfl, rfl, fun _ => rfl, rfl, rfl⟩

end DiskANNEval.PipeANN.DynamicIndex
