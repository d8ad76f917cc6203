import DiskANNEval.PipeANN.MemIndexEntry
import DiskANNEval.Lib.Records

/-!
# MemIndexSaved — an index in memory, saved and loaded

`save` writes what is at the first `_nd` locations.  When no free location is among them, `load` gives
the same index without free locations (`load_save`).  When one is, a location that is not free lies
behind them and is not written, and `load` gives the free one the tag `TagT()` (`load_save_iff`).
-/

namespace DiskANNEval.PipeANN

open Lib List Option Function Finset

/-- The files of an index.  `indexSize` and `graph` are in words of four bytes; `graph` is what stands
behind the header of the graph file. -/
structure SavedIndex (Vec Tag : Type) where
  indexSize : ℕ
  ep : ℕ
  numFrozenPts : ℕ
  graph : List ℕ
  data : List Vec
  tags : List Tag
  deleteList : Option (List ℕ)

namespace MemIndex

variable {D Vec Tag : Type} (c : MemConfig D Vec Tag) (s : MemIndex Vec Tag)

/-! ### Saving and loading -/

def saveTags : List Tag := (List.range s.nd).map fun i => (s.locationToTag i).getD c.tagInit

def saveData : List Vec := (List.range s.nd).map s.data

/-- The lists that `save_graph` writes. -/
def savedLists : List (List ℕ) := (List.range s.nd).map s.finalGraph

/-- `save_delete_list`; without a deleted point there is no file. -/
def saveDeleteList : Option (List ℕ) :=
  if s.deleteSet = ∅ then none else some (c.setOrder (s.deleteSet.sort (· ≤ ·)))

def save : SavedIndex Vec Tag where
  indexSize := 6 + (s.savedLists.map fun l => l.length + 1).sum
  ep := s.ep
  numFrozenPts := 0
  graph := encode s.savedLists
  data := s.saveData
  tags := s.saveTags c
  deleteList := s.saveDeleteList c

def loadData (data : List Vec) : MemIndex Vec Tag :=
  { s with
    data := fun i => data.getD i c.zeros
    maxPoints := data.length
    finalGraph := fun i => if i < data.length then s.finalGraph i else []
    emptySlots := ∅ }

/-- `load_delete_set`, if there is the file. -/
def loadDeleteSet (deleteList : Option (List ℕ)) : MemIndex Vec Tag :=
  { s with deleteSet := s.deleteSet ∪ (deleteList.getD []).toFinset }

/-- `load_graph` after `load_data`, when `max_points()` is the number of points; `none`: the file ends
before the last list. -/
def loadGraph (f : SavedIndex Vec Tag) : Option (MemIndex Vec Tag × ℕ) :=
  (decode f.indexSize 6 f.graph).map fun lists =>
    ({ s with ep := f.ep, finalGraph := fun i => lists.getD i (s.finalGraph i) }, lists.length)

variable [DecidableEq Tag]

/-- The body of the loop of `load_tags`. -/
def loadTag (tags : List Tag) (s : MemIndex Vec Tag) (i : ℕ) : MemIndex Vec Tag :=
  let tag := tags.getD i c.tagInit
  if i ∈ s.deleteSet then s
  else
    { s with
      locationToTag := Function.update s.locationToTag i (some tag)
      tagToLocation := Function.update s.tagToLocation tag (some i) }

def loadTags (tags : List Tag) (fileFrozenPts : ℕ) : MemIndex Vec Tag :=
  let numDataPoints := if 0 < fileFrozenPts then tags.length - 1 else tags.length
  (List.range numDataPoints).foldl (loadTag c tags) s

/-- `none`: `crash()`, or a graph file that is too short. -/
def load (f : SavedIndex Vec Tag) : Option (MemIndex Vec Tag) := do
  let s := (s.loadData c f.data).loadDeleteSet f.deleteList
  let (s, graphNumPts) ← s.loadGraph f
  let s := s.loadTags c f.tags f.numFrozenPts
  if f.data.length ≠ graphNumPts ∨ f.data.length ≠ f.tags.length then none
  else
    let nd := f.data.length - f.numFrozenPts
    return { s with nd := nd, emptySlots := Finset.Ico nd s.maxPoints }

/-! ### What is loaded -/

variable {c s} {i k : ℕ} {t u : Tag}

theorem length_encode (rs : List (List ℕ)) :
    (encode rs).length = (rs.map fun r => r.length + 1).sum := by
  rw [encode, length_flatMap]
  rfl

omit [DecidableEq Tag] in
theorem decode_save : decode (s.save c).indexSize 6 (s.save c).graph = some s.savedLists := by
  have hlen := length_encode s.savedLists
  show decode (6 + (s.savedLists.map fun l => l.length + 1).sum) 6 (encode s.savedLists) = _
  rw [← hlen]
  exact decode_encode s.savedLists 6

omit [DecidableEq Tag] in
theorem toFinset_saveDeleteList : ((s.saveDeleteList c).getD []).toFinset = s.deleteSet := by
  rw [saveDeleteList]
  split_ifs with h
  · rw [h]
    rfl
  · ext i
    rw [getD_some, List.mem_toFinset, (c.setOrder_perm _).mem_iff, mem_sort]

/-- A new index with the files of `s` loaded, but for the tags. -/
def loadedPoints (c : MemConfig D Vec Tag) (s : MemIndex Vec Tag) : MemIndex Vec Tag :=
  { fresh c with
    data := fun i => s.saveData.getD i c.zeros
    maxPoints := s.nd
    finalGraph := fun i => s.savedLists.getD i []
    ep := s.ep
    deleteSet := s.deleteSet }

theorem load_save_eq : (fresh c).load c (s.save c) =
    some { loadTags c (loadedPoints c s) (s.saveTags c) 0 with
      nd := s.nd
      emptySlots := Finset.Ico s.nd
        (loadTags c (loadedPoints c s) (s.saveTags c) 0).maxPoints } := by
  have hdata : s.saveData.length = s.nd := by simp [saveData]
  have hlists : s.savedLists.length = s.nd := by simp [savedLists]
  have htags : (s.saveTags c).length = s.nd := by simp [saveTags]
  have hpoints : ({ ((fresh c).loadData c s.saveData).loadDeleteSet (s.saveDeleteList c) with
      ep := s.ep
      finalGraph := fun i => s.savedLists.getD i
        (if i < s.saveData.length then (fresh c).finalGraph i else []) } : MemIndex Vec Tag) =
      loadedPoints c s := by
    rw [loadedPoints, loadDeleteSet, toFinset_saveDeleteList, loadData, hdata]
    simp only [fresh, empty_union, ite_self]
  have hgraph : (((fresh c).loadData c s.saveData).loadDeleteSet (s.saveDeleteList c)).loadGraph
      (s.save c) = some (loadedPoints c s, s.nd) := by
    rw [loadGraph, decode_save, map_some, hlists, ← hpoints]
    rfl
  rw [load, show (s.save c).data = s.saveData from rfl,
    show (s.save c).deleteList = s.saveDeleteList c from rfl,
    show (s.save c).tags = s.saveTags c from rfl]
  rw [hgraph, bind_eq_bind, bind_some]
  dsimp only
  rw [hdata, htags, if_neg (by simp)]
  rfl

/-! ### No free location before `_nd` -/

section

omit [DecidableEq Tag]

theorem Inv.emptySlots_eq (h : s.Inv) (hfree : ∀ i ∈ s.emptySlots, s.nd ≤ i) :
    s.emptySlots = Finset.Ico s.nd s.maxPoints := by
  have hcard := h.card
  refine eq_of_subset_of_card_le (fun i hi => ?_) ?_
  · exact mem_Ico.2 ⟨hfree i hi, (h.empty i hi).1⟩
  · rw [Nat.card_Ico]
    omega

theorem Inv.lt_nd (h : s.Inv) (hfree : ∀ i ∈ s.emptySlots, s.nd ≤ i) (hi : i < s.maxPoints)
    (hnot : i ∉ s.emptySlots) : i < s.nd := by
  by_contra hlt
  rw [h.emptySlots_eq hfree] at hnot
  exact hnot (mem_Ico.2 ⟨Nat.not_lt.1 hlt, hi⟩)

theorem Inv.lt_nd_of_tagged (h : s.Inv) (hfree : ∀ i ∈ s.emptySlots, s.nd ≤ i)
    (ht : s.locationToTag i = some t) : i < s.nd := by
  refine h.lt_nd hfree (h.tagged_lt i t ht) fun hi => ?_
  rw [(h.empty i hi).2.2] at ht
  cases ht

end

theorem filter_lt_succ {o : Option ℕ} (h : o ≠ some k) :
    o.filter (· < k + 1) = o.filter (· < k) := by
  cases o with
  | none => rfl
  | some i =>
    have hne : i ≠ k := fun he => h (congrArg some he)
    have hiff : i < k + 1 ↔ i < k := by omega
    simp only [filter_some, hiff]

theorem foldl_loadTag (h : s.Inv) (hfree : ∀ i ∈ s.emptySlots, s.nd ≤ i) (hk : k ≤ s.nd) :
    (List.range k).foldl (loadTag c (s.saveTags c)) (loadedPoints c s) =
      { loadedPoints c s with
        locationToTag := fun i => if i < k then s.locationToTag i else none
        tagToLocation := fun t => (s.tagToLocation t).filter (· < k) } := by
  induction k with
  | zero =>
    have hnone : (fun t => (s.tagToLocation t).filter (· < 0)) = fun _ : Tag => none := by
      simp
    simp [loadedPoints, fresh]
  | succ k ih =>
    have hlt : k < s.nd := hk
    have hcard := h.card
    have hget : (s.saveTags c).getD k c.tagInit = (s.locationToTag k).getD c.tagInit := by
      simp [saveTags, hlt]
    rw [range_succ, foldl_append, ih (by omega), foldl_cons, foldl_nil, loadTag, hget]
    by_cases hdel : k ∈ s.deleteSet
    · -- The location is deleted, and no tag has it.
      have hnone := (h.deleted k hdel).2
      have hl : (fun i => if i < k + 1 then s.locationToTag i else none) =
          fun i => if i < k then s.locationToTag i else none := by
        ext1 i
        by_cases hi : i = k
        · rw [hi, hnone, ite_self, ite_self]
        · exact if_congr (by omega) rfl rfl
      have ht : (fun t => (s.tagToLocation t).filter (· < k + 1)) =
          fun t => (s.tagToLocation t).filter (· < k) := by
        ext1 t
        refine filter_lt_succ fun hk => ?_
        rw [(h.tagged k t).2 hk] at hnone
        cases hnone
      rw [if_pos (show k ∈ (loadedPoints c s).deleteSet from hdel), hl, ht]
    · have hsome : (s.locationToTag k).isSome = true := by
        refine ((h.cover k (by omega)).resolve_left fun hk' => ?_).resolve_left hdel
        exact absurd (hfree k hk') (by omega)
      obtain ⟨tag, htag⟩ := isSome_iff_exists.1 hsome
      have hl : (fun i => if i < k + 1 then s.locationToTag i else none) =
          Function.update (fun i => if i < k then s.locationToTag i else none) k (some tag) := by
        ext1 i
        by_cases hi : i = k
        · rw [hi, update_self, if_pos (Nat.lt_succ_self k), htag]
        · rw [update_of_ne hi]
          exact if_congr (by omega) rfl rfl
      have ht : (fun t => (s.tagToLocation t).filter (· < k + 1)) =
          Function.update (fun t => (s.tagToLocation t).filter (· < k)) tag (some k) := by
        ext1 t
        by_cases hte : t = tag
        · rw [hte, (h.tagged k tag).1 htag]
          simp
        · rw [update_of_ne hte]
          refine filter_lt_succ fun hk => hte ?_
          rw [(h.tagged k t).2 hk] at htag
          exact Option.some.inj htag
      rw [if_neg (show k ∉ (loadedPoints c s).deleteSet from hdel), htag, getD_some, hl, ht]

/-- When no free location is among the first `_nd` ones, the loaded index is the saved one, with these
locations only. -/
theorem Inv.load_save (h : s.Inv) (hfree : ∀ i ∈ s.emptySlots, s.nd ≤ i) :
    (MemIndex.fresh c).load c (s.save c) = some
      { s with
        data := fun i => s.saveData.getD i c.zeros
        maxPoints := s.nd
        finalGraph := fun i => s.savedLists.getD i []
        emptySlots := ∅ } := by
  have hlen : (s.saveTags c).length = s.nd := by simp [saveTags]
  have hl : (fun i => if i < s.nd then s.locationToTag i else none) = s.locationToTag := by
    ext1 i
    split_ifs with hi
    · rfl
    · rw [eq_comm, eq_none_iff_forall_ne_some]
      exact fun t ht => hi (h.lt_nd_of_tagged hfree ht)
  have ht : (fun t => (s.tagToLocation t).filter (· < s.nd)) = s.tagToLocation := by
    ext1 t
    cases hloc : s.tagToLocation t with
    | none => rfl
    | some i =>
      have hlt := h.lt_nd_of_tagged hfree ((h.tagged i t).2 hloc)
      simp [hlt]
  rw [load_save_eq, loadTags, if_neg (lt_irrefl 0), hlen, foldl_loadTag h hfree le_rfl, hl, ht]
  simp [loadedPoints]

/-! ### A free location before `_nd` -/

theorem deleteSet_foldl_loadTag (tags : List Tag) (xs : List ℕ) (s : MemIndex Vec Tag) :
    (xs.foldl (loadTag c tags) s).deleteSet = s.deleteSet := by
  induction xs generalizing s with
  | nil => rfl
  | cons x xs ih =>
    rw [foldl_cons, ih, loadTag]
    split_ifs
    · rfl
    · rfl

theorem isSome_foldl_loadTag (tags : List Tag) (xs : List ℕ) (s : MemIndex Vec Tag)
    (h : (s.tagToLocation t).isSome = true) :
    ((xs.foldl (loadTag c tags) s).tagToLocation t).isSome = true := by
  induction xs generalizing s with
  | nil => exact h
  | cons x xs ih =>
    apply ih
    rw [loadTag]
    split_ifs
    · exact h
    · dsimp only
      by_cases ht : t = tags.getD x c.tagInit
      · rw [ht, update_self]
        rfl
      · rw [update_of_ne ht]
        exact h

theorem isSome_loadTag_of_mem (tags : List Tag) {xs : List ℕ} {s : MemIndex Vec Tag} (hi : i ∈ xs)
    (hdel : i ∉ s.deleteSet) :
    ((xs.foldl (loadTag c tags) s).tagToLocation (tags.getD i c.tagInit)).isSome = true := by
  obtain ⟨l, r, rfl⟩ := append_of_mem hi
  rw [foldl_append, foldl_cons]
  apply isSome_foldl_loadTag
  rw [loadTag, deleteSet_foldl_loadTag, if_neg hdel]
  dsimp only
  rw [update_self]
  rfl

theorem tagToLocation_foldl_loadTag (tags : List Tag) {xs : List ℕ} (s : MemIndex Vec Tag)
    (h : ∀ i ∈ xs, tags.getD i c.tagInit ≠ t) :
    (xs.foldl (loadTag c tags) s).tagToLocation t = s.tagToLocation t := by
  induction xs generalizing s with
  | nil => rfl
  | cons x xs ih =>
    rw [foldl_cons, ih _ fun i hi => h i (mem_cons_of_mem x hi), loadTag]
    split_ifs
    · rfl
    · exact update_of_ne (h x mem_cons_self).symm ..

variable {s' : MemIndex Vec Tag}

theorem Inv.tagToLocation_load (h : s.Inv) (ht : s.tagToLocation t = some i) (hi : s.nd ≤ i)
    (hne : t ≠ c.tagInit) (hs' : (MemIndex.fresh c).load c (s.save c) = some s') :
    s'.tagToLocation t = none := by
  have hlen : (s.saveTags c).length = s.nd := by simp [saveTags]
  rw [load_save_eq] at hs'
  cases hs'
  show (loadTags c (loadedPoints c s) (s.saveTags c) 0).tagToLocation t = none
  rw [loadTags, hlen]
  refine (tagToLocation_foldl_loadTag _ _ fun j hj hget => ?_).trans rfl
  have hj' : j < s.nd := List.mem_range.1 hj
  have hget' : (s.locationToTag j).getD c.tagInit = t := by
    rw [← hget]
    simp [saveTags, hj']
  cases hloc : s.locationToTag j with
  | none =>
    rw [hloc] at hget'
    exact hne hget'.symm
  | some u =>
    rw [hloc, getD_some] at hget'
    rw [hget', h.tagged, ht] at hloc
    have hij := Option.some.inj hloc
    omega

theorem Inv.isSome_tagInit (h : s.Inv) (hi : i ∈ s.emptySlots) (hlt : i < s.nd)
    (hs' : (MemIndex.fresh c).load c (s.save c) = some s') :
    (s'.tagToLocation c.tagInit).isSome = true := by
  obtain ⟨-, hdel, hnone⟩ := h.empty i hi
  have hget : (s.saveTags c).getD i c.tagInit = c.tagInit := by simp [saveTags, hlt, hnone]
  have hlen : (s.saveTags c).length = s.nd := by simp [saveTags]
  rw [load_save_eq] at hs'
  cases hs'
  show ((loadTags c (loadedPoints c s) (s.saveTags c) 0).tagToLocation c.tagInit).isSome = true
  rw [loadTags, hlen]
  have hsome := isSome_loadTag_of_mem (c := c) (s := loadedPoints c s) (s.saveTags c)
    (List.mem_range.2 hlt) hdel
  rwa [hget] at hsome

/-! ### What is kept -/

/-- The vector of the tag. -/
def vectorOf (s : MemIndex Vec Tag) (t : Tag) : Option Vec := (s.tagToLocation t).map s.data

/-- The list of the first tag's location has the second tag's location. -/
def Adjacent (s : MemIndex Vec Tag) (t u : Tag) : Prop :=
  ∃ i j, s.tagToLocation t = some i ∧ s.tagToLocation u = some j ∧ j ∈ s.finalGraph i

/-- The second index has the points of the first one, the edges between them, and its deleted
points. -/
structure Kept (s s' : MemIndex Vec Tag) : Prop where
  vectors : ∀ t, s'.vectorOf t = s.vectorOf t
  edges : ∀ t u, s'.Adjacent t u ↔ s.Adjacent t u
  deleted : s'.deleteSet = s.deleteSet
  deletedVectors : ∀ i ∈ s.deleteSet, i < s'.maxPoints ∧ s'.data i = s.data i

theorem Inv.kept (h : s.Inv) (hfree : ∀ i ∈ s.emptySlots, s.nd ≤ i)
    (hs' : (MemIndex.fresh c).load c (s.save c) = some s') : Kept s s' := by
  have hdata : ∀ i < s.nd, s.saveData.getD i c.zeros = s.data i := fun i hi => by simp [saveData, hi]
  have hlists : ∀ i < s.nd, s.savedLists.getD i [] = s.finalGraph i :=
    fun i hi => by simp [savedLists, hi]
  have hlt : ∀ t i, s.tagToLocation t = some i → i < s.nd :=
    fun t i ht => h.lt_nd_of_tagged hfree ((h.tagged i t).2 ht)
  rw [h.load_save hfree] at hs'
  cases hs'
  refine ⟨fun t => ?_, fun t u => ?_, rfl, fun i hi => ?_⟩
  · show (s.tagToLocation t).map (fun i => s.saveData.getD i c.zeros) = (s.tagToLocation t).map s.data
    cases hloc : s.tagToLocation t with
    | none => rfl
    | some i => rw [map_some, map_some, hdata i (hlt t i hloc)]
  · show (∃ i j, s.tagToLocation t = some i ∧ s.tagToLocation u = some j ∧
      j ∈ s.savedLists.getD i []) ↔ s.Adjacent t u
    constructor
    · rintro ⟨i, j, hi, hj, hmem⟩
      rw [hlists i (hlt t i hi)] at hmem
      exact ⟨i, j, hi, hj, hmem⟩
    · rintro ⟨i, j, hi, hj, hmem⟩
      refine ⟨i, j, hi, hj, ?_⟩
      rwa [hlists i (hlt t i hi)]
  · have hi' : i < s.nd := by
      refine h.lt_nd hfree (h.deleted i hi).1 fun he => ?_
      exact (h.empty i he).2.1 hi
    exact ⟨hi', hdata i hi'⟩

/-- `load` after `save` gives an index with the same points, edges and deleted points if no free
location is among the first `_nd` ones; and only then, when `TagT()` is not a tag. -/
theorem load_save_iff [LinearOrder D] [Zero D] (c : MemConfig D Vec Tag) (s : MemIndex Vec Tag)
    (hr : Reach c s) : ∃ s', (MemIndex.fresh c).load c (s.save c) = some s' ∧
      ((∀ i ∈ s.emptySlots, s.nd ≤ i) → Kept s s') ∧
      (s.tagToLocation c.tagInit = none → Kept s s' → ∀ i ∈ s.emptySlots, s.nd ≤ i) := by
  refine ⟨_, load_save_eq, fun hfree => hr.inv.kept hfree load_save_eq, fun htag hkept i hi => ?_⟩
  by_contra hlt
  have hsome := hr.inv.isSome_tagInit hi (Nat.not_le.1 hlt) (load_save_eq (c := c))
  have hvec := hkept.vectors c.tagInit
  rw [vectorOf, vectorOf, htag, Option.map_none, Option.map_eq_none_iff] at hvec
  rw [hvec] at hsome
  cases hsome

theorem load_save_middleLeft : ∃ s s', middleLeft = some s ∧
    (MemIndex.fresh natMem).load natMem (s.save natMem) = some s' ∧ Kept s s' := by
  have hempty : (middleLeft.map fun s => s.emptySlots) = some ∅ := by decide +kernel
  obtain ⟨s, hs, hslots⟩ := Option.map_eq_some_iff.1 hempty
  obtain ⟨s', hs', hkept, -⟩ := load_save_iff natMem s (reach_middleLeft hs)
  refine ⟨s, s', hs, hs', hkept fun i hi => ?_⟩
  rw [hslots] at hi
  exact absurd hi (Finset.notMem_empty i)

/-! ### An index that has grown -/

/-- The first of some numbers that are each alone in their bucket, in a `tsl::robin_set` that has once
had `50000` numbers, and so has `2 ^ 17` buckets. -/
def FirstSlot (slots : Finset ℕ) (loc : ℕ) : Prop :=
  loc ∈ slots ∧ ∀ l ∈ slots, loc % 131072 ≤ l % 131072

/-- A new index after the points `0`, `1`, … have been inserted with the tags `1`, `2`, …, each into
the first free location. -/
inductive Filled : ℕ → MemIndex ℕ ℕ → Prop
  | fresh : Filled 0 (MemIndex.fresh natMem)
  | insert {n loc : ℕ} {s s' : MemIndex ℕ ℕ} (hs : Filled n s)
      (hloc : FirstSlot ((s.dropTag (n + 1)).grow natMem).emptySlots loc)
      (h : s.insertPoint natMem natParams n (n + 1) loc = some s') : Filled (n + 1) s'

variable {n : ℕ}

theorem Filled.reach {s : MemIndex ℕ ℕ} (h : Filled n s) : Reach natMem s := by
  induction h with
  | fresh => exact .fresh
  | insert _ _ h ih => exact .insert ih h

/-- `max_points()` after `n` insertions. -/
def filledSize (n : ℕ) : ℕ :=
  if n = 0 then 0 else if n ≤ 50000 then 50000 else if n ≤ 75000 then 75000
  else if n ≤ 112500 then 112500 else 168750

theorem filledSize_succ_bounds (h : n + 1 ≤ 112500) :
    n + 1 ≤ filledSize (n + 1) ∧ filledSize (n + 1) ≤ 112500 := by
  unfold filledSize
  grind

theorem filledSize_grown (hn : n ≤ 112500) (hfull : filledSize n ≤ n) :
    max (filledSize n * 3 / 2) 50000 = filledSize (n + 1) := by
  unfold filledSize at *
  grind

theorem filledSize_succ_of_lt (hn : n ≤ 112500) (h : ¬ filledSize n ≤ n) :
    filledSize (n + 1) = filledSize n := by
  unfold filledSize at *
  grind

/-- After `n` insertions, the locations behind the first `n` ones are free. -/
structure FilledPrefix (n : ℕ) (s : MemIndex ℕ ℕ) : Prop where
  filled : Filled n s
  nd : s.nd = n
  maxPoints : s.maxPoints = filledSize n
  emptySlots : s.emptySlots = Finset.Ico n (filledSize n)
  tags : ∀ t, n < t → s.tagToLocation t = none

theorem FilledPrefix.exists_insert {loc : ℕ} {s : MemIndex ℕ ℕ} (h : FilledPrefix n s)
    (hn : n ≤ 112500) (hloc : FirstSlot (Finset.Ico n (filledSize (n + 1))) loc) :
    ∃ s', Filled (n + 1) s' ∧ s'.nd = n + 1 ∧ s'.maxPoints = filledSize (n + 1) ∧
      s'.emptySlots = (Finset.Ico n (filledSize (n + 1))).erase loc ∧
      s'.tagToLocation = Function.update s.tagToLocation (n + 1) (some loc) := by
  have hdrop : s.dropTag (n + 1) = s := by rw [dropTag, h.tags (n + 1) (Nat.lt_succ_self n)]
  have hgrow : (s.grow natMem).emptySlots = Finset.Ico n (filledSize (n + 1)) ∧
      (s.grow natMem).maxPoints = filledSize (n + 1) ∧ (s.grow natMem).nd = n ∧
      (s.grow natMem).tagToLocation = s.tagToLocation := by
    rw [grow, h.nd, h.maxPoints]
    split_ifs with hfull
    · have hsize : max (natMem.growth (filledSize n)) 50000 = filledSize (n + 1) :=
        filledSize_grown hn hfull
      refine ⟨?_, hsize, h.nd, rfl⟩
      show s.emptySlots ∪ Finset.Ico s.nd (max (natMem.growth (filledSize n)) 50000) = _
      rw [h.emptySlots, Ico_eq_empty_of_le hfull, empty_union, h.nd, hsize]
    · rw [filledSize_succ_of_lt hn hfull]
      exact ⟨h.emptySlots, h.maxPoints, h.nd, rfl⟩
  obtain ⟨hempty, hmax, hnd, htags⟩ := hgrow
  have hmem : loc ∈ ((s.dropTag (n + 1)).grow natMem).emptySlots := by
    rw [hdrop, hempty]
    exact hloc.1
  obtain ⟨s', hs', -, hl⟩ := h.filled.reach.inv.exists_insertPoint hmem n
  rw [hdrop] at hl
  refine ⟨s', .insert h.filled ?_ hs', ?_, ?_, ?_, ?_⟩
  · rw [hdrop, hempty]
    exact hloc
  · rw [hl.1]
    show (s.grow natMem).nd + 1 = n + 1
    rw [hnd]
  · rw [hl.1]
    exact hmax
  · rw [hl.1]
    show (s.grow natMem).emptySlots.erase loc = _
    rw [hempty]
  · rw [hl.1]
    show Function.update (s.grow natMem).tagToLocation (n + 1) (some loc) = _
    rw [htags]

theorem exists_filledPrefix (hn : n ≤ 112500) : ∃ s, FilledPrefix n s := by
  induction n with
  | zero => exact ⟨_, .fresh, rfl, rfl, rfl, fun _ _ => rfl⟩
  | succ n ih =>
    obtain ⟨s, h⟩ := ih (by omega)
    have hsize := filledSize_succ_bounds hn
    have hfirst : FirstSlot (Finset.Ico n (filledSize (n + 1))) n := by
      refine ⟨mem_Ico.2 ⟨le_rfl, by omega⟩, fun l hl => ?_⟩
      have hl' := mem_Ico.1 hl
      omega
    obtain ⟨s', hs', hnd, hmax, hempty, htags⟩ := h.exists_insert (by omega) hfirst
    refine ⟨s', hs', hnd, hmax, ?_, fun t ht => ?_⟩
    · rw [hempty]
      ext l
      rw [mem_erase, mem_Ico, mem_Ico]
      omega
    · rw [htags, update_of_ne (by omega)]
      exact h.tags t (by omega)

/-- The `112501`-st point is inserted at the location `2 ^ 17`, and its tag is not loaded again. -/
theorem filled_tag_lost : ∃ s s', Filled 112501 s ∧ Reach natMem s ∧ s.nd = 112501 ∧
    s.tagToLocation 112501 = some 131072 ∧
    (MemIndex.fresh natMem).load natMem (s.save natMem) = some s' ∧
    s'.tagToLocation 112501 = none ∧ ¬ Kept s s' := by
  obtain ⟨s₀, h⟩ := exists_filledPrefix (le_refl 112500)
  have hsize : filledSize (112500 + 1) = 168750 := by
    unfold filledSize
    grind
  have hfirst : FirstSlot (Finset.Ico 112500 (filledSize (112500 + 1))) 131072 := by
    rw [hsize]
    refine ⟨Finset.mem_Ico.2 ⟨by omega, by omega⟩, fun l _ => ?_⟩
    rw [Nat.mod_self]
    exact Nat.zero_le _
  obtain ⟨s, hs, hnd, -, -, htags⟩ := h.exists_insert le_rfl hfirst
  have htag : s.tagToLocation 112501 = some 131072 := by rw [htags, Function.update_self]
  have hne : 112501 ≠ natMem.tagInit := Nat.succ_ne_zero 112500
  have hlost := hs.reach.inv.tagToLocation_load htag (by omega) hne load_save_eq
  refine ⟨s, _, hs, hs.reach, hnd, htag, load_save_eq, hlost, fun hkept => ?_⟩
  have hvec := hkept.vectors 112501
  rw [vectorOf, vectorOf, hlost, htag] at hvec
  cases hvec

end MemIndex

end DiskANNEval.PipeANN
