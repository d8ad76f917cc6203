import DiskANNEval.FreshDiskANN.EagerTranspose

/-!
# CompactStart — the start node through `consolidate_deletes`, `compact_data` and `save`

`compact_data` replaces a deleted start, but takes a neighbour that is deleted too, and it does not
renumber the start.  `save` puts the frozen point behind the live ones for the time of the writing,
and ends with `_ep` at `_max_points`.  That is the frozen location if there is one: then the start
is always the frozen point, and keeps its list (`startKept_of_reach`).  Without a frozen point there
is no such location (`not_startKept_noFrozen`).

The calls are those of `EagerCall` with the lazy deletions and the saves; `eager` is
`_support_eager_delete`, without which nothing reads `_in_graph`.  `disable_delete` comes past its
checks of the sizes, where it fails nothing changes.  The assertions are off.
-/

namespace DiskANNEval.FreshDiskANN

open Lib List Option Function Finset

namespace EagerIndex

variable {D V Tag : Type} (c : EagerConfig D V) (s : EagerIndex V Tag)

/-! ### Lazy deletions -/

def lazyDelete [DecidableEq Tag] (tag : Tag) : EagerIndex V Tag :=
  if s.eagerDone && !s.dataCompacted then s
  else
    match s.tagToLocation tag with
    | none => { s with lazyDone := true }
    | some l =>
      { s with
        lazyDone := true
        deleteSet := insert l s.deleteSet
        locationToTag := Function.update s.locationToTag l none
        tagToLocation := Function.update s.tagToLocation tag none }

/-- The candidates for the new list of `i`: its neighbours, those of the deleted ones in their
place, without the deleted. -/
def candidates (i : ℕ) : List ℕ :=
  c.setOrder (((s.finalGraph i).flatMap fun ngh =>
    if ngh ∈ s.deleteSet then (s.finalGraph ngh).filter fun j => j ∉ s.deleteSet
    else [ngh]).dedup)

/-- The list of `i` without deleted neighbours. -/
def consolidated (p : EagerParams D) (i : ℕ) : List ℕ :=
  if i < c.total ∧ i ∉ s.deleteSet ∧ i ∉ s.emptySlots ∧
      ∃ ngh ∈ s.finalGraph i, ngh ∈ s.deleteSet then
    let expandedNghrs := (s.candidates c i).map fun j =>
      (⟨j, c.compare (s.data i) (s.data j)⟩ : Neighbor D)
    ((p.pruning.occludeList (s.djk c) (p.pruning.sort expandedNghrs)).map
      Neighbor.id).filter (· ≠ i)
  else s.finalGraph i

/-- A list is made from the lists of deleted points, which stay, so that the order does not matter.
-/
def consolidateDeletes (p : EagerParams D) : EagerIndex V Tag :=
  if s.eagerDone then s
  else
    ({ s with
      finalGraph := s.consolidated c p
      emptySlots := s.emptySlots ∪ s.deleteSet
      nd := (s.nd + (2 ^ 64 - s.deleteSet.card)) % 2 ^ 64 } : EagerIndex V Tag).updateInGraph c

/-- `disable_delete`, with the parameters if it is to consolidate. -/
def disableDelete (consolidate : Option (EagerParams D)) : EagerIndex V Tag :=
  if s.canDelete && c.enableTags then
    let s := match consolidate with
      | some p => s.consolidateDeletes c p
      | none => s
    { s with canDelete := false }
  else s

/-! ### Compaction -/

def newLocation (l : ℕ) : ℕ :=
  if (s.locationToTag l).isSome then
    ((List.range l).filter fun i => (s.locationToTag i).isSome).length
  else c.maxPoints

/-- The start node of `compact_data`, in the old numbers; `none`: no replacement is found. -/
def replacedStart : Option ℕ :=
  if s.ep ∈ s.deleteSet then
    ((s.finalGraph s.ep).find? fun iter => iter ∈ s.deleteSet).filter fun iter => iter ≠ s.ep
  else some s.ep

def swapLists (g : ℕ → List ℕ) (a b : ℕ) : ℕ → List ℕ :=
  Function.update (Function.update g a (g b)) b (g a)

/-- The body of the loop over the old locations; `none`: a neighbour is not tagged. -/
def compactAt (g : ℕ → List ℕ) (old : ℕ) : Option (ℕ → List ℕ) :=
  if s.newLocation c old < c.maxPoints ∨ old = c.maxPoints then
    if ∃ x ∈ g old, x < s.newLocation c x then none
    else
      let g := Function.update g old ((g old).map (s.newLocation c))
      some (if s.newLocation c old ≠ old then swapLists g (s.newLocation c old) old else g)
  else some (Function.update g old [])

/-- What the body does to `_in_graph`. -/
def compactInAt (g : ℕ → List ℕ) (old : ℕ) : ℕ → List ℕ :=
  if s.newLocation c old < c.maxPoints ∨ old = c.maxPoints then
    let g := Function.update g old ((g old).map fun x =>
      if s.newLocation c x ≤ x then s.newLocation c x else x)
    if s.newLocation c old ≠ old then swapLists g (s.newLocation c old) old else g
  else g

/-- What the body does to `_data`. -/
def compactDataAt (data : ℕ → V) (old : ℕ) : ℕ → V :=
  if (s.newLocation c old < c.maxPoints ∨ old = c.maxPoints) ∧ s.newLocation c old ≠ old then
    Function.update data (s.newLocation c old) (data old)
  else data

/-- `_tag_to_location` after the compaction. -/
def compactedTag [DecidableEq Tag] (tag : Tag) : Option ℕ :=
  (((List.range c.total).filter fun l => s.locationToTag l = some tag).getLast?).map
    (s.newLocation c)

def compactData [DecidableEq Tag] : Option (EagerIndex V Tag) := do
  let ep ← s.replacedStart
  let olds := List.range (c.maxPoints + 1)
  let g ← olds.foldlM (s.compactAt c) s.finalGraph
  return { s with
    ep
    finalGraph := fun l => if s.nd ≤ l ∧ l < c.maxPoints then [] else g l
    inGraph := olds.foldl (s.compactInAt c) s.inGraph
    data := olds.foldl (s.compactDataAt c) s.data
    tagToLocation := s.compactedTag c
    locationToTag := fun n => (List.range c.total).findSome? fun l =>
      (s.locationToTag l).filter fun tag => s.compactedTag c tag = some n
    deleteSet := ∅
    emptySlots := ∅
    lazyDone := false
    eagerDone := false
    dataCompacted := true }

/-! ### Saving -/

/-- `update_in_graph` where the index has `_in_graph`. -/
def updateIn (eager : Bool) : EagerIndex V Tag := if eager then s.updateInGraph c else s

/-- In the first `_nd` lists `a` becomes `b`; the list of `a` becomes that of `b`. -/
def moveList (a b : ℕ) : EagerIndex V Tag :=
  { s with
    finalGraph := fun l =>
      if l < s.nd then (s.finalGraph l).map fun x => if x = a then b else x
      else if l = a then [] else if l = b then s.finalGraph a else s.finalGraph l
    data := Function.update (Function.update s.data b (s.data a)) a c.zeros }

def compactFrozenPoint (eager : Bool) : EagerIndex V Tag :=
  let s' := if s.nd < c.maxPoints ∧ 0 < c.numFrozenPts ∧ s.finalGraph c.maxPoints ≠ [] then
      (s.moveList c c.maxPoints s.nd).updateIn c eager
    else s
  { s' with ep := s.nd }

def repositionFrozenPointToEnd (eager : Bool) : EagerIndex V Tag :=
  let s' := if 0 < c.numFrozenPts ∧ s.finalGraph c.maxPoints = [] then
      (s.moveList c s.nd c.maxPoints).updateIn c eager
    else s
  { s' with ep := c.maxPoints }

/-- The first part of `save`; `none`: an exception, or `compact_data` ends the process. -/
def saveEager [DecidableEq Tag] (eager : Bool) : Option (EagerIndex V Tag) :=
  if eager && s.eagerDone && !s.dataCompacted then
    (if s.nd < c.maxPoints then (s.compactData c).map fun s => s.updateInGraph c
      else if c.enableTags && s.canDelete then none else some s).map
      fun s => { s with eagerDone := false }
  else some s

/-- The second part. -/
def saveLazy [DecidableEq Tag] : Option (EagerIndex V Tag) :=
  if s.lazyDone && !s.dataCompacted then
    (s.compactData c).bind fun s =>
      if c.enableTags && (s.canDelete || !s.dataCompacted) then none
      else some { s with lazyDone := false }
  else some s

/-- The index after `save`. -/
def save [DecidableEq Tag] (eager : Bool) : Option (EagerIndex V Tag) := do
  let s ← s.saveEager c eager
  let s ← s.saveLazy c
  let s := (s.compactFrozenPoint c eager).repositionFrozenPointToEnd c eager
  return if eager then { s with dataCompacted := true } else s

end EagerIndex

open EagerIndex

/-- A call. -/
inductive StartCall (D V Tag : Type) where
  | build (source : List V) (tags : List Tag) (b : EagerBuildParams D)
  | enableDelete
  | insertPoint (point : V) (tag : Tag) (p : EagerParams D)
  | eagerDelete (tag : Tag) (deleteMode : ℤ) (p : EagerParams D)
  | lazyDelete (tag : Tag)
  | consolidateDeletes (p : EagerParams D)
  | disableDelete (consolidate : Option (EagerParams D))
  | compactData
  | save

namespace EagerIndex

variable {D V Tag : Type} (c : EagerConfig D V) (s : EagerIndex V Tag)

def startStep [DecidableEq Tag] [LinearOrder D] [Zero D] (eager : Bool) (s : EagerIndex V Tag) :
    StartCall D V Tag → Option (EagerIndex V Tag)
  | .build source tags b => s.build c b source tags
  | .enableDelete => some (s.enableDelete c)
  | .insertPoint point tag p => s.insertPoint c p point tag
  | .eagerDelete tag deleteMode p => s.eagerDelete c p tag deleteMode
  | .lazyDelete tag => some (s.lazyDelete tag)
  | .consolidateDeletes p => some (s.consolidateDeletes c p)
  | .disableDelete consolidate => some (s.disableDelete c consolidate)
  | .compactData => s.compactData c
  | .save => s.save c eager

/-- The arrays have a place for what `compact_data` and `save` read. -/
structure InArrays : Prop where
  frozen : c.maxPoints < c.total
  nd : s.nd ≤ c.maxPoints
  nbrs : ∀ a < c.total, ∀ d ∈ s.finalGraph a, d < c.total

/-- The start of `s'` is a live or a frozen location, with the renumbered list of `start`. -/
structure StartsAt (start : ℕ) (s' : EagerIndex V Tag) : Prop where
  place : (s'.locationToTag s'.ep).isSome = true ∨ c.maxPoints ≤ s'.ep ∧ s'.ep < c.total
  list : s'.finalGraph s'.ep = (s.finalGraph start).map (s.newLocation c)

/-- After `consolidate_deletes`, `compact_data` and `save` the start is the point that was chosen.
-/
def StartKept [DecidableEq Tag] (eager : Bool) (p : EagerParams D) : Prop :=
  (s.consolidateDeletes c p).InArrays c ∧
    ∀ start s₁ s₂, (s.consolidateDeletes c p).replacedStart = some start →
      (s.consolidateDeletes c p).compactData c = some s₁ → s₁.save c eager = some s₂ →
        (s.consolidateDeletes c p).StartsAt c start s₂

/-- `_nd` does not go below zero. -/
def Countable : Prop := s.eagerDone = true ∨ s.deleteSet.card ≤ s.nd

/-- There is a point for each tag of a build, and `_nd` does not go below zero. -/
def Counted : StartCall D V Tag → Prop
  | .build source tags _ => tags.length ≤ source.length
  | .eagerDelete _ _ _ => 0 < s.nd
  | .consolidateDeletes _ => s.Countable
  | .disableDelete (some _) => s.Countable
  | _ => True

variable {c : EagerConfig D V} {p : EagerParams D} {s s' : EagerIndex V Tag}

/-! ### What the calls leave as it is -/

/-- Only the lists are other ones. -/
def Relisted (s s' : EagerIndex V Tag) : Prop :=
  s' = { s with finalGraph := s'.finalGraph, inGraph := s'.inGraph }

theorem Relisted.refl (s : EagerIndex V Tag) : Relisted s s := rfl

theorem Relisted.trans {s₁ s₂ s₃ : EagerIndex V Tag} (h : Relisted s₁ s₂) (h' : Relisted s₂ s₃) :
    Relisted s₁ s₃ := by
  rw [Relisted] at h h' ⊢
  rw [h', h]

theorem Relisted.foldl {β : Type*} {f : EagerIndex V Tag → β → EagerIndex V Tag}
    (hf : ∀ s b, Relisted s (f s b)) (l : List β) (s : EagerIndex V Tag) :
    Relisted s (l.foldl f s) :=
  foldlRecOn l f (.refl s) fun _ hs b _ => hs.trans (hf _ b)

theorem relisted_setNbrs (s : EagerIndex V Tag) (a : ℕ) (nbrs : List ℕ) :
    Relisted s (s.setNbrs a nbrs) := rfl

theorem relisted_interInsertAt (n : ℕ) (s : EagerIndex V Tag) (des : ℕ) :
    Relisted s (interInsertAt c p n s des) := by
  rw [interInsertAt]
  split_ifs
  · exact .refl s
  · rfl
  · rfl

theorem relisted_repair (id : ℕ) (s : EagerIndex V Tag) (ngh : ℕ) :
    Relisted s (repair c p id s ngh) := by
  rw [repair]
  split_ifs
  · exact .refl s
  · rfl

section Build

variable [LinearOrder D] [Zero D] {b : EagerBuildParams D}

theorem relisted_linkBatch {x x' : EagerIndex V Tag × Finset ℕ} {nodes : List ℕ}
    {order : List (ℕ × ℕ) → List (ℕ × ℕ)} (h : linkBatch c p order x nodes = some x') :
    Relisted x.1 x'.1 := by
  obtain ⟨lists, -, hx⟩ := bind_eq_some_iff.1 h
  cases hx
  have hset := Relisted.foldl (fun s (l : ℕ × List ℕ) => relisted_setNbrs s l.1 l.2) lists x.1
  have hinter := foldlRecOn (motive := fun y : EagerIndex V Tag × Finset ℕ => Relisted x.1 y.1)
    (order (lists.flatMap fun l => l.2.map fun des => (l.1, des))) (batchInterInsertAt p)
    (b := (_, x.2)) hset fun y hy e _ => by
      refine hy.trans ?_
      rw [batchInterInsertAt]
      split_ifs
      all_goals rfl
  exact hinter.trans (Relisted.foldl (fun s node => relisted_setNbrs s node _) _ _)

theorem relisted_pass {rndNo : ℕ} (h : s.pass c p b rndNo = some s') : Relisted s s' := by
  obtain ⟨x, hx, rfl⟩ := map_eq_some_iff.1 h
  exact foldlM_keeps (P := fun x : EagerIndex V Tag × Finset ℕ => Relisted s x.1) (.refl s)
    (fun y hy _ _ y' hy' => hy.trans (relisted_linkBatch hy')) hx

theorem relisted_link (h : s.link c b = some s') :
    Relisted { s with
      saturateGraph := b.saturateGraph
      ep := if 0 < c.numFrozenPts then c.maxPoints else s.calculateEntryPoint c } s' := by
  obtain ⟨s₁, h₁, h⟩ := bind_eq_some_iff.1 h
  obtain ⟨s₂, h₂, h⟩ := bind_eq_some_iff.1 h
  cases h
  refine ((relisted_pass h₁).trans (relisted_pass h₂)).trans (Relisted.foldl (fun s node => ?_) _ _)
  rw [cleanup]
  split_ifs
  · rfl
  · exact .refl s

end Build

/-! ### The invariant -/

/-- The frozen location is the start, and all other locations in use are in front of it. -/
structure Framed (c : EagerConfig D V) (s : EagerIndex V Tag) : Prop where
  ep : s.ep = c.maxPoints
  nd : s.nd ≤ c.maxPoints
  nbrs : ∀ a < c.total, ∀ d ∈ s.finalGraph a, d < c.total
  tags : ∀ t l, s.tagToLocation t = some l → l < c.maxPoints
  locs : ∀ l, (s.locationToTag l).isSome = true → l < c.maxPoints
  deleted : ∀ l ∈ s.deleteSet, l < c.maxPoints
  slots : ∀ l ∈ s.emptySlots, l < c.maxPoints

variable {g g' : ℕ → List ℕ}

theorem nbrs_iff_avoids :
    (∀ a < c.total, ∀ d ∈ g a, d < c.total) ↔ ∀ n, Avoids c (Finset.Ico c.total n) g := by
  constructor
  · intro h n a ha d hd hmem
    exact absurd (h a ha d hd) (mem_Ico.1 hmem).1.not_gt
  · intro h a ha d hd
    by_contra hge
    exact h (d + 1) a ha d hd (mem_Ico.2 ⟨not_lt.1 hge, Nat.lt_succ_self d⟩)

theorem Framed.relisted (h : Framed c s) (hs : Relisted s s')
    (hn : ∀ a < c.total, ∀ d ∈ s'.finalGraph a, d < c.total) : Framed c s' := by
  rw [hs]
  exact ⟨h.ep, h.nd, hn, h.tags, h.locs, h.deleted, h.slots⟩

theorem Framed.updateInGraph (h : Framed c s) : Framed c (s.updateInGraph c) :=
  h.relisted rfl h.nbrs

theorem update_nbrs (h : ∀ a < c.total, ∀ d ∈ g a, d < c.total) {a : ℕ} {nbrs : List ℕ}
    (hn : ∀ d ∈ nbrs, d < c.total) :
    ∀ i < c.total, ∀ d ∈ Function.update g a nbrs i, d < c.total := by
  intro i hi
  by_cases hia : i = a
  · rw [hia, update_self]
    exact hn
  · rw [update_of_ne hia]
    exact h i hi

theorem Framed.interInsertAt (h : Framed c s) {n : ℕ} (hn : n < c.total) {des : ℕ}
    (hdes : des < c.total) : Framed c (interInsertAt c p n s des) := by
  refine h.relisted (relisted_interInsertAt n s des) ?_
  have happend : ∀ d ∈ s.finalGraph des ++ [n], d < c.total := by
    intro d hd
    obtain hd | hd := mem_append.1 hd
    · exact h.nbrs des hdes d hd
    · rwa [List.mem_singleton.1 hd]
  rw [EagerIndex.interInsertAt]
  split_ifs
  · exact h.nbrs
  · exact update_nbrs h.nbrs happend
  · exact update_nbrs h.nbrs fun d hd => happend d (mem_shortened hd)

theorem Framed.linkPoint [LinearOrder D] [Zero D] (h : Framed c s) {location : ℕ}
    (hl : location < c.total) (hs : s.linkPoint c p location = some s') : Framed c s' := by
  obtain ⟨pool, hpool, hs⟩ := bind_eq_some_iff.1 hs
  cases hs
  have hpruned : ∀ d ∈ s.pruneNeighbors c p location (pool.eraseP fun n => n.id = location),
      d < c.total := by
    intro d hd
    have hsub : pool.eraseP (fun n => n.id = location) ⊆ pool := eraseP_sublist.subset
    exact expanded_lt hpool d (map_subset _ hsub (mem_pruneNeighbors hd).1)
  have hset : Framed c (s.setEdges location
      (s.pruneNeighbors c p location (pool.eraseP fun n => n.id = location))) :=
    h.relisted rfl (update_nbrs h.nbrs hpruned)
  exact foldlRecOn (motive := Framed c) _ _ hset
    fun _ hs des hdes => hs.interInsertAt hl (hpruned des hdes)

variable [DecidableEq Tag]

variable {tag : Tag}

theorem Framed.insertPoint [LinearOrder D] [Zero D] (h : Framed c s) {point : V}
    (hs : s.insertPoint c p point tag = some s') : Framed c s' := by
  rw [EagerIndex.insertPoint] at hs
  split_ifs at hs with _ hroom hslots
  · exact Option.some.inj hs ▸ h
  · have hl : s.location c < c.maxPoints := by
      rw [location]
      split_ifs with hcomp
      · exact not_le.1 hroom
      · have hne : s.emptySlots.Nonempty := by
          rw [nonempty_iff_ne_empty]
          exact fun he => hslots ⟨by simpa using hcomp, he⟩
        exact h.slots _ (c.firstSlot_mem _ hne)
    have hlt : s.location c < c.total := hl.trans_le (Nat.le_add_right _ _)
    refine Framed.linkPoint ?_ hlt hs
    have htags : ∀ t l, Function.update s.tagToLocation tag (some (s.location c)) t = some l →
        l < c.maxPoints := by
      intro t l ht
      rw [update_apply] at ht
      split_ifs at ht
      · rwa [← Option.some.inj ht]
      · exact h.tags t l ht
    have hlocs : ∀ l, (Function.update s.locationToTag (s.location c) (some tag) l).isSome = true →
        l < c.maxPoints := by
      intro l hsome
      rw [update_apply] at hsome
      split_ifs at hsome with he
      · rwa [he]
      · exact h.locs l hsome
    have hnd : s.nd + 1 ≤ c.maxPoints := not_le.1 hroom
    rw [reserveLocation]
    split_ifs
    · exact ⟨h.ep, hnd, h.nbrs, htags, hlocs, h.deleted, h.slots⟩
    · exact ⟨h.ep, hnd, h.nbrs, htags, hlocs, fun l hl => h.deleted l (mem_of_mem_erase hl),
        fun l hl => h.slots l (mem_of_mem_erase hl)⟩

omit [DecidableEq Tag] in
theorem Framed.repair (h : Framed c s) {id ngh : ℕ} (hid : id < c.total) (hngh : ngh < c.total) :
    Framed c (repair c p id s ngh) := by
  refine h.relisted (relisted_repair id s ngh) ?_
  rw [EagerIndex.repair]
  split_ifs
  · exact h.nbrs
  · refine update_nbrs h.nbrs fun d hd => ?_
    have hperm := (p.pruning.sort_perm (s.expandedNghrs c id ngh)).map Neighbor.id
    obtain ⟨x, hx, rfl⟩ := mem_map.1 (mem_filter.1 hd).1
    have hmem := hperm.mem_iff.1 (mem_map_of_mem (Pruning.occludeList_subset hx))
    obtain hd | hd := (mem_expandedNghrs hmem).1
    · exact h.nbrs id hid _ hd
    · exact h.nbrs ngh hngh _ hd

omit [DecidableEq Tag] in
theorem insert_lt (slots : Finset ℕ) (hslots : ∀ l ∈ slots, l < c.maxPoints) {id : ℕ}
    (hid : id < c.maxPoints) : ∀ l ∈ insert id slots, l < c.maxPoints := by
  intro l hl
  obtain rfl | hl := mem_insert.1 hl
  · exact hid
  · exact hslots l hl

theorem Framed.untag (h : Framed c s) (tag : Tag) :
    ∀ t l, Function.update s.tagToLocation tag none t = some l → l < c.maxPoints := by
  intro t l ht
  rw [update_apply] at ht
  split_ifs at ht
  exact h.tags t l ht

omit [DecidableEq Tag] in
theorem Framed.unlocate (h : Framed c s) (id : ℕ) :
    ∀ l, (Function.update s.locationToTag id none l).isSome = true → l < c.maxPoints := by
  intro l hl
  rw [update_apply] at hl
  split_ifs at hl
  · cases hl
  · exact h.locs l hl

theorem Framed.eagerDelete [LinearOrder D] [Zero D] (h : Framed c s) (hnd : 0 < s.nd)
    {deleteMode : ℤ} (hs : s.eagerDelete c p tag deleteMode = some s') : Framed c s' := by
  rw [EagerIndex.eagerDelete] at hs
  cases hloc : s.deletedLocation tag with
  | none =>
    rw [hloc] at hs
    exact Option.some.inj hs ▸ h
  | some id =>
    rw [hloc] at hs
    dsimp only at hs
    split_ifs at hs with hid
    obtain ⟨nodes, hnodes, hs⟩ := bind_eq_some_iff.1 hs
    cases hs
    have hlt : id < c.maxPoints := by
      rw [deletedLocation] at hloc
      split_ifs at hloc
      exact h.tags tag id hloc
    have hremoved : Framed c ((s.dropTag tag id).removeFromInNbrs id) := by
      refine ⟨h.ep, h.nd, fun a ha d hd => ?_, h.untag tag, h.unlocate id,
        insert_lt _ h.deleted hlt, insert_lt _ h.slots hlt⟩
      have hd' : d ∈ if a ∈ (s.dropTag tag id).inGraph id then (s.finalGraph a).filter (· ≠ id)
          else s.finalGraph a := hd
      split_ifs at hd'
      · exact h.nbrs a ha d (mem_filter.1 hd').1
      · exact h.nbrs a ha d hd'
    have hnodes' : ∀ ngh ∈ nodes, ngh < c.total := by
      rw [intersection] at hnodes
      split_ifs at hnodes
      · obtain ⟨pool, hpool, rfl⟩ := map_eq_some_iff.1 hnodes
        exact fun ngh hngh =>
          expanded_lt hpool ngh ((c.setOrder_perm _).mem_iff.1 (mem_filter.1 hngh).1)
      · cases hnodes
        exact fun _ hngh => absurd hngh not_mem_nil
    have hrep := foldlRecOn (motive := fun r => Framed c r ∧ r.nd = s.nd) nodes
      (EagerIndex.repair c p id) ⟨hremoved, rfl⟩ fun r hr ngh hngh => by
        refine ⟨hr.1.repair hid (hnodes' ngh hngh), ?_⟩
        have hrel := relisted_repair (c := c) (p := p) id r ngh
        rw [hrel]
        exact hr.2
    refine ⟨hrep.1.ep, ?_, update_nbrs hrep.1.nbrs (forall_mem_nil _), hrep.1.tags,
      hrep.1.locs, hrep.1.deleted, hrep.1.slots⟩
    show (EagerIndex.nd _ + (2 ^ 64 - 1)) % 2 ^ 64 ≤ c.maxPoints
    have hle := h.nd
    omega

/-! ### Builds and lazy deletions -/

omit [DecidableEq Tag] in
theorem foldl_update_lt {α β : Type*} [DecidableEq α] {P : α → β → Prop} (l : List (α × β))
    {f : α → Option β} (h : ∀ a b, f a = some b → P a b) (hl : ∀ x ∈ l, P x.1 x.2) :
    ∀ a b, l.foldl (fun (f : α → Option β) x => Function.update f x.1 (some x.2)) f a = some b →
      P a b := by
  induction l generalizing f with
  | nil => exact h
  | cons x l ih =>
    refine ih (fun a b hab => ?_) fun y hy => hl y (mem_cons_of_mem x hy)
    dsimp only at hab
    rw [update_apply] at hab
    split_ifs at hab with ha
    · rw [ha, ← Option.some.inj hab]
      exact hl x mem_cons_self
    · exact h a b hab

theorem Framed.loaded (h : Framed c s) {source : List V} {tags : List Tag}
    (htags : tags.length ≤ source.length) (hlen : source.length ≤ c.maxPoints) :
    Framed c (s.loaded c source tags) := by
  have hlt : ∀ x ∈ tags.zipIdx, x.2 < c.maxPoints := by
    intro x hx
    have hx' := (List.getElem?_eq_some_iff.1 (mem_zipIdx_iff_getElem?.1 hx)).1
    omega
  rw [EagerIndex.loaded]
  split_ifs
  · refine ⟨h.ep, hlen, h.nbrs, foldl_update_lt tags.zipIdx h.tags hlt, fun l hl => ?_, h.deleted,
      h.slots⟩
    have hloc := foldl_update_lt
      (tags.zipIdx.map Prod.swap) (f := s.locationToTag) (fun l t ht => h.locs l (by rw [ht]; rfl))
      fun x hx => by
        obtain ⟨y, hy, rfl⟩ := mem_map.1 hx
        exact hlt y hy
    obtain ⟨t, ht⟩ := isSome_iff_exists.1 hl
    refine hloc l t ?_
    rw [foldl_map]
    exact ht
  · exact ⟨h.ep, hlen, h.nbrs, h.tags, h.locs, h.deleted, h.slots⟩

theorem Framed.build [LinearOrder D] [Zero D] (hf : c.numFrozenPts = 1) (h : Framed c s)
    {b : EagerBuildParams D} {source : List V} {tags : List Tag}
    (htags : tags.length ≤ source.length) (hs : s.build c b source tags = some s') :
    Framed c s' := by
  rw [EagerIndex.build] at hs
  split_ifs at hs with hlen
  obtain ⟨s₁, hlink, rfl⟩ := map_eq_some_iff.1 hs
  have hloaded := h.loaded htags (not_lt.1 hlen)
  have hgen : Framed c ((s.loaded c source tags).generateFrozenPoint c b.rand) := by
    rw [generateFrozenPoint, if_neg (by omega)]
    exact ⟨hloaded.ep, hloaded.nd, hloaded.nbrs, hloaded.tags, hloaded.locs, hloaded.deleted,
      hloaded.slots⟩
  have hstart : Framed c { (s.loaded c source tags).generateFrozenPoint c b.rand with
      saturateGraph := b.saturateGraph
      ep := if 0 < c.numFrozenPts then c.maxPoints
        else ((s.loaded c source tags).generateFrozenPoint c b.rand).calculateEntryPoint c } :=
    ⟨if_pos (by omega), hgen.nd, hgen.nbrs, hgen.tags, hgen.locs, hgen.deleted, hgen.slots⟩
  refine (hstart.relisted (relisted_link hlink) (nbrs_iff_avoids.2 fun n => ?_)).updateInGraph
  refine avoids_link (nbrs_iff_avoids.1 hgen.nbrs n) hgen.nd (fun node hnode _ hmem => ?_) hlink
  exact absurd hnode (mem_Ico.1 hmem).1.not_gt

theorem Framed.lazyDelete (h : Framed c s) (tag : Tag) : Framed c (s.lazyDelete tag) := by
  rw [EagerIndex.lazyDelete]
  split_ifs
  · exact h
  · split
    next => exact ⟨h.ep, h.nd, h.nbrs, h.tags, h.locs, h.deleted, h.slots⟩
    next l hl =>
      exact ⟨h.ep, h.nd, h.nbrs, h.untag tag, h.unlocate l, insert_lt _ h.deleted (h.tags tag l hl),
        h.slots⟩

section

omit [DecidableEq Tag]

theorem mem_consolidated {i d : ℕ} (h : ∀ a < c.total, ∀ d ∈ s.finalGraph a, d < c.total)
    (hi : i < c.total) (hd : d ∈ s.consolidated c p i) : d < c.total := by
  rw [consolidated] at hd
  split_ifs at hd
  · obtain ⟨x, hx, rfl⟩ := mem_map.1 (List.mem_filter.1 hd).1
    have hx' := (p.pruning.sort_perm _).mem_iff.1 (Pruning.occludeList_subset hx)
    obtain ⟨j, hj, rfl⟩ := mem_map.1 hx'
    obtain ⟨ngh, hngh, hj⟩ := mem_flatMap.1
      (mem_dedup.1 ((c.setOrder_perm _).mem_iff.1 hj))
    have hlt := h i hi ngh hngh
    split_ifs at hj
    · exact h ngh hlt j (List.mem_filter.1 hj).1
    · rwa [List.mem_singleton.1 hj]
  · exact h i hi d hd

theorem Framed.consolidateDeletes (h : Framed c s) (hc : s.Countable) (p : EagerParams D) :
    Framed c (s.consolidateDeletes c p) := by
  rw [EagerIndex.consolidateDeletes]
  split_ifs with heager
  · exact h
  · refine ⟨h.ep, ?_, fun a ha d hd => mem_consolidated h.nbrs ha hd, h.tags, h.locs, h.deleted,
      fun l hl => ?_⟩
    · have hle := h.nd
      have hcard := hc.resolve_left heager
      show (s.nd + (2 ^ 64 - s.deleteSet.card)) % 2 ^ 64 ≤ c.maxPoints
      omega
    · obtain hl | hl := mem_union.1 hl
      · exact h.slots l hl
      · exact h.deleted l hl

theorem Framed.disableDelete (h : Framed c s) {consolidate : Option (EagerParams D)}
    (hc : consolidate.isSome = true → s.Countable) : Framed c (s.disableDelete c consolidate) := by
  unfold EagerIndex.disableDelete
  split_ifs
  · cases consolidate with
    | none => exact ⟨h.ep, h.nd, h.nbrs, h.tags, h.locs, h.deleted, h.slots⟩
    | some p =>
      have h' := h.consolidateDeletes (hc rfl) p
      exact ⟨h'.ep, h'.nd, h'.nbrs, h'.tags, h'.locs, h'.deleted, h'.slots⟩
  · exact h

theorem Framed.enableDelete (h : Framed c s) : Framed c (s.enableDelete c) := by
  rw [EagerIndex.enableDelete]
  split_ifs
  · exact h
  · refine ⟨h.ep, h.nd, h.nbrs, h.tags, h.locs, h.deleted, fun l hl => ?_⟩
    obtain hl | hl := mem_union.1 hl
    · exact h.slots l hl
    · exact (mem_Ico.1 hl).2
  · exact ⟨h.ep, h.nd, h.nbrs, h.tags, h.locs, h.deleted, h.slots⟩

end

/-! ### Compaction and saving -/

section

omit [DecidableEq Tag]

theorem Framed.newLocation_lt (h : Framed c s) {l : ℕ} (hl : (s.locationToTag l).isSome = true) :
    s.newLocation c l < c.maxPoints := by
  have hle := length_filter_le (fun i => (s.locationToTag i).isSome) (List.range l)
  have hlt := h.locs l hl
  rw [length_range] at hle
  rw [newLocation, if_pos hl]
  omega

theorem Framed.newLocation_le (h : Framed c s) (l : ℕ) : s.newLocation c l ≤ c.maxPoints := by
  by_cases hl : (s.locationToTag l).isSome = true
  · exact (h.newLocation_lt hl).le
  · rw [newLocation, if_neg hl]

theorem Framed.newLocation_frozen (h : Framed c s) : s.newLocation c c.maxPoints = c.maxPoints := by
  rw [newLocation, if_neg]
  exact fun hl => lt_irrefl _ (h.locs _ hl)

theorem Framed.compactAt (h : Framed c s) (hf : c.numFrozenPts = 1)
    (hg : ∀ a < c.total, ∀ d ∈ g a, d < c.total) {old : ℕ} (hold : old ≤ c.maxPoints)
    (hs : s.compactAt c g old = some g') : ∀ a < c.total, ∀ d ∈ g' a, d < c.total := by
  have htotal : c.total = c.maxPoints + 1 := by rw [EagerConfig.total, hf]
  have hmap : ∀ a < c.total, ∀ d ∈ Function.update g old ((g old).map (s.newLocation c)) a,
      d < c.total := by
    refine update_nbrs hg fun d hd => ?_
    obtain ⟨x, -, rfl⟩ := mem_map.1 hd
    have := h.newLocation_le x
    omega
  rw [EagerIndex.compactAt] at hs
  split_ifs at hs
  · cases hs
    have hnew := h.newLocation_le old
    exact update_nbrs (update_nbrs hmap (hmap old (by omega))) (hmap _ (by omega))
  · cases hs
    exact hmap
  · cases hs
    exact update_nbrs hg (forall_mem_nil _)

theorem compactAt_of_lt {old : ℕ} (hold : old < c.maxPoints) (hs : s.compactAt c g old = some g') :
    g' c.maxPoints = g c.maxPoints := by
  rw [EagerIndex.compactAt] at hs
  split_ifs at hs with hin
  · cases hs
    have hlt := hin.resolve_right hold.ne
    rw [swapLists, update_of_ne hold.ne', update_of_ne hlt.ne',
      update_of_ne hold.ne']
  · cases hs
    exact update_of_ne hold.ne' _ _
  · cases hs
    exact update_of_ne hold.ne' _ _

theorem Framed.compactAt_frozen (h : Framed c s) (hs : s.compactAt c g c.maxPoints = some g') :
    g' c.maxPoints = (g c.maxPoints).map (s.newLocation c) := by
  rw [EagerIndex.compactAt, if_pos (.inr rfl), h.newLocation_frozen] at hs
  split_ifs at hs with _ hne
  · exact absurd rfl hne
  · cases hs
    exact update_self ..

theorem Framed.lists_compactData (h : Framed c s) (hf : c.numFrozenPts = 1)
    (hs : (List.range (c.maxPoints + 1)).foldlM (s.compactAt c) s.finalGraph = some g) :
    (∀ a < c.total, ∀ d ∈ g a, d < c.total) ∧
      g c.maxPoints = (s.finalGraph c.maxPoints).map (s.newLocation c) := by
  rw [range_succ, foldlM_append] at hs
  obtain ⟨g₁, h₁, hs⟩ := bind_eq_some_iff.1 hs
  have hlast : s.compactAt c g₁ c.maxPoints = some g := by
    obtain ⟨g₂, h₂, hs⟩ := bind_eq_some_iff.1 hs
    rwa [← Option.some.inj hs]
  have hkept := foldlM_keeps (P := fun g : ℕ → List ℕ =>
    (∀ a < c.total, ∀ d ∈ g a, d < c.total) ∧ g c.maxPoints = s.finalGraph c.maxPoints)
    ⟨h.nbrs, rfl⟩ (fun g hg old hold g' hg' => by
      have hlt := List.mem_range.1 hold
      exact ⟨h.compactAt hf hg.1 hlt.le hg', (compactAt_of_lt hlt hg').trans hg.2⟩) h₁
  exact ⟨h.compactAt hf hkept.1 le_rfl hlast, by rw [h.compactAt_frozen hlast, hkept.2]⟩

end

theorem Framed.compactedTag_lt (h : Framed c s) {n : ℕ} (ht : s.compactedTag c tag = some n) :
    n < c.maxPoints := by
  obtain ⟨l, hl, rfl⟩ := map_eq_some_iff.1 ht
  have htag := of_decide_eq_true (mem_filter.1 (mem_of_getLast? hl)).2
  exact h.newLocation_lt (by rw [htag]; rfl)

omit [DecidableEq Tag] in
theorem Framed.replacedStart_eq (h : Framed c s) : s.replacedStart = some c.maxPoints := by
  rw [replacedStart, if_neg, h.ep]
  rw [h.ep]
  exact fun hmem => lt_irrefl _ (h.deleted _ hmem)

/-- The compacted index: the list of the frozen point is renumbered, and no list is between the live
points and it. -/
structure Compacted (c : EagerConfig D V) (s s' : EagerIndex V Tag) : Prop where
  framed : Framed c s'
  list : s'.finalGraph c.maxPoints = (s.finalGraph c.maxPoints).map (s.newLocation c)
  cleared : ∀ l, s'.nd ≤ l → l < c.maxPoints → s'.finalGraph l = []
  dataCompacted : s'.dataCompacted = true

theorem Framed.compactData (h : Framed c s) (hf : c.numFrozenPts = 1)
    (hs : s.compactData c = some s') : Compacted c s s' := by
  obtain ⟨ep, hep, hs⟩ := bind_eq_some_iff.1 hs
  obtain ⟨g, hg, hs⟩ := bind_eq_some_iff.1 hs
  cases hs
  obtain ⟨hnbrs, hlist⟩ := h.lists_compactData hf hg
  rw [h.replacedStart_eq] at hep
  refine ⟨⟨(Option.some.inj hep).symm, h.nd, fun a ha d hd => ?_,
    fun t l ht => h.compactedTag_lt ht, fun n hn => ?_,
    fun l hl => absurd hl (notMem_empty l), fun l hl => absurd hl (notMem_empty l)⟩,
    ?_, fun l hl hlt => if_pos ⟨hl, hlt⟩, rfl⟩
  · dsimp only at hd
    split_ifs at hd
    · exact absurd hd not_mem_nil
    · exact hnbrs a ha d hd
  · obtain ⟨tag, htag⟩ := isSome_iff_exists.1 hn
    obtain ⟨l, -, hl⟩ := exists_of_findSome?_eq_some htag
    exact h.compactedTag_lt (of_decide_eq_true (filter_eq_some_iff.1 hl).2)
  · exact (if_neg fun hlt => lt_irrefl _ hlt.2).trans hlist

section

omit [DecidableEq Tag]

theorem relisted_updateIn (s : EagerIndex V Tag) (eager : Bool) :
    s.updateIn c eager = { s with inGraph := (s.updateIn c eager).inGraph } := by
  rw [updateIn]
  split_ifs
  · rfl
  · rfl

theorem Framed.updateIn (h : Framed c s) (eager : Bool) : Framed c (s.updateIn c eager) := by
  refine h.relisted ?_ ?_
  · rw [Relisted, relisted_updateIn]
  · rw [relisted_updateIn]
    exact h.nbrs

theorem Framed.moveList (h : Framed c s) {a b : ℕ} (ha : a < c.total) (hb : b < c.total) :
    Framed c (s.moveList c a b) := by
  refine ⟨h.ep, h.nd, fun l hl d hd => ?_, h.tags, h.locs, h.deleted, h.slots⟩
  rw [EagerIndex.moveList] at hd
  dsimp only at hd
  split_ifs at hd
  · obtain ⟨x, hx, rfl⟩ := mem_map.1 hd
    split_ifs
    · exact hb
    · exact h.nbrs l hl x hx
  · exact absurd hd not_mem_nil
  · exact h.nbrs a ha d hd
  · exact h.nbrs l hl d hd

theorem Framed.compactFrozenPoint (h : Framed c s) (hf : c.numFrozenPts = 1) (eager : Bool) :
    Framed c { s.compactFrozenPoint c eager with ep := c.maxPoints } := by
  have htotal : c.total = c.maxPoints + 1 := by rw [EagerConfig.total, hf]
  unfold EagerIndex.compactFrozenPoint
  split_ifs
  · have h' := (h.moveList (a := c.maxPoints) (b := s.nd) (by omega) (by omega)).updateIn eager
    exact ⟨rfl, h'.nd, h'.nbrs, h'.tags, h'.locs, h'.deleted, h'.slots⟩
  · exact ⟨rfl, h.nd, h.nbrs, h.tags, h.locs, h.deleted, h.slots⟩

theorem Framed.reposition (h : Framed c { s with ep := c.maxPoints }) (hf : c.numFrozenPts = 1)
    (eager : Bool) : Framed c (s.repositionFrozenPointToEnd c eager) := by
  have htotal : c.total = c.maxPoints + 1 := by rw [EagerConfig.total, hf]
  have hnd : s.nd ≤ c.maxPoints := h.nd
  unfold EagerIndex.repositionFrozenPointToEnd
  split_ifs
  · have h' := h.moveList (a := s.nd) (b := c.maxPoints) (by omega) (by omega)
    rw [EagerIndex.updateIn]
    split_ifs
    all_goals exact ⟨rfl, h'.nd, h'.nbrs, h'.tags, h'.locs, h'.deleted, h'.slots⟩
  · exact h

theorem Framed.list_reposition (h : Framed c s) (hf : c.numFrozenPts = 1)
    (hcleared : ∀ l, s.nd ≤ l → l < c.maxPoints → s.finalGraph l = []) (eager : Bool) :
    ((s.compactFrozenPoint c eager).repositionFrozenPointToEnd c eager).finalGraph c.maxPoints =
      s.finalGraph c.maxPoints := by
  have hpos : 0 < c.numFrozenPts := by omega
  have hnd := h.nd
  by_cases hmove : s.nd < c.maxPoints ∧ s.finalGraph c.maxPoints ≠ []
  · obtain ⟨hlt, hne⟩ := hmove
    have hmid : (s.compactFrozenPoint c eager).finalGraph =
        (s.moveList c c.maxPoints s.nd).finalGraph ∧ (s.compactFrozenPoint c eager).nd = s.nd := by
      unfold EagerIndex.compactFrozenPoint
      rw [if_pos ⟨hlt, hpos, hne⟩, relisted_updateIn]
      exact ⟨rfl, rfl⟩
    have hnil : (s.compactFrozenPoint c eager).finalGraph c.maxPoints = [] := by
      rw [hmid.1, EagerIndex.moveList]
      dsimp only
      rw [if_neg (by omega), if_pos rfl]
    have hat : (s.compactFrozenPoint c eager).finalGraph s.nd = s.finalGraph c.maxPoints := by
      rw [hmid.1, EagerIndex.moveList]
      dsimp only
      rw [if_neg (lt_irrefl _), if_neg hlt.ne, if_pos rfl]
    unfold EagerIndex.repositionFrozenPointToEnd
    rw [if_pos ⟨hpos, hnil⟩, relisted_updateIn, EagerIndex.moveList, hmid.2]
    dsimp only
    rw [if_neg (by omega), if_neg hlt.ne', if_pos rfl, hat]
  · have hmid : (s.compactFrozenPoint c eager).finalGraph = s.finalGraph ∧
        (s.compactFrozenPoint c eager).nd = s.nd := by
      unfold EagerIndex.compactFrozenPoint
      rw [if_neg fun hc => hmove ⟨hc.1, hc.2.2⟩]
      exact ⟨rfl, rfl⟩
    unfold EagerIndex.repositionFrozenPointToEnd
    by_cases hnil : s.finalGraph c.maxPoints = []
    · rw [if_pos ⟨hpos, by rw [hmid.1, hnil]⟩, relisted_updateIn, EagerIndex.moveList, hmid.1,
        hmid.2, hnil]
      dsimp only
      rw [if_neg (by omega)]
      split_ifs with he
      · rfl
      · exact hcleared _ le_rfl (by omega)
      · exact hnil
    · rw [if_neg fun hc => hnil (hmid.1 ▸ hc.2), hmid.1]

end

variable {eager : Bool}

theorem Framed.saveEager (h : Framed c s) (hf : c.numFrozenPts = 1)
    (hs : s.saveEager c eager = some s') : Framed c s' := by
  rw [EagerIndex.saveEager] at hs
  split_ifs at hs
  · obtain ⟨s₁, h₁, rfl⟩ := map_eq_some_iff.1 hs
    obtain ⟨s₂, h₂, rfl⟩ := map_eq_some_iff.1 h₁
    have h' := (h.compactData hf h₂).framed
    exact ⟨h'.ep, h'.nd, h'.nbrs, h'.tags, h'.locs, h'.deleted, h'.slots⟩
  · cases hs
  · obtain ⟨s₁, h₁, rfl⟩ := map_eq_some_iff.1 hs
    cases h₁
    exact ⟨h.ep, h.nd, h.nbrs, h.tags, h.locs, h.deleted, h.slots⟩
  · exact Option.some.inj hs ▸ h

theorem Framed.saveLazy (h : Framed c s) (hf : c.numFrozenPts = 1)
    (hs : s.saveLazy c = some s') : Framed c s' := by
  rw [EagerIndex.saveLazy] at hs
  split_ifs at hs
  · obtain ⟨s₁, h₁, hs⟩ := bind_eq_some_iff.1 hs
    split_ifs at hs
    cases hs
    have h' := (h.compactData hf h₁).framed
    exact ⟨h'.ep, h'.nd, h'.nbrs, h'.tags, h'.locs, h'.deleted, h'.slots⟩
  · exact Option.some.inj hs ▸ h

theorem Framed.save (h : Framed c s) (hf : c.numFrozenPts = 1) (hs : s.save c eager = some s') :
    Framed c s' := by
  obtain ⟨s₁, h₁, hs⟩ := bind_eq_some_iff.1 hs
  obtain ⟨s₂, h₂, hs⟩ := bind_eq_some_iff.1 hs
  cases hs
  have h' := (((h.saveEager hf h₁).saveLazy hf h₂).compactFrozenPoint hf eager).reposition hf eager
  split_ifs
  · exact ⟨h'.ep, h'.nd, h'.nbrs, h'.tags, h'.locs, h'.deleted, h'.slots⟩
  · exact h'

theorem Compacted.save {s₁ : EagerIndex V Tag} (h : Compacted c s s₁)
    (hs : s₁.save c eager = some s') : s'.finalGraph =
      ((s₁.compactFrozenPoint c eager).repositionFrozenPointToEnd c eager).finalGraph := by
  obtain ⟨s₂, h₂, hs⟩ := bind_eq_some_iff.1 hs
  obtain ⟨s₃, h₃, hs⟩ := bind_eq_some_iff.1 hs
  cases hs
  rw [EagerIndex.saveEager, h.dataCompacted, if_neg (by simp)] at h₂
  cases h₂
  rw [EagerIndex.saveLazy, h.dataCompacted, if_neg (by simp)] at h₃
  cases h₃
  split_ifs
  · rfl
  · rfl

/-! ### Runs -/

/-- A new index. -/
def StartInit (c : EagerConfig D V) (s : EagerIndex V Tag) : Prop := s = EagerIndex.new c

variable [LinearOrder D] [Zero D]

theorem framed_step (hf : c.numFrozenPts = 1) {a : StartCall D V Tag} (h : Framed c s)
    (ha : s.Counted a) (hs : startStep c eager s a = some s') : Framed c s' := by
  cases a with
  | build source tags b => exact h.build hf ha hs
  | enableDelete =>
    cases hs
    exact h.enableDelete
  | insertPoint point tag p => exact h.insertPoint hs
  | eagerDelete tag deleteMode p => exact h.eagerDelete ha hs
  | lazyDelete tag =>
    cases hs
    exact h.lazyDelete tag
  | consolidateDeletes p =>
    cases hs
    exact h.consolidateDeletes ha p
  | disableDelete consolidate =>
    cases hs
    refine h.disableDelete fun hsome => ?_
    obtain ⟨p, rfl⟩ := isSome_iff_exists.1 hsome
    exact ha
  | compactData => exact (h.compactData hf hs).framed
  | save => exact h.save hf hs

theorem framed_of_reach (hf : c.numFrozenPts = 1)
    (h : Reach (StartInit c) (guarded Counted (ofFn (startStep c eager))) s) : Framed c s := by
  refine h.invariant (P := Framed c) ?_ fun s a s' hs hstep => framed_step hf hs hstep.1 hstep.2
  rintro s rfl
  exact ⟨rfl, Nat.zero_le _, fun _ _ d hd => absurd hd not_mem_nil, fun _ _ h => (by cases h),
    fun _ h => (by cases h), fun l hl => absurd hl (notMem_empty l),
    fun l hl => absurd hl (notMem_empty l)⟩

/-- In every run of an index with a frozen point. -/
theorem startKept_of_reach (hf : c.numFrozenPts = 1) {eager : Bool}
    (h : Reach (StartInit c) (guarded Counted (ofFn (startStep c eager))) s)
    (hc : s.Countable) (p : EagerParams D) : s.StartKept c eager p := by
  have hframed := (framed_of_reach hf h).consolidateDeletes (c := c) hc p
  have htotal : c.total = c.maxPoints + 1 := by rw [EagerConfig.total, hf]
  refine ⟨⟨by omega, hframed.nd, hframed.nbrs⟩, fun start s₁ s₂ hstart h₁ h₂ => ?_⟩
  have hcomp := hframed.compactData hf h₁
  have hep := (hcomp.framed.save hf h₂).ep
  rw [hframed.replacedStart_eq] at hstart
  obtain rfl := Option.some.inj hstart
  refine ⟨.inr ⟨hep.ge, by omega⟩, ?_⟩
  rw [hep, hcomp.save h₂, hcomp.framed.list_reposition hf hcomp.cleared, hcomp.list]

/-! ### Small indices -/

instance (s : EagerIndex ℕ ℕ) : Decidable s.Countable := inferInstanceAs (Decidable (_ ∨ _))

instance (s : EagerIndex ℕ ℕ) : (a : StartCall ℕ ℕ ℕ) → Decidable (s.Counted a)
  | .build _ _ _ => inferInstanceAs (Decidable (_ ≤ _))
  | .enableDelete => inferInstanceAs (Decidable True)
  | .insertPoint _ _ _ => inferInstanceAs (Decidable True)
  | .eagerDelete _ _ _ => inferInstanceAs (Decidable (_ < _))
  | .lazyDelete _ => inferInstanceAs (Decidable True)
  | .consolidateDeletes _ => inferInstanceAs (Decidable (Countable _))
  | .disableDelete none => inferInstanceAs (Decidable True)
  | .disableDelete (some _) => inferInstanceAs (Decidable (Countable _))
  | .compactData => inferInstanceAs (Decidable True)
  | .save => inferInstanceAs (Decidable True)

/-- Four locations and a frozen point. -/
def fourAndFrozen : EagerConfig ℕ ℕ := { EagerState.fourPoints with numFrozenPts := 1 }

/-- A point is lazily deleted, and another one comes. -/
def lazyCalls : List (StartCall ℕ ℕ ℕ) :=
  [.build [0, 1, 2] [1, 2, 3] EagerState.smallBuild, .enableDelete, .lazyDelete 2,
    .insertPoint 5 4 EagerState.smallParams]

theorem startKept_lazyCalls : ∃ s : EagerIndex ℕ ℕ,
    s.deleteSet = {1} ∧ s.StartKept fourAndFrozen false EagerState.smallParams := by
  have hrun : (runsGuarded Counted (startStep fourAndFrozen false) (EagerIndex.new fourAndFrozen)
      lazyCalls).map (fun s => (s.deleteSet, s.nd)) = some ({1}, 4) := by
    decide +kernel
  obtain ⟨s, hs, hview⟩ := map_eq_some_iff.1 hrun
  injection hview with hdel hnd
  refine ⟨s, hdel, startKept_of_reach rfl (reach_of_runsGuarded rfl hs) (.inr ?_) _⟩
  rw [hdel, hnd]
  decide

/-- A point is lazily deleted that is not the start. -/
def plainCalls : List (StartCall ℕ ℕ ℕ) :=
  [.build [0, 1, 2] [1, 2, 3] EagerState.smallBuild, .enableDelete, .lazyDelete 3]

/-- Without a frozen point the start is behind all locations after `save`. -/
theorem not_startKept_noFrozen : ∃ s : EagerIndex ℕ ℕ,
    Reach (StartInit EagerState.fourPoints)
      (guarded Counted (ofFn (startStep EagerState.fourPoints false))) s ∧
    s.locationToTag 0 = some 1 ∧
    ¬ s.StartKept EagerState.fourPoints false EagerState.smallParams := by
  have hrun : (runsGuarded Counted (startStep EagerState.fourPoints false)
      (EagerIndex.new EagerState.fourPoints) plainCalls).map (fun s => (s.locationToTag 0,
        (s.consolidateDeletes EagerState.fourPoints EagerState.smallParams).replacedStart,
        (((s.consolidateDeletes EagerState.fourPoints EagerState.smallParams).compactData
          EagerState.fourPoints).bind fun s => s.save EagerState.fourPoints false).map
            fun s => (s.ep, (s.locationToTag s.ep).isSome))) =
      some (some 1, some 1, some (4, false)) := by
    decide +kernel
  obtain ⟨s, hs, hview⟩ := map_eq_some_iff.1 hrun
  injection hview with hlive hview
  injection hview with hstart hview
  obtain ⟨s₂, h₂, hend⟩ := map_eq_some_iff.1 hview
  injection hend with hep hplace
  obtain ⟨s₁, h₁, h₂⟩ := bind_eq_some_iff.1 h₂
  refine ⟨s, reach_of_runsGuarded rfl hs, hlive, fun h => ?_⟩
  obtain hlive | ⟨-, hlt⟩ := (h.2 _ _ _ hstart h₁ h₂).place
  · rw [hplace] at hlive
    cases hlive
  · rw [hep] at hlt
    exact absurd hlt (by decide)

end EagerIndex

end DiskANNEval.FreshDiskANN
