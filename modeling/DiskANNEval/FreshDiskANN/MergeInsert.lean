import DiskANNEval.Lib.Run
import Mathlib

/-!
# MergeInsert — a disk index, two memory indices and two deletion sets

Inserts go into the active memory index and deletes, as tags, into the active deletion set.  A merge
makes the other set active, cleared, then the other memory index; it writes a new disk index from the
old one and the memory index that was active, without the tags of the set that was active; it
publishes the new disk index, and clears the memory index behind the flag `_clearing_index`.  Merges
are triggered by one thread.  A search reads the disk index, then each memory index whose flag is not
set, and drops the tags of both sets at the end.

A tag stays in its set until the next merge but one starts, and no insert takes it out: so the points
that have not been deleted are kept when no insert uses a tag of a set (`Inv`).

The flags `_active_0` and `_active_1` are set for the active index in every state, `_active_del_0`
and `_active_del_1` only decide what is logged; they are left out.
-/

namespace DiskANNEval.FreshDiskANN.MergeInsert

open Lib Function List

/-- A point; `uid` tells points with one tag apart. -/
structure Point (Tag : Type) where
  uid : ℕ
  tag : Tag
  deriving DecidableEq

/-- `_disk_index`, `_mem_index_0` and `_mem_index_1` -/
inductive Comp
  | disk
  | mem (b : Bool)
  deriving DecidableEq

/-- What `search_sync` does next; at the end, what it has returned and the tags that were deleted
then. -/
inductive SearchPc (Tag : Type)
  | disk
  | flag (b : Bool)
  | mem (b : Bool)
  | filter
  | done (results : List Tag) (gone : Finset Tag)
  deriving DecidableEq

/-- A search for `k` tags.  `found` is what the components have returned, with the distances, and
`read` what was in them; `due` are the points that were there when it started.  `oldDisk`: it has
read the disk index that a merge has replaced since. -/
structure Search (Tag D : Type) where
  k : ℕ
  pc : SearchPc Tag
  found : List (Point Tag × D)
  read : List (Point Tag)
  due : List (Point Tag)
  oldDisk : Bool
  deriving DecidableEq

/-- Where `trigger_merge` is: `saved` is after `save_del_set`, `merging` after the switch of the
memory indices, `swapped` after the switch of the disk indices, `flagged` behind `_clearing_index`,
and `cleared` before the flag is taken back. -/
inductive Phase
  | idle
  | saved
  | merging
  | swapped
  | flagged
  | cleared
  deriving DecidableEq

/-- `live` are the points that no delete has come after, and `deleted` the tags that no insert has
come after. -/
structure State (ι Tag D : Type) where
  comp : Comp → List (Point Tag)
  nextUid : ℕ
  activeIndex : Bool
  memPoints : ℕ
  deletionSets : Bool → Finset Tag
  activeDeleteSet : Bool
  clearingIndex : Bool → Bool
  phase : Phase
  searching : ι → Option (Search Tag D)
  live : List (Point Tag)
  deleted : Finset Tag

inductive Act (ι Tag D : Type)
  | insert (tag : Tag)
  | lazyDelete (tag : Tag)
  | searchStart (i : ι) (k : ℕ)
  | searchDisk (i : ι) (found : List (Point Tag × D))
  | loadFlag (i : ι) (b : Bool)
  | searchMem (i : ι) (b : Bool) (found : List (Point Tag × D))
  | searchEnd (i : ι)
  | saveDelSet (final : Bool)
  | switchIndex
  | switchDisk
  | setClearing
  | clearIndex
  | unsetClearing

variable {ι Tag D : Type} [DecidableEq ι] [DecidableEq Tag] [LinearOrder D]

/-- `std::set<Neighbor_Tag>::insert`: the elements are told apart by their distances. -/
def insertBest (best : List (Point Tag × D)) (n : Point Tag × D) : List (Point Tag × D) :=
  if n.2 ∈ best.map Prod.snd then best else best.orderedInsert (fun a b => a.2 ≤ b.2) n

def Search.best (q : Search Tag D) : List (Point Tag × D) := q.found.foldl insertBest []

/-- The loop over `best_vec`. -/
def filterTags (deleted : Finset Tag) (k : ℕ) : List Tag → List Tag → List Tag
  | [], tags => tags
  | t :: best, tags =>
    let tags := if t ∉ deleted then tags ++ [t] else tags
    if tags.length = k then tags else filterTags deleted k best tags

namespace State

variable (s : State ι Tag D)

/-- The memory index that a merge takes. -/
def merged : Comp := .mem (!s.activeIndex)

/-- The loop is the body of `if (best_vec.size() > K)`, since the `erase` before it is commented
out. -/
def results (q : Search Tag D) : List Tag :=
  if q.k < q.best.length then
    filterTags (s.deletionSets false ∪ s.deletionSets true) q.k (q.best.map fun n => n.1.tag) []
  else []

def setSearch (i : ι) (q : Search Tag D) : State ι Tag D :=
  { s with searching := Function.update s.searching i (some q) }

def setComp (c : Comp) (ps : List (Point Tag)) : State ι Tag D :=
  { s with comp := Function.update s.comp c ps }

/-- `Index::insert_point` and `_mem_points++` -/
def insertPoint (tag : Tag) : State ι Tag D :=
  { s.setComp (.mem s.activeIndex) (s.comp (.mem s.activeIndex) ++ [⟨s.nextUid, tag⟩]) with
    nextUid := s.nextUid + 1
    memPoints := s.memPoints + 1
    live := s.live ++ [⟨s.nextUid, tag⟩]
    deleted := s.deleted.erase tag }

def lazyDelete (tag : Tag) : State ι Tag D :=
  { s with
    deletionSets := Function.update s.deletionSets s.activeDeleteSet
      (insert tag (s.deletionSets s.activeDeleteSet))
    live := s.live.filter fun p => p.tag ≠ tag
    deleted := insert tag s.deleted }

/-- The set that is written to `_deleted_tags_file` is not active from then on. -/
def saveDelSet : State ι Tag D :=
  { s with
    deletionSets := Function.update s.deletionSets (!s.activeDeleteSet) ∅
    activeDeleteSet := !s.activeDeleteSet
    phase := .saved }

def switchIndex : State ι Tag D :=
  { s.setComp s.merged [] with activeIndex := !s.activeIndex, memPoints := 0, phase := .merging }

/-- What `IndexMerger` writes: the points of the old disk index and of the saved memory index, less
the deleted ones. -/
def mergedPoints : List (Point Tag) :=
  (s.comp .disk ++ s.comp s.merged).filter fun p => p.tag ∉ s.deletionSets (!s.activeDeleteSet)

/-- A search that has read the disk index has read the old one. -/
def switchDisk : State ι Tag D :=
  { s.setComp .disk s.mergedPoints with
    phase := .swapped
    searching := fun i => (s.searching i).map fun q =>
      { q with oldDisk := q.oldDisk || !(q.pc matches .disk) } }

def setClearing (flag : Bool) (phase : Phase) : State ι Tag D :=
  { s with clearingIndex := Function.update s.clearingIndex (!s.activeIndex) flag, phase }

def clearIndex : State ι Tag D := { s.setComp s.merged [] with phase := .cleared }

end State

/-- After the memory index `b`. -/
def SearchPc.next : Bool → SearchPc Tag
  | false => .flag true
  | true => .filter

/-- What a search has after it has read the points `ps` and found some of them. -/
def Search.reads (q : Search Tag D) (ps : List (Point Tag)) (found : List (Point Tag × D))
    (pc : SearchPc Tag) : Search Tag D :=
  { q with pc, found := q.found ++ found, read := q.read ++ ps }

/-- One step, with the threshold `_merge_th`; `none`: it is not possible here, or the program
exits. -/
def step (mergeTh : ℕ) (s : State ι Tag D) : Act ι Tag D → Option (State ι Tag D)
  | .insert tag =>
    if (s.comp (.mem s.activeIndex)).length < mergeTh * 2 then
      if tag ∈ (s.comp (.mem s.activeIndex)).map Point.tag then none else some (s.insertPoint tag)
    else some s
  | .lazyDelete tag => some (s.lazyDelete tag)
  | .searchStart i k =>
    match s.searching i with
    | none | some ⟨_, .done .., _, _, _, _⟩ =>
      some (s.setSearch i ⟨k, .disk, [], [], s.live, false⟩)
    | _ => none
  | .searchDisk i found =>
    match s.searching i with
    | some q =>
      match q.pc with
      | .disk =>
        if ∀ n ∈ found, n.1 ∈ s.comp .disk then
          some (s.setSearch i (q.reads (s.comp .disk) found (.flag false)))
        else none
      | _ => none
    | none => none
  | .loadFlag i b =>
    match s.searching i with
    | some q =>
      match q.pc with
      | .flag b' =>
        if b' = b then
          some (s.setSearch i { q with pc := if s.clearingIndex b then .next b else .mem b })
        else none
      | _ => none
    | none => none
  | .searchMem i b found =>
    match s.searching i with
    | some q =>
      match q.pc with
      | .mem b' =>
        if b' = b ∧ ∀ n ∈ found, n.1 ∈ s.comp (.mem b) then
          some (s.setSearch i (q.reads (s.comp (.mem b)) found (.next b)))
        else none
      | _ => none
    | none => none
  | .searchEnd i =>
    match s.searching i with
    | some q =>
      match q.pc with
      | .filter => some (s.setSearch i { q with pc := .done (s.results q) s.deleted })
      | _ => none
    | none => none
  | .saveDelSet final =>
    if s.phase = .idle ∧ (if final then 0 < s.memPoints else mergeTh ≤ s.memPoints) then
      some s.saveDelSet
    else none
  | .switchIndex => if s.phase = .saved then some s.switchIndex else none
  | .switchDisk => if s.phase = .merging then some s.switchDisk else none
  | .setClearing => if s.phase = .swapped then some (s.setClearing true .flagged) else none
  | .clearIndex => if s.phase = .flagged then some s.clearIndex else none
  | .unsetClearing => if s.phase = .cleared then some (s.setClearing false .idle) else none

/-- A loaded disk index, and two new memory indices. -/
def Init (s : State ι Tag D) : Prop :=
  (∀ b, s.comp (.mem b) = []) ∧ (∀ b, s.deletionSets b = ∅) ∧ (∀ b, s.clearingIndex b = false) ∧
    s.phase = .idle ∧ (∀ i, s.searching i = none) ∧ s.live = s.comp .disk ∧ s.deleted = ∅ ∧
    ∀ p ∈ s.comp .disk, p.uid < s.nextUid

/-! ### What a step does -/

/-- The steps, each with what it asks for. -/
inductive Stepped (mergeTh : ℕ) (s : State ι Tag D) : Act ι Tag D → State ι Tag D → Prop
  | full (tag : Tag) : Stepped mergeTh s (.insert tag) s
  | insert (tag : Tag) : Stepped mergeTh s (.insert tag) (s.insertPoint tag)
  | lazyDelete (tag : Tag) : Stepped mergeTh s (.lazyDelete tag) (s.lazyDelete tag)
  | searchStart (i : ι) (k : ℕ) :
    Stepped mergeTh s (.searchStart i k) (s.setSearch i ⟨k, .disk, [], [], s.live, false⟩)
  | searchDisk (i : ι) (found : List (Point Tag × D)) (q : Search Tag D)
    (hq : s.searching i = some q) (hpc : q.pc = .disk) (hfound : ∀ n ∈ found, n.1 ∈ s.comp .disk) :
    Stepped mergeTh s (.searchDisk i found)
      (s.setSearch i (q.reads (s.comp .disk) found (.flag false)))
  | skip (i : ι) (b : Bool) (q : Search Tag D) (hq : s.searching i = some q) (hpc : q.pc = .flag b)
    (hflag : s.clearingIndex b = true) :
    Stepped mergeTh s (.loadFlag i b) (s.setSearch i { q with pc := .next b })
  | loadFlag (i : ι) (b : Bool) (q : Search Tag D) (hq : s.searching i = some q)
    (hpc : q.pc = .flag b) (hflag : s.clearingIndex b = false) :
    Stepped mergeTh s (.loadFlag i b) (s.setSearch i { q with pc := .mem b })
  | searchMem (i : ι) (b : Bool) (found : List (Point Tag × D)) (q : Search Tag D)
    (hq : s.searching i = some q) (hpc : q.pc = .mem b)
    (hfound : ∀ n ∈ found, n.1 ∈ s.comp (.mem b)) :
    Stepped mergeTh s (.searchMem i b found)
      (s.setSearch i (q.reads (s.comp (.mem b)) found (.next b)))
  | searchEnd (i : ι) (q : Search Tag D) (hq : s.searching i = some q) (hpc : q.pc = .filter) :
    Stepped mergeTh s (.searchEnd i)
      (s.setSearch i { q with pc := .done (s.results q) s.deleted })
  | saveDelSet (final : Bool) (h : s.phase = .idle) :
    Stepped mergeTh s (.saveDelSet final) s.saveDelSet
  | switchIndex (h : s.phase = .saved) : Stepped mergeTh s .switchIndex s.switchIndex
  | switchDisk (h : s.phase = .merging) : Stepped mergeTh s .switchDisk s.switchDisk
  | setClearing (h : s.phase = .swapped) : Stepped mergeTh s .setClearing (s.setClearing true .flagged)
  | clearIndex (h : s.phase = .flagged) : Stepped mergeTh s .clearIndex s.clearIndex
  | unsetClearing (h : s.phase = .cleared) :
    Stepped mergeTh s .unsetClearing (s.setClearing false .idle)

variable {mergeTh : ℕ} {s s' : State ι Tag D}

theorem stepped_of_step {a : Act ι Tag D} (h : step mergeTh s a = some s') :
    Stepped mergeTh s a s' := by
  cases a with
  | insert tag =>
    rw [step] at h
    split_ifs at h
    · cases h
      exact .insert tag
    · cases h
      exact .full tag
  | lazyDelete tag =>
    cases h
    exact .lazyDelete tag
  | searchStart i k =>
    rw [step] at h
    split at h
    · cases h
      exact .searchStart i k
    · cases h
      exact .searchStart i k
    · cases h
  | searchDisk i found =>
    simp only [step] at h
    split at h
    · rename_i q hq
      split at h
      · rename_i hpc
        split_ifs at h with hfound
        cases h
        exact .searchDisk i found q hq hpc hfound
      · cases h
    · cases h
  | loadFlag i b =>
    simp only [step] at h
    split at h
    · rename_i q hq
      split at h
      · rename_i b' hpc
        split_ifs at h with hb hflag
        · cases h
          exact .skip i b q hq (hb ▸ hpc) hflag
        · cases h
          exact .loadFlag i b q hq (hb ▸ hpc) (by simpa using hflag)
      · cases h
    · cases h
  | searchMem i b found =>
    simp only [step] at h
    split at h
    · rename_i q hq
      split at h
      · rename_i b' hpc
        split_ifs at h with hb
        cases h
        exact .searchMem i b found q hq (hb.1 ▸ hpc) hb.2
      · cases h
    · cases h
  | searchEnd i =>
    simp only [step] at h
    split at h
    · rename_i q hq
      split at h
      · rename_i hpc
        cases h
        exact .searchEnd i q hq hpc
      · cases h
    · cases h
  | saveDelSet final =>
    rw [step] at h
    by_cases hc : s.phase = .idle ∧ (if final then 0 < s.memPoints else mergeTh ≤ s.memPoints)
    · rw [if_pos hc] at h
      cases h
      exact .saveDelSet final hc.1
    · rw [if_neg hc] at h
      cases h
  | switchIndex | switchDisk | setClearing | clearIndex | unsetClearing =>
    rw [step] at h
    split_ifs at h with hc
    cases h
    constructor
    exact hc

/-! ### What is kept -/

/-- The memory index that is not active is empty. -/
def Phase.spare : Phase → Prop
  | .idle | .saved | .cleared => True
  | .merging | .swapped | .flagged => False

/-- The new disk index is published, and the memory index is not cleared yet. -/
def Phase.moved : Phase → Prop
  | .swapped | .flagged => True
  | .idle | .saved | .merging | .cleared => False

/-- The points that have not been deleted are in a component, those of the memory index that a merge
takes also in the new disk index, and their tags are in no deletion set. -/
structure Inv (s : State ι Tag D) : Prop where
  uid_lt : ∀ c, ∀ p ∈ s.comp c, p.uid < s.nextUid
  live_tags : ∀ p ∈ s.live, ∀ b, p.tag ∉ s.deletionSets b
  spare : s.phase.spare → s.comp s.merged = []
  kept : ∀ p ∈ s.live, ∃ c, p ∈ s.comp c
  moved : s.phase.moved → ∀ p ∈ s.live, p ∈ s.comp s.merged → p ∈ s.comp .disk

/-- No insert uses a tag that is in a deletion set. -/
def Fresh (s : State ι Tag D) : Act ι Tag D → Prop
  | .insert tag => ∀ b, tag ∉ s.deletionSets b
  | _ => True

omit [DecidableEq ι] [DecidableEq Tag] [LinearOrder D] in
theorem Init.inv (h : Init s) : Inv s := by
  obtain ⟨hmem, hdel, -, hphase, -, hlive, -, huid⟩ := h
  refine ⟨?_, fun p _ b => ?_, fun _ => hmem _, fun p hp => ⟨.disk, hlive ▸ hp⟩, fun hm => ?_⟩
  · rintro (_ | b) p hp
    · exact huid p hp
    · rw [hmem] at hp
      exact absurd hp not_mem_nil
  · rw [hdel]
    exact Finset.notMem_empty _
  · rw [hphase] at hm
    exact hm.elim

section

omit [DecidableEq Tag] [LinearOrder D]

theorem mem_searching_setSearch {i j : ι} {q q' : Search Tag D}
    (h : q' ∈ (s.setSearch i q).searching j) : q' = q ∨ q' ∈ s.searching j := by
  simp only [State.setSearch] at h
  by_cases hj : j = i
  · rw [hj, update_self] at h
    exact .inl (Option.some.inj h).symm
  · rw [update_of_ne hj] at h
    exact .inr h

theorem Inv.setSearch (h : Inv s) (i : ι) (q : Search Tag D) : Inv (s.setSearch i q) :=
  ⟨h.uid_lt, h.live_tags, h.spare, h.kept, h.moved⟩

end

variable {c : Comp}

section

omit [DecidableEq ι] [DecidableEq Tag] [LinearOrder D]

theorem comp_setComp_self {ps : List (Point Tag)} : (s.setComp c ps).comp c = ps :=
  update_self ..

theorem comp_setComp_of_ne {c' : Comp} {ps : List (Point Tag)} (hc : c' ≠ c) :
    (s.setComp c ps).comp c' = s.comp c' := update_of_ne hc ..

end

variable {tag : Tag}

section

omit [DecidableEq ι] [LinearOrder D]

theorem mem_comp_insertPoint {p : Point Tag} : p ∈ (s.insertPoint tag).comp c ↔
      p ∈ s.comp c ∨ c = .mem s.activeIndex ∧ p = ⟨s.nextUid, tag⟩ := by
  show p ∈ (s.setComp _ _).comp c ↔ _
  by_cases hc : c = .mem s.activeIndex
  · rw [hc, comp_setComp_self]
    simp
  · rw [comp_setComp_of_ne hc]
    simp [hc]

theorem comp_insertPoint_of_ne (hc : c ≠ .mem s.activeIndex) :
    (s.insertPoint tag).comp c = s.comp c := comp_setComp_of_ne hc

end

section

omit [DecidableEq ι] [DecidableEq Tag] [LinearOrder D]

theorem merged_ne_active : s.merged ≠ .mem s.activeIndex := by
  rw [State.merged]
  simp

theorem disk_ne_merged : Comp.disk ≠ s.merged := Comp.noConfusion

end

section

omit [DecidableEq ι] [LinearOrder D]

theorem Inv.insertPoint (h : Inv s) (hfresh : ∀ b, tag ∉ s.deletionSets b) :
    Inv (s.insertPoint tag) := by
  have hmerged : (s.insertPoint tag).comp s.merged = s.comp s.merged :=
    comp_insertPoint_of_ne merged_ne_active
  refine ⟨fun c p hp => ?_, fun p hp b => ?_, fun hs => hmerged.trans (h.spare hs), fun p hp => ?_,
    fun hm p hp hpm => ?_⟩
  · show p.uid < s.nextUid + 1
    obtain hp | ⟨-, rfl⟩ := mem_comp_insertPoint.1 hp
    · exact Nat.lt_succ_of_lt (h.uid_lt c p hp)
    · exact Nat.lt_succ_self _
  · obtain hp | hp := mem_append.1 hp
    · exact h.live_tags p hp b
    · rw [mem_singleton.1 hp]
      exact hfresh b
  · obtain hp | hp := mem_append.1 hp
    · obtain ⟨c, hc⟩ := h.kept p hp
      exact ⟨c, mem_comp_insertPoint.2 (.inl hc)⟩
    · exact ⟨_, mem_comp_insertPoint.2 (.inr ⟨rfl, mem_singleton.1 hp⟩)⟩
  · have hpm' : p ∈ s.comp s.merged := hmerged ▸ hpm
    obtain hp | hp := mem_append.1 hp
    · exact mem_comp_insertPoint.2 (.inl (h.moved hm p hp hpm'))
    · -- the new point is in no other component
      have huid : p.uid = s.nextUid := by rw [mem_singleton.1 hp]
      exact absurd (h.uid_lt _ p hpm') (by rw [huid]; exact lt_irrefl _)

theorem Inv.lazyDelete (h : Inv s) (tag : Tag) : Inv (s.lazyDelete tag) := by
  have hmem : ∀ p ∈ (s.lazyDelete tag).live, p ∈ s.live ∧ p.tag ≠ tag := by
    intro p hp
    simpa using mem_filter.1 hp
  refine ⟨h.uid_lt, fun p hp b => ?_, h.spare, fun p hp => h.kept p (hmem p hp).1,
    fun hm p hp => h.moved hm p (hmem p hp).1⟩
  show p.tag ∉ Function.update s.deletionSets _ _ b
  by_cases hb : b = s.activeDeleteSet
  · rw [hb, update_self, Finset.mem_insert, not_or]
    exact ⟨(hmem p hp).2, h.live_tags p (hmem p hp).1 _⟩
  · rw [update_of_ne hb]
    exact h.live_tags p (hmem p hp).1 b

end

section

omit [DecidableEq ι] [DecidableEq Tag] [LinearOrder D]

theorem Inv.saveDelSet (h : Inv s) (hphase : s.phase = .idle) : Inv s.saveDelSet := by
  refine ⟨h.uid_lt, fun p hp b => ?_, fun _ => ?_, h.kept, fun hm => hm.elim⟩
  · show p.tag ∉ Function.update s.deletionSets _ _ b
    by_cases hb : b = !s.activeDeleteSet
    · rw [hb, update_self]
      exact Finset.notMem_empty _
    · rw [update_of_ne hb]
      exact h.live_tags p hp b
  · refine h.spare ?_
    rw [hphase]
    trivial

theorem comp_switchIndex (h : Inv s) (hphase : s.phase.spare) : s.switchIndex.comp = s.comp := by
  show Function.update s.comp s.merged [] = s.comp
  rw [← h.spare hphase, update_eq_self]

theorem Inv.switchIndex (h : Inv s) (hphase : s.phase = .saved) : Inv s.switchIndex := by
  have hcomp : s.switchIndex.comp = s.comp := by
    refine comp_switchIndex h ?_
    rw [hphase]
    trivial
  refine ⟨fun c p hp => h.uid_lt c p (hcomp ▸ hp), h.live_tags, fun hs => hs.elim, fun p hp => ?_,
    fun hm => hm.elim⟩
  obtain ⟨c, hc⟩ := h.kept p hp
  exact ⟨c, hcomp ▸ hc⟩

end

section

omit [DecidableEq ι] [LinearOrder D]

theorem mem_mergedPoints {p : Point Tag} :
    p ∈ s.mergedPoints ↔ (p ∈ s.comp .disk ∨ p ∈ s.comp s.merged) ∧
      p.tag ∉ s.deletionSets (!s.activeDeleteSet) := by
  rw [State.mergedPoints, mem_filter, mem_append, decide_eq_true_iff]

theorem comp_switchDisk_disk : s.switchDisk.comp .disk = s.mergedPoints := by
  unfold State.switchDisk State.setComp
  simp

theorem comp_switchDisk_mem (b : Bool) : s.switchDisk.comp (.mem b) = s.comp (.mem b) := by
  unfold State.switchDisk State.setComp
  simp

theorem mem_searching_switchDisk {i : ι} {q : Search Tag D} (h : q ∈ s.switchDisk.searching i) :
    ∃ q' ∈ s.searching i, q = { q' with oldDisk := q'.oldDisk || !(q'.pc matches .disk) } := by
  obtain ⟨q', hq', hqq⟩ := Option.map_eq_some_iff.1 h
  exact ⟨q', hq', hqq.symm⟩

theorem Inv.switchDisk (h : Inv s) : Inv s.switchDisk := by
  have hmem : ∀ b, s.switchDisk.comp (.mem b) = s.comp (.mem b) := comp_switchDisk_mem
  refine ⟨?_, h.live_tags, fun hs => hs.elim, fun p hp => ?_, fun _ p hp hpm => ?_⟩
  · rintro (_ | b) p hp
    · rw [comp_switchDisk_disk, mem_mergedPoints] at hp
      obtain hp | hp := hp.1
      · exact h.uid_lt _ p hp
      · exact h.uid_lt _ p hp
    · exact h.uid_lt _ p (hmem b ▸ hp)
  · obtain ⟨_ | b, hc⟩ := h.kept p hp
    · refine ⟨.disk, ?_⟩
      rw [comp_switchDisk_disk, mem_mergedPoints]
      exact ⟨.inl hc, h.live_tags p hp _⟩
    · exact ⟨.mem b, (hmem b).symm ▸ hc⟩
  · rw [comp_switchDisk_disk, mem_mergedPoints]
    exact ⟨.inr ((hmem _).symm ▸ hpm), h.live_tags p hp _⟩

end

section

omit [DecidableEq ι] [DecidableEq Tag] [LinearOrder D]

theorem Inv.setClearing (h : Inv s) {flag : Bool} {phase : Phase}
    (hspare : phase.spare → s.phase.spare) (hmoved : phase.moved → s.phase.moved) :
    Inv (s.setClearing flag phase) :=
  ⟨h.uid_lt, h.live_tags, fun hs => h.spare (hspare hs), h.kept, fun hm => h.moved (hmoved hm)⟩

theorem Inv.clearIndex (h : Inv s) (hphase : s.phase = .flagged) : Inv s.clearIndex := by
  have hmoved : s.phase.moved := by
    rw [hphase]
    trivial
  have hmerged : s.clearIndex.comp s.merged = [] := comp_setComp_self
  have hother : ∀ c, c ≠ s.merged → s.clearIndex.comp c = s.comp c :=
    fun c hc => comp_setComp_of_ne hc
  refine ⟨fun c p hp => ?_, h.live_tags, fun _ => hmerged, fun p hp => ?_, fun hm => hm.elim⟩
  · by_cases hc : c = s.merged
    · rw [hc, hmerged] at hp
      exact absurd hp not_mem_nil
    · exact h.uid_lt c p (hother c hc ▸ hp)
  · obtain ⟨c, hc⟩ := h.kept p hp
    by_cases hcm : c = s.merged
    · exact ⟨.disk, (hother _ disk_ne_merged).symm ▸ h.moved hmoved p hp (hcm ▸ hc)⟩
    · exact ⟨c, (hother c hcm).symm ▸ hc⟩

end

/-- A disk index with points under the given tags, and empty memory indices. -/
def State.load (tags : List Tag) : State ι Tag D where
  comp c := if c = .disk then tags.mapIdx Point.mk else []
  nextUid := tags.length
  activeIndex := false
  memPoints := 0
  deletionSets _ := ∅
  activeDeleteSet := false
  clearingIndex _ := false
  phase := .idle
  searching _ := none
  live := tags.mapIdx Point.mk
  deleted := ∅

omit [DecidableEq ι] [DecidableEq Tag] [LinearOrder D] in
theorem init_load (tags : List Tag) : Init (State.load tags : State ι Tag D) := by
  refine ⟨fun _ => rfl, fun _ => rfl, fun _ => rfl, rfl, fun _ => rfl, rfl, rfl, fun p hp => ?_⟩
  obtain ⟨i, hi, rfl⟩ := mem_mapIdx.1 hp
  exact hi

/-- A merge that nothing comes between, and then `as`. -/
def mergeThen (as : List (Act ι Tag D)) : List (Act ι Tag D) :=
  .saveDelSet false :: .switchIndex :: .switchDisk :: .setClearing :: .clearIndex ::
    .unsetClearing :: as

end DiskANNEval.FreshDiskANN.MergeInsert
