import DiskANNEval.FreshDiskANN.MergeInsert
import DiskANNEval.Lib.KeySet
import DiskANNEval.PipeANN.DynamicIndex

/-!
# MergeInsertTags — deleted tags and inserted points in `MergeInsert`

A tag in no deletion set that has been deleted is the tag of no point, since a set is cleared only
when the merge that has taken it is over.  Three things are wrong.  An insert takes its tag out of no
set, so a point under a deleted tag is dropped by the searches and removed by the merge; a search
that began two merges ago holds points whose tags are cleared; and a search drops the points at
distances it has seen, and all of them when it has found no more than `k`.
-/

namespace DiskANNEval.FreshDiskANN.MergeInsert

open Lib List

variable {ι Tag D : Type} [DecidableEq ι] [DecidableEq Tag] [LinearOrder D]
variable {mergeTh : ℕ} {s s' : State ι Tag D}

/-- (a) No tag that a search has returned was deleted when it filtered and not inserted since; (b) it
has returned the points it has found that no delete has come after, up to `k`, and those are in a
component. -/
structure TagsOk (s : State ι Tag D) : Prop where
  not_deleted : ∀ i q results gone, s.searching i = some q → q.pc = .done results gone →
    ∀ t ∈ results, t ∉ gone
  returned : ∀ i q results gone, s.searching i = some q → q.pc = .done results gone →
    ∀ n ∈ q.found, n.1 ∈ s.live → n.1.tag ∈ results ∨ results.length = q.k
  kept : ∀ p ∈ s.live, ∃ c, p ∈ s.comp c

/-- The search has returned. -/
def SearchPc.over (pc : SearchPc Tag) : Bool := pc matches .done ..

/-- The search has more than `k` distances, and no other tag at the distance of a point that has not
been deleted, if it has found one. -/
def Search.Apart (s : State ι Tag D) (q : Search Tag D) : Prop :=
  ∀ n ∈ q.found, n.1 ∈ s.live →
    q.k < q.best.length ∧ ∀ n' ∈ q.found, n'.2 = n.2 → n'.1.tag = n.1.tag

/-- The search has found no point under a tag that is deleted only in the set that is cleared. -/
def Search.Held (s : State ι Tag D) (q : Search Tag D) : Prop :=
  q.pc.over = false → ∀ n ∈ q.found,
    n.1.tag ∈ s.deletionSets (!s.activeDeleteSet) → n.1.tag ∈ s.deletionSets s.activeDeleteSet

/-- No insert uses a tag that is in a deletion set, none is cleared that a search under way needs,
and the searches end with enough distances that are apart. -/
def Calm (s : State ι Tag D) : Act ι Tag D → Prop
  | .insert tag => ∀ b, tag ∉ s.deletionSets b
  | .saveDelSet _ => ∀ i, ∀ q ∈ s.searching i, q.Held s
  | .searchEnd i => ∀ q ∈ s.searching i, q.Apart s
  | _ => True

/-! ### Distances -/

omit [LinearOrder D] in
theorem filterTags_eq {deleted : Finset Tag} {k : ℕ} {best tags : List Tag} :
    filterTags deleted k best tags = PipeANN.DynamicIndex.filterTags deleted k best tags := by
  induction best generalizing tags with
  | nil => rfl
  | cons t best ih =>
    simp only [filterTags, PipeANN.DynamicIndex.filterTags]
    rw [ih]

variable {q : Search Tag D} {t : Tag}

omit [DecidableEq ι] in
theorem mem_results (h : t ∈ s.results q) :
    (∃ n ∈ q.found, n.1.tag = t) ∧ ∀ b, t ∉ s.deletionSets b := by
  rw [State.results] at h
  split_ifs at h with hk
  · rw [filterTags_eq] at h
    obtain h | ⟨hmem, hdel⟩ := PipeANN.DynamicIndex.filterTags_spec.2.1 t h
    · exact absurd h not_mem_nil
    · obtain ⟨n, hn, rfl⟩ := mem_map.1 hmem
      rw [Finset.mem_union, not_or] at hdel
      refine ⟨⟨n, mem_of_mem_keySet hn, rfl⟩, ?_⟩
      rintro (_ | _)
      · exact hdel.1
      · exact hdel.2
  · exact absurd h not_mem_nil

omit [DecidableEq ι] in
theorem results_of_apart (h : q.Apart s) {n : Point Tag × D} (hn : n ∈ q.found)
    (hlive : n.1 ∈ s.live) (hdel : ∀ b, n.1.tag ∉ s.deletionSets b) :
    n.1.tag ∈ s.results q ∨ (s.results q).length = q.k := by
  obtain ⟨hk, htag⟩ := h n hn hlive
  obtain ⟨n', hn', hdist⟩ : ∃ n' ∈ keySet Prod.snd q.found, n'.2 = n.2 := exists_mem_keySet hn
  have hmem : n.1.tag ∈ q.best.map fun n => n.1.tag :=
    mem_map.2 ⟨n', hn', htag n' (mem_of_mem_keySet hn') hdist⟩
  rw [State.results, if_pos hk, filterTags_eq]
  refine PipeANN.DynamicIndex.filterTags_spec.2.2 _ hmem ?_
  rw [Finset.mem_union, not_or]
  exact ⟨hdel _, hdel _⟩

/-! ### The invariant -/

/-- No point has the tag. -/
def Gone (ps : List (Point Tag)) (t : Tag) : Prop := ∀ p ∈ ps, p.tag ≠ t

/-- The merge still has to take the deleted points out of the component. -/
def Phase.pending : Phase → Comp → Comp → Prop
  | .idle, _, _ | .cleared, _, _ => False
  | .saved, _, _ => True
  | .merging, merged, c => c = .disk ∨ c = merged
  | .swapped, merged, c | .flagged, merged, c => c = merged

/-- A deleted tag is in the active set, or it is in the other one where the merge still has to come,
and no point has it elsewhere. -/
def Dropped (s : State ι Tag D) (t : Tag) : Prop :=
  t ∈ s.deletionSets s.activeDeleteSet ∨
    ∀ c, Gone (s.comp c) t ∨ t ∈ s.deletionSets (!s.activeDeleteSet) ∧ s.phase.pending s.merged c

/-- A deleted tag is in a set, or no point has it that the search has found or can find. -/
def Search.Dropped (s : State ι Tag D) (q : Search Tag D) (t : Tag) : Prop :=
  (∃ b, t ∈ s.deletionSets b) ∨ Gone (q.found.map Prod.fst) t ∧ ∀ c, Gone (s.comp c) t

structure TagInv (s : State ι Tag D) : Prop extends Inv s where
  found_lt : ∀ i, ∀ q ∈ s.searching i, ∀ n ∈ q.found, n.1.uid < s.nextUid
  deleted : ∀ t ∈ s.deleted, Dropped s t
  searching : ∀ i, ∀ q ∈ s.searching i, q.pc.over = false → ∀ t ∈ s.deleted, q.Dropped s t
  returned : ∀ i, ∀ q ∈ s.searching i, ∀ results gone, q.pc = .done results gone →
    (∀ t ∈ results, t ∉ gone) ∧
      ∀ n ∈ q.found, n.1 ∈ s.live → n.1.tag ∈ results ∨ results.length = q.k

omit [DecidableEq ι] [DecidableEq Tag] [LinearOrder D] in
theorem Init.tagInv (h : Init s) : TagInv s := by
  have hsearch : ∀ i, s.searching i = none := h.2.2.2.2.1
  have hdeleted : s.deleted = ∅ := h.2.2.2.2.2.2.1
  refine ⟨h.inv, ?_, ?_, ?_, ?_⟩
  · simp [hsearch]
  · simp [hdeleted]
  · simp [hsearch]
  · simp [hsearch]

variable {i : ι}

section

omit [DecidableEq Tag] [LinearOrder D]

theorem TagInv.setSearch (h : TagInv s) (hlt : ∀ n ∈ q.found, n.1.uid < s.nextUid)
    (hgone : q.pc.over = false → ∀ t ∈ s.deleted, q.Dropped s t)
    (hret : ∀ results gone, q.pc = .done results gone → (∀ t ∈ results, t ∉ gone) ∧ ∀ n ∈ q.found, n.1 ∈ s.live → n.1.tag ∈ results ∨ results.length = q.k) :
    TagInv (s.setSearch i q) := by
  refine ⟨h.toInv.setSearch i q, fun j q' hj => ?_, h.deleted, fun j q' hj => ?_,
    fun j q' hj => ?_⟩
  · obtain rfl | hj := mem_searching_setSearch hj
    · exact hlt
    · exact h.found_lt j q' hj
  · obtain rfl | hj := mem_searching_setSearch hj
    · exact hgone
    · exact h.searching j q' hj
  · obtain rfl | hj := mem_searching_setSearch hj
    · exact hret
    · exact h.returned j q' hj

theorem TagInv.reads (h : TagInv s) (hq : q ∈ s.searching i) (hover : q.pc.over = false) {c : Comp}
    {found : List (Point Tag × D)} (hfound : ∀ n ∈ found, n.1 ∈ s.comp c) {pc : SearchPc Tag}
    (hpc : pc.over = false) : TagInv (s.setSearch i (q.reads (s.comp c) found pc)) := by
  refine h.setSearch (fun n hn => ?_) (fun _ t ht => ?_) fun results gone hdone => ?_
  · obtain hn | hn := mem_append.1 hn
    · exact h.found_lt i q hq n hn
    · exact h.uid_lt c n.1 (hfound n hn)
  · obtain hdel | ⟨hgone, hcomp⟩ := h.searching i q hq hover t ht
    · exact .inl hdel
    · refine .inr ⟨fun p hp => ?_, hcomp⟩
      obtain ⟨n, hn, rfl⟩ := mem_map.1 hp
      obtain hn | hn := mem_append.1 hn
      · exact hgone n.1 (mem_map_of_mem hn)
      · exact hcomp c n.1 (hfound n hn)
  · have hpc' : pc = .done results gone := hdone
    rw [hpc'] at hpc
    cases hpc

theorem TagInv.setPc (h : TagInv s) (hq : q ∈ s.searching i) (hover : q.pc.over = false)
    {pc : SearchPc Tag} (hpc : pc.over = false) : TagInv (s.setSearch i { q with pc }) := by
  refine h.setSearch (h.found_lt i q hq) (fun _ => h.searching i q hq hover)
    fun results gone hdone => ?_
  have hpc' : pc = .done results gone := hdone
  rw [hpc'] at hpc
  cases hpc

theorem TagInv.searchStart (h : TagInv s) (i : ι) (k : ℕ) :
    TagInv (s.setSearch i ⟨k, .disk, [], [], s.live, false⟩) := by
  refine h.setSearch (fun n hn => absurd hn not_mem_nil) (fun _ t ht => ?_) fun _ _ hdone => by
    cases hdone
  by_cases hdel : ∃ b, t ∈ s.deletionSets b
  · exact .inl hdel
  · have hcomp := (h.deleted t ht).resolve_left fun ht => hdel ⟨_, ht⟩
    exact .inr ⟨fun p hp => absurd hp not_mem_nil,
      fun c => (hcomp c).resolve_right fun ht => hdel ⟨_, ht.1⟩⟩

end

theorem TagInv.searchEnd (h : TagInv s) (hq : q ∈ s.searching i) (hover : q.pc.over = false)
    (hapart : q.Apart s) :
    TagInv (s.setSearch i { q with pc := .done (s.results q) s.deleted }) := by
  refine h.setSearch (h.found_lt i q hq) (fun hover => by cases hover) fun results gone hdone => ?_
  obtain ⟨rfl, rfl⟩ := SearchPc.done.inj hdone
  refine ⟨fun t ht hgone => ?_, fun n hn hlive => ?_⟩
  · obtain ⟨⟨n, hn, rfl⟩, hnot⟩ := mem_results ht
    obtain ⟨b, hb⟩ | ⟨hfound, -⟩ := h.searching i q hq hover _ hgone
    · exact hnot b hb
    · exact hfound n.1 (mem_map_of_mem hn) rfl
  · exact results_of_apart hapart hn hlive (h.live_tags _ hlive)

section

omit [DecidableEq ι] [LinearOrder D]

theorem gone_insertPoint {tag : Tag} (hne : t ≠ tag) {c : Comp} (h : Gone (s.comp c) t) :
    Gone ((s.insertPoint tag).comp c) t := by
  intro p hp
  obtain hp | ⟨-, rfl⟩ := mem_comp_insertPoint.1 hp
  · exact h p hp
  · exact Ne.symm hne

theorem TagInv.insertPoint (h : TagInv s) {tag : Tag} (hfresh : ∀ b, tag ∉ s.deletionSets b) :
    TagInv (s.insertPoint tag) := by
  refine ⟨h.toInv.insertPoint hfresh, fun i q hq n hn => Nat.lt_succ_of_lt (h.found_lt i q hq n hn),
    fun t ht => ?_, fun i q hq hover t ht => ?_, fun i q hq results gone hdone => ?_⟩
  · obtain ⟨hne, ht⟩ := Finset.mem_erase.1 ht
    exact (h.deleted t ht).imp_right fun hc c => (hc c).imp_left (gone_insertPoint hne)
  · obtain ⟨hne, ht⟩ := Finset.mem_erase.1 ht
    exact (h.searching i q hq hover t ht).imp_right fun hg =>
      ⟨hg.1, fun c => gone_insertPoint hne (hg.2 c)⟩
  · obtain ⟨hres, hfound⟩ := h.returned i q hq results gone hdone
    refine ⟨hres, fun n hn hlive => ?_⟩
    obtain hlive | hlive := mem_append.1 hlive
    · exact hfound n hn hlive
    · -- the search has not found the new point
      have hlt := h.found_lt i q hq n hn
      rw [mem_singleton.1 hlive] at hlt
      exact absurd hlt (lt_irrefl _)

theorem TagInv.lazyDelete (h : TagInv s) (tag : Tag) : TagInv (s.lazyDelete tag) := by
  have hactive : (s.lazyDelete tag).deletionSets s.activeDeleteSet =
      insert tag (s.deletionSets s.activeDeleteSet) := Function.update_self ..
  have hsub : ∀ b, s.deletionSets b ⊆ (s.lazyDelete tag).deletionSets b := by
    intro b t ht
    by_cases hb : b = s.activeDeleteSet
    · rw [hb, hactive]
      exact Finset.mem_insert_of_mem (hb ▸ ht)
    · have hother : (s.lazyDelete tag).deletionSets b = s.deletionSets b :=
        Function.update_of_ne hb ..
      rwa [hother]
  have htag : tag ∈ (s.lazyDelete tag).deletionSets s.activeDeleteSet := by
    rw [hactive]
    exact Finset.mem_insert_self tag _
  refine ⟨h.toInv.lazyDelete tag, h.found_lt, fun t ht => ?_, fun i q hq hover t ht => ?_,
    fun i q hq results gone hdone => ?_⟩
  · obtain rfl | ht := Finset.mem_insert.1 ht
    · exact .inl htag
    · obtain ht | hc := h.deleted t ht
      · exact .inl (hsub _ ht)
      · exact .inr fun c => (hc c).imp_right fun hp => ⟨hsub _ hp.1, hp.2⟩
  · obtain rfl | ht := Finset.mem_insert.1 ht
    · exact .inl ⟨_, htag⟩
    · obtain ⟨b, hb⟩ | hg := h.searching i q hq hover t ht
      · exact .inl ⟨b, hsub b hb⟩
      · exact .inr hg
  · obtain ⟨hres, hfound⟩ := h.returned i q hq results gone hdone
    exact ⟨hres, fun n hn hlive => hfound n hn (mem_filter.1 hlive).1⟩

end

section

omit [DecidableEq ι] [DecidableEq Tag] [LinearOrder D]

/-- The tags of the set that is cleared are the tags of no point, since no merge is under way. -/
theorem TagInv.saveDelSet (h : TagInv s) (hphase : s.phase = .idle)
    (hheld : ∀ i, ∀ q ∈ s.searching i, q.Held s) : TagInv s.saveDelSet := by
  have hkept : s.saveDelSet.deletionSets s.activeDeleteSet = s.deletionSets s.activeDeleteSet :=
    Function.update_of_ne (by simp) ..
  have hgone : ∀ t ∈ s.deleted, t ∉ s.deletionSets s.activeDeleteSet → ∀ c, Gone (s.comp c) t := by
    intro t ht hnot c
    refine ((h.deleted t ht).resolve_left hnot c).resolve_right fun hp => ?_
    rw [hphase] at hp
    exact hp.2.elim
  refine ⟨h.toInv.saveDelSet hphase, h.found_lt, fun t ht => .inr fun c => ?_,
    fun i q hq hover t ht => ?_, h.returned⟩
  · by_cases hact : t ∈ s.deletionSets s.activeDeleteSet
    · refine .inr ⟨?_, trivial⟩
      show t ∈ s.saveDelSet.deletionSets (!!s.activeDeleteSet)
      rwa [Bool.not_not, hkept]
    · exact .inl (hgone t ht hact c)
  · by_cases hact : t ∈ s.deletionSets s.activeDeleteSet
    · refine .inl ⟨s.activeDeleteSet, ?_⟩
      rwa [hkept]
    · refine .inr ⟨?_, hgone t ht hact⟩
      obtain ⟨b, hb⟩ | hg := h.searching i q hq hover t ht
      · have hb' : b = !s.activeDeleteSet := Bool.eq_not.2 fun hb' => hact (hb' ▸ hb)
        intro p hp htp
        obtain ⟨n, hn, rfl⟩ := mem_map.1 hp
        subst htp
        exact hact (hheld i q hq hover n hn (hb' ▸ hb))
      · exact hg.1

theorem TagInv.switchIndex (h : TagInv s) (hphase : s.phase = .saved) : TagInv s.switchIndex := by
  have hspare : s.phase.spare := by
    rw [hphase]
    trivial
  have hcomp : s.switchIndex.comp = s.comp := comp_switchIndex h.toInv hspare
  refine ⟨h.toInv.switchIndex hphase, h.found_lt, fun t ht => ?_, fun i q hq hover t ht => ?_,
    h.returned⟩
  · refine (h.deleted t ht).imp_right fun hc c => ?_
    rw [hcomp]
    obtain hg | ⟨hdel, -⟩ := hc c
    · exact .inl hg
    · by_cases hcm : c = s.merged
      · -- the new memory index is empty
        rw [hcm, h.spare hspare]
        exact .inl fun p hp => absurd hp not_mem_nil
      · refine .inr ⟨hdel, ?_⟩
        show c = .disk ∨ c = .mem (!!s.activeIndex)
        rw [Bool.not_not]
        obtain _ | b := c
        · exact .inl rfl
        · have hb : b = s.activeIndex := by
            by_contra hb
            exact hcm (congrArg Comp.mem (Bool.eq_not.2 hb))
          exact .inr (congrArg Comp.mem hb)
  · refine (h.searching i q hq hover t ht).imp_right fun hg => ⟨hg.1, fun c => ?_⟩
    rw [hcomp]
    exact hg.2 c

end

section

omit [DecidableEq ι] [LinearOrder D]

theorem gone_switchDisk (h : ∀ c, Gone (s.comp c) t) (c : Comp) : Gone (s.switchDisk.comp c) t := by
  intro p hp
  obtain _ | b := c
  · rw [comp_switchDisk_disk, mem_mergedPoints] at hp
    exact hp.1.elim (h _ p) (h _ p)
  · rw [comp_switchDisk_mem] at hp
    exact h _ p hp

theorem TagInv.switchDisk (h : TagInv s) (hphase : s.phase = .merging) : TagInv s.switchDisk := by
  refine ⟨h.toInv.switchDisk, fun i q hq => ?_, fun t ht => ?_, fun i q hq => ?_, fun i q hq => ?_⟩
  · obtain ⟨q', hq', rfl⟩ := mem_searching_switchDisk hq
    exact h.found_lt i q' hq'
  · refine (h.deleted t ht).imp_right fun hc c => ?_
    obtain _ | b := c
    · -- what is written to the new disk index has no tag of the set
      refine .inl fun p hp htp => ?_
      rw [comp_switchDisk_disk, mem_mergedPoints, htp] at hp
      obtain ⟨hp, hnot⟩ := hp
      have hgone : ∀ c, Gone (s.comp c) t := fun c => (hc c).resolve_right fun hd => hnot hd.1
      exact hp.elim (fun hp => hgone _ p hp htp) fun hp => hgone _ p hp htp
    · rw [comp_switchDisk_mem]
      refine (hc (.mem b)).imp_right fun hd => ⟨hd.1, ?_⟩
      have hpend := hd.2
      rw [hphase] at hpend
      exact hpend.resolve_left (by simp)
  · obtain ⟨q', hq', rfl⟩ := mem_searching_switchDisk hq
    exact fun hover t ht => (h.searching i q' hq' hover t ht).imp_right fun hg =>
      ⟨hg.1, gone_switchDisk hg.2⟩
  · obtain ⟨q', hq', rfl⟩ := mem_searching_switchDisk hq
    exact h.returned i q' hq'

end

section

omit [DecidableEq ι] [DecidableEq Tag] [LinearOrder D]

theorem TagInv.setClearing (h : TagInv s) {flag : Bool} {phase : Phase}
    (hspare : phase.spare → s.phase.spare) (hmoved : phase.moved → s.phase.moved)
    (hpend : ∀ c, s.phase.pending s.merged c → phase.pending s.merged c) :
    TagInv (s.setClearing flag phase) :=
  ⟨h.toInv.setClearing hspare hmoved, h.found_lt,
    fun t ht => (h.deleted t ht).imp_right fun hc c => (hc c).imp_right fun hp =>
      ⟨hp.1, hpend c hp.2⟩,
    h.searching, h.returned⟩

theorem TagInv.clearIndex (h : TagInv s) (hphase : s.phase = .flagged) : TagInv s.clearIndex := by
  have hgone : ∀ c t, (c ≠ s.merged → Gone (s.comp c) t) → Gone (s.clearIndex.comp c) t := by
    intro c t hc p hp
    by_cases hcm : c = s.merged
    · have hnil : s.clearIndex.comp s.merged = [] := comp_setComp_self
      rw [hcm, hnil] at hp
      exact absurd hp not_mem_nil
    · have hother : s.clearIndex.comp c = s.comp c := comp_setComp_of_ne hcm
      exact hc hcm p (hother ▸ hp)
  refine ⟨h.toInv.clearIndex hphase, h.found_lt, fun t ht => ?_, fun i q hq hover t ht => ?_,
    h.returned⟩
  · refine (h.deleted t ht).imp_right fun hc c => .inl (hgone c t fun hcm => ?_)
    refine (hc c).resolve_right fun hp => ?_
    rw [hphase] at hp
    exact hcm hp.2
  · exact (h.searching i q hq hover t ht).imp_right fun hg =>
      ⟨hg.1, fun c => hgone c t fun _ => hg.2 c⟩

end

theorem TagInv.step (h : TagInv s) {a : Act ι Tag D} (hcalm : Calm s a)
    (hs : MergeInsert.step mergeTh s a = some s') : TagInv s' := by
  obtain hs := stepped_of_step hs
  cases hs with
  | full => exact h
  | insert tag => exact h.insertPoint hcalm
  | lazyDelete tag => exact h.lazyDelete tag
  | searchStart i k => exact h.searchStart i k
  | searchDisk i found q hq hpc hfound => exact h.reads hq (by rw [hpc]; rfl) hfound rfl
  | skip i b q hq hpc => exact h.setPc hq (by rw [hpc]; rfl) (by cases b <;> rfl)
  | loadFlag i b q hq hpc => exact h.setPc hq (by rw [hpc]; rfl) rfl
  | searchMem i b found q hq hpc hfound =>
    exact h.reads hq (by rw [hpc]; rfl) hfound (by cases b <;> rfl)
  | searchEnd i q hq hpc => exact h.searchEnd hq (by rw [hpc]; rfl) (hcalm q hq)
  | saveDelSet final hphase => exact h.saveDelSet hphase hcalm
  | switchIndex hphase => exact h.switchIndex hphase
  | switchDisk hphase => exact h.switchDisk hphase
  | setClearing hphase =>
    refine h.setClearing (fun hs => hs.elim) (fun _ => ?_) fun c hp => ?_
    · rw [hphase]
      trivial
    · rw [hphase] at hp
      exact hp
  | clearIndex hphase => exact h.clearIndex hphase
  | unsetClearing hphase =>
    refine h.setClearing (fun _ => ?_) (fun hm => hm.elim) fun c hp => ?_
    · rw [hphase]
      trivial
    · rw [hphase] at hp
      exact hp

omit [DecidableEq ι] [DecidableEq Tag] [LinearOrder D] in
theorem TagInv.tagsOk (h : TagInv s) : TagsOk s :=
  ⟨fun i q results gone hq hpc => (h.returned i q hq results gone hpc).1,
    fun i q results gone hq hpc => (h.returned i q hq results gone hpc).2, h.kept⟩

/-- In every calm run the tags are right. -/
theorem mergeInsert_tagsOk (h : Reach Init (guarded Calm (ofFn (step mergeTh))) s) : TagsOk s :=
  TagInv.tagsOk (Reach.invariant (P := TagInv) (fun _ hs => hs.tagInv)
    (fun _ _ _ hi hs => hi.step hs.1 hs.2) h)

instance [Fintype ι] (s : State ι Tag D) (a : Act ι Tag D) : Decidable (Calm s a) :=
  match a with
  | .insert tag => inferInstanceAs (Decidable (∀ b, tag ∉ s.deletionSets b))
  | .saveDelSet _ => inferInstanceAs (Decidable (∀ i, ∀ q ∈ s.searching i, q.pc.over = false →
      ∀ n ∈ q.found, n.1.tag ∈ s.deletionSets (!s.activeDeleteSet) →
        n.1.tag ∈ s.deletionSets s.activeDeleteSet))
  | .searchEnd i => inferInstanceAs (Decidable (∀ q ∈ s.searching i, ∀ n ∈ q.found, n.1 ∈ s.live →
      q.k < q.best.length ∧ ∀ n' ∈ q.found, n'.2 = n.2 → n'.1.tag = n.1.tag))
  | .lazyDelete _ | .searchStart _ _ | .searchDisk _ _ | .loadFlag _ _ | .searchMem _ _ _
  | .switchIndex | .switchDisk | .setClearing | .clearIndex | .unsetClearing => isTrue trivial

/-- The tag `7` is inserted again when its set has been cleared, and found. -/
def reinsert : List (Act Unit ℕ ℕ) :=
  .lazyDelete 7 :: .insert 9 :: mergeThen (.insert 10 :: mergeThen
    [.insert 7, .searchStart () 1, .searchDisk () [(⟨1, 8⟩, 5)], .loadFlag () false,
      .searchMem () false [(⟨4, 7⟩, 2)], .loadFlag () true, .searchMem () true [], .searchEnd ()])

/-- Two merges overtake a search that has found a point under the tag `7`. -/
def slowSearch : List (Act Unit ℕ ℕ) :=
  .searchStart () 1 :: .searchDisk () [(⟨0, 7⟩, 2), (⟨1, 8⟩, 5)] :: .lazyDelete 7 :: .insert 9 ::
    mergeThen (.insert 10 :: mergeThen [.loadFlag () false, .searchMem () false [],
      .loadFlag () true, .searchMem () true [], .searchEnd ()])

theorem mergeInsert_tagsOk_reinsert : ∃ s : State Unit ℕ ℕ,
    s.live = [⟨1, 8⟩, ⟨2, 9⟩, ⟨3, 10⟩, ⟨4, 7⟩] ∧ TagsOk s := by
  have hrun : (runsGuarded Calm (step 1) (State.load [7, 8]) reinsert).map State.live =
      some [⟨1, 8⟩, ⟨2, 9⟩, ⟨3, 10⟩, ⟨4, 7⟩] := by decide +kernel
  obtain ⟨s, hs, hlive⟩ := Option.map_eq_some_iff.1 hrun
  exact ⟨s, hlive, mergeInsert_tagsOk (reach_of_runsGuarded (init_load [7, 8]) hs)⟩

/-- A search that two merges overtake returns the tag `7` that was deleted before the first; and a
point under the tag `7`, inserted after its delete, is removed by the next merge. -/
theorem mergeInsert_tags_wrong :
    (∃ s : State Unit ℕ ℕ, Reach Init (ofFn (step 1)) s ∧ ∃ q, s.searching () = some q ∧
      q.pc = .done [7] {7} ∧ ¬ TagsOk s) ∧
    ∃ s : State Unit ℕ ℕ, Reach Init (ofFn (step 1)) s ∧ ⟨1, 7⟩ ∈ s.live ∧ (∀ c, s.comp c = []) ∧
      ¬ TagsOk s := by
  constructor
  · have hrun : (runs (step 1) (State.load [7, 8]) slowSearch).map
        (fun s => (s.searching ()).map Search.pc) = some (some (.done [7] {7})) := by
      decide +kernel
    obtain ⟨s, hs, hv⟩ := Option.map_eq_some_iff.1 hrun
    obtain ⟨q, hq, hpc⟩ := Option.map_eq_some_iff.1 hv
    have hreach : Reach Init (ofFn (step 1)) s := reach_of_runs (.start (init_load [7, 8])) hs
    refine ⟨s, hreach, q, hq, hpc, fun hok => ?_⟩
    exact hok.not_deleted () q _ _ hq hpc 7 (List.mem_singleton_self 7) (Finset.mem_singleton_self 7)
  · have hrun : (runs (step 1) (State.load [7] : State Unit ℕ ℕ)
        (.lazyDelete 7 :: .insert 7 :: mergeThen [])).map
        (fun s => (s.live, s.comp .disk, s.comp (.mem false), s.comp (.mem true))) =
        some ([⟨1, 7⟩], [], [], []) := by decide +kernel
    obtain ⟨s, hs, hv⟩ := Option.map_eq_some_iff.1 hrun
    simp only [Prod.mk.injEq] at hv
    obtain ⟨hlive, hdisk, hmem, hmem'⟩ := hv
    have hcomp : ∀ c, s.comp c = [] := by
      rintro (_ | _ | _)
      · exact hdisk
      · exact hmem
      · exact hmem'
    have hmem : ⟨1, 7⟩ ∈ s.live := hlive ▸ List.mem_singleton_self _
    have hreach : Reach Init (ofFn (step 1)) s := reach_of_runs (.start (init_load [7])) hs
    refine ⟨s, hreach, hmem, hcomp, fun hok => ?_⟩
    obtain ⟨c, hc⟩ := hok.kept _ hmem
    rw [hcomp] at hc
    exact absurd hc List.not_mem_nil

end DiskANNEval.FreshDiskANN.MergeInsert
