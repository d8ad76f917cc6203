import DiskANNEval.FreshDiskANN.MergeInsert

/-!
# MergeInsertReads — what a search reads while points move

A merge publishes the new disk index and then clears the memory index behind its flag.  A search that
has read the old disk index and comes to the memory index after it is flagged or cleared misses the
points that have moved.  Outside of this case a point that was there when the search started, and has
not been deleted, has been read or is in a component that the search comes to (`ReadInv`).
-/

namespace DiskANNEval.FreshDiskANN.MergeInsert

open Lib List

variable {ι Tag D : Type} [DecidableEq ι] [DecidableEq Tag] [LinearOrder D]
variable {mergeTh : ℕ} {s s' : State ι Tag D}

/-- What was there when a search started, and no delete has come after, was in a component when the
search read it. -/
def Contained (s : State ι Tag D) : Prop :=
  ∀ i, ∀ q ∈ s.searching i, q.pc = .filter ∨ (∃ results gone, q.pc = .done results gone) →
    ∀ p ∈ q.due, p ∈ s.live → p ∈ q.read

/-- The search has still to look at the flag of the memory index `b`. -/
def SearchPc.waits : SearchPc Tag → Bool → Bool
  | .disk, _ | .flag false, _ => true
  | .flag true, b | .mem false, b => b
  | .mem true, _ | .filter, _ | .done .., _ => false

/-- If the search has read the old disk index, none of its points is in the memory index that the
merge takes. -/
def Search.Spared (s : State ι Tag D) (q : Search Tag D) : Prop :=
  q.oldDisk = true → ∀ p ∈ q.due, p ∈ s.live → p ∉ s.comp s.merged

/-- No insert uses a tag that is in a deletion set, and no search is overtaken by the flag of the
memory index that it still has to look at, nor by the clearing of the one it is about to search. -/
def NotOvertaken (s : State ι Tag D) : Act ι Tag D → Prop
  | .setClearing => ∀ i, ∀ q ∈ s.searching i, q.pc.waits (!s.activeIndex) = true → q.Spared s
  | .clearIndex => ∀ i, ∀ q ∈ s.searching i, q.pc = .mem (!s.activeIndex) → q.Spared s
  | a => Fresh s a

/-- The search reads the component, if no flag is set before. -/
def Search.Reads (s : State ι Tag D) (q : Search Tag D) : Comp → Prop
  | .disk => q.pc = .disk
  | .mem b => q.pc = .mem b ∨ q.pc.waits b = true ∧ s.clearingIndex b = false

/-- The flag of the memory index that the merge takes is set. -/
def Phase.clearing : Phase → Prop
  | .flagged | .cleared => True
  | .idle | .saved | .merging | .swapped => False

/-- The points that a search is due to read. -/
def Search.Due (s : State ι Tag D) (q : Search Tag D) : Prop :=
  ∀ p ∈ q.due, p ∈ s.live → p ∈ q.read ∨ ∃ c, q.Reads s c ∧ p ∈ s.comp c

/-- A search that has read the new disk index has read what the merge moves. -/
def Search.Moved (s : State ι Tag D) (q : Search Tag D) : Prop :=
  s.phase.moved → q.oldDisk = false → q.pc ≠ .disk →
    ∀ p ∈ q.due, p ∈ s.live → p ∈ s.comp s.merged → p ∈ q.read

structure ReadInv (s : State ι Tag D) : Prop extends Inv s where
  flag : ∀ b, s.clearingIndex b = true ↔ s.phase.clearing ∧ b = !s.activeIndex
  due_lt : ∀ i, ∀ q ∈ s.searching i, ∀ p ∈ q.due, p.uid < s.nextUid
  due : ∀ i, ∀ q ∈ s.searching i, q.Due s
  read : ∀ i, ∀ q ∈ s.searching i, q.Moved s

section

omit [DecidableEq ι] [DecidableEq Tag] [LinearOrder D]

theorem Init.readInv (h : Init s) : ReadInv s := by
  have hflag : ∀ b, s.clearingIndex b = false := h.2.2.1
  have hphase : s.phase = .idle := h.2.2.2.1
  have hsearch : ∀ i, s.searching i = none := h.2.2.2.2.1
  refine ⟨h.inv, ?_, ?_, ?_, ?_⟩
  · simp [hflag, hphase, Phase.clearing]
  · simp [hsearch]
  · simp [hsearch]
  · simp [hsearch]

theorem ReadInv.contained (h : ReadInv s) : Contained s := by
  intro i q hq hpc p hp hlive
  refine (h.due i q hq p hp hlive).resolve_right ?_
  rintro ⟨_ | b, hr, -⟩
  · obtain hpc | ⟨_, _, hpc⟩ := hpc
    · rw [Search.Reads, hpc] at hr
      cases hr
    · rw [Search.Reads, hpc] at hr
      cases hr
  · obtain hpc | ⟨_, _, hpc⟩ := hpc
    · rw [Search.Reads, hpc] at hr
      obtain hr | ⟨hr, -⟩ := hr
      · cases hr
      · cases hr
    · rw [Search.Reads, hpc] at hr
      obtain hr | ⟨hr, -⟩ := hr
      · cases hr
      · cases hr

end

variable {i : ι} {q : Search Tag D}

omit [DecidableEq Tag] [LinearOrder D] in
theorem ReadInv.setSearch (h : ReadInv s) (hlt : ∀ p ∈ q.due, p.uid < s.nextUid) (hdue : q.Due s)
    (hread : q.Moved s) : ReadInv (s.setSearch i q) := by
  refine ⟨h.toInv.setSearch i q, h.flag, fun j q' hj => ?_, fun j q' hj => ?_, fun j q' hj => ?_⟩
  · obtain rfl | hj := mem_searching_setSearch hj
    · exact hlt
    · exact h.due_lt j q' hj
  · obtain rfl | hj := mem_searching_setSearch hj
    · exact hdue
    · exact h.due j q' hj
  · obtain rfl | hj := mem_searching_setSearch hj
    · exact hread
    · exact h.read j q' hj

variable {b : Bool}

omit [DecidableEq ι] [DecidableEq Tag] [LinearOrder D] in
/-- What is in the memory index that the merge takes, behind its flag, is in the disk index. -/
theorem ReadInv.mem_disk (h : ReadInv s) (hflag : s.clearingIndex b = true) {p : Point Tag}
    (hlive : p ∈ s.live) (hp : p ∈ s.comp (.mem b)) : p ∈ s.comp .disk := by
  obtain ⟨hclear, rfl⟩ := (h.flag b).1 hflag
  obtain hphase | hphase : s.phase = .flagged ∨ s.phase = .cleared := by
    cases hph : s.phase <;> simp [hph, Phase.clearing] at hclear ⊢
  · refine h.moved ?_ p hlive hp
    rw [hphase]
    trivial
  · have hnil : s.comp s.merged = [] := by
      refine h.spare ?_
      rw [hphase]
      trivial
    rw [State.merged] at hnil
    rw [hnil] at hp
    exact absurd hp not_mem_nil

section

omit [DecidableEq Tag] [LinearOrder D]

theorem ReadInv.searchStart (h : ReadInv s) (i : ι) (k : ℕ) :
    ReadInv (s.setSearch i ⟨k, .disk, [], [], s.live, false⟩) := by
  refine h.setSearch (fun p hp => ?_) (fun p hp _ => .inr ?_) fun _ _ hpc => absurd rfl hpc
  · obtain ⟨c, hc⟩ := h.kept p hp
    exact h.uid_lt c p hc
  · obtain ⟨_ | b, hc⟩ := h.kept p hp
    · exact ⟨.disk, rfl, hc⟩
    · by_cases hb : s.clearingIndex b = true
      · exact ⟨.disk, rfl, h.mem_disk hb hp hc⟩
      · exact ⟨.mem b, .inr ⟨rfl, by simpa using hb⟩, hc⟩

theorem ReadInv.searchDisk (h : ReadInv s) (hq : q ∈ s.searching i) (hpc : q.pc = .disk)
    (found : List (Point Tag × D)) :
    ReadInv (s.setSearch i (q.reads (s.comp .disk) found (.flag false))) := by
  refine h.setSearch (h.due_lt i q hq) (fun p hp hlive => ?_) fun hm _ _ p hp hlive hpm => ?_
  · obtain hr | ⟨_ | b, hr, hc⟩ := h.due i q hq p hp hlive
    · exact .inl (mem_append_left _ hr)
    · exact .inl (mem_append_right _ hc)
    · obtain hr | ⟨-, hflag⟩ := hr
      · rw [hpc] at hr
        cases hr
      · exact .inr ⟨.mem b, .inr ⟨rfl, hflag⟩, hc⟩
  · exact mem_append_right _ (h.moved hm p hlive hpm)

end

omit [DecidableEq Tag] in
theorem waits_next_of_mem {b' : Bool} (hw : (SearchPc.mem b : SearchPc Tag).waits b' = true) :
    (SearchPc.next b : SearchPc Tag).waits b' = true := by
  cases b
  · exact hw
  · cases hw

omit [DecidableEq Tag] in
theorem waits_mem_of_flag {b' : Bool} (hne : b' ≠ b)
    (hw : (SearchPc.flag b : SearchPc Tag).waits b' = true) :
    (SearchPc.mem b : SearchPc Tag).waits b' = true := by
  cases b
  · exact Bool.eq_true_of_not_eq_false hne
  · exact absurd hw hne

section

omit [DecidableEq Tag] [LinearOrder D]

theorem ReadInv.loadFlag (h : ReadInv s) (hq : q ∈ s.searching i) (hpc : q.pc = .flag b) :
    ReadInv (s.setSearch i { q with pc := if s.clearingIndex b then .next b else .mem b }) := by
  refine h.setSearch (h.due_lt i q hq) (fun p hp hlive => ?_) fun hm hold _ => ?_
  · refine (h.due i q hq p hp hlive).imp_right ?_
    rintro ⟨_ | b', hr, hc⟩
    · rw [Search.Reads, hpc] at hr
      cases hr
    · refine ⟨.mem b', ?_, hc⟩
      obtain hr | ⟨hw, hflag⟩ := hr
      · rw [hpc] at hr
        cases hr
      · rw [hpc] at hw
        show (if s.clearingIndex b then SearchPc.next b else .mem b) = .mem b' ∨ _ ∧ _
        by_cases hb : b' = b
        · rw [if_neg (by simpa [hb] using hflag)]
          exact .inl (congrArg SearchPc.mem hb.symm)
        · refine .inr ⟨?_, hflag⟩
          have hmem := waits_mem_of_flag hb hw
          show (if s.clearingIndex b then SearchPc.next b else .mem b).waits b' = true
          split_ifs
          · exact waits_next_of_mem hmem
          · exact hmem
  · refine h.read i q hq hm hold ?_
    rw [hpc]
    simp

theorem ReadInv.searchMem (h : ReadInv s) (hq : q ∈ s.searching i) (hpc : q.pc = .mem b)
    (found : List (Point Tag × D)) :
    ReadInv (s.setSearch i (q.reads (s.comp (.mem b)) found (.next b))) := by
  refine h.setSearch (h.due_lt i q hq) (fun p hp hlive => ?_) fun hm hold _ p hp hlive hpm => ?_
  · obtain hr | ⟨_ | b', hr, hc⟩ := h.due i q hq p hp hlive
    · exact .inl (mem_append_left _ hr)
    · rw [Search.Reads, hpc] at hr
      cases hr
    · rw [Search.Reads, hpc] at hr
      obtain hr | ⟨hw, hflag⟩ := hr
      · exact .inl (mem_append_right _ (SearchPc.mem.inj hr ▸ hc))
      · exact .inr ⟨.mem b', .inr ⟨waits_next_of_mem hw, hflag⟩, hc⟩
  · refine mem_append_left _ (h.read i q hq hm hold ?_ p hp hlive hpm)
    rw [hpc]
    simp

end

omit [LinearOrder D] [DecidableEq Tag] in
theorem ReadInv.searchEnd (h : ReadInv s) (hq : q ∈ s.searching i) (hpc : q.pc = .filter)
    (results : List Tag) (gone : Finset Tag) :
    ReadInv (s.setSearch i { q with pc := .done results gone }) := by
  refine h.setSearch (h.due_lt i q hq) (fun p hp hlive => .inl ?_) fun hm hold _ => ?_
  · exact h.contained i q hq (.inl hpc) p hp hlive
  · refine h.read i q hq hm hold ?_
    rw [hpc]
    simp

omit [DecidableEq ι] [DecidableEq Tag] [LinearOrder D] in
theorem Search.Reads.of_flags {c : Comp} (h : q.Reads s c)
    (hflag : ∀ b, s.clearingIndex b = false → s'.clearingIndex b = false) : q.Reads s' c := by
  cases c with
  | disk => exact h
  | mem b => exact h.imp_right fun hw => ⟨hw.1, hflag b hw.2⟩

section

omit [DecidableEq ι] [LinearOrder D]

theorem ReadInv.insertPoint (h : ReadInv s) {tag : Tag} (hfresh : ∀ b, tag ∉ s.deletionSets b) :
    ReadInv (s.insertPoint tag) := by
  have hold : ∀ i, ∀ q ∈ s.searching i, ∀ p ∈ q.due, p ∈ (s.insertPoint tag).live → p ∈ s.live := by
    intro i q hq p hp hlive
    refine (mem_append.1 hlive).resolve_right fun hnew => ?_
    have hlt := h.due_lt i q hq p hp
    rw [mem_singleton.1 hnew] at hlt
    exact absurd hlt (lt_irrefl _)
  refine ⟨h.toInv.insertPoint hfresh, h.flag,
    fun i q hq p hp => Nat.lt_succ_of_lt (h.due_lt i q hq p hp), fun i q hq p hp hlive => ?_,
    fun i q hq hm hdisk hpc p hp hlive hpm => ?_⟩
  · refine (h.due i q hq p hp (hold i q hq p hp hlive)).imp_right ?_
    rintro ⟨c, hr, hc⟩
    exact ⟨c, hr.of_flags fun _ hb => hb, mem_comp_insertPoint.2 (.inl hc)⟩
  · refine h.read i q hq hm hdisk hpc p hp (hold i q hq p hp hlive) ?_
    have hmerged : (s.insertPoint tag).comp s.merged = s.comp s.merged :=
      comp_insertPoint_of_ne merged_ne_active
    exact hmerged ▸ hpm

theorem ReadInv.lazyDelete (h : ReadInv s) (tag : Tag) : ReadInv (s.lazyDelete tag) := by
  have hold : ∀ p ∈ (s.lazyDelete tag).live, p ∈ s.live := fun p hp => (mem_filter.1 hp).1
  refine ⟨h.toInv.lazyDelete tag, h.flag, h.due_lt, fun i q hq p hp hlive => ?_,
    fun i q hq hm hdisk hpc p hp hlive => h.read i q hq hm hdisk hpc p hp (hold p hlive)⟩
  refine (h.due i q hq p hp (hold p hlive)).imp_right ?_
  rintro ⟨c, hr, hc⟩
  exact ⟨c, hr.of_flags fun _ hb => hb, hc⟩

end

section

omit [DecidableEq ι] [DecidableEq Tag] [LinearOrder D]

theorem ReadInv.saveDelSet (h : ReadInv s) (hphase : s.phase = .idle) : ReadInv s.saveDelSet := by
  refine ⟨h.toInv.saveDelSet hphase, fun b => ?_, h.due_lt, fun i q hq p hp hlive => ?_,
    fun i q hq hm => hm.elim⟩
  · have hclear := h.flag b
    rw [hphase] at hclear
    exact ⟨fun hb => (hclear.1 hb).1.elim, fun hb => hb.1.elim⟩
  · refine (h.due i q hq p hp hlive).imp_right ?_
    rintro ⟨c, hr, hc⟩
    exact ⟨c, hr.of_flags fun _ hb => hb, hc⟩

theorem ReadInv.switchIndex (h : ReadInv s) (hphase : s.phase = .saved) :
    ReadInv s.switchIndex := by
  have hcomp : s.switchIndex.comp = s.comp := by
    refine comp_switchIndex h.toInv ?_
    rw [hphase]
    trivial
  refine ⟨h.toInv.switchIndex hphase, fun b => ?_, h.due_lt, fun i q hq p hp hlive => ?_,
    fun i q hq hm => hm.elim⟩
  · have hclear := h.flag b
    rw [hphase] at hclear
    exact ⟨fun hb => (hclear.1 hb).1.elim, fun hb => hb.1.elim⟩
  · refine (h.due i q hq p hp hlive).imp_right ?_
    rintro ⟨c, hr, hc⟩
    exact ⟨c, hr.of_flags fun _ hb => hb, hcomp.symm ▸ hc⟩

end

omit [DecidableEq ι] [LinearOrder D] in
theorem ReadInv.switchDisk (h : ReadInv s) (hphase : s.phase = .merging) :
    ReadInv s.switchDisk := by
  have hmem : ∀ b, s.comp (.mem b) = s.switchDisk.comp (.mem b) :=
    fun b => (comp_switchDisk_mem b).symm
  refine ⟨h.toInv.switchDisk, fun b => ?_, fun i q hq => ?_, fun i q hq p hp hlive => ?_,
    fun i q hq _ hold hpc => ?_⟩
  · have hclear := h.flag b
    rw [hphase] at hclear
    exact ⟨fun hb => (hclear.1 hb).1.elim, fun hb => hb.1.elim⟩
  · obtain ⟨q', hq', rfl⟩ := mem_searching_switchDisk hq
    exact h.due_lt i q' hq'
  · obtain ⟨q', hq', rfl⟩ := mem_searching_switchDisk hq
    refine (h.due i q' hq' p hp hlive).imp_right ?_
    rintro ⟨_ | b, hr, hc⟩
    · refine ⟨.disk, hr, ?_⟩
      rw [comp_switchDisk_disk, mem_mergedPoints]
      exact ⟨.inl hc, h.live_tags p hlive _⟩
    · exact ⟨.mem b, hr, hmem b ▸ hc⟩
  · -- a search that has read the disk index has read the old one
    obtain ⟨q', -, rfl⟩ := mem_searching_switchDisk hq
    obtain ⟨-, hold⟩ := Bool.or_eq_false_iff.1 hold
    refine absurd ?_ hpc
    cases hd : q'.pc with
    | disk => rfl
    | _ =>
      rw [hd] at hold
      cases hold

section

omit [DecidableEq ι] [DecidableEq Tag] [LinearOrder D]

theorem clearingIndex_setClearing {flag : Bool} {phase : Phase} :
    (s.setClearing flag phase).clearingIndex b =
      if b = !s.activeIndex then flag else s.clearingIndex b := by
  simp only [State.setClearing, Function.update_apply]

theorem ReadInv.setFlag (h : ReadInv s) (hphase : s.phase = .swapped)
    (hcalm : ∀ i, ∀ q ∈ s.searching i, q.pc.waits (!s.activeIndex) = true → q.Spared s) :
    ReadInv (s.setClearing true .flagged) := by
  have hmoved : s.phase.moved := by
    rw [hphase]
    trivial
  have hinv : Inv (s.setClearing true .flagged) :=
    h.toInv.setClearing (fun hs => hs.elim) fun _ => hmoved
  refine ⟨hinv, fun b => ?_, h.due_lt, fun i q hq p hp hlive => ?_,
    fun i q hq _ => h.read i q hq hmoved⟩
  · show _ ↔ True ∧ b = !s.activeIndex
    rw [clearingIndex_setClearing, true_and]
    split_ifs with hbm
    · exact iff_of_true rfl hbm
    · exact iff_of_false (fun hb => hbm ((h.flag b).1 hb).2) hbm
  · obtain hr | ⟨_ | b, hr, hc⟩ := h.due i q hq p hp hlive
    · exact .inl hr
    · exact .inr ⟨.disk, hr, hc⟩
    · obtain hpc | ⟨hw, hflag⟩ := hr
      · exact .inr ⟨.mem b, .inl hpc, hc⟩
      · by_cases hb : b = !s.activeIndex
        · subst hb
          by_cases hpc : q.pc = .disk
          · exact .inr ⟨.disk, hpc, h.moved hmoved p hlive hc⟩
          · have hold : q.oldDisk = false := by
              by_contra hold
              exact hcalm i q hq hw (by simpa using hold) p hp hlive hc
            exact .inl (h.read i q hq hmoved hold hpc p hp hlive hc)
        · refine .inr ⟨.mem b, .inr ⟨hw, ?_⟩, hc⟩
          rw [clearingIndex_setClearing, if_neg hb]
          exact hflag

theorem ReadInv.clearIndex (h : ReadInv s) (hphase : s.phase = .flagged)
    (hcalm : ∀ i, ∀ q ∈ s.searching i, q.pc = .mem (!s.activeIndex) → q.Spared s) :
    ReadInv s.clearIndex := by
  have hmoved : s.phase.moved := by
    rw [hphase]
    trivial
  have hflag : ∀ b, s.clearingIndex b = true ↔ True ∧ b = !s.activeIndex := by
    have hflag := h.flag
    rw [hphase] at hflag
    exact hflag
  refine ⟨h.toInv.clearIndex hphase, hflag, h.due_lt, fun i q hq p hp hlive => ?_,
    fun i q hq hm => hm.elim⟩
  obtain hr | ⟨c, hr, hc⟩ := h.due i q hq p hp hlive
  · exact .inl hr
  · by_cases hcm : c = s.merged
    · subst hcm
      obtain hpc | ⟨-, hoff⟩ := hr
      · have hold : q.oldDisk = false := by
          by_contra hold
          exact hcalm i q hq hpc (by simpa using hold) p hp hlive hc
        refine .inl (h.read i q hq hmoved hold ?_ p hp hlive hc)
        rw [hpc]
        simp
      · rw [(hflag _).2 ⟨trivial, rfl⟩] at hoff
        cases hoff
    · have hother : s.clearIndex.comp c = s.comp c := comp_setComp_of_ne hcm
      exact .inr ⟨c, hr.of_flags fun _ hb => hb, hother.symm ▸ hc⟩

theorem ReadInv.unsetFlag (h : ReadInv s) (hphase : s.phase = .cleared) :
    ReadInv (s.setClearing false .idle) := by
  have hinv : Inv (s.setClearing false .idle) := by
    refine h.toInv.setClearing (fun _ => ?_) fun hm => hm.elim
    rw [hphase]
    trivial
  have hflag : ∀ b, (s.setClearing false .idle).clearingIndex b = false := by
    intro b
    rw [clearingIndex_setClearing]
    split_ifs with hbm
    · rfl
    · by_contra hb
      exact hbm ((h.flag b).1 (by simpa using hb)).2
  refine ⟨hinv, fun b => ?_, h.due_lt, fun i q hq p hp hlive => ?_, fun i q hq hm => hm.elim⟩
  · rw [hflag]
    exact iff_of_false Bool.false_ne_true fun hb => hb.1.elim
  · refine (h.due i q hq p hp hlive).imp_right ?_
    rintro ⟨c, hr, hc⟩
    exact ⟨c, hr.of_flags fun b _ => hflag b, hc⟩

end

theorem ReadInv.step (h : ReadInv s) {a : Act ι Tag D} (hcalm : NotOvertaken s a)
    (hs : MergeInsert.step mergeTh s a = some s') : ReadInv s' := by
  obtain hs := stepped_of_step hs
  cases hs with
  | full => exact h
  | insert tag => exact h.insertPoint hcalm
  | lazyDelete tag => exact h.lazyDelete tag
  | searchStart i k => exact h.searchStart i k
  | searchDisk i found q hq hpc => exact h.searchDisk hq hpc found
  | skip i b q hq hpc hflag => simpa [hflag] using h.loadFlag hq hpc
  | loadFlag i b q hq hpc hflag => simpa [hflag] using h.loadFlag hq hpc
  | searchMem i b found q hq hpc => exact h.searchMem hq hpc found
  | searchEnd i q hq hpc => exact h.searchEnd hq hpc _ _
  | saveDelSet final hphase => exact h.saveDelSet hphase
  | switchIndex hphase => exact h.switchIndex hphase
  | switchDisk hphase => exact h.switchDisk hphase
  | setClearing hphase => exact h.setFlag hphase hcalm
  | clearIndex hphase => exact h.clearIndex hphase hcalm
  | unsetClearing hphase => exact h.unsetFlag hphase

/-- In every run without inserts under deleted tags, in which no search is overtaken, each search
reads what was there when it started and has not been deleted. -/
theorem mergeInsert_contained (h : Reach Init (guarded NotOvertaken (ofFn (step mergeTh))) s) :
    Contained s :=
  ReadInv.contained (Reach.invariant (P := ReadInv) (fun _ hs => hs.readInv)
    (fun _ _ _ hi hs => hi.step hs.1 hs.2) h)

instance (s : State ι Tag D) (q : Search Tag D) : Decidable (q.Spared s) :=
  inferInstanceAs (Decidable
    (q.oldDisk = true → ∀ p ∈ q.due, p ∈ s.live → p ∉ s.comp s.merged))

instance [Fintype ι] (s : State ι Tag D) (a : Act ι Tag D) : Decidable (NotOvertaken s a) :=
  match a with
  | .insert tag => inferInstanceAs (Decidable (∀ b, tag ∉ s.deletionSets b))
  | .setClearing => inferInstanceAs (Decidable (∀ i, ∀ q ∈ s.searching i,
      q.pc.waits (!s.activeIndex) = true → q.Spared s))
  | .clearIndex => inferInstanceAs (Decidable (∀ i, ∀ q ∈ s.searching i,
      q.pc = .mem (!s.activeIndex) → q.Spared s))
  | .saveDelSet _ | .searchEnd _ | .lazyDelete _ | .searchStart _ _ | .searchDisk _ _
  | .loadFlag _ _ | .searchMem _ _ _ | .switchIndex | .switchDisk | .unsetClearing => isTrue trivial

/-- A merge starts and ends between the disk search and the first memory search, and has taken the
first memory index when the flag is set. -/
def overlap : List (Act Unit ℕ ℕ) :=
  [.insert 8, .searchStart () 1, .saveDelSet false, .switchIndex, .searchDisk () [(⟨0, 7⟩, 2)],
    .loadFlag () false, .searchMem () false [(⟨1, 8⟩, 5)], .switchDisk, .setClearing, .clearIndex,
    .unsetClearing, .loadFlag () true, .searchMem () true []]

theorem mergeInsert_contained_overlap : ∃ s : State Unit ℕ ℕ,
    (s.searching ()).map Search.pc = some .filter ∧ Contained s := by
  have hrun : (runsGuarded NotOvertaken (step 1) (State.load [7]) overlap).map
      (fun s => (s.searching ()).map Search.pc) = some (some .filter) := by decide +kernel
  obtain ⟨s, hs, hpc⟩ := Option.map_eq_some_iff.1 hrun
  exact ⟨s, hpc, mergeInsert_contained (reach_of_runsGuarded (init_load [7]) hs)⟩

/-- A merge that comes between the disk search and the memory searches moves the point `8` out of
the way. -/
theorem mergeInsert_point_missed : ∃ s : State Unit ℕ ℕ, Reach Init (ofFn (step 1)) s ∧
    ∃ q, s.searching () = some q ∧ q.pc = .filter ∧ ⟨1, 8⟩ ∈ q.due ∧ ⟨1, 8⟩ ∈ s.live ∧
      ⟨1, 8⟩ ∉ q.read ∧ ¬ Contained s := by
  have hrun : (runs (step 1) (State.load [7] : State Unit ℕ ℕ)
      (.insert 8 :: .searchStart () 1 :: .searchDisk () [(⟨0, 7⟩, 2)] :: mergeThen
        [.loadFlag () false, .searchMem () false [], .loadFlag () true, .searchMem () true []])).map
      (fun s => (s.live, s.searching ())) = some ([⟨0, 7⟩, ⟨1, 8⟩],
        some ⟨1, .filter, [(⟨0, 7⟩, 2)], [⟨0, 7⟩], [⟨0, 7⟩, ⟨1, 8⟩], true⟩) := by decide +kernel
  obtain ⟨s, hs, hv⟩ := Option.map_eq_some_iff.1 hrun
  simp only [Prod.mk.injEq] at hv
  obtain ⟨hlive, hq⟩ := hv
  have hmem : ⟨1, 8⟩ ∈ s.live := by simp [hlive]
  have hreach : Reach Init (ofFn (step 1)) s := reach_of_runs (.start (init_load [7])) hs
  refine ⟨s, hreach, _, hq, rfl, by simp, hmem, by simp, fun hok => ?_⟩
  have hread := hok () _ hq (.inl rfl) ⟨1, 8⟩ (by simp) hmem
  simp at hread

end DiskANNEval.FreshDiskANN.MergeInsert
