import DiskANNEval.AiSAQ.Invariant
import DiskANNEval.AiSAQ.Pruned

/-!
# WellFormed — the adjacency lists of a dynamic `Index` over runs

An insert, a back link and a repair each replace a list by a good one (`Pruned`), and a good list
stays good when a point is added to it that was not in it.  The bound on the length is that of the
back links, `floor(GRAPH_SLACK_FACTOR * range)`, or that of a pruning pass, whichever is larger;
`consolidate_deletes` prunes to the `max_degree` it is given, which need not be the `range` of the
index.
-/

namespace DiskANNEval.AiSAQ

open Lib List Function

variable {Vec Tag D : Type}

/-- The slots of `S` have good lists. -/
def GoodGraph (bound : ℕ) (S : ℕ → Prop) (graph : Graph) : Prop :=
  ∀ k, S k → GoodList bound k (graph k)

theorem GoodGraph.update {b k : ℕ} {S : ℕ → Prop} {graph : Graph} (h : GoodGraph b S graph)
    {l : List ℕ} (hl : GoodList b k l) : GoodGraph b S (Function.update graph k l) := by
  intro i hi
  by_cases hik : i = k
  · subst hik
    rw [update_self]
    exact hl
  · rw [update_of_ne hik]
    exact h i hi

theorem foldlM_ok_keeps {α β : Type} {P : β → Prop} {f : β → α → Except Fault β} {l : List α} {b b' : β}
    (hf : ∀ b b', ∀ a ∈ l, P b → f b a = .ok b' → P b') (hb : P b) (h : l.foldlM f b = .ok b') :
    P b' := by
  induction l generalizing b with
  | nil =>
    cases h
    exact hb
  | cons a l ih =>
    rw [foldlM_cons] at h
    cases h1 : f b a with
    | error e =>
      rw [h1] at h
      cases h
    | ok b1 =>
      rw [h1] at h
      exact ih (fun c c' x hx => hf c c' x (mem_cons_of_mem _ hx))
        (hf b b1 a mem_cons_self hb h1) h

section Lists

variable {cfg : Config Vec D} {S : ℕ → Prop} {graph graph' : Graph} {data : DataStore Vec} {b : ℕ}

/-- The parameters of the index under which its own lists are good. -/
structure Config.PrunesTo (cfg : Config Vec D) (b : ℕ) : Prop where
  alpha : cfg.fl.BelowMax cfg.indexingAlpha
  range_le : cfg.indexingRange ≤ b
  slack_le : cfg.fl.slackDegree cfg.indexingRange ≤ b

variable {fuel : ℕ}

theorem goodList_searchForPointAndPrune (hα : cfg.fl.BelowMax cfg.indexingAlpha)
    (hS : Closed S graph) (hg : GoodGraph b S graph) {start location : ℕ}
    (hinit : ∀ i ∈ getInitIds cfg start, S i) {pruned : List ℕ}
    (h : searchForPointAndPrune cfg graph data start location fuel = .ok pruned) :
    GoodList cfg.indexingRange location pruned := by
  unfold searchForPointAndPrune at h
  cases hp : iterateToFixedPoint cfg graph (fun id => cfg.compare (data location) (data id))
      cfg.indexingQueueSize (getInitIds cfg start) fuel with
  | error e =>
    rw [hp] at h
    cases h
  | ok pool =>
    rw [hp] at h
    have hnd := nodup_iterateToFixedPoint hS (fun k hk => (hg k hk).nodup) hinit hp
    exact goodList_pruneNeighbors hα (hnd.sublist ((filter_sublist).map _)) h

theorem GoodGraph.linkBack (hc : cfg.PrunesTo b) (hg : GoodGraph b S graph) {n des : ℕ}
    (hdes : S des) (hne : n ≠ des) (h : linkBack cfg data n fuel graph des = .ok graph') :
    GoodGraph b S graph' := by
  simp only [DiskANNEval.AiSAQ.linkBack] at h
  have hold := hg des hdes
  split_ifs at h with h1 h2
  · cases h
    exact hg
  · cases h
    refine hg.update ⟨?_, ?_, ?_⟩
    · exact nodup_append.mpr ⟨hold.nodup, nodup_singleton _, fun i hi j hj hij =>
        h1 (mem_singleton.mp hj ▸ hij ▸ hi)⟩
    · intro hmem
      rcases mem_append.mp hmem with hmem | hmem
      · exact hold.no_self hmem
      · exact hne (mem_singleton.mp hmem).symm
    · rw [length_append]
      exact Nat.lt_of_lt_of_le h2 hc.slack_le
  · revert h
    cases hp : pruneNeighbors cfg data des _ fuel with
    | error e => exact fun h => by cases h
    | ok nbrs =>
      intro h
      cases h
      refine hg.update ((goodList_pruneNeighbors hc.alpha ?_ hp).mono hc.range_le)
      rw [ids, map_map]
      have hid : (fun x : Neighbor D => x.id) ∘ (fun nbr =>
          Neighbor.new nbr (cfg.compare (data des) (data nbr))) = id := rfl
      rw [hid, map_id]
      exact (nodup_eraseDups _).filter _

theorem GoodGraph.interInsert (hc : cfg.PrunesTo b) (hg : GoodGraph b S graph) {n : ℕ}
    {pruned : List ℕ} (hp : ∀ j ∈ pruned, S j) (hn : n ∉ pruned)
    (h : interInsert cfg data n pruned fuel graph = .ok graph') : GoodGraph b S graph' := by
  refine foldlM_ok_keeps (fun g g' des hdes hg hstep => ?_) hg h
  exact hg.linkBack hc (hp des hdes) (fun heq : n = des => hn (heq ▸ hdes)) hstep

theorem goodList_processDelete {deleted : List ℕ} {o : SetOrder} {p : DeleteParams D}
    (hα : cfg.fl.BelowMax p.alpha) (hrange : p.range ≤ b) {loc : ℕ}
    (hloc : GoodList b loc (graph loc)) {l : List ℕ}
    (h : processDelete cfg data graph deleted o p fuel loc = .ok l) : GoodList b loc l := by
  have hperm := o.perm (expandedNodes graph deleted loc)
  have hnd : (o.order (expandedNodes graph deleted loc)).Nodup :=
    hperm.nodup_iff.mpr (nodup_eraseDups _)
  unfold processDelete at h
  split_ifs at h with hm
  · simp only at h
    split_ifs at h with hr
    · cases h
      refine ⟨hnd, ?_, hr.trans hrange⟩
      rw [hperm.mem_iff, expandedNodes, mem_eraseDups, mem_flatMap]
      rintro ⟨ngh, hngh, hmem⟩
      split_ifs at hmem
      · exact (of_decide_eq_true (mem_filter.mp hmem).2).1 rfl
      · exact hloc.no_self (mem_singleton.mp hmem ▸ hngh)
    · refine (goodList_occludeList hα (nodup_ids_take_sortPool cfg.fl _ ?_) h).mono hrange
      rw [ids, map_map]
      exact (map_id _).symm ▸ hnd
  · cases h
    exact hloc

end Lists

namespace Index

section Runs

variable [DecidableEq Tag] [Zero Tag] {cfg : Config Vec D} {s s' : Index Vec Tag} {b : ℕ}

variable {k fuel : ℕ}

omit [DecidableEq Tag] [Zero Tag] in
theorem goodGraph_linkPoint {S S' : ℕ → Prop} (hc : cfg.PrunesTo b) (hS : Closed S s.graph)
    (hg : GoodGraph b S s.graph) (hinit : ∀ i ∈ getInitIds cfg s.start, S i)
    (hS' : ∀ j, S' j ↔ j = k ∨ S j) {g : Graph} (h : s.linkPoint cfg k fuel = .ok g) :
    GoodGraph b S' g := by
  unfold Index.linkPoint at h
  cases hp : searchForPointAndPrune cfg s.graph s.data s.start k fuel with
  | error e =>
    rw [hp] at h
    cases h
  | ok pruned =>
    rw [hp] at h
    have hgood := goodList_searchForPointAndPrune hc.alpha hS hg hinit hp
    have hlinks : GoodList b k
        (if cfg.concConsolidate then pruned.filter s.locationToTag.contains else pruned) := by
      apply GoodList.mono _ hc.range_le
      split_ifs
      · exact hgood.sublist filter_sublist
      · exact hgood
    have hstart : GoodGraph b S' (Function.update s.graph k
        (if cfg.concConsolidate then pruned.filter s.locationToTag.contains else pruned)) := by
      intro i hi
      by_cases hik : i = k
      · subst hik
        rw [update_self]
        exact hlinks
      · rw [update_of_ne hik]
        exact hg i (((hS' i).mp hi).resolve_left hik)
    refine hstart.interInsert hc (fun j hj => ?_) hgood.no_self h
    exact (hS' j).mpr (Or.inr (mem_searchForPointAndPrune hS hinit hp j hj))

variable (cfg) in
/-- The lists of the live, deleted and frozen slots are good. -/
structure GraphInv (b : ℕ) (s : Index Vec Tag) : Prop where
  inv : Inv cfg s
  good : GoodGraph b (s.Linked cfg) s.graph

variable {out : Outcome Tag}

theorem GraphInv.insertPoint (hc : cfg.PrunesTo b) (h : GraphInv cfg b s) {point : Vec} {tag : Tag}
    (hi : s.insertPoint cfg point tag fuel = some (out, s')) : GraphInv cfg b s' := by
  refine ⟨h.inv.insertPoint hi, ?_⟩
  unfold Index.insertPoint at hi
  split_ifs at hi with h0
  · cases hi
    exact h.good
  · rcases h.inv.slots.reserveLocation_cases rfl with hr | ⟨k, e, hpop, hr⟩
    · rw [hr] at hi
      cases hi
      exact h.good
    · rw [hr] at hi
      obtain ⟨hk, hslots⟩ := h.inv.slots.reserve hpop
      dsimp only at hi
      split_ifs at hi with ht
      · cases hrel : Index.releaseLocation k
            ({ s with emptySlots := e, nd := s.nd + 1 } : Index Vec Tag) with
        | none =>
          rw [hrel] at hi
          cases hi
        | some r =>
          obtain ⟨msg, s1⟩ := r
          obtain ⟨rfl, hs1, -⟩ := Slots.release hk hslots hrel
          rw [hrel] at hi
          cases hi
          subst hs1
          exact h.good
      · cases hl : Index.linkPoint cfg k fuel (Index.setPoint cfg k point tag
            ({ s with emptySlots := e, nd := s.nd + 1 } : Index Vec Tag)) with
        | ok g =>
          rw [hl] at hi
          cases hi
          exact goodGraph_linkPoint (s := Index.setPoint cfg k point tag
            ({ s with emptySlots := e, nd := s.nd + 1 } : Index Vec Tag)) hc h.inv.closed h.good
            h.inv.linked_initIds (fun j => linked_setPoint _ k j point tag) hl
        | error f =>
          rw [hl] at hi
          cases f with
          | stuck => cases hi
          | threw msg =>
            refine absurd hl (NoThrow.bind ?_ (fun _ _ => noThrow_interInsert _ _ _ _) msg)
            exact noThrow_searchForPointAndPrune h.inv.slots.initIds_lt

theorem GraphInv.setCompacted (h : GraphInv cfg b s) (c : Bool) :
    GraphInv cfg b { s with dataCompacted := c } :=
  ⟨h.inv.setCompacted c, h.good⟩

theorem GraphInv.deletePoint (h : GraphInv cfg b s) {tag : Tag}
    (ht : s.tagToLocation.lookup tag = some k) : GraphInv cfg b (s.deletePoint tag k) :=
  ⟨h.inv.deletePoint ht, fun i hi => h.good i ((h.inv.linked_deletePoint ht i).mp hi)⟩

theorem GraphInv.lazyDelete (h : GraphInv cfg b s) (tag : Tag) :
    GraphInv cfg b (s.lazyDelete tag).2 := by
  unfold Index.lazyDelete
  cases ht : s.tagToLocation.lookup tag with
  | none =>
    simp only [ht]
    exact h.setCompacted false
  | some k =>
    simp only [ht]
    exact (h.setCompacted false).deletePoint ht

theorem GraphInv.lazyDeleteBatch (h : GraphInv cfg b s) (tags : List Tag) :
    GraphInv cfg b (s.lazyDeleteBatch tags).2 := by
  have key : ∀ (tags : List Tag) (st : List Tag × Index Vec Tag), GraphInv cfg b st.2 →
      GraphInv cfg b (tags.foldl Index.lazyDeleteOne st).2 := by
    intro tags
    induction tags with
    | nil => exact fun _ h => h
    | cons tag tags ih =>
      intro st h
      apply ih
      unfold Index.lazyDeleteOne
      cases ht : st.2.tagToLocation.lookup tag with
      | none => exact h
      | some k => exact h.deletePoint ht
  exact key tags ([], _) (h.setCompacted false)

/-! ### `consolidate_deletes` -/

/-- The call has come to its end. -/
def IsSuccess (out : Outcome Tag) : Prop := ∃ r, out = .report r ∧ r.status = .success

variable {p : DeleteParams D} {lockFree : Bool} {order : SetOrder} {orders : ℕ → SetOrder}

theorem Inv.consolidateDeletes_cases (h : Inv cfg s)
    (hr : s.consolidateDeletes cfg p lockFree order orders fuel = some (out, s')) :
    (s' = s ∧ ¬ IsSuccess out) ∨ ∃ deleted st,
      (∀ k, k ∈ deleted ↔ k ∈ s.deleteSet) ∧
      processDeletes cfg { s with deleteSet := ∅ } deleted orders p fuel = .ok st ∧
      s' = { s with
        graph := st.1
        deleteSet := ∅
        emptySlots := s'.emptySlots
        nd := s'.nd } := by
  obtain ⟨hs, -, hout⟩ | ⟨st, -, hp, -, hs⟩ := h.slots.consolidateDeletes_cases hr
  · exact Or.inl ⟨hs, fun ⟨r, hrep, hst⟩ => hout r hrep hst⟩
  · exact Or.inr ⟨_, st, fun _ => mem_order, hp, hs⟩

omit [DecidableEq Tag] [Zero Tag] in
theorem goodGraph_processSlot {S : ℕ → Prop} {deleted : List ℕ} {loc : ℕ} {st st' : Graph × ℕ}
    (hα : cfg.fl.BelowMax p.alpha) (hrange : p.range ≤ b) (hg : GoodGraph b S st.1) (hloc : S loc)
    (h : processSlot cfg s deleted orders p fuel st loc = .ok st') : GoodGraph b S st'.1 := by
  unfold processSlot at h
  cases hl : processDelete cfg s.data st.1 deleted (orders loc) p fuel loc with
  | error e =>
    rw [hl] at h
    cases h
  | ok l =>
    rw [hl] at h
    cases h
    exact hg.update (goodList_processDelete hα hrange (hg loc hloc) hl)

theorem GraphInv.processDeletes (h : GraphInv cfg b s) {deleted : List ℕ} {st : Graph × ℕ}
    (hα : cfg.fl.BelowMax p.alpha) (hrange : p.range ≤ b)
    (hdel : ∀ k, k ∈ deleted ↔ k ∈ s.deleteSet)
    (hp : processDeletes cfg { s with deleteSet := ∅ } deleted orders p fuel = .ok st) :
    GoodGraph b (s.Linked cfg) st.1 := by
  unfold Index.processDeletes at hp
  cases h1 : (List.range cfg.maxPoints).foldlM (processIfUsed cfg
      ({ s with deleteSet := ∅ } : Index Vec Tag) deleted orders p fuel) (s.graph, 0) with
  | error e =>
    rw [h1] at hp
    cases hp
  | ok st1 =>
    rw [h1] at hp
    have hg1 : GoodGraph b (s.Linked cfg) st1.1 := by
      refine foldlM_ok_keeps (P := fun st : Graph × ℕ => GoodGraph b (s.Linked cfg) st.1)
        (fun st st' loc hloc hg hstep => ?_) h.good h1
      unfold processIfUsed at hstep
      split_ifs at hstep with hd
      · cases hstep
        exact hg
      · cases hb : s.emptySlots.isInSet loc with
        | none =>
          rw [hb] at hstep
          cases hstep
        | some c =>
          rw [hb] at hstep
          have hc := h.inv.slots.emptyOk.isInSet_eq hb
          cases c with
          | true =>
            cases hstep
            exact hg
          | false =>
            -- a slot that is neither deleted nor empty is live
            refine goodGraph_processSlot hα hrange hg ?_ hstep
            rcases h.inv.slots.covered loc (List.mem_range.mp hloc) with hh | hl | hh | he
            · exact absurd hh (Finset.notMem_empty _)
            · exact Or.inl hl
            · exact absurd ((hdel loc).mpr hh) hd
            · exact absurd (hc.mpr he) Bool.false_ne_true
    refine foldlM_ok_keeps (P := fun st : Graph × ℕ => GoodGraph b (s.Linked cfg) st.1)
      (fun st st' loc hloc hg hstep => ?_) hg1 hp
    exact goodGraph_processSlot hα hrange hg (Or.inr (Or.inr ((cfg.mem_frozen loc).mp hloc))) hstep

omit [DecidableEq Tag] [Zero Tag] in
theorem linked_consolidated {deleted : Finset ℕ} {g : Graph} {e : NaturalNumberSet} {n : ℕ}
    (hd : deleted = ∅)
    (h : ({ s with graph := g, deleteSet := deleted, emptySlots := e, nd := n } : Index Vec Tag).Linked cfg k) :
    s.Live k ∨ cfg.IsFrozen k := by
  rcases h with hl | hk | hf
  · exact Or.inl hl
  · exact absurd (show k ∈ deleted from hk) (hd ▸ Finset.notMem_empty k)
  · exact Or.inr hf

theorem GraphInv.consolidateDeletes (h : GraphInv cfg b s) (hα : cfg.fl.BelowMax p.alpha)
    (hrange : p.range ≤ b)
    (hr : s.consolidateDeletes cfg p lockFree order orders fuel = some (out, s')) :
    GraphInv cfg b s' := by
  refine ⟨h.inv.consolidateDeletes hr, ?_⟩
  rcases h.inv.consolidateDeletes_cases hr with ⟨rfl, -⟩ | ⟨deleted, st, hdel, hp, hs'⟩
  · exact h.good
  · have hg := h.processDeletes hα hrange hdel hp
    rw [hs']
    intro k hk
    refine hg k ?_
    rcases linked_consolidated rfl hk with hl | hf
    · exact Or.inl hl
    · exact Or.inr (Or.inr hf)

theorem Inv.notMem_deleteSet (h : Inv cfg s)
    (hr : s.consolidateDeletes cfg p lockFree order orders fuel = some (out, s'))
    (hout : IsSuccess out) (hk : s'.Linked cfg k) : ∀ j ∈ s'.graph k, j ∉ s.deleteSet := by
  intro j hj hd
  have hlinked := (h.consolidateDeletes hr).closed k hk j hj
  rcases h.consolidateDeletes_cases hr with ⟨-, hno⟩ | ⟨deleted, st, hdel, hp, hs'⟩
  · exact hno hout
  · rw [hs'] at hlinked
    rcases linked_consolidated rfl hlinked with hl | hf
    · exact (h.slots.live_free j hl).1 hd
    · have hlt := h.slots.deleted_lt j hd
      have hle := hf.1
      omega

/-! ### `compact_data` -/

theorem GraphInv.goodList_renamed (h : GraphInv cfg b s) (hd : s.deleteSet = ∅)
    (hk : s.Linked cfg k) : GoodList b (s.newLocation cfg k) (s.renamed cfg (s.graph k)) := by
  have hkept : ∀ j, s.Linked cfg j → s.Kept cfg j := by
    rintro j (hl | hdel | hf)
    · exact h.inv.slots.kept hl
    · exact absurd (hd ▸ hdel) (Finset.notMem_empty j)
    · exact Or.inr hf.1
  have hnbr : ∀ j ∈ s.graph k, s.Kept cfg j := fun j hj => hkept j (h.inv.closed k hk j hj)
  have hgood := h.good k hk
  rw [renamed]
  refine ⟨?_, ?_, ?_⟩
  · refine Nodup.map_on (fun i hi j hj hij => ?_) (hgood.nodup.filter _)
    exact newLocation_inj (hnbr i (mem_filter.mp hi).1) (hnbr j (mem_filter.mp hj).1) hij
  · intro hmem
    obtain ⟨j, hj, heq⟩ := mem_map.mp hmem
    have hj := (mem_filter.mp hj).1
    exact hgood.no_self (newLocation_inj (hnbr j hj) (hkept k hk) heq ▸ hj)
  · rw [length_map]
    exact (length_filter_le _ _).trans hgood.length_le

theorem GraphInv.compactSlots (h : GraphInv cfg b s) (hd : s.deleteSet = ∅) :
    GraphInv cfg b (s.compactSlots cfg) := by
  refine ⟨h.inv.compactSlots hd, fun k hk => ?_⟩
  rcases hk with hl | hdel | hf
  · obtain ⟨o, ho, rfl⟩ := h.inv.slots.exists_newLocation hd
      ((h.inv.slots.live_compactSlots hd k).mp hl)
    have hlt : o < cfg.totalPoints :=
      lt_of_lt_of_le (h.inv.slots.live_lt o ho) (Nat.le_add_right _ _)
    rw [(h.inv.slots.compactSlots_kept (h.inv.slots.kept ho) hlt).1]
    exact h.goodList_renamed hd (Or.inl ho)
  · exact absurd (show k ∈ s.deleteSet from hdel) (hd ▸ Finset.notMem_empty k)
  · have hgraph := (h.inv.slots.compactSlots_kept (Or.inr hf.1) hf.2).1
    have hgood := h.goodList_renamed hd (Or.inr (Or.inr hf))
    rw [newLocation_frozen hf.1] at hgraph hgood
    rw [hgraph]
    exact hgood

theorem GraphInv.compactData (h : GraphInv cfg b s) : GraphInv cfg b (s.compactData cfg).2 := by
  unfold Index.compactData
  split_ifs with h1 h2 h3
  · exact h
  · exact h
  · exact h
  · exact h.compactSlots (Finset.card_eq_zero.mp (by omega))

/-! ### Runs -/

/-- The pruning that a call asks for: `max_degree` at most `n`, `alpha` below `FLT_MAX`. -/
def Call.PrunesTo (fl : FloatOps D) (n : ℕ) : Call Vec Tag D → Prop
  | .consolidateDeletes p _ _ _ _ => p.range ≤ n ∧ fl.BelowMax p.alpha
  | _ => True

theorem GraphInv.call (hc : cfg.PrunesTo b) (h : GraphInv cfg b s) {a : Call Vec Tag D} {n : ℕ}
    (ha : a.PrunesTo cfg.fl n) (hn : n ≤ b) (hcall : s.call cfg a = some (out, s')) :
    GraphInv cfg b s' := by
  cases a with
  | insertPoint point tag fuel => exact h.insertPoint hc hcall
  | lazyDelete tag =>
    rw [← (Prod.mk.inj (Option.some.inj hcall)).2]
    exact h.lazyDelete tag
  | lazyDeleteBatch tags =>
    rw [← (Prod.mk.inj (Option.some.inj hcall)).2]
    exact h.lazyDeleteBatch tags
  | consolidateDeletes p lockFree order orders fuel =>
    exact h.consolidateDeletes ha.2 (ha.1.trans hn) hcall
  | compactData =>
    rw [← (Prod.mk.inj (Option.some.inj hcall)).2]
    exact h.compactData

variable (cfg) in
/-- The length that a list may have in a run that prunes to `n`. -/
def degreeBound (n : ℕ) : ℕ :=
  max n (max cfg.indexingRange (cfg.fl.slackDegree cfg.indexingRange))

variable (cfg) in
/-- The lists of the live, deleted and frozen slots are good, and lead to such slots. -/
structure WellFormed (b : ℕ) (s : Index Vec Tag) : Prop where
  good : ∀ k, s.Linked cfg k → GoodList b k (s.graph k)
  linked : ∀ k, s.Linked cfg k → ∀ j ∈ s.graph k, s.Linked cfg j

variable (cfg) in
/-- After a call of `consolidate_deletes` that comes to its end, no list of a live or frozen slot
leads to a slot that was deleted before. -/
def Repairs (s : Index Vec Tag) : Prop :=
  ∀ (p : DeleteParams D) lockFree order orders fuel out s',
    s.consolidateDeletes cfg p lockFree order orders fuel = some (out, s') → IsSuccess out →
      ∀ k, s'.Linked cfg k → ∀ j ∈ s'.graph k, j ∉ s.deleteSet

theorem wellFormed_of_run (hα : cfg.fl.BelowMax cfg.indexingAlpha) {n : ℕ}
    (h : Reach (fun s => ∃ points, s = init cfg points)
      (guarded (fun _ a => a.PrunesTo cfg.fl n) (step cfg)) s) :
    WellFormed cfg (degreeBound cfg n) s ∧ Repairs cfg s := by
  have hc : cfg.PrunesTo (degreeBound cfg n) :=
    ⟨hα, (le_max_left _ _).trans (le_max_right _ _), (le_max_right _ _).trans (le_max_right _ _)⟩
  have hinv : GraphInv cfg (degreeBound cfg n) s := by
    refine Reach.invariant (P := GraphInv cfg (degreeBound cfg n)) ?_ ?_ h
    · rintro s ⟨points, rfl⟩
      exact ⟨Inv.init points, fun k _ => goodList_nil _ k⟩
    · rintro s a s' hs ⟨ha, out, hcall⟩
      exact hs.call hc ha (le_max_left _ _) hcall
  refine ⟨⟨hinv.good, hinv.inv.closed⟩, ?_⟩
  intro p lockFree order orders fuel out s' hr hout k hk
  exact hinv.inv.notMem_deleteSet hr hout hk

theorem belowMax_one : natConfig.fl.BelowMax 1 := by
  constructor
  · decide
  · intro c hc
    have hc : c ≤ 1 := of_decide_eq_true hc
    exact decide_eq_true (show c < 1000 by omega)

theorem wellFormed_after_insert : ∃ s : Index ℕ ℕ, s.nd = 1 ∧
    WellFormed natConfig (degreeBound natConfig 2) s ∧ Repairs natConfig s := by
  have h1 : ((init natConfig id : Index ℕ ℕ).call natConfig (.insertPoint 7 5 20)).map
      (fun r => r.2.nd) = some 1 := by decide
  obtain ⟨⟨out, s⟩, hs, hnd⟩ := Option.map_eq_some_iff.mp h1
  exact ⟨s, hnd, wellFormed_of_run belowMax_one
    (.next (a := .insertPoint 7 5 20) (.start ⟨id, rfl⟩) ⟨trivial, out, hs⟩)⟩

/-- Capacity `4`. -/
def lineConfig : Config ℕ ℕ := { natConfig with
  maxPoints := 4
  maxPoints_pos := by decide
  numFrozenPts_pos := by decide
  totalPoints_lt := by decide }

/-- Capacity `2`, with an `alpha` above `maxValue`. -/
def hugeAlphaConfig : Config ℕ ℕ := { natConfig with
  indexingAlpha := 2000
  maxPoints_pos := by decide
  numFrozenPts_pos := by decide
  totalPoints_lt := by decide }

/-- Four inserts, a delete and a `consolidate_deletes` with `max_degree = 8`. -/
def lineCalls : List (Call ℕ ℕ ℕ) :=
  [.insertPoint 1 1 8, .insertPoint 1 2 8, .insertPoint 2 3 8, .insertPoint 1 4 8, .lazyDelete 2,
    .consolidateDeletes ⟨8, 8, 1⟩ true .asIs (fun _ => .asIs) 8]

theorem reachable_runs {cfg : Config ℕ ℕ} {as : List (Call ℕ ℕ ℕ)} {s : Index ℕ ℕ}
    (h : runs (fun s a => (s.call cfg a).map Prod.snd) (init cfg fun _ => 0 : Index ℕ ℕ) as =
      some s) : Reachable cfg s := by
  refine (reach_of_runs (.start ⟨fun _ => 0, rfl⟩) h).mono fun s a s' hstep => ?_
  obtain ⟨⟨out, s1⟩, hs1, rfl⟩ := Option.map_eq_some_iff.mp hstep
  exact ⟨out, hs1⟩

/-- A repair makes a list of three where `max(range, floor(slack * range))` is two; with an `alpha`
above `FLT_MAX` an insert chooses one neighbour twice. -/
theorem long_list_and_double_neighbour :
    (∃ s : Index ℕ ℕ, Reachable lineConfig s ∧ ∃ k, s.Linked lineConfig k ∧
      max lineConfig.indexingRange (lineConfig.fl.slackDegree lineConfig.indexingRange) <
        (s.graph k).length) ∧
    ∃ s : Index ℕ ℕ, Reachable hugeAlphaConfig s ∧ ∃ k, s.Linked hugeAlphaConfig k ∧
      ¬ (s.graph k).Nodup := by
  have h1 : (runs (fun s a => (s.call lineConfig a).map Prod.snd)
      (init lineConfig fun _ => 0 : Index ℕ ℕ) lineCalls).map
      (fun s => (decide (s.Live 3), s.graph 3)) = some (true, [4, 0, 1]) := by decide +kernel
  have h2 : (runs (fun s a => (s.call hugeAlphaConfig a).map Prod.snd)
      (init hugeAlphaConfig fun _ => 0 : Index ℕ ℕ) [.insertPoint 7 5 20]).map
      (fun s => (decide (s.Live 1), s.graph 1)) = some (true, [2, 2]) := by decide +kernel
  obtain ⟨s, hs, hv⟩ := Option.map_eq_some_iff.mp h1
  obtain ⟨s', hs', hv'⟩ := Option.map_eq_some_iff.mp h2
  simp only [Prod.mk.injEq, decide_eq_true_eq] at hv hv'
  refine ⟨⟨s, reachable_runs hs, 3, Or.inl hv.1, ?_⟩, s', reachable_runs hs', 1, Or.inl hv'.1, ?_⟩
  · rw [hv.2]
    decide
  · rw [hv'.2]
    decide

end Runs

end Index

end DiskANNEval.AiSAQ
