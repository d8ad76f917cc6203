import DiskANNEval.Lib.Parallel
import DiskANNEval.PipeANN.MemIndexEntry

/-!
# MemIndexConsolidated — the lists after `consolidate`

The iterations that update the lists run side by side.  One reads its own list and the lists of
locations without a tag, which no iteration writes, so the order of their steps does not matter
(`cells_updatedGraph`).  No list of an index has its own node (`Reach.noLoops`), and `consolidate`
keeps it so.
-/

namespace DiskANNEval.PipeANN.MemIndex

open Lib List Option

variable {D Vec Tag : Type} {c : MemConfig D Vec Tag} {p : MemParams D} {s s' : MemIndex Vec Tag}

/-! ### The iterations -/

section Iterations

variable (c p s)

/-- The list of an iteration that has collected `nbrs`. -/
def remapped (id : ℕ) (nbrs : List ℕ) : List ℕ :=
  let nbrs := c.setOrder nbrs.dedup
  let nbrs := if p.pruning.R < nbrs.length then
      s.pruneNeighbors c p (nbrs.map fun nbr => .new nbr (c.compare (s.data id) (s.data nbr)) true) nbrs
    else nbrs
  nbrs.map fun nbr => (s.idMap nbr).getD invalidId

/-- The loop over the neighbours of `id`, with those it has put into `new_nbrs_set`. -/
def collect (id : ℕ) : List ℕ → List ℕ → Iteration ℕ (List ℕ)
  | [], new => .write (s.remapped c p id new)
  | nbr :: nbrs, new =>
    if (s.idMap nbr).isSome then collect id nbrs (new ++ [nbr])
    else .read nbr fun nbrsOfNbr =>
      collect id nbrs (new ++ nbrsOfNbr.filter fun n => (s.idMap n).isSome ∧ n ≠ id)

/-- The iterations of the loop over `old_id`. -/
def updateLists : Parallel ℕ (List ℕ) where
  cells := s.finalGraph
  running id :=
    if (s.idMap id).isSome then some (.read id fun nbrs => s.collect c p id nbrs []) else none

end Iterations

theorem result_collect (id : ℕ) (nbrs new : List ℕ) :
    (s.collect c p id nbrs new).result s.finalGraph = s.remapped c p id (new ++
      nbrs.flatMap fun nbr => if (s.idMap nbr).isSome then [nbr]
        else (s.finalGraph nbr).filter fun n => (s.idMap n).isSome ∧ n ≠ id) := by
  induction nbrs generalizing new with
  | nil => rw [collect, Iteration.result, flatMap_nil, append_nil]
  | cons nbr nbrs ih =>
    rw [collect, flatMap_cons]
    split_ifs with hnbr
    · rw [ih, append_assoc]
    · rw [Iteration.result, ih, append_assoc]

theorem readsIn_collect (id : ℕ) (nbrs new : List ℕ) :
    (s.collect c p id nbrs new).ReadsIn ((s.updateLists c p).Own id) := by
  induction nbrs generalizing new with
  | nil => exact trivial
  | cons nbr nbrs ih =>
    rw [collect]
    split_ifs with hnbr
    · exact ih _
    · exact ⟨.inr (if_neg hnbr), fun a => ih _⟩

theorem cells_updatedGraph {t : Parallel ℕ (List ℕ)}
    (h : Lib.Reach (· = s.updateLists c p) (ofFn Parallel.step) t) (hend : ∀ i, t.running i = none) :
    t.cells = s.updatedGraph c p := by
  funext id
  rw [Parallel.cells_of_reach (fun i it hi => ?_) h hend]
  · rw [updateLists, updatedGraph]
    dsimp only
    split_ifs with hid
    · rw [map_some, Iteration.result, result_collect]
      rfl
    · rfl
  · have hi' : (if (s.idMap i).isSome then
        some (.read i fun nbrs => s.collect c p i nbrs []) else none) = some it := hi
    split_ifs at hi'
    cases hi'
    exact ⟨.inl rfl, fun a => readsIn_collect i a []⟩

/-! ### Lists without their own node -/

def NoLoops (s : MemIndex Vec Tag) : Prop := ∀ i, i ∉ s.finalGraph i

theorem NoLoops.setNbrs (h : s.NoLoops) {id : ℕ} {nbrs : List ℕ} (hid : id ∉ nbrs) :
    (s.setNbrs id nbrs).NoLoops := by
  intro i hi
  have hi' : i ∈ Function.update s.finalGraph id nbrs i := hi
  by_cases he : i = id
  · rw [he, Function.update_self] at hi'
    exact hid hi'
  · rw [Function.update_of_ne he] at hi'
    exact h i hi'

theorem notMem_pruneNeighbors {pool : List (Neighbor D)} {id : ℕ}
    (h : id ∉ pool.map Neighbor.id) : id ∉ s.pruneNeighbors c p pool [] :=
  fun hid => h ((mem_pruneNeighbors hid).resolve_left not_mem_nil)

theorem notMem_nbrPool (id : ℕ) (nbrs : List ℕ) : id ∉ (s.nbrPool c id nbrs).map Neighbor.id := by
  rw [map_id_nbrPool]
  simp

theorem NoLoops.interInsertAt (h : s.NoLoops) {n des : ℕ} (hne : des ≠ n) :
    (s.interInsertAt c p n des).NoLoops := by
  rw [MemIndex.interInsertAt]
  split_ifs
  · exact h
  · refine h.setNbrs fun hmem => ?_
    rcases mem_append.1 hmem with hmem | hmem
    · exact h des hmem
    · exact hne (mem_singleton.1 hmem)
  · exact h.setNbrs (notMem_pruneNeighbors (notMem_nbrPool des _))

theorem NoLoops.interInsert (h : s.NoLoops) {n : ℕ} {prunedList : List ℕ} (hn : n ∉ prunedList) :
    (s.interInsert c p n prunedList).NoLoops := by
  induction prunedList generalizing s with
  | nil => exact h
  | cons des prunedList ih =>
    rw [mem_cons, not_or] at hn
    exact ih (h.interInsertAt (Ne.symm hn.1)) hn.2

theorem NoLoops.cleanup (h : s.NoLoops) (node : ℕ) : (s.cleanup c p node).NoLoops := by
  rw [MemIndex.cleanup]
  split_ifs
  · exact h.setNbrs (notMem_pruneNeighbors (notMem_nbrPool node _))
  · exact h

section Linking

variable [LinearOrder D] [Zero D]

theorem NoLoops.linkNode (h : s.NoLoops) {node : ℕ} (hs : s.linkNode c p node = some s') :
    s'.NoLoops := by
  obtain ⟨pool, -, hs⟩ := bind_eq_some_iff.1 hs
  cases hs
  have hnode : node ∉ s.pruneNeighbors c p (pool.filter fun n => n.id ≠ node) [] := by
    refine notMem_pruneNeighbors fun hmem => ?_
    obtain ⟨n, hn, he⟩ := mem_map.1 hmem
    have hne := (mem_filter.1 hn).2
    rw [decide_eq_true_eq] at hne
    exact hne he
  exact (h.setNbrs hnode).interInsert hnode

theorem NoLoops.link (h : s.NoLoops) {order : List ℕ} (hs : s.link c p order = some s') :
    s'.NoLoops := by
  obtain ⟨s₁, hs₁, hs⟩ := bind_eq_some_iff.1 hs
  cases hs
  have hlinked : ∀ (order : List ℕ) (s₀ : MemIndex Vec Tag), s₀.NoLoops →
      ∀ s₁, order.foldlM (fun s node => s.linkNode c p node) s₀ = some s₁ → s₁.NoLoops := by
    intro order
    induction order with
    | nil =>
      intro s₀ h₀ s₁ hs₁
      cases hs₁
      exact h₀
    | cons node order ih =>
      intro s₀ h₀ s₁ hs₁
      obtain ⟨s₂, hs₂, hs₁⟩ := bind_eq_some_iff.1 hs₁
      exact ih s₂ (h₀.linkNode hs₂) s₁ hs₁
  have h₀ : NoLoops { s with ep := s.calculateEntryPoint c } := h
  exact foldlRecOn (motive := NoLoops) _ _ (hlinked order _ h₀ s₁ hs₁)
    fun _ hs node _ => hs.cleanup node

end Linking

/-! ### The new lists -/

variable {id n : ℕ}

theorem mem_nbrSet : n ∈ s.nbrSet c id ↔ (s.idMap n).isSome = true ∧ (n ∈ s.finalGraph id ∨
    n ≠ id ∧ ∃ d ∈ s.finalGraph id, s.idMap d = none ∧ n ∈ s.finalGraph d) := by
  rw [nbrSet, (c.setOrder_perm _).mem_iff, mem_dedup, mem_flatMap]
  constructor
  · rintro ⟨nbr, hnbr, hn⟩
    split_ifs at hn with hsome
    · rw [mem_singleton.1 hn]
      exact ⟨hsome, .inl hnbr⟩
    · obtain ⟨hn, hcond⟩ := mem_filter.1 hn
      rw [decide_eq_true_eq] at hcond
      exact ⟨hcond.1, .inr ⟨hcond.2, nbr, hnbr, by simpa using hsome, hn⟩⟩
  · rintro ⟨hsome, hn | ⟨hne, d, hd, hnone, hn⟩⟩
    · exact ⟨n, hn, by rw [if_pos hsome]; exact mem_singleton_self n⟩
    · refine ⟨d, hd, ?_⟩
      rw [hnone, if_neg (by simp), mem_filter, decide_eq_true_eq]
      exact ⟨hn, hsome, hne⟩

theorem nodup_nbrSet : (s.nbrSet c id).Nodup :=
  (c.setOrder_perm _).nodup_iff.2 (nodup_dedup _)

variable (c p s) in
/-- The neighbours that are left, by their old numbers. -/
def prunedSet (id : ℕ) : List ℕ :=
  if p.pruning.R < (s.nbrSet c id).length then
    s.pruneNeighbors c p
      ((s.nbrSet c id).map fun nbr => .new nbr (c.compare (s.data id) (s.data nbr)) true)
      (s.nbrSet c id)
  else s.nbrSet c id

theorem newNbrs_eq : s.newNbrs c p id = (s.prunedSet c p id).map fun nbr => (s.idMap nbr).getD invalidId :=
  rfl

theorem prunedSet_spec : (∀ n ∈ s.prunedSet c p id, n ∈ s.nbrSet c id) ∧
    (s.prunedSet c p id).Nodup ∧ (s.prunedSet c p id).length ≤ p.pruning.R := by
  rw [prunedSet]
  split_ifs with hlen
  · have hids : ((s.nbrSet c id).map fun nbr =>
        Neighbor.new nbr (c.compare (s.data id) (s.data nbr)) true).map Neighbor.id =
        s.nbrSet c id := by
      rw [List.map_map]
      exact map_id _
    have hne : ((s.nbrSet c id).map fun nbr =>
        Neighbor.new nbr (c.compare (s.data id) (s.data nbr)) true) ≠ [] := by
      intro hnil
      rw [map_eq_nil_iff] at hnil
      rw [hnil] at hlen
      exact absurd hlen (Nat.not_lt_zero _)
    have hok := Pruning.listOk_pruneNeighbors
      (c := { p.pruning with dist := fun a b => c.compare (s.data a) (s.data b) }) hne (s.nbrSet c id)
    refine ⟨fun n hn => ?_, hok.nodup (hids.symm ▸ nodup_nbrSet), hok.length_le⟩
    obtain ⟨x, hx, rfl⟩ := hok.mem n hn
    exact hids ▸ mem_map_of_mem hx
  · exact ⟨fun _ hn => hn, nodup_nbrSet, Nat.not_lt.1 hlen⟩

theorem mem_newNbrs {m : ℕ} :
    m ∈ s.newNbrs c p id ↔ ∃ nbr ∈ s.prunedSet c p id, s.idMap nbr = some m := by
  rw [newNbrs_eq, List.mem_map]
  refine exists_congr fun nbr => and_congr_right fun hnbr => ?_
  obtain ⟨k, hk⟩ := isSome_iff_exists.1 (mem_nbrSet.1 (prunedSet_spec.1 nbr hnbr)).1
  rw [hk, getD_some, Option.some.injEq]

theorem nodup_newNbrs : (s.newNbrs c p id).Nodup := by
  refine prunedSet_spec.2.1.map_on fun a ha b hb hab => ?_
  obtain ⟨k, hk⟩ := isSome_iff_exists.1 (mem_nbrSet.1 (prunedSet_spec.1 a ha)).1
  obtain ⟨l, hl⟩ := isSome_iff_exists.1 (mem_nbrSet.1 (prunedSet_spec.1 b hb)).1
  rw [hk, hl, getD_some] at hab
  exact idMap_inj hk (hab ▸ hl)

theorem prunedSet_of_live (hlen : (s.finalGraph id).length ≤ p.pruning.R)
    (hlive : ∀ nbr ∈ s.finalGraph id, (s.idMap nbr).isSome = true) (nbr : ℕ) :
    nbr ∈ s.prunedSet c p id ↔ nbr ∈ s.finalGraph id := by
  have hset : ∀ n, n ∈ s.nbrSet c id ↔ n ∈ s.finalGraph id := by
    intro n
    rw [mem_nbrSet]
    constructor
    · rintro ⟨-, hn | ⟨-, d, hd, hnone, -⟩⟩
      · exact hn
      · have hsome := hlive d hd
        rw [hnone] at hsome
        cases hsome
    · exact fun hn => ⟨hlive n hn, .inl hn⟩
  have hsub : (s.nbrSet c id).length ≤ (s.finalGraph id).length :=
    (nodup_nbrSet.subperm fun n hn => (hset n).1 hn).length_le
  rw [prunedSet, if_neg (by omega)]
  exact hset nbr

section Compacted

variable [DecidableEq Tag]

theorem finalGraph_compacted (h : s.idMap id = some n) :
    (s.compacted c p).finalGraph n = s.newNbrs c p id := by
  show (if n < s.newNd then s.compact (s.updatedGraph c p) n else []) = _
  rw [if_pos (idMap_lt h), compact_eq _ h, updatedGraph, if_pos (by rw [h]; rfl)]

theorem NoLoops.compacted (h : s.NoLoops) : (s.compacted c p).NoLoops := by
  intro n hn
  obtain ⟨id, hid⟩ := exists_idMap (lt_newNd_of_mem_compacted hn).1
  rw [finalGraph_compacted hid] at hn
  obtain ⟨nbr, hnbr, hnew⟩ := mem_newNbrs.1 hn
  obtain rfl := idMap_inj hnew hid
  rcases (mem_nbrSet.1 (prunedSet_spec.1 nbr hnbr)).2 with hmem | ⟨hne, -⟩
  · exact h nbr hmem
  · exact hne rfl

variable [LinearOrder D] [Zero D]

theorem Reach.noLoops (hr : Reach c s) : s.NoLoops := by
  induction hr with
  | fresh => exact fun _ h => absurd h not_mem_nil
  | build htags horder h =>
    rw [MemIndex.build] at h
    split_ifs at h
    all_goals
      obtain ⟨s₁, hs₁, h⟩ := bind_eq_some_iff.1 h
      have hlinked : s₁.NoLoops :=
        NoLoops.link (fun _ h => absurd h not_mem_nil) hs₁
      cases h
      exact hlinked
  | insert _ h ih =>
    rename_i s s' p point tag loc _
    rw [insertPoint] at h
    split_ifs at h
    have hdrop : (s.dropTag tag).NoLoops := by
      rw [MemIndex.dropTag]
      split
      · exact ih
      · exact ih
    have hgrow : ((s.dropTag tag).grow c).NoLoops := by
      rw [MemIndex.grow]
      split_ifs
      · intro i hi
        have hi' : i ∈ if i < (s.dropTag tag).maxPoints then (s.dropTag tag).finalGraph i else [] := hi
        split_ifs at hi'
        · exact hdrop i hi'
        · exact absurd hi' not_mem_nil
      · exact hdrop
    exact NoLoops.linkNode (s := (((s.dropTag tag).grow c).reserveLocation loc).addPoint c point tag loc)
      hgrow h
  | delete _ ih =>
    rw [lazyDelete, MemIndex.dropTag]
    split
    · exact ih
    · exact ih
  | consolidate hs h ih =>
    rename_i s s' p
    by_cases hdel : s.deleteSet = ∅
    · rw [MemIndex.consolidate, if_pos hdel] at h
      cases h
      exact ih
    · obtain ⟨ep, hc, -, -⟩ := hs.inv.exists_consolidate (c := c) hdel
      rw [h, Option.some.injEq] at hc
      rw [hc]
      exact ih.compacted

/-! ### What `consolidate` keeps -/

/-- The index `s'` after `consolidate`: the points have kept their tags and vectors, the live locations
are the first ones and the others are free, and the lists have been brought to the new numbers. -/
structure Consolidated (p : MemParams D) (s s' : MemIndex Vec Tag) : Prop where
  maxPoints : s'.maxPoints = s.maxPoints
  tags : ∀ t, s'.tagToLocation t = (s.tagToLocation t).bind s.idMap
  vectors : ∀ t, (s'.tagToLocation t).map s'.data = (s.tagToLocation t).map s.data
  live : ∀ i, (s'.locationToTag i).isSome = true ↔ i < s'.nd
  free : s'.emptySlots = Finset.Ico s'.nd s'.maxPoints
  deleted : s'.deleteSet = ∅
  nbrs : ∀ i, ∀ n ∈ s'.finalGraph i, i < s'.nd ∧ n < s'.nd ∧ n ≠ i
  nodup : ∀ i, (s'.finalGraph i).Nodup
  length_le : ∀ i, (s'.finalGraph i).length ≤ p.pruning.R
  renumbered : ∀ id i, s.idMap id = some i → ∀ n ∈ s'.finalGraph i, ∃ nbr, s.idMap nbr = some n ∧
    (nbr ∈ s.finalGraph id ∨ ∃ d ∈ s.finalGraph id, s.idMap d = none ∧ nbr ∈ s.finalGraph d)
  kept : ∀ id i, s.idMap id = some i → (s.finalGraph id).length ≤ p.pruning.R →
    (∀ nbr ∈ s.finalGraph id, (s.idMap nbr).isSome = true) →
    ∀ n, n ∈ s'.finalGraph i ↔ ∃ nbr ∈ s.finalGraph id, s.idMap nbr = some n

omit [LinearOrder D] [Zero D] in
theorem Inv.consolidated_compacted (h : s.Inv) (hloops : s.NoLoops) :
    Consolidated p s (s.compacted c p) where
  maxPoints := rfl
  tags _ := rfl
  vectors t := by
    show ((s.tagToLocation t).bind s.idMap).map (s.compact s.data) = _
    cases hloc : s.tagToLocation t with
    | none => rfl
    | some i =>
      have htag := (h.tagged i t).2 hloc
      have hi : s.idMap i = some (s.newId i) :=
        idMap_eq_some.2 ⟨h.tagged_lt i t htag, by rw [htag]; rfl, rfl⟩
      rw [bind_some, hi, map_some, map_some, compact_eq _ hi]
  live _ := h.isSome_compacted
  free := rfl
  deleted := rfl
  nbrs i n hn := by
    obtain ⟨hi, hn'⟩ := lt_newNd_of_mem_compacted hn
    exact ⟨hi, hn', fun he => hloops.compacted i (he ▸ hn)⟩
  nodup i := by
    by_cases hi : i < s.newNd
    · obtain ⟨id, hid⟩ := exists_idMap hi
      rw [finalGraph_compacted hid]
      exact nodup_newNbrs
    · show (if i < s.newNd then s.compact (s.updatedGraph c p) i else []).Nodup
      rw [if_neg hi]
      exact nodup_nil
  length_le i := by
    by_cases hi : i < s.newNd
    · obtain ⟨id, hid⟩ := exists_idMap hi
      rw [finalGraph_compacted hid, newNbrs_eq, length_map]
      exact prunedSet_spec.2.2
    · show (if i < s.newNd then s.compact (s.updatedGraph c p) i else []).length ≤ _
      rw [if_neg hi]
      exact Nat.zero_le _
  renumbered id i hid n hn := by
    rw [finalGraph_compacted hid] at hn
    obtain ⟨nbr, hnbr, hn⟩ := mem_newNbrs.1 hn
    exact ⟨nbr, hn, (mem_nbrSet.1 (prunedSet_spec.1 nbr hnbr)).2.imp_right And.right⟩
  kept id i hid hlen hlive n := by
    rw [finalGraph_compacted hid, mem_newNbrs]
    exact exists_congr fun nbr => and_congr_left fun _ => prunedSet_of_live hlen hlive nbr

/-- In every index with deletions the iterations of `consolidate` leave the same lists in each order
of their steps, and `consolidate` returns a consolidated index. -/
theorem consolidated_of_reach (c : MemConfig D Vec Tag) (p : MemParams D) (s : MemIndex Vec Tag)
    (hr : Reach c s) (hdel : s.deleteSet ≠ ∅) :
    (∀ t : Parallel ℕ (List ℕ), Lib.Reach (· = s.updateLists c p) (ofFn Parallel.step) t →
      (∀ i, t.running i = none) → t.cells = s.updatedGraph c p) ∧
      ∃ s', s.consolidate c p = some s' ∧ Consolidated p s s' := by
  refine ⟨fun t ht hend => cells_updatedGraph ht hend, ?_⟩
  obtain ⟨ep, hc, -, -⟩ := hr.inv.exists_consolidate (c := c) (p := p) hdel
  exact ⟨_, hc, { hr.inv.consolidated_compacted hr.noLoops with }⟩

/-- In every run the tags and the locations stay inverse, each location is free, deleted or tagged, and
no list leaves the arrays or has its own node. -/
theorem kept_of_reach (hr : Reach c s) : s.Inv ∧ s.NoLoops := ⟨hr.inv, hr.noLoops⟩

theorem kept_middleLeft : ∃ s, middleLeft = some s ∧ s.Inv ∧ s.NoLoops := by
  have hsome : middleLeft.isSome = true := by decide +kernel
  obtain ⟨s, hs⟩ := isSome_iff_exists.1 hsome
  exact ⟨s, hs, kept_of_reach (reach_middleLeft hs)⟩

theorem consolidated_middleLeft : ∃ s, middleLeft = some s ∧ Reach natMem s ∧
    ∃ s', s.consolidate natMem natParams = some s' ∧ Consolidated natParams s s' := by
  have hsome : (middleLeft.map fun s => decide (s.deleteSet ≠ ∅)) = some true := by decide +kernel
  obtain ⟨s, hs, hdel⟩ := Option.map_eq_some_iff.1 hsome
  have hr := reach_middleLeft hs
  exact ⟨s, hs, hr, (consolidated_of_reach natMem natParams s hr (of_decide_eq_true hdel)).2⟩

end Compacted

end DiskANNEval.PipeANN.MemIndex
