import DiskANNEval.AiSAQ.Neighbor

/-!
# Search — the graph work of `Index`: search, pruning, back links, repair after deletes

The functions of an unfiltered dynamic index that read and write adjacency lists.  A loop whose
length the code does not bound takes fuel and is `stuck` without it.  About results the index
relies on one thing, which is proved here for each function: a set of slots that contains the
start points and is closed under the graph (`Closed`) contains every id that comes out.
-/

namespace DiskANNEval.AiSAQ

open List Function

inductive Metric
  | l2 | innerProduct | cosine | fastL2
  deriving DecidableEq

/-- How an operation fails to return: an exception, or a loop without fuel (or a broken
precondition of a container). -/
inductive Fault
  | threw (msg : String)
  | stuck
  deriving DecidableEq

/-- The operation throws no exception (it may be `stuck`). -/
def NoThrow {α : Type} (x : Except Fault α) : Prop := ∀ msg, x ≠ .error (.threw msg)

theorem NoThrow.bind {α β : Type} {x : Except Fault α} {f : α → Except Fault β} (hx : NoThrow x)
    (hf : ∀ a, x = .ok a → NoThrow (f a)) : NoThrow (x.bind f) := by
  intro msg h
  cases x with
  | error e =>
    cases h
    exact hx msg rfl
  | ok a => exact hf a rfl msg h

theorem NoThrow.map {α β : Type} {x : Except Fault α} (hx : NoThrow x) (f : α → β) :
    NoThrow (x.map f) := by
  intro msg h
  cases x with
  | error e =>
    cases h
    exact hx msg rfl
  | ok a => cases h

theorem NoThrow.foldlM {α β : Type} {f : β → α → Except Fault β} {l : List α}
    (hf : ∀ b, ∀ a ∈ l, NoThrow (f b a)) (b : β) : NoThrow (l.foldlM f b) := by
  induction l generalizing b with
  | nil => exact fun msg h => by cases h
  | cons a l ih =>
    exact NoThrow.bind (hf b a mem_cons_self) fun b' _ =>
      ih (fun b a ha => hf b a (mem_cons_of_mem _ ha)) b'

/-- The constants of an `Index`.  The constructor replaces `max_points = 0` by `1`, and
`num_frozen_pts = 0` by `1` for a dynamic index. -/
structure Config (Vec D : Type) where
  maxPoints : ℕ
  numFrozenPts : ℕ
  maxPoints_pos : 0 < maxPoints
  numFrozenPts_pos : 0 < numFrozenPts
  /-- locations are `uint32_t` -/
  totalPoints_lt : maxPoints + numFrozenPts < 2 ^ 32
  fl : FloatOps D
  /-- `_distance_fn->compare` -/
  compare : Vec → Vec → D
  /-- `preprocess_base_points`, the identity when no preprocessing is required -/
  preprocess : Vec → Vec
  /-- a cleared cell of the data store -/
  zeroVec : Vec
  metric : Metric
  indexingQueueSize : ℕ
  indexingRange : ℕ
  indexingMaxC : ℕ
  indexingAlpha : D
  saturateGraph : Bool
  concConsolidate : Bool

/-- `_graph_store` and `_data_store`, indexed by location. -/
abbrev Graph := ℕ → List ℕ
abbrev DataStore (Vec : Type) := ℕ → Vec

variable {Vec D : Type} (cfg : Config Vec D)

def Config.totalPoints : ℕ := cfg.maxPoints + cfg.numFrozenPts

/-- The slots `[maxPoints, maxPoints + numFrozenPts)`. -/
def Config.frozen : List ℕ := List.range' cfg.maxPoints cfg.numFrozenPts

def Config.IsFrozen (k : ℕ) : Prop := cfg.maxPoints ≤ k ∧ k < cfg.maxPoints + cfg.numFrozenPts

theorem Config.mem_frozen (k : ℕ) : k ∈ cfg.frozen ↔ cfg.IsFrozen k := by
  rw [Config.frozen, mem_range'_1, Config.IsFrozen]

/-- The set `S` of slots is closed under `graph`. -/
def Closed (S : ℕ → Prop) (graph : Graph) : Prop := ∀ k, S k → ∀ j ∈ graph k, S j

variable {S : ℕ → Prop} {graph : Graph}

theorem Closed.update (h : Closed S graph) (k : ℕ) {l : List ℕ} (hl : ∀ j ∈ l, S j) :
    Closed S (Function.update graph k l) := by
  intro i hi j hj
  by_cases hik : i = k
  · subst hik
    rw [update_self] at hj
    exact hl j hj
  · rw [update_of_ne hik] at hj
    exact h i hi j hj

/-! ## `iterate_to_fixed_point` -/

def getInitIds (start : ℕ) : List ℕ := start :: cfg.frozen.filter (· ≠ start)

/-- `best_L_nodes`, `inserted_into_pool` and `expanded_nodes`. -/
structure SearchState (D : Type) where
  bestL : NeighborPriorityQueue D
  inserted : List ℕ
  expanded : List (Neighbor D)

/-- One starting point. -/
def insertInit (dist : ℕ → D) (st : SearchState D) (id : ℕ) : Except Fault (SearchState D) :=
  if cfg.totalPoints ≤ id then .error (.threw ("Wrong loc" ++ toString id))
  else if id ∈ st.inserted then .ok st
  else .ok { st with
    bestL := st.bestL.insert cfg.fl (.new id (dist id))
    inserted := id :: st.inserted }

/-- The body of the search loop for `nbr`, with `q` what `closest_unexpanded` left.  The ids are
marked only after the whole list has been looked at. -/
def expandNode (graph : Graph) (dist : ℕ → D) (st : SearchState D) (nbr : Neighbor D)
    (q : NeighborPriorityQueue D) : SearchState D :=
  let idScratch := (graph nbr.id).filter (· ∉ st.inserted)
  { bestL := idScratch.foldl (fun q id => q.insert cfg.fl (.new id (dist id))) q
    inserted := idScratch ++ st.inserted
    expanded := st.expanded ++ [nbr] }

def iterateLoop (graph : Graph) (dist : ℕ → D) :
    ℕ → SearchState D → Except Fault (List (Neighbor D))
  | 0, _ => .error .stuck
  | fuel + 1, st =>
    match st.bestL.closestUnexpanded with
    | none => .ok st.expanded
    | some (nbr, q) => iterateLoop graph dist fuel (expandNode cfg graph dist st nbr q)

/-- `iterate_to_fixed_point` with `search_invocation = false`: the expanded nodes. -/
def iterateToFixedPoint (graph : Graph) (dist : ℕ → D) (lSize : ℕ) (initIds : List ℕ) (fuel : ℕ) :
    Except Fault (List (Neighbor D)) :=
  (initIds.foldlM (insertInit cfg dist) ⟨⟨lSize, 0, []⟩, [], []⟩).bind
    (iterateLoop cfg graph dist fuel)

variable {cfg}

/-- Queue and pool of a search hold members of `S`. -/
def SearchState.In (S : ℕ → Prop) (st : SearchState D) : Prop :=
  IdsIn S st.bestL.data ∧ IdsIn S st.expanded

theorem idsIn_foldl_insert (fl : FloatOps D) (dist : ℕ → D) {ids : List ℕ}
    {q : NeighborPriorityQueue D} (hq : IdsIn S q.data) (hids : ∀ i ∈ ids, S i) :
    IdsIn S (ids.foldl (fun q id => q.insert fl (.new id (dist id))) q).data := by
  induction ids generalizing q with
  | nil => exact hq
  | cons i ids ih =>
    refine ih ?_ fun j hj => hids j (mem_cons_of_mem _ hj)
    exact NeighborPriorityQueue.IdsIn.insert hq fl (hids i mem_cons_self)

variable {dist : ℕ → D} {st : SearchState D}

theorem SearchState.In.insertInit {st' : SearchState D} {id : ℕ} (h : st.In S) (hid : S id)
    (hi : insertInit cfg dist st id = .ok st') : st'.In S := by
  unfold DiskANNEval.AiSAQ.insertInit at hi
  split_ifs at hi
  · cases hi
    exact h
  · cases hi
    exact ⟨NeighborPriorityQueue.IdsIn.insert h.1 _ hid, h.2⟩

theorem SearchState.In.foldlM_insertInit {ids : List ℕ} {st' : SearchState D} (h : st.In S)
    (hids : ∀ i ∈ ids, S i) (hi : ids.foldlM (DiskANNEval.AiSAQ.insertInit cfg dist) st = .ok st') :
    st'.In S := by
  induction ids generalizing st with
  | nil =>
    cases hi
    exact h
  | cons i ids ih =>
    rw [foldlM_cons] at hi
    cases h1 : DiskANNEval.AiSAQ.insertInit cfg dist st i with
    | error e =>
      rw [h1] at hi
      cases hi
    | ok s1 =>
      rw [h1] at hi
      exact ih (h.insertInit (hids i mem_cons_self) h1)
        (fun j hj => hids j (mem_cons_of_mem _ hj)) hi

theorem SearchState.In.expandNode (hS : Closed S graph) (dist : ℕ → D) (h : st.In S)
    {nbr : Neighbor D} (hn : S nbr.id) {q : NeighborPriorityQueue D} (hq : IdsIn S q.data) :
    (expandNode cfg graph dist st nbr q).In S := by
  refine ⟨idsIn_foldl_insert _ _ hq fun i hi => ?_, fun x hx => ?_⟩
  · exact hS _ hn i (mem_filter.mp hi).1
  · rcases mem_append.mp hx with hx | hx
    · exact h.2 x hx
    · rw [mem_singleton.mp hx]
      exact hn

theorem idsIn_iterateLoop (hS : Closed S graph) {fuel : ℕ} (h : st.In S) {pool : List (Neighbor D)}
    (hl : iterateLoop cfg graph dist fuel st = .ok pool) : IdsIn S pool := by
  induction fuel generalizing st with
  | zero => cases hl
  | succ fuel ih =>
    rw [iterateLoop] at hl
    split at hl
    · cases hl
      exact h.2
    · rename_i nbr q hc
      obtain ⟨hn, hq⟩ := NeighborPriorityQueue.IdsIn.closestUnexpanded h.1 hc
      exact ih (h.expandNode hS dist hn hq) hl

theorem idsIn_iterateToFixedPoint (hS : Closed S graph) {lSize fuel : ℕ} {initIds : List ℕ}
    (hinit : ∀ i ∈ initIds, S i) {pool : List (Neighbor D)}
    (h : iterateToFixedPoint cfg graph dist lSize initIds fuel = .ok pool) : IdsIn S pool := by
  unfold iterateToFixedPoint at h
  cases h1 : initIds.foldlM (insertInit cfg dist)
      (⟨⟨lSize, 0, []⟩, [], []⟩ : SearchState D) with
  | error e =>
    rw [h1] at h
    cases h
  | ok st =>
    rw [h1] at h
    have h0 : SearchState.In S (⟨⟨lSize, 0, []⟩, [], []⟩ : SearchState D) :=
      ⟨fun x hx => absurd hx not_mem_nil, fun x hx => absurd hx not_mem_nil⟩
    exact idsIn_iterateLoop hS (h0.foldlM_insertInit hinit h1) h

theorem noThrow_iterateLoop (graph : Graph) (dist : ℕ → D) (fuel : ℕ) (st : SearchState D) :
    NoThrow (iterateLoop cfg graph dist fuel st) := by
  induction fuel generalizing st with
  | zero => exact fun msg h => by cases h
  | succ fuel ih =>
    rw [iterateLoop]
    split
    · exact fun msg h => by cases h
    · exact ih _

theorem noThrow_iterateToFixedPoint (graph : Graph) (dist : ℕ → D) (lSize fuel : ℕ)
    {initIds : List ℕ} (h : ∀ i ∈ initIds, i < cfg.totalPoints) :
    NoThrow (iterateToFixedPoint cfg graph dist lSize initIds fuel) := by
  refine NoThrow.bind (NoThrow.foldlM (fun st i hi => ?_) _) fun st _ => noThrow_iterateLoop _ _ _ _
  have := h i hi
  unfold insertInit
  rw [if_neg (by omega)]
  split_ifs
  all_goals exact fun msg h => by cases h

/-! ## `occlude_list` and `prune_neighbors` -/

section Prune

variable (cfg) (data : DataStore Vec)

/-- The occlude factor of the later candidate `y` once `x` has been chosen. -/
def occlude (alpha curAlpha : D) (x y : Neighbor D) (factor : D) : D :=
  if cfg.fl.lt alpha factor then factor
  else
    let djk := cfg.compare (data y.id) (data x.id)
    match cfg.metric with
    | .l2 | .cosine =>
      if cfg.fl.eq djk cfg.fl.zero then cfg.fl.maxValue
      else cfg.fl.max factor (cfg.fl.div y.distance djk)
    | .innerProduct =>
      if cfg.fl.lt (cfg.fl.mul curAlpha (cfg.fl.neg y.distance)) (cfg.fl.neg djk) then
        cfg.fl.max factor (cfg.fl.add curAlpha cfg.fl.eps)
      else factor
    | .fastL2 => factor

/-- Pool position `i` in one pass of `occlude_list`, on the pair `(occlude_factor, result)`. -/
def occludeAt (location : ℕ) (pool : List (Neighbor D)) (alpha : D) (degree : ℕ)
    (deleted : ℕ → Bool) (curAlpha : D) (st : List D × List ℕ) (i : ℕ) : List D × List ℕ :=
  match pool[i]?, st.1[i]? with
  | some x, some f =>
    if decide (st.2.length < degree) && !cfg.fl.lt curAlpha f then
      ((st.1.set i cfg.fl.maxValue).mapIdx fun t g =>
          match pool[t]? with
          | some y => if i < t then occlude cfg data alpha curAlpha x y g else g
          | none => g,
        if !deleted x.id && x.id != location then st.2 ++ [x.id] else st.2)
    else st
  | _, _ => st

/-- The rounds of `occlude_list` from `curAlpha` on. -/
def occludeRounds (location : ℕ) (pool : List (Neighbor D)) (alpha : D) (degree : ℕ)
    (deleted : ℕ → Bool) : ℕ → D → List D × List ℕ → Except Fault (List ℕ)
  | 0, _, _ => .error .stuck
  | fuel + 1, curAlpha, st =>
    if cfg.fl.le curAlpha alpha && decide (st.2.length < degree) then
      occludeRounds location pool alpha degree deleted fuel (cfg.fl.mul curAlpha cfg.fl.alphaStep)
        ((List.range pool.length).foldl
          (occludeAt cfg data location pool alpha degree deleted curAlpha) st)
    else .ok st.2

/-- `pool` has been truncated to `maxc` by the caller, which goes on with the truncated pool. -/
def occludeList (location : ℕ) (pool : List (Neighbor D)) (alpha : D) (degree : ℕ)
    (deleted : ℕ → Bool) (fuel : ℕ) : Except Fault (List ℕ) :=
  occludeRounds cfg data location pool alpha degree deleted fuel cfg.fl.one
    (List.replicate pool.length cfg.fl.zero, [])

/-- The `_saturate_graph` loop of `prune_neighbors`. -/
def saturate (location : ℕ) (pool : List (Neighbor D)) (range : ℕ) (pruned : List ℕ) : List ℕ :=
  pool.foldl (fun pruned node =>
    if pruned.length < range ∧ node.id ∉ pruned ∧ node.id ≠ location then pruned ++ [node.id]
    else pruned) pruned

def pruneNeighbors (location : ℕ) (pool : List (Neighbor D)) (fuel : ℕ) :
    Except Fault (List ℕ) :=
  if pool.isEmpty then .ok []
  else
    let pool := (sortPool cfg.fl pool).take cfg.indexingMaxC
    (occludeList cfg data location pool cfg.indexingAlpha cfg.indexingRange (fun _ => false)
      fuel).map fun pruned =>
        if cfg.saturateGraph && cfg.fl.lt cfg.fl.one cfg.indexingAlpha then
          saturate location pool cfg.indexingRange pruned
        else pruned

end Prune

section PruneFacts

variable {data : DataStore Vec} {location : ℕ} {pool : List (Neighbor D)}

/-- What a pruning pass chooses comes from the pool and is not deleted. -/
def FromPool (pool : List (Neighbor D)) (deleted : ℕ → Bool) (result : List ℕ) : Prop :=
  ∀ j ∈ result, deleted j = false ∧ ∃ x ∈ pool, x.id = j

variable {deleted : ℕ → Bool} {result : List ℕ}

theorem FromPool.append (h : FromPool pool deleted result) {x : Neighbor D} (hx : x ∈ pool)
    (hd : deleted x.id = false) : FromPool pool deleted (result ++ [x.id]) := by
  intro j hj
  rcases mem_append.mp hj with hj | hj
  · exact h j hj
  · rw [mem_singleton.mp hj]
    exact ⟨hd, x, hx, rfl⟩

variable {alpha curAlpha : D} {degree fuel : ℕ} {st : List D × List ℕ}

theorem FromPool.occludeAt {i : ℕ} (h : FromPool pool deleted st.2) : FromPool pool deleted
      (occludeAt cfg data location pool alpha degree deleted curAlpha st i).2 := by
  unfold DiskANNEval.AiSAQ.occludeAt
  split
  · rename_i x f hx _
    split
    · show FromPool pool deleted (if _ then _ else _)
      split_ifs with hd
      · rw [Bool.and_eq_true, Bool.not_eq_true'] at hd
        exact h.append (mem_of_getElem? hx) hd.1
      · exact h
    · exact h
  · exact h

theorem FromPool.foldl_occludeAt (is : List ℕ) (h : FromPool pool deleted st.2) :
    FromPool pool deleted
      (is.foldl (DiskANNEval.AiSAQ.occludeAt cfg data location pool alpha degree deleted curAlpha)
        st).2 := by
  induction is generalizing st with
  | nil => exact h
  | cons i is ih => exact ih h.occludeAt

theorem fromPool_occludeRounds (h : FromPool pool deleted st.2)
    (hr : occludeRounds cfg data location pool alpha degree deleted fuel curAlpha st = .ok result) :
    FromPool pool deleted result := by
  induction fuel generalizing curAlpha st with
  | zero => cases hr
  | succ fuel ih =>
    rw [occludeRounds] at hr
    split at hr
    · exact ih (h.foldl_occludeAt _) hr
    · cases hr
      exact h

theorem fromPool_occludeList
    (hr : occludeList cfg data location pool alpha degree deleted fuel = .ok result) :
    FromPool pool deleted result :=
  fromPool_occludeRounds (fun _ hj => absurd hj not_mem_nil) hr

theorem noThrow_occludeRounds (fuel : ℕ) (curAlpha : D) (st : List D × List ℕ) :
    NoThrow (occludeRounds cfg data location pool alpha degree deleted fuel curAlpha st) := by
  induction fuel generalizing curAlpha st with
  | zero => exact fun msg h => by cases h
  | succ fuel ih =>
    rw [occludeRounds]
    split
    · exact ih _ _
    · exact fun msg h => by cases h

theorem noThrow_pruneNeighbors (fuel : ℕ) :
    NoThrow (pruneNeighbors cfg data location pool fuel) := by
  unfold pruneNeighbors
  split
  · exact fun msg h => by cases h
  · exact (noThrow_occludeRounds _ _ _).map _

theorem FromPool.saturate {range : ℕ} {pruned : List ℕ}
    (h : ∀ j ∈ pruned, ∃ x ∈ pool, x.id = j) :
    ∀ j ∈ saturate location pool range pruned, ∃ x ∈ pool, x.id = j := by
  have key : ∀ (nodes : List (Neighbor D)) (pruned : List ℕ), (∀ x ∈ nodes, x ∈ pool) →
      (∀ j ∈ pruned, ∃ x ∈ pool, x.id = j) →
      ∀ j ∈ DiskANNEval.AiSAQ.saturate location nodes range pruned, ∃ x ∈ pool, x.id = j := by
    intro nodes
    induction nodes with
    | nil => exact fun _ _ hp => hp
    | cons x nodes ih =>
      intro pruned hn hp
      refine ih _ (fun y hy => hn y (mem_cons_of_mem _ hy)) fun j hj => ?_
      simp only at hj
      split_ifs at hj with hc
      · rcases mem_append.mp hj with hj | hj
        · exact hp j hj
        · exact ⟨x, hn x mem_cons_self, (mem_singleton.mp hj).symm⟩
      · exact hp j hj
  exact key pool pruned (fun _ hx => hx) h

theorem mem_pruneNeighbors {S : ℕ → Prop} (hp : IdsIn S pool)
    (hr : pruneNeighbors cfg data location pool fuel = .ok result) : ∀ j ∈ result, S j := by
  unfold pruneNeighbors at hr
  split at hr
  · cases hr
    exact fun _ hj => absurd hj not_mem_nil
  · cases ho : occludeList cfg data location ((sortPool cfg.fl pool).take cfg.indexingMaxC)
        cfg.indexingAlpha cfg.indexingRange (fun _ => false) fuel with
    | error e =>
      simp only [ho] at hr
      cases hr
    | ok pruned =>
      simp only [ho] at hr
      cases hr
      have h1 := fun j hj => (fromPool_occludeList ho j hj).2
      intro j hj
      have hx : ∃ x ∈ (sortPool cfg.fl pool).take cfg.indexingMaxC, x.id = j := by
        split_ifs at hj
        · exact FromPool.saturate h1 j hj
        · exact h1 j hj
      obtain ⟨x, hx, rfl⟩ := hx
      exact hp.sortPool cfg.fl x (mem_of_mem_take hx)

end PruneFacts

/-! ## `search_for_point_and_prune` and `inter_insert` -/

section Links

variable (cfg)

def searchForPointAndPrune (graph : Graph) (data : DataStore Vec) (start location fuel : ℕ) :
    Except Fault (List ℕ) :=
  (iterateToFixedPoint cfg graph (fun id => cfg.compare (data location) (data id))
    cfg.indexingQueueSize (getInitIds cfg start) fuel).bind fun pool =>
      pruneNeighbors cfg data location (pool.filter (·.id ≠ location)) fuel

/-- `inter_insert`, the link from `des` back to `n`. -/
def linkBack (data : DataStore Vec) (n fuel : ℕ) (graph : Graph) (des : ℕ) :
    Except Fault Graph :=
  let desPool := graph des
  if n ∈ desPool then .ok graph
  else if desPool.length < cfg.fl.slackDegree cfg.indexingRange then
    .ok (Function.update graph des (desPool ++ [n]))
  else
    let dummyPool := ((desPool ++ [n]).eraseDups.filter (· ≠ des)).map fun nbr =>
      .new nbr (cfg.compare (data des) (data nbr))
    (pruneNeighbors cfg data des dummyPool fuel).map fun nbrs => Function.update graph des nbrs

def interInsert (data : DataStore Vec) (n : ℕ) (prunedList : List ℕ) (fuel : ℕ) (graph : Graph) :
    Except Fault Graph :=
  prunedList.foldlM (linkBack cfg data n fuel) graph

variable {cfg} {S : ℕ → Prop} {graph graph' : Graph} {data : DataStore Vec}

variable {fuel : ℕ}

theorem mem_searchForPointAndPrune (hS : Closed S graph) {start location : ℕ}
    (hinit : ∀ i ∈ getInitIds cfg start, S i) {pruned : List ℕ}
    (h : searchForPointAndPrune cfg graph data start location fuel = .ok pruned) :
    ∀ j ∈ pruned, S j := by
  unfold searchForPointAndPrune at h
  cases hp : iterateToFixedPoint cfg graph (fun id => cfg.compare (data location) (data id))
      cfg.indexingQueueSize (getInitIds cfg start) fuel with
  | error e =>
    rw [hp] at h
    cases h
  | ok pool =>
    rw [hp] at h
    have hin := idsIn_iterateToFixedPoint hS hinit hp
    exact mem_pruneNeighbors (fun x hx => hin x (mem_filter.mp hx).1) h

theorem noThrow_searchForPointAndPrune {start location : ℕ}
    (h : ∀ i ∈ getInitIds cfg start, i < cfg.totalPoints) :
    NoThrow (searchForPointAndPrune cfg graph data start location fuel) :=
  NoThrow.bind (noThrow_iterateToFixedPoint _ _ _ _ h) fun _ _ => noThrow_pruneNeighbors _

theorem noThrow_interInsert (n : ℕ) (pruned : List ℕ) (fuel : ℕ) (graph : Graph) :
    NoThrow (interInsert cfg data n pruned fuel graph) := by
  refine NoThrow.foldlM (fun g des _ => ?_) _
  simp only [linkBack]
  split_ifs
  · exact fun msg h => by cases h
  · exact fun msg h => by cases h
  · exact (noThrow_pruneNeighbors _).map _

theorem Closed.linkBack (hS : Closed S graph) {n des : ℕ} (hn : S n) (hdes : S des)
    (h : linkBack cfg data n fuel graph des = .ok graph') : Closed S graph' := by
  simp only [DiskANNEval.AiSAQ.linkBack] at h
  have happ : ∀ j ∈ graph des ++ [n], S j := by
    intro j hj
    rcases mem_append.mp hj with hj | hj
    · exact hS des hdes j hj
    · rw [mem_singleton.mp hj]
      exact hn
  split_ifs at h with h1 h2
  · cases h
    exact hS
  · cases h
    exact hS.update des happ
  · revert h
    cases hp : pruneNeighbors cfg data des _ fuel with
    | error e => exact fun h => by cases h
    | ok nbrs =>
      intro h
      cases h
      refine hS.update des (mem_pruneNeighbors (fun x hx => ?_) hp)
      obtain ⟨j, hj, rfl⟩ := mem_map.mp hx
      exact happ j (mem_eraseDups.mp (mem_filter.mp hj).1)

theorem Closed.interInsert (hS : Closed S graph) {n : ℕ} (hn : S n) {pruned : List ℕ}
    (hp : ∀ j ∈ pruned, S j) (h : interInsert cfg data n pruned fuel graph = .ok graph') :
    Closed S graph' := by
  induction pruned generalizing graph with
  | nil =>
    cases h
    exact hS
  | cons des pruned ih =>
    rw [DiskANNEval.AiSAQ.interInsert, foldlM_cons] at h
    cases h1 : DiskANNEval.AiSAQ.linkBack cfg data n fuel graph des with
    | error e =>
      rw [h1] at h
      cases h
    | ok g1 =>
      rw [h1] at h
      exact ih (hS.linkBack hn (hp des mem_cons_self) h1)
        (fun j hj => hp j (mem_cons_of_mem _ hj)) h

end Links

/-! ## `process_delete` -/

/-- The order in which a `robin_set` hands out its elements: some permutation of them. -/
structure SetOrder where
  order : List ℕ → List ℕ
  perm : ∀ l, (order l).Perm l

def SetOrder.asIs : SetOrder := ⟨id, fun l => List.Perm.refl l⟩

/-- The parameters of `consolidate_deletes` that `process_delete` uses. -/
structure DeleteParams (D : Type) where
  range : ℕ
  maxc : ℕ
  alpha : D

section Delete

variable (cfg)

/-- `expanded_nodes_set`: the neighbours of `loc` that stay, and for a neighbour that goes its own
neighbours that stay. -/
def expandedNodes (graph : Graph) (deleted : List ℕ) (loc : ℕ) : List ℕ :=
  ((graph loc).flatMap fun ngh =>
    if ngh ∈ deleted then (graph ngh).filter fun j => j ≠ loc ∧ j ∉ deleted else [ngh]).eraseDups

/-- The new list of `loc`. -/
def processDelete (data : DataStore Vec) (graph : Graph) (deleted : List ℕ) (o : SetOrder)
    (p : DeleteParams D) (fuel loc : ℕ) : Except Fault (List ℕ) :=
  if (graph loc).any (· ∈ deleted) then
    let expanded := o.order (expandedNodes graph deleted loc)
    if expanded.length ≤ p.range then .ok expanded
    else
      let pool := sortPool cfg.fl (expanded.map fun ngh =>
        .new ngh (cfg.compare (data loc) (data ngh)))
      occludeList cfg data loc (pool.take p.maxc) p.alpha p.range (· ∈ deleted) fuel
  else .ok (graph loc)

variable {cfg} {S : ℕ → Prop} {graph : Graph} {data : DataStore Vec}

theorem mem_expandedNodes (hS : Closed S graph) {deleted : List ℕ} {loc : ℕ} (hloc : S loc) :
    ∀ j ∈ expandedNodes graph deleted loc, S j ∧ j ∉ deleted := by
  intro j hj
  rw [expandedNodes, mem_eraseDups, mem_flatMap] at hj
  obtain ⟨ngh, hngh, hj⟩ := hj
  have hn := hS loc hloc ngh hngh
  split_ifs at hj with hd
  · obtain ⟨hj, hf⟩ := mem_filter.mp hj
    exact ⟨hS ngh hn j hj, (of_decide_eq_true hf).2⟩
  · rw [mem_singleton.mp hj]
    exact ⟨hn, hd⟩

theorem mem_processDelete (hS : Closed S graph) {deleted : List ℕ} {o : SetOrder}
    {p : DeleteParams D} {fuel loc : ℕ} (hloc : S loc) {l : List ℕ}
    (h : processDelete cfg data graph deleted o p fuel loc = .ok l) :
    ∀ j ∈ l, S j ∧ j ∉ deleted := by
  unfold processDelete at h
  have hexp : ∀ j ∈ o.order (expandedNodes graph deleted loc), S j ∧ j ∉ deleted := fun j hj =>
    mem_expandedNodes hS hloc j ((o.perm _).mem_iff.mp hj)
  split_ifs at h with hm
  · simp only at h
    split_ifs at h with hr
    · cases h
      exact hexp
    · intro j hj
      obtain ⟨_, x, hx, rfl⟩ := fromPool_occludeList h j hj
      obtain ⟨k, hk, rfl⟩ := mem_map.mp ((mem_sortPool _ _ _).mp (mem_of_mem_take hx))
      exact hexp k hk
  · cases h
    intro j hj
    refine ⟨hS loc hloc j hj, fun hd => hm ?_⟩
    rw [any_eq_true]
    exact ⟨j, hj, by simpa using hd⟩

end Delete

end DiskANNEval.AiSAQ
