import DiskANNEval.AiSAQ.Occlusion
import DiskANNEval.AiSAQ.Index

/-!
# FilteredSearch — the graph work of an index with labels

`detect_common_filters` and the functions that use it.  `std::set_intersection` walks both label lists
as if they were sorted, so what it finds in a list that is not depends on the order
(`setIntersection_singleton`).  A list of labels that is asked for behind the end of
`_location_to_labels` is undefined behaviour, which is `stuck` here.
-/

namespace DiskANNEval.AiSAQ

/-- The constants of an `Index` that may be filtered.  `_pq_dist` is off in a dynamic index. -/
structure FilterConfig (Vec D : Type) extends Config Vec D where
  filteredIndex : Bool
  filterIndexingQueueSize : ℕ

variable {Vec Label D : Type} [LinearOrder Label]

namespace Filtered

/-! ### `detect_common_filters` -/

/-- The walk through the second range for the head `x` of the first; `rest` goes on behind `x`. -/
def intersectHead (x : Label) (rest : List Label → List Label) : List Label → List Label
  | [] => []
  | y :: ys =>
    if x < y then rest (y :: ys)
    else if y < x then intersectHead x rest ys
    else x :: rest ys

def setIntersection : List Label → List Label → List Label
  | [], _ => []
  | x :: xs, ys => intersectHead x (setIntersection xs) ys

/-- `detect_common_filters`; `universal` is `_universal_label` when there is one. -/
def commonFilters (universal : Option Label) (searchInvocation : Bool)
    (incomingLabels currNodeLabels : List Label) : Bool :=
  if 0 < (setIntersection incomingLabels currNodeLabels).length then true
  else
    match universal with
    | none => false
    | some u =>
      if !searchInvocation then incomingLabels.contains u || currNodeLabels.contains u
      else currNodeLabels.contains u

/-- For one filter label the walk goes over the smaller labels and looks at the next one. -/
theorem setIntersection_singleton (f : Label) (ls : List Label) :
    0 < (setIntersection [f] ls).length ↔ (ls.dropWhile (· < f)).head? = some f := by
  induction ls with
  | nil => simp [setIntersection, intersectHead]
  | cons y ys ih =>
    rw [setIntersection] at ih ⊢
    rw [intersectHead]
    split_ifs with h1 h2
    · rw [List.dropWhile_cons_of_neg (by simpa using h1.le)]
      simp [setIntersection, h1.ne']
    · rw [List.dropWhile_cons_of_pos (by simpa using h2)]
      exact ih
    · obtain rfl := le_antisymm (not_lt.1 h2) (not_lt.1 h1)
      simp

/-! ### `iterate_to_fixed_point` with a filter -/

section Search

variable (cfg : Config Vec D)

/-- One starting point; `detect` is `detect_common_filters` for the filter labels. -/
def insertInit (detect : ℕ → Option Bool) (dist : ℕ → D) (st : SearchState D) (id : ℕ) :
    Except Fault (SearchState D) :=
  if cfg.totalPoints ≤ id then .error (.threw ("Wrong loc" ++ toString id))
  else
    match detect id with
    | none => .error .stuck
    | some false => .ok st
    | some true => AiSAQ.insertInit cfg dist st id

/-- The body of the search loop for `nbr`.  A node enters `expanded_nodes` once. -/
def expandNode (graph : Graph) (detect : ℕ → Option Bool) (dist : ℕ → D) (st : SearchState D)
    (nbr : Neighbor D) (q : NeighborPriorityQueue D) : Except Fault (SearchState D) :=
  let nbrs := graph nbr.id
  if nbrs.any fun id => (detect id).isNone then .error .stuck
  else
    let idScratch := nbrs.filter fun id => detect id == some true && decide (id ∉ st.inserted)
    .ok {
      bestL := idScratch.foldl (fun q id => q.insert cfg.fl (.new id (dist id))) q
      inserted := idScratch ++ st.inserted
      expanded :=
        if st.expanded.any (·.id == nbr.id) then st.expanded else st.expanded ++ [nbr] }

def iterateLoop (graph : Graph) (detect : ℕ → Option Bool) (dist : ℕ → D) :
    ℕ → SearchState D → Except Fault (List (Neighbor D))
  | 0, _ => .error .stuck
  | fuel + 1, st =>
    match st.bestL.closestUnexpanded with
    | none => .ok st.expanded
    | some (nbr, q) =>
      (expandNode cfg graph detect dist st nbr q).bind (iterateLoop graph detect dist fuel)

/-- `iterate_to_fixed_point` with `use_filter` and without `search_invocation`. -/
def iterateToFixedPoint (graph : Graph) (detect : ℕ → Option Bool) (dist : ℕ → D) (lSize : ℕ)
    (initIds : List ℕ) (fuel : ℕ) : Except Fault (List (Neighbor D)) :=
  (initIds.foldlM (insertInit cfg detect dist) ⟨⟨lSize, 0, []⟩, [], []⟩).bind
    (iterateLoop cfg graph detect dist fuel)

/-- `insert` of a `std::set<Neighbor>`, kept in its order. -/
def insertSet (x : Neighbor D) : List (Neighbor D) → List (Neighbor D)
  | [] => [x]
  | y :: ys =>
    if y.lt cfg.fl x then y :: insertSet x ys
    else if x.lt cfg.fl y then x :: y :: ys
    else y :: ys

end Search

/-! ### `search_for_point_and_prune` and `inter_insert` -/

section Links

variable (cfg : FilterConfig Vec D) (labels : List (List Label))

/-- What the pruning passes of the index see of the labels. -/
def pruneLabels : Option (List (List Label)) := if cfg.filteredIndex then some labels else none

/-- The candidates of a filtered insert: those of the filtered search from the start points of the
labels (`startIds`), together with those of the search without filter. -/
def filteredPool (universal : Option Label) (graph : Graph) (dist : ℕ → D) (start location : ℕ)
    (startIds : List ℕ) (fuel : ℕ) : Except Fault (List (Neighbor D)) :=
  let detect := fun id => (labels[id]?).map (commonFilters universal false (labels.getD location []))
  (iterateToFixedPoint cfg.toConfig graph detect dist cfg.filterIndexingQueueSize startIds fuel).bind
    fun filtered =>
      (AiSAQ.iterateToFixedPoint cfg.toConfig graph dist cfg.indexingQueueSize
        (getInitIds cfg.toConfig start) fuel).map fun unfiltered =>
          (filtered ++ unfiltered).foldl (fun pool x => insertSet cfg.toConfig x pool) []

def searchForPointAndPrune (universal : Option Label) (graph : Graph) (data : DataStore Vec)
    (start location : ℕ) (startIds : List ℕ) (fuel : ℕ) : Except Fault (List ℕ) :=
  let dist := fun id => cfg.compare (data location) (data id)
  (if cfg.filteredIndex then
    filteredPool cfg labels universal graph dist start location startIds fuel
  else
    AiSAQ.iterateToFixedPoint cfg.toConfig graph dist cfg.indexingQueueSize
      (getInitIds cfg.toConfig start) fuel).bind fun pool =>
        pruneNeighbors cfg.toConfig data (pruneLabels cfg labels) false location
          (pool.filter (·.id ≠ location)) cfg.indexingRange cfg.indexingMaxC cfg.indexingAlpha fuel

/-- `inter_insert`, the link from `des` back to `n`. -/
def linkBack (data : DataStore Vec) (n fuel : ℕ) (graph : Graph) (des : ℕ) : Except Fault Graph :=
  let desPool := graph des
  if n ∈ desPool then .ok graph
  else if desPool.length < cfg.fl.slackDegree cfg.indexingRange then
    .ok (Function.update graph des (desPool ++ [n]))
  else
    let dummyPool := ((desPool ++ [n]).eraseDups.filter (· ≠ des)).map fun nbr =>
      .new nbr (cfg.compare (data des) (data nbr))
    (pruneNeighbors cfg.toConfig data (pruneLabels cfg labels) false des dummyPool cfg.indexingRange
      cfg.indexingMaxC cfg.indexingAlpha fuel).map fun nbrs => Function.update graph des nbrs

def interInsert (data : DataStore Vec) (n : ℕ) (prunedList : List ℕ) (fuel : ℕ) (graph : Graph) :
    Except Fault Graph :=
  prunedList.foldlM (linkBack cfg labels data n fuel) graph

/-! ### `process_delete` -/

/-- The new list of `loc`. -/
def processDelete (data : DataStore Vec) (graph : Graph) (deleted : List ℕ) (o : SetOrder)
    (p : DeleteParams D) (fuel loc : ℕ) : Except Fault (List ℕ) :=
  if (graph loc).any (· ∈ deleted) then
    let expanded := o.order (expandedNodes graph deleted loc)
    if expanded.length ≤ p.range then .ok expanded
    else
      let pool := sortPool cfg.fl (expanded.map fun ngh =>
        .new ngh (cfg.compare (data loc) (data ngh)))
      occludeList cfg.toConfig data (pruneLabels cfg labels) loc pool p.alpha p.range p.maxc
        (· ∈ deleted) fuel
  else .ok (graph loc)

end Links

end Filtered

end DiskANNEval.AiSAQ
