import DiskANNEval.PipeANN.Pool

/-!
# PruneNeighbors — `prune_neighbors` and `delta_prune_neighbors`

The pool is sorted and cut to `C`.  The rounds go over it with a growing `cur_alpha`; a point that
no chosen point occludes is put into the result set, and occludes others from then on.  The result
has at most `R` ids, all of the pool, and each once (`listOk_prune`): the set leaves out a point that
it has, since no `float` is less than itself.

`delta_prune_neighbors` takes one point out of a list (`length_deltaPrune`).
-/

namespace DiskANNEval.PipeANN

open List

/-- `float`, with `0`, `1`, `1.2f`, `1.0f - 1e-5f` and `numeric_limits<float>::max()`. -/
structure Floats (D : Type) where
  lt : D → D → Bool
  le : D → D → Bool
  eq : D → D → Bool
  mul : D → D → D
  div : D → D → D
  max : D → D → D
  zero : D
  one : D
  alphaStep : D
  almostOne : D
  maxValue : D
  lt_irrefl : ∀ d, lt d d = false

inductive Metric where
  | l2
  | innerProduct
  | cosine
  deriving DecidableEq

variable {D : Type}

def getOccludeFactor (fl : Floats D) : Metric → D → D → D
  | .l2, dik, djk | .cosine, dik, djk => if fl.eq djk fl.zero then fl.maxValue else fl.div dik djk
  | .innerProduct, dik, djk =>
    if fl.lt djk dik then
      if fl.lt fl.zero djk then fl.div dik djk
      else if fl.lt dik fl.zero then fl.div djk dik
      else fl.maxValue
    else fl.zero

/-- `Neighbor::operator<` -/
def Neighbor.less (fl : Floats D) (a b : Neighbor D) : Bool :=
  fl.lt a.distance b.distance || (fl.eq a.distance b.distance && a.id < b.id)

theorem Neighbor.less_irrefl (fl : Floats D) (a : Neighbor D) : a.less fl a = false := by
  simp [less, fl.lt_irrefl]

/-- `std::set<Neighbor>::insert`: an element is not added to an equivalent one. -/
def setInsert (fl : Floats D) (p : Neighbor D) (set : List (Neighbor D)) : List (Neighbor D) :=
  if set.any fun x => !p.less fl x && !x.less fl p then set
  else set.orderedInsert (fun a b => a.less fl b) p

/-- `IndexBuildParameters` with the metric and the distances of two ids.  `rounds` bounds how often
`cur_alpha *= 1.2f` can be done before `cur_alpha` is over `alpha`, and `cur_alpha /= 1.2f` before it
is under `1.0f - 1e-5f`. -/
structure Pruning (D : Type) where
  fl : Floats D
  metric : Metric
  R : ℕ
  C : ℕ
  alpha : D
  saturateGraph : Bool
  dist : ℕ → ℕ → D
  rounds : ℕ
  rounds_enough : fl.le ((fun a => fl.mul a fl.alphaStep)^[rounds] fl.one) alpha = false
  rounds_down : fl.le fl.almostOne ((fun a => fl.div a fl.alphaStep)^[rounds] alpha) = false

structure PruneState (D : Type) where
  resultSet : List (Neighbor D)
  occludeFactor : ℕ → D

namespace Pruning

variable (c : Pruning D)

/-- The loop over `t` after `pool[start]` is taken. -/
def occlude (pool : List (Neighbor D)) (p : Neighbor D) (start : ℕ) (factor : ℕ → D) : ℕ → D :=
  fun t =>
    match pool[t]? with
    | none => factor t
    | some x =>
      if start < t ∧ t < c.C ∧ c.fl.lt c.alpha (factor t) = false then
        c.fl.max (factor t) (getOccludeFactor c.fl c.metric x.distance (c.dist p.id x.id))
      else factor t

/-- The body of the loop over `start`. -/
def visit (pool : List (Neighbor D)) (curAlpha : D) (s : PruneState D) (x : Neighbor D × ℕ) :
    PruneState D :=
  let (p, start) := x
  if s.resultSet.length < c.R ∧ c.fl.lt curAlpha (s.occludeFactor start) = false then
    { resultSet := setInsert c.fl p s.resultSet
      occludeFactor :=
        c.occlude pool p start (Function.update s.occludeFactor start c.fl.maxValue) }
  else s

/-- `while (cur_alpha <= alpha && result_set.size() < range)` -/
def alphaRounds (pool : List (Neighbor D)) : ℕ → D → PruneState D → PruneState D
  | 0, _, s => s
  | n + 1, curAlpha, s =>
    if c.fl.le curAlpha c.alpha ∧ s.resultSet.length < c.R then
      alphaRounds pool n (c.fl.mul curAlpha c.fl.alphaStep)
        (pool.zipIdx.foldl (c.visit pool curAlpha) s)
    else s

/-- The ids of the pool that are not in the list yet fill it up. -/
def saturate (pool : List (Neighbor D)) (list : List ℕ) : List ℕ :=
  if c.saturateGraph ∧ c.fl.lt c.fl.one c.alpha then
    pool.foldl (fun l x => if l.length < c.R ∧ x.id ∉ l then l ++ [x.id] else l) list
  else list

def sortedPool (pool : List (Neighbor D)) : List (Neighbor D) :=
  (pool.insertionSort fun a b => a.less c.fl b).take c.C

def chosen (pool : List (Neighbor D)) : List (Neighbor D) :=
  (c.alphaRounds pool c.rounds c.fl.one ⟨[], fun _ => c.fl.zero⟩).resultSet

def pruneNeighbors (pool : List (Neighbor D)) (prunedList : List ℕ) : List ℕ :=
  if pool.isEmpty then prunedList
  else c.saturate (c.sortedPool pool) ((c.chosen (c.sortedPool pool)).map (·.id))

/-- The call of `merge_deletes`: the pool is made of the neighbourhood of `id`. -/
def prune (id : ℕ) (nhood : List ℕ) : List ℕ :=
  c.pruneNeighbors (nhood.map fun nbr => ⟨nbr, c.dist id nbr, false, false⟩) nhood

/-! ### The rounds end because `cur_alpha` is over `alpha` or the set is full -/

/-! ### What the result has -/

/-- The result set holds points of the pool, each once, and at most `R`. -/
structure SetOk (pool : List (Neighbor D)) (set : List (Neighbor D)) : Prop where
  mem : ∀ x ∈ set, x ∈ pool
  nodup : set.Nodup
  length_le : set.length ≤ c.R

variable {c} {pool set : List (Neighbor D)}

theorem SetOk.insert (h : c.SetOk pool set) {p : Neighbor D} (hp : p ∈ pool)
    (hlen : set.length < c.R) : c.SetOk pool (setInsert c.fl p set) := by
  rw [setInsert]
  split_ifs with hany
  · exact h
  · have hnew : p ∉ set := by
      intro hmem
      apply hany
      rw [any_eq_true]
      exact ⟨p, hmem, by simp [Neighbor.less_irrefl]⟩
    have hperm := perm_orderedInsert (fun a b : Neighbor D => a.less c.fl b) p set
    refine ⟨fun x hx => ?_, ?_, ?_⟩
    · obtain rfl | hx := mem_cons.1 (hperm.mem_iff.1 hx)
      · exact hp
      · exact h.mem x hx
    · exact hperm.nodup_iff.2 (nodup_cons.2 ⟨hnew, h.nodup⟩)
    · rw [hperm.length_eq]
      exact hlen

variable {s : PruneState D}

theorem SetOk.visit (h : c.SetOk pool s.resultSet) {x : Neighbor D × ℕ} (hx : x.1 ∈ pool)
    (curAlpha : D) : c.SetOk pool (c.visit pool curAlpha s x).resultSet := by
  rw [Pruning.visit]
  split_ifs with hc
  · exact h.insert hx hc.1
  · exact h

theorem SetOk.visits {xs : List (Neighbor D × ℕ)} (hxs : ∀ x ∈ xs, x.1 ∈ pool) (curAlpha : D)
    (h : c.SetOk pool s.resultSet) :
    c.SetOk pool (xs.foldl (c.visit pool curAlpha) s).resultSet := by
  induction xs generalizing s with
  | nil => exact h
  | cons x xs ih =>
    rw [forall_mem_cons] at hxs
    exact ih hxs.2 (h.visit hxs.1 curAlpha)

theorem SetOk.alphaRounds (n : ℕ) (curAlpha : D) (h : c.SetOk pool s.resultSet) :
    c.SetOk pool (c.alphaRounds pool n curAlpha s).resultSet := by
  induction n generalizing curAlpha s with
  | zero => exact h
  | succ n ih =>
    rw [Pruning.alphaRounds]
    split_ifs with hc
    · exact ih _ (h.visits (fun x hx => (mem_zipIdx' hx).2 ▸ getElem_mem _) curAlpha)
    · exact h

theorem setOk_chosen (c : Pruning D) (pool : List (Neighbor D)) : c.SetOk pool (c.chosen pool) :=
  SetOk.alphaRounds c.rounds c.fl.one ⟨by simp, nodup_nil, Nat.zero_le _⟩

/-- At most `R` ids of `pool`, each once if those of `pool` are. -/
structure ListOk (c : Pruning D) (pool : List (Neighbor D)) (list : List ℕ) : Prop where
  mem : ∀ id ∈ list, ∃ x ∈ pool, x.id = id
  nodup : (pool.map (·.id)).Nodup → list.Nodup
  length_le : list.length ≤ c.R

theorem SetOk.listOk (h : c.SetOk pool set) : ListOk c pool (set.map (·.id)) := by
  refine ⟨fun id hid => ?_, fun hnd => ?_, ?_⟩
  · obtain ⟨x, hx, rfl⟩ := mem_map.1 hid
    exact ⟨x, h.mem x hx, rfl⟩
  · exact h.nodup.map_on fun x hx y hy =>
      inj_on_of_nodup_map hnd (h.mem x hx) (h.mem y hy)
  · rw [length_map]
    exact h.length_le

variable {list : List ℕ}

theorem ListOk.fill (xs : List (Neighbor D)) (hxs : ∀ x ∈ xs, x ∈ pool) (h : ListOk c pool list) :
    ListOk c pool
      (xs.foldl (fun l x => if l.length < c.R ∧ x.id ∉ l then l ++ [x.id] else l) list) := by
  induction xs generalizing list with
  | nil => exact h
  | cons x xs ih =>
    rw [forall_mem_cons] at hxs
    apply ih hxs.2
    dsimp only
    split_ifs with hc
    · refine ⟨fun id hid => ?_, fun hnd => ?_, ?_⟩
      · obtain hid | hid := mem_append.1 hid
        · exact h.mem id hid
        · exact ⟨x, hxs.1, (mem_singleton.1 hid).symm⟩
      · refine nodup_append.2 ⟨h.nodup hnd, nodup_singleton _, ?_⟩
        rintro a ha b hb rfl
        exact hc.2 (mem_singleton.1 hb ▸ ha)
      · rw [length_append]
        exact hc.1
    · exact h

theorem ListOk.saturate (h : ListOk c pool list) : ListOk c pool (c.saturate pool list) := by
  rw [Pruning.saturate]
  split_ifs
  · exact h.fill pool fun _ hx => hx
  · exact h

theorem ListOk.of_sortedPool (h : ListOk c (c.sortedPool pool) list) : ListOk c pool list := by
  have hperm := perm_insertionSort (fun a b : Neighbor D => a.less c.fl b) pool
  refine ⟨fun id hid => ?_, fun hnd => h.nodup ?_, h.length_le⟩
  · obtain ⟨x, hx, rfl⟩ := h.mem id hid
    exact ⟨x, hperm.mem_iff.1 (mem_of_mem_take hx), rfl⟩
  · rw [sortedPool]
    exact ((take_sublist ..).map _).nodup ((hperm.map _).nodup_iff.2 hnd)

theorem listOk_pruneNeighbors (hne : pool ≠ []) (prunedList : List ℕ) :
    ListOk c pool (c.pruneNeighbors pool prunedList) := by
  rw [pruneNeighbors, if_neg (by simpa using hne)]
  exact (setOk_chosen c (c.sortedPool pool)).listOk.saturate.of_sortedPool

theorem listOk_prune (c : Pruning D) (id : ℕ) (nhood : List ℕ) :
    (∀ nbr ∈ c.prune id nhood, nbr ∈ nhood) ∧ (nhood.Nodup → (c.prune id nhood).Nodup) ∧
      (c.prune id nhood).length ≤ c.R := by
  obtain rfl | hne := eq_or_ne nhood []
  · exact ⟨fun _ h => h, fun _ => nodup_nil, Nat.zero_le _⟩
  · let pool : List (Neighbor D) := nhood.map fun nbr => ⟨nbr, c.dist id nbr, false, false⟩
    have hids : pool.map (·.id) = nhood := by
      rw [map_map]
      exact map_id _
    have h : ListOk c pool (c.prune id nhood) := listOk_pruneNeighbors (by simpa [pool]) nhood
    refine ⟨fun nbr hn => ?_, fun hnd => h.nodup (by rwa [hids]), h.length_le⟩
    obtain ⟨x, hx, rfl⟩ := h.mem nbr hn
    rw [← hids]
    exact mem_map_of_mem hx

/-! ### `delta_prune_neighbors` -/

/-- The distances of a point to the target and to the center. -/
structure TriangleNeighbor (D : Type) where
  id : ℕ
  tgtDis : D
  distance : D

/-- `TriangleNeighbor::operator<` -/
def TriangleNeighbor.less (fl : Floats D) (a b : TriangleNeighbor D) : Bool :=
  fl.lt a.distance b.distance || (fl.eq a.distance b.distance && a.id < b.id)

variable (c)

/-- The loop over `i` from the farthest point on: `to_evict` and `tgt_idx` when it ends. -/
def evictScan (targetId : ℕ) (targetCenterDist curAlpha : D) :
    List (TriangleNeighbor D × ℕ) → Option ℕ → Option ℕ × Option ℕ
  | [], tgtIdx => (none, tgtIdx)
  | (x, i) :: xs, tgtIdx =>
    if x.id = targetId then evictScan targetId targetCenterDist curAlpha xs (some i)
    else if c.fl.lt targetCenterDist x.distance then
      if c.fl.lt curAlpha (getOccludeFactor c.fl c.metric x.distance x.tgtDis) then
        (some i, tgtIdx)
      else evictScan targetId targetCenterDist curAlpha xs tgtIdx
    else if c.fl.lt curAlpha (getOccludeFactor c.fl c.metric targetCenterDist x.tgtDis) then
      (tgtIdx, tgtIdx)
    else evictScan targetId targetCenterDist curAlpha xs tgtIdx

/-- `while (cur_alpha >= (1.0f - 1e-5f) && to_evict == kInvalidID)` -/
def fastPath (targetId : ℕ) (targetCenterDist : D) (xs : List (TriangleNeighbor D × ℕ)) :
    ℕ → D → Option ℕ → Option ℕ × Option ℕ
  | 0, _, tgtIdx => (none, tgtIdx)
  | n + 1, curAlpha, tgtIdx =>
    if c.fl.le c.fl.almostOne curAlpha then
      match c.evictScan targetId targetCenterDist curAlpha xs tgtIdx with
      | (some e, tgtIdx) => (some e, tgtIdx)
      | (none, tgtIdx) =>
        fastPath targetId targetCenterDist xs n (c.fl.div curAlpha c.fl.alphaStep) tgtIdx
    else (none, tgtIdx)

/-- The first `t` that a point before it occludes; the target occludes none here. -/
def slowPath (pool : List (TriangleNeighbor D)) (tgtIdx : Option ℕ) : Option ℕ :=
  pool.zipIdx.dropLast.findSome? fun (p, start) =>
    if some start = tgtIdx then none
    else
      ((pool.zipIdx.drop (start + 1)).find? fun (x, _) =>
        c.fl.lt c.alpha (getOccludeFactor c.fl c.metric x.distance (c.dist p.id x.id))).map (·.2)

/-- The pool, by the distance to the center. -/
def trianglePool (nhood : List ℕ) (centerId targetId : ℕ) : List (TriangleNeighbor D) :=
  (nhood.map fun id => ⟨id, c.dist targetId id, c.dist centerId id⟩).insertionSort
    fun a b => a.less c.fl b

def toEvict (pool : List (TriangleNeighbor D)) (centerId targetId : ℕ) : ℕ :=
  match c.fastPath targetId (c.dist centerId targetId) pool.zipIdx.reverse c.rounds c.alpha none with
  | (some e, _) => e
  | (none, tgtIdx) => (c.slowPath pool tgtIdx).getD (pool.length - 1)

def deltaPruneNeighbors (nhood : List ℕ) (centerId targetId : ℕ) : List ℕ :=
  let pool := c.trianglePool nhood centerId targetId
  (pool.eraseIdx (c.toEvict pool centerId targetId)).map (·.id)

variable {c} {targetId : ℕ} {targetCenterDist curAlpha : D} {n : ℕ}

theorem evictScan_lt {xs : List (TriangleNeighbor D × ℕ)} (hxs : ∀ x ∈ xs, x.2 < n)
    {tgtIdx : Option ℕ} (ht : ∀ t ∈ tgtIdx, t < n) :
    (∀ e ∈ (c.evictScan targetId targetCenterDist curAlpha xs tgtIdx).1, e < n) ∧
      ∀ t ∈ (c.evictScan targetId targetCenterDist curAlpha xs tgtIdx).2, t < n := by
  induction xs generalizing tgtIdx with
  | nil => exact ⟨by simp [evictScan], ht⟩
  | cons x xs ih =>
    rw [forall_mem_cons] at hxs
    rw [evictScan]
    split_ifs
    · exact ih hxs.2 (by simpa using hxs.1)
    · exact ⟨by simpa using hxs.1, ht⟩
    · exact ih hxs.2 ht
    · exact ⟨ht, ht⟩
    · exact ih hxs.2 ht

theorem fastPath_lt {xs : List (TriangleNeighbor D × ℕ)} (hxs : ∀ x ∈ xs, x.2 < n) (k : ℕ)
    (curAlpha : D) {tgtIdx : Option ℕ} (ht : ∀ t ∈ tgtIdx, t < n) :
    ∀ e ∈ (c.fastPath targetId targetCenterDist xs k curAlpha tgtIdx).1, e < n := by
  induction k generalizing curAlpha tgtIdx with
  | zero => simp [fastPath]
  | succ k ih =>
    rw [fastPath]
    split_ifs
    · obtain ⟨h1, h2⟩ := @evictScan_lt _ c targetId targetCenterDist curAlpha
        _ _ hxs _ ht
      split
      · rename_i e _ heq
        rw [heq] at h1
        exact h1
      · rename_i heq
        rw [heq] at h2
        exact ih _ h2
    · simp

theorem slowPath_lt {pool : List (TriangleNeighbor D)} {tgtIdx : Option ℕ} {e : ℕ}
    (h : c.slowPath pool tgtIdx = some e) : e < pool.length := by
  obtain ⟨⟨p, start⟩, -, hx⟩ := exists_of_findSome?_eq_some h
  dsimp only at hx
  split_ifs at hx
  obtain ⟨y, hy, rfl⟩ := Option.map_eq_some_iff.1 hx
  exact (mem_zipIdx' (mem_of_mem_drop (mem_of_find?_eq_some hy))).1

theorem toEvict_lt {pool : List (TriangleNeighbor D)} (hne : pool ≠ []) (centerId : ℕ) :
    c.toEvict pool centerId targetId < pool.length := by
  have hpos : 0 < pool.length := length_pos_iff.2 hne
  have hfast := @fastPath_lt _ c targetId (c.dist centerId targetId) pool.length pool.zipIdx.reverse
    (fun x hx => (mem_zipIdx' (mem_reverse.1 hx)).1) c.rounds c.alpha
    none (by simp)
  rw [toEvict]
  split
  · rename_i e _ heq
    rw [heq] at hfast
    exact hfast e rfl
  · rename_i tgtIdx _
    cases hslow : c.slowPath pool tgtIdx with
    | none =>
      rw [Option.getD_none]
      omega
    | some e => exact slowPath_lt hslow

theorem length_deltaPrune (c : Pruning D) {nhood : List ℕ} (hne : nhood ≠ [])
    (centerId targetId : ℕ) :
    (c.deltaPruneNeighbors nhood centerId targetId).length = nhood.length - 1 := by
  have hlen : (c.trianglePool nhood centerId targetId).length = nhood.length := by
    rw [trianglePool, length_insertionSort, length_map]
  have hne' : c.trianglePool nhood centerId targetId ≠ [] := by
    intro h
    rw [h] at hlen
    exact hne (length_eq_zero_iff.1 hlen.symm)
  rw [deltaPruneNeighbors, length_map, length_eraseIdx_of_lt (toEvict_lt hne' centerId),
    hlen]

end Pruning

end DiskANNEval.PipeANN
