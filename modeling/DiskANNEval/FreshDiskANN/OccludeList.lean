import DiskANNEval.PipeANN.PruneNeighbors

/-!
# OccludeList — `occlude_list` and `prune_neighbors` of the merger

`occlude_list` and `occlude_list_pq` differ in the distances they compare.  The rounds go over the
sorted pool with a growing `cur_alpha`; a point that no chosen point occludes is chosen, and its
factor is set to the largest number, so that it is not chosen again (`chosen_occludeList`).
-/

namespace DiskANNEval.FreshDiskANN

open List Function

open PipeANN (Floats)

structure Neighbor (D : Type) where
  id : ℕ
  distance : D

/-- The parameters of the merger.  `sort` is `std::sort`, which leaves the order of equal distances
open, and `rounds` bounds how often `cur_alpha *= 1.2` can be done before `cur_alpha` is over
`alpha`. -/
structure Pruning (D : Type) where
  fl : Floats D
  range : ℕ
  maxc : ℕ
  alpha : D
  sort : List (Neighbor D) → List (Neighbor D)
  sort_perm : ∀ pool, (sort pool).Perm pool
  rounds : ℕ
  rounds_enough : fl.le ((fun a => fl.mul a fl.alphaStep)^[rounds] fl.one) alpha = false
  not_one_lt_zero : fl.lt fl.one fl.zero = false

structure OccludeState (D : Type) where
  result : List (Neighbor D)
  occludeFactor : ℕ → D

namespace Pruning

variable {D : Type} (c : Pruning D)

/-- The loop over `t` after `pool[start]` is chosen; `djk` is the distance of two ids. -/
def occlude (djk : ℕ → ℕ → D) (pool : List (Neighbor D)) (p : Neighbor D) (start : ℕ)
    (factor : ℕ → D) : ℕ → D :=
  fun t =>
    match pool[t]? with
    | none => factor t
    | some x =>
      if start < t ∧ t < c.maxc ∧ c.fl.lt c.alpha (factor t) = false then
        c.fl.max (factor t) (c.fl.div x.distance (djk p.id x.id))
      else factor t

/-- The body of the loop over `start`. -/
def visit (djk : ℕ → ℕ → D) (pool : List (Neighbor D)) (curAlpha : D) (s : OccludeState D)
    (x : Neighbor D × ℕ) : OccludeState D :=
  if s.result.length < c.range ∧ x.2 < c.maxc ∧ c.fl.lt curAlpha (s.occludeFactor x.2) = false then
    { result := s.result ++ [x.1]
      occludeFactor := c.occlude djk pool x.1 x.2
        (Function.update s.occludeFactor x.2 c.fl.maxValue) }
  else s

/-- `while (cur_alpha <= alpha && result.size() < range)` -/
def alphaRounds (djk : ℕ → ℕ → D) (pool : List (Neighbor D)) :
    ℕ → D → OccludeState D → OccludeState D
  | 0, _, s => s
  | n + 1, curAlpha, s =>
    if c.fl.le curAlpha c.alpha = true ∧ s.result.length < c.range then
      alphaRounds djk pool n (c.fl.mul curAlpha c.fl.alphaStep)
        (pool.zipIdx.foldl (c.visit djk pool curAlpha) s)
    else s

def occludeList (djk : ℕ → ℕ → D) (pool : List (Neighbor D)) : List (Neighbor D) :=
  (c.alphaRounds djk pool c.rounds c.fl.one ⟨[], fun _ => c.fl.zero⟩).result

/-- With `alpha > 1` the pool fills the list up. -/
def fill (pool : List (Neighbor D)) (prunedList : List ℕ) : List ℕ :=
  if c.fl.lt c.fl.one c.alpha = true then
    pool.foldl (fun l x => if l.length < c.range ∧ x.id ∉ l then l ++ [x.id] else l) prunedList
  else prunedList

/-- `prune_neighbors` and `prune_neighbors_pq` -/
def pruneNeighbors (djk : ℕ → ℕ → D) (pool : List (Neighbor D)) : List ℕ :=
  c.fill (c.sort pool) ((c.occludeList djk (c.sort pool)).map Neighbor.id)

/-! ### What is chosen -/

/-- No number that `alpha` bounds is the largest one. -/
def AlphaBelowMax : Prop :=
  c.fl.lt c.alpha c.fl.maxValue = true ∧
    ∀ a, c.fl.le a c.alpha = true → c.fl.lt a c.fl.maxValue = true

/-- The elements at different places of the pool, whose factors are the largest number, are
chosen. -/
def Chosen (pool : List (Neighbor D)) (s : OccludeState D) : Prop :=
  ∃ is : List ℕ, is.Nodup ∧ is.map (pool[·]?) = s.result.map some ∧
    ∀ i ∈ is, s.occludeFactor i = c.fl.maxValue

variable {c} {djk : ℕ → ℕ → D} {pool : List (Neighbor D)} {s : OccludeState D}

theorem occlude_of_max (hα : c.AlphaBelowMax) {p : Neighbor D} {start t : ℕ} {factor : ℕ → D}
    (ht : factor t = c.fl.maxValue) : c.occlude djk pool p start factor t = c.fl.maxValue := by
  rw [occlude]
  split
  · exact ht
  · rw [if_neg, ht]
    rw [ht, hα.1]
    simp

variable {curAlpha : D}

theorem Chosen.visit (h : c.Chosen pool s) (hα : c.AlphaBelowMax)
    (hcur : c.fl.le curAlpha c.alpha = true) {x : Neighbor D × ℕ} (hx : pool[x.2]? = some x.1) :
    c.Chosen pool (c.visit djk pool curAlpha s x) := by
  rw [Pruning.visit]
  split_ifs with hc
  · obtain ⟨is, hnd, hmap, hmax⟩ := h
    have hnew : x.2 ∉ is := by
      intro hmem
      have hlt := hc.2.2
      rw [hmax _ hmem, hα.2 _ hcur] at hlt
      cases hlt
    refine ⟨is ++ [x.2], ?_, ?_, fun i hi => occlude_of_max hα ?_⟩
    · refine nodup_append.2 ⟨hnd, nodup_singleton _, fun a ha b hb he => hnew ?_⟩
      rw [← mem_singleton.1 hb, ← he]
      exact ha
    · rw [map_append, map_append, hmap, map_singleton, map_singleton, hx]
    · obtain hi | hi := mem_append.1 hi
      · have hne : i ≠ x.2 := fun he => hnew (he ▸ hi)
        rw [update_of_ne hne]
        exact hmax i hi
      · rw [mem_singleton.1 hi, update_self]
  · exact h

variable {xs : List (Neighbor D × ℕ)}

theorem Chosen.visits (h : c.Chosen pool s) (hα : c.AlphaBelowMax)
    (hcur : c.fl.le curAlpha c.alpha = true) (hxs : ∀ x ∈ xs, pool[x.2]? = some x.1) :
    c.Chosen pool (xs.foldl (c.visit djk pool curAlpha) s) := by
  induction xs generalizing s with
  | nil => exact h
  | cons x xs ih =>
    exact ih (h.visit hα hcur (hxs x mem_cons_self)) fun y hy =>
      hxs y (mem_cons_of_mem x hy)

theorem Chosen.alphaRounds (h : c.Chosen pool s) (hα : c.AlphaBelowMax) (n : ℕ) (curAlpha : D) :
    c.Chosen pool (c.alphaRounds djk pool n curAlpha s) := by
  induction n generalizing curAlpha s with
  | zero => exact h
  | succ n ih =>
    rw [Pruning.alphaRounds]
    split_ifs with hc
    · refine ih (h.visits hα hc.1 fun x hx => ?_) _
      exact mem_zipIdx_iff_getElem?.1 hx
    · exact h

theorem chosen_occludeList (hα : c.AlphaBelowMax) (djk : ℕ → ℕ → D) (pool : List (Neighbor D)) :
    ∃ is : List ℕ, is.Nodup ∧ is.map (pool[·]?) = (c.occludeList djk pool).map some := by
  have hnil : c.Chosen pool ⟨[], fun _ => c.fl.zero⟩ :=
    ⟨[], nodup_nil, rfl, fun i hi => absurd hi not_mem_nil⟩
  obtain ⟨is, hnd, hmap, -⟩ := @Chosen.alphaRounds _ c djk pool _ hnil hα c.rounds c.fl.one
  exact ⟨is, hnd, hmap⟩

theorem nodup_occludeList (hα : c.AlphaBelowMax) (hids : (pool.map Neighbor.id).Nodup) :
    ((c.occludeList djk pool).map Neighbor.id).Nodup := by
  obtain ⟨is, hnd, hmap⟩ := chosen_occludeList hα djk pool
  have hlt : ∀ i ∈ is, i < (pool.map Neighbor.id).length := by
    intro i hi
    have hmem : pool[i]? ∈ (c.occludeList djk pool).map some := by
      rw [← hmap]
      exact mem_map_of_mem hi
    obtain ⟨p, -, hp⟩ := mem_map.1 hmem
    rw [length_map]
    exact (List.getElem?_eq_some_iff.1 hp.symm).1
  have hids' : ((c.occludeList djk pool).map Neighbor.id).map some =
      is.map ((pool.map Neighbor.id)[·]?) := by
    calc ((c.occludeList djk pool).map Neighbor.id).map some
        = ((c.occludeList djk pool).map some).map (Option.map Neighbor.id) := by
          rw [map_map, map_map]
          rfl
      _ = is.map ((pool.map Neighbor.id)[·]?) := by
          rw [← hmap, map_map]
          apply map_congr_left
          intro i _
          rw [comp_apply, getElem?_map]
  refine Nodup.of_map some ?_
  rw [hids']
  exact hnd.map_on fun i hi j _ hij => (getElem?_inj (hlt i hi) hids).1 hij

theorem length_visit_le (h : s.result.length ≤ c.range) (x : Neighbor D × ℕ) :
    (c.visit djk pool curAlpha s x).result.length ≤ c.range := by
  rw [visit]
  split_ifs with hc
  · rw [length_append]
    exact hc.1
  · exact h

theorem length_visits_le (h : s.result.length ≤ c.range) (xs : List (Neighbor D × ℕ)) :
    (xs.foldl (c.visit djk pool curAlpha) s).result.length ≤ c.range := by
  induction xs generalizing s with
  | nil => exact h
  | cons x xs ih => exact ih (length_visit_le h x)

theorem length_alphaRounds_le (h : s.result.length ≤ c.range) (n : ℕ) (curAlpha : D) :
    (c.alphaRounds djk pool n curAlpha s).result.length ≤ c.range := by
  induction n generalizing curAlpha s with
  | zero => exact h
  | succ n ih =>
    rw [alphaRounds]
    split_ifs
    · exact ih (length_visits_le h _) _
    · exact h

theorem length_occludeList_le : (c.occludeList djk pool).length ≤ c.range :=
  length_alphaRounds_le (Nat.zero_le _) _ _

theorem subset_visits (hxs : ∀ x ∈ xs, x.1 ∈ pool) (h : s.result ⊆ pool) :
    (xs.foldl (c.visit djk pool curAlpha) s).result ⊆ pool := by
  induction xs generalizing s with
  | nil => exact h
  | cons x xs ih =>
    refine ih (fun y hy => hxs y (mem_cons_of_mem x hy)) ?_
    rw [visit]
    split_ifs
    · intro y hy
      obtain hy | hy := mem_append.1 hy
      · exact h hy
      · rw [mem_singleton.1 hy]
        exact hxs x mem_cons_self
    · exact h

theorem subset_alphaRounds (h : s.result ⊆ pool) (n : ℕ) (curAlpha : D) :
    (c.alphaRounds djk pool n curAlpha s).result ⊆ pool := by
  induction n generalizing curAlpha s with
  | zero => exact h
  | succ n ih =>
    rw [alphaRounds]
    split_ifs
    · refine ih (subset_visits (fun x hx => ?_) h) _
      exact mem_of_getElem? (mem_zipIdx_iff_getElem?.1 hx)
    · exact h

theorem occludeList_subset : c.occludeList djk pool ⊆ pool :=
  subset_alphaRounds (nil_subset _) _ _

/-! ### When nothing is chosen -/

theorem result_prefix_visits (xs : List (Neighbor D × ℕ)) :
    s.result <+: (xs.foldl (c.visit djk pool curAlpha) s).result := by
  induction xs generalizing s with
  | nil => exact prefix_refl _
  | cons x xs ih =>
    refine IsPrefix.trans ?_ ih
    rw [visit]
    split_ifs
    · exact prefix_append _ _
    · exact prefix_refl _

theorem result_prefix_alphaRounds (n : ℕ) (curAlpha : D) :
    s.result <+: (c.alphaRounds djk pool n curAlpha s).result := by
  induction n generalizing curAlpha s with
  | zero => exact prefix_refl _
  | succ n ih =>
    rw [alphaRounds]
    split_ifs
    · exact (result_prefix_visits _).trans (ih _)
    · exact prefix_refl _

/-- The parameters let something be chosen. -/
def Chooses (c : Pruning D) : Prop := c.fl.le c.fl.one c.alpha = true ∧ 0 < c.range ∧ 0 < c.maxc

theorem mem_occludeList_head {p : Neighbor D} (h : c.Chooses) :
    p ∈ c.occludeList djk (p :: pool) := by
  obtain ⟨hα, hrange, hmaxc⟩ := h
  obtain ⟨n, hn⟩ : ∃ n, c.rounds = n + 1 := by
    refine Nat.exists_eq_succ_of_ne_zero fun h0 => ?_
    have henough := c.rounds_enough
    rw [h0, iterate_zero, id, hα] at henough
    cases henough
  rw [occludeList, hn, alphaRounds, if_pos ⟨hα, hrange⟩, zipIdx_cons, foldl_cons]
  refine (result_prefix_alphaRounds n _).subset ((result_prefix_visits _).subset ?_)
  rw [visit, if_pos ⟨hrange, hmaxc, c.not_one_lt_zero⟩]
  exact mem_singleton_self p

theorem visits_eq_self (hxs : ∀ x ∈ xs, ¬ x.2 < c.maxc) :
    xs.foldl (c.visit djk pool curAlpha) s = s := by
  induction xs with
  | nil => rfl
  | cons x xs ih =>
    rw [foldl_cons, visit, if_neg fun hc => hxs x mem_cons_self hc.2.1]
    exact ih fun y hy => hxs y (mem_cons_of_mem x hy)

theorem alphaRounds_eq_self (hpool : ∀ x ∈ pool.zipIdx, ¬ x.2 < c.maxc) (n : ℕ) (curAlpha : D) :
    c.alphaRounds djk pool n curAlpha s = s := by
  induction n generalizing curAlpha with
  | zero => rfl
  | succ n ih =>
    rw [alphaRounds, visits_eq_self hpool, ih, ite_self]

theorem occludeList_eq_nil : c.occludeList djk pool = [] ↔ pool = [] ∨ ¬ c.Chooses := by
  constructor
  · intro h
    by_contra hne
    obtain ⟨hpool, hc⟩ := not_or.1 hne
    obtain ⟨p, pool, rfl⟩ := exists_cons_of_ne_nil hpool
    have hp := @mem_occludeList_head _ c djk pool p (not_not.1 hc)
    rw [h] at hp
    exact absurd hp not_mem_nil
  · rintro (rfl | hc)
    · rw [occludeList, alphaRounds_eq_self]
      exact fun x hx => absurd hx not_mem_nil
    · by_cases hα : c.fl.le c.fl.one c.alpha = true
      · by_cases hrange : c.range = 0
        · have hlen := @length_occludeList_le _ c djk pool
          rw [hrange] at hlen
          exact eq_nil_of_length_eq_zero (Nat.le_zero.1 hlen)
        · have hmaxc : c.maxc = 0 := by
            by_contra hmaxc
            exact hc ⟨hα, Nat.pos_of_ne_zero hrange, Nat.pos_of_ne_zero hmaxc⟩
          rw [occludeList, alphaRounds_eq_self]
          intro x _
          rw [hmaxc]
          exact Nat.not_lt_zero _
      · rw [occludeList]
        cases c.rounds with
        | zero => rfl
        | succ n => rw [alphaRounds, if_neg fun h => hα h.1]

/-! ### The lists -/

variable {list : List ℕ}

theorem mem_fill {n : ℕ} (h : n ∈ c.fill pool list) : n ∈ list ∨ n ∈ pool.map Neighbor.id := by
  rw [fill] at h
  split_ifs at h
  · induction pool generalizing list with
    | nil => exact .inl h
    | cons x pool ih =>
      obtain h | h := ih h
      · dsimp only at h
        split_ifs at h
        · obtain h | h := mem_append.1 h
          · exact .inl h
          · exact .inr (mem_cons.2 (.inl (mem_singleton.1 h)))
        · exact .inl h
      · exact .inr (mem_cons_of_mem _ h)
  · exact .inl h

theorem nodup_fill (h : list.Nodup) : (c.fill pool list).Nodup := by
  rw [fill]
  split_ifs
  · induction pool generalizing list with
    | nil => exact h
    | cons x pool ih =>
      refine ih ?_
      dsimp only
      split_ifs with hx
      · refine nodup_append.2 ⟨h, nodup_singleton _, fun a ha b hb he => hx.2 ?_⟩
        rw [← mem_singleton.1 hb, ← he]
        exact ha
      · exact h
  · exact h

theorem length_fill_le (h : list.length ≤ c.range) : (c.fill pool list).length ≤ c.range := by
  rw [fill]
  split_ifs
  · induction pool generalizing list with
    | nil => exact h
    | cons x pool ih =>
      refine ih ?_
      dsimp only
      split_ifs with hx
      · rw [length_append]
        exact hx.1
      · exact h
  · exact h

theorem mem_pruneNeighbors {n : ℕ} (h : n ∈ c.pruneNeighbors djk pool) :
    n ∈ pool.map Neighbor.id := by
  have hperm := (c.sort_perm pool).map Neighbor.id
  obtain h | h := mem_fill h
  · obtain ⟨p, hp, rfl⟩ := mem_map.1 h
    exact hperm.mem_iff.1 (mem_map_of_mem (occludeList_subset hp))
  · exact hperm.mem_iff.1 h

theorem nodup_pruneNeighbors (hα : c.AlphaBelowMax) (hids : (pool.map Neighbor.id).Nodup) :
    (c.pruneNeighbors djk pool).Nodup := by
  have hperm := (c.sort_perm pool).map Neighbor.id
  exact nodup_fill (nodup_occludeList hα (hperm.nodup_iff.2 hids))

theorem length_pruneNeighbors_le : (c.pruneNeighbors djk pool).length ≤ c.range := by
  refine length_fill_le ?_
  rw [length_map]
  exact length_occludeList_le

end Pruning

end DiskANNEval.FreshDiskANN
