import DiskANNEval.AiSAQ.Pruned
import DiskANNEval.Lib.KeySet
import DiskANNEval.Lib.Loops

/-!
# Occlusion — what a pruning pass keeps, with labels and in exact arithmetic

`occlude_list` and `prune_neighbors` of an index that may be filtered: there one candidate may only
occlude another when it has all its labels.  With exact distances the factors say what they are meant
to say (`Explained`): a candidate that is left out has been occluded by one taken before it.  A pass
goes through the pool in order, but every `alpha` makes a pass of its own; and a candidate that is
taken still occludes others when it is the node itself or deleted and so does not enter the list.
-/

namespace DiskANNEval.AiSAQ

open List

variable {Vec Label D K : Type} [DecidableEq Label]

/-- `prune_allowed`: whether `a` may occlude `b`.  `labels` is `_location_to_labels` of a filtered
index; the comparison of the sizes is as in the code. -/
def pruneAllowed (labels : Option (List (List Label))) (a b : ℕ) : Bool :=
  match labels with
  | none => true
  | some labels =>
    if labels.length < b ∨ labels.length < a then false
    else (labels.getD b []).all fun x => (labels.getD a []).contains x

namespace Filtered

section Prune

variable (cfg : Config Vec D) (data : DataStore Vec) (labels : Option (List (List Label)))

/-- Pool position `i` in one pass, on the pair `(occlude_factor, result)`. -/
def occludeAt (location : ℕ) (pool : List (Neighbor D)) (alpha : D) (degree : ℕ)
    (deleted : ℕ → Bool) (curAlpha : D) (st : List D × List ℕ) (i : ℕ) : List D × List ℕ :=
  match pool[i]?, st.1[i]? with
  | some x, some f =>
    if decide (st.2.length < degree) && !cfg.fl.lt curAlpha f then
      ((st.1.set i cfg.fl.maxValue).mapIdx fun t g =>
          match pool[t]? with
          | some y =>
            if i < t && pruneAllowed labels x.id y.id then occlude cfg data alpha curAlpha x y g
            else g
          | none => g,
        if !deleted x.id && x.id != location then st.2 ++ [x.id] else st.2)
    else st
  | _, _ => st

/-- The passes from `curAlpha` on. -/
def occludeRounds (location : ℕ) (pool : List (Neighbor D)) (alpha : D) (degree : ℕ)
    (deleted : ℕ → Bool) : ℕ → D → List D × List ℕ → Except Fault (List ℕ)
  | 0, _, _ => .error .stuck
  | fuel + 1, curAlpha, st =>
    if cfg.fl.le curAlpha alpha && decide (st.2.length < degree) then
      occludeRounds location pool alpha degree deleted fuel (cfg.fl.mul curAlpha cfg.fl.alphaStep)
        ((List.range pool.length).foldl
          (occludeAt cfg data labels location pool alpha degree deleted curAlpha) st)
    else .ok st.2

/-- `occlude_list`; the caller goes on with the pool truncated to `maxc`. -/
def occludeList (location : ℕ) (pool : List (Neighbor D)) (alpha : D) (degree maxc : ℕ)
    (deleted : ℕ → Bool) (fuel : ℕ) : Except Fault (List ℕ) :=
  if pool.isEmpty then .ok []
  else
    let pool := pool.take maxc
    occludeRounds cfg data labels location pool alpha degree deleted fuel cfg.fl.one
      (List.replicate pool.length cfg.fl.zero, [])

/-- The pool as `prune_neighbors` sorts it; under `_pq_dist` the distances are computed anew. -/
def prunePool (pqDist : Bool) (location : ℕ) (pool : List (Neighbor D)) : List (Neighbor D) :=
  sortPool cfg.fl (if pqDist then
    pool.map fun ngh => { ngh with distance := cfg.compare (data ngh.id) (data location) }
  else pool)

def pruneNeighbors (pqDist : Bool) (location : ℕ) (pool : List (Neighbor D)) (range maxc : ℕ)
    (alpha : D) (fuel : ℕ) : Except Fault (List ℕ) :=
  if pool.isEmpty then .ok []
  else
    let pool := prunePool cfg data pqDist location pool
    (occludeList cfg data labels location pool alpha range maxc (fun _ => false) fuel).map
      fun pruned =>
        if cfg.saturateGraph && cfg.fl.lt cfg.fl.one alpha then
          saturate location (pool.take maxc) range pruned
        else pruned

end Prune

/-! ### The unfiltered index -/

section Unfiltered

variable (cfg : Config Vec D) (data : DataStore Vec) (location : ℕ) (pool : List (Neighbor D))

theorem occludeAt_none (alpha : D) (degree : ℕ) (deleted : ℕ → Bool) (curAlpha : D)
    (st : List D × List ℕ) (i : ℕ) :
    occludeAt cfg data (none : Option (List (List Label))) location pool alpha degree deleted
      curAlpha st i = AiSAQ.occludeAt cfg data location pool alpha degree deleted curAlpha st i := by
  unfold occludeAt AiSAQ.occludeAt
  simp only [pruneAllowed, Bool.and_true, decide_eq_true_eq] <;> rfl

theorem occludeRounds_none (alpha : D) (degree : ℕ) (deleted : ℕ → Bool) (fuel : ℕ) (curAlpha : D)
    (st : List D × List ℕ) :
    occludeRounds cfg data (none : Option (List (List Label))) location pool alpha degree deleted fuel
      curAlpha st =
        AiSAQ.occludeRounds cfg data location pool alpha degree deleted fuel curAlpha st := by
  induction fuel generalizing curAlpha st with
  | zero => rfl
  | succ fuel ih =>
    rw [occludeRounds, AiSAQ.occludeRounds, ih,
      funext fun st => funext fun i => @occludeAt_none Vec Label D _ cfg data location pool alpha
        degree deleted curAlpha st i]

theorem pruneNeighbors_eq (labels : Option (List (List Label))) (pqDist : Bool) (range maxc : ℕ)
    (alpha : D) (fuel : ℕ) :
    pruneNeighbors cfg data labels pqDist location pool range maxc alpha fuel =
      (occludeList cfg data labels location (prunePool cfg data pqDist location pool) alpha range maxc
        (fun _ => false) fuel).map fun pruned =>
          if cfg.saturateGraph && cfg.fl.lt cfg.fl.one alpha then
            saturate location ((prunePool cfg data pqDist location pool).take maxc) range pruned
          else pruned := by
  unfold pruneNeighbors
  by_cases hempty : pool.isEmpty
  · rw [if_pos hempty]
    rw [List.isEmpty_iff] at hempty
    have hpool : prunePool cfg data pqDist location [] = [] := by
      unfold prunePool
      rw [map_nil, ite_self]
      rfl
    rw [hempty, hpool, take_nil]
    show _ = Except.map _ (.ok [])
    split_ifs
    · rfl
    · rfl
  · rw [if_neg hempty]

theorem length_prunePool (pqDist : Bool) :
    (prunePool cfg data pqDist location pool).length = pool.length := by
  unfold prunePool sortPool
  rw [length_insertionSort]
  split_ifs
  · rw [length_map]
  · rfl

theorem pruneNeighbors_none (fuel : ℕ) :
    pruneNeighbors cfg data (none : Option (List (List Label))) false location pool
      cfg.indexingRange cfg.indexingMaxC cfg.indexingAlpha fuel =
        AiSAQ.pruneNeighbors cfg data location pool fuel := by
  unfold pruneNeighbors AiSAQ.pruneNeighbors
  by_cases h1 : pool.isEmpty
  · rw [if_pos h1, if_pos h1]
  · have h2 : (prunePool cfg data false location pool).isEmpty = false := by
      rw [isEmpty_eq_false_iff, ← length_pos_iff, length_prunePool, length_pos_iff]
      simpa using h1
    unfold occludeList AiSAQ.occludeList
    dsimp only
    rw [h2, occludeRounds_none]
    rfl

end Unfiltered

/-! ### Exact arithmetic -/

section Exact

variable [Field K] [LinearOrder K] [IsStrictOrderedRing K]

/-- Exact arithmetic, in which `numeric_limits<float>::max()` is above all numbers. -/
def exactOps (slackDegree : ℕ → ℕ) : FloatOps (WithTop K) where
  lt a b := decide (a < b)
  le a b := decide (a ≤ b)
  eq a b := decide (a = b)
  add := WithTop.map₂ (· + ·)
  mul := WithTop.map₂ (· * ·)
  div := WithTop.map₂ (· / ·)
  neg := WithTop.map Neg.neg
  max := max
  zero := ((0 : K) : WithTop K)
  one := ((1 : K) : WithTop K)
  eps := ((1 / 100 : K) : WithTop K)
  alphaStep := ((6 / 5 : K) : WithTop K)
  maxValue := ⊤
  slackDegree

/-- At `alpha = a` the candidate `x` is close enough to `y` to occlude it, or at the same place. -/
def Closer (cfg : Config Vec D) (data : DataStore Vec) (a : D) (x y : Neighbor D) : Prop :=
  let djk := cfg.compare (data y.id) (data x.id)
  match cfg.metric with
  | .l2 | .cosine =>
    cfg.fl.eq djk cfg.fl.zero = true ∨ cfg.fl.lt a (cfg.fl.div y.distance djk) = true
  | .innerProduct => cfg.fl.lt (cfg.fl.mul a (cfg.fl.neg y.distance)) (cfg.fl.neg djk) = true
  | .fastL2 => False

/-- `x` occludes `y` at `alpha = a`. -/
def Occludes (cfg : Config Vec D) (data : DataStore Vec) (labels : Option (List (List Label)))
    (a : D) (x y : Neighbor D) : Prop :=
  pruneAllowed labels x.id y.id = true ∧ Closer cfg data a x y

variable {cfg : Config Vec (WithTop K)} {slack : ℕ → ℕ} {data : DataStore Vec}
  {labels : Option (List (List Label))} {location degree maxc : ℕ} {alpha : K}
  {deleted : ℕ → Bool} {pool : List (Neighbor (WithTop K))}

omit [IsStrictOrderedRing K] in
theorem occlude_top (hfl : cfg.fl = exactOps slack) (c : WithTop K) (x y : Neighbor (WithTop K)) :
    occlude cfg data (alpha : WithTop K) c x y ⊤ = ⊤ := by
  have hlt : cfg.fl.lt (alpha : WithTop K) ⊤ = true := by
    rw [hfl]
    exact decide_eq_true (WithTop.coe_lt_top alpha)
  unfold occlude
  rw [if_pos hlt]

variable {c : K}

/-- A factor that one more candidate has raised over `a` says that it occludes at `a`.  `a` is the
current `alpha` or one of a later pass: the `0.01` that an inner product adds does not reach those. -/
theorem lt_occlude (hfl : cfg.fl = exactOps slack) {a : K} (hc : 1 ≤ c)
    (ha : a = c ∨ c * (6 / 5) ≤ a) {x y : Neighbor (WithTop K)} {alpha g : WithTop K}
    (h : (a : WithTop K) < occlude cfg data alpha c x y g) :
    (a : WithTop K) < g ∨ Closer cfg data (a : WithTop K) x y := by
  unfold occlude at h
  unfold Closer
  split_ifs at h with hskip
  · exact Or.inl h
  rcases hm : cfg.metric with _ | _ | _ | _
  all_goals simp only [hm] at h ⊢
  case l2 =>
    split_ifs at h with hz
    · exact Or.inr (Or.inl hz)
    · rw [hfl] at h ⊢
      rcases lt_max_iff.1 h with h | h
      · exact Or.inl h
      · exact Or.inr (Or.inr (decide_eq_true h))
  case cosine =>
    split_ifs at h with hz
    · exact Or.inr (Or.inl hz)
    · rw [hfl] at h ⊢
      rcases lt_max_iff.1 h with h | h
      · exact Or.inl h
      · exact Or.inr (Or.inr (decide_eq_true h))
  case innerProduct =>
    split_ifs at h with hlt
    · rw [hfl] at h
      rcases lt_max_iff.1 h with h | h
      · exact Or.inl h
      · have hlt' : a < c + 1 / 100 := by
          have : (a : WithTop K) < ((c + 1 / 100 : K) : WithTop K) := h
          exact WithTop.coe_lt_coe.1 this
        rcases ha with rfl | ha
        · exact Or.inr hlt
        · exfalso
          linarith
    · exact Or.inl h
  case fastL2 => exact Or.inl h

/-- The ids that the candidates at these positions bring into the list. -/
def selected (pool : List (Neighbor D)) (deleted : ℕ → Bool) (location : ℕ) (taken : List ℕ) :
    List ℕ :=
  ((taken.filterMap (pool[·]?)).map (·.id)).filter fun k => !deleted k && k != location

variable {x : Neighbor D} {i : ℕ}

theorem selected_concat {pool : List (Neighbor D)} (hx : pool[i]? = some x) (taken : List ℕ) :
    selected pool deleted location (taken ++ [i]) =
      if !deleted x.id && x.id != location then selected pool deleted location taken ++ [x.id]
      else selected pool deleted location taken := by
  unfold selected
  rw [filterMap_append, filterMap_cons_some hx, filterMap_nil, map_append,
    filter_append, map_cons, map_nil, filter_singleton, Bool.cond_eq_ite]
  split_ifs
  · rfl
  · rw [append_nil]

/-- The state of `occlude_list` at `alpha = c`, the candidates at the positions `taken` having been
taken. -/
structure Explained (cfg : Config Vec (WithTop K)) (data : DataStore Vec)
    (labels : Option (List (List Label))) (location : ℕ) (pool : List (Neighbor (WithTop K)))
    (degree : ℕ) (deleted : ℕ → Bool) (c : K) (taken : List ℕ) (st : List (WithTop K) × List ℕ) :
    Prop where
  length_eq : st.1.length = pool.length
  lt : ∀ i ∈ taken, i < pool.length
  nodup : taken.Nodup
  marked : ∀ i ∈ taken, st.1[i]? = some ⊤
  result_eq : st.2 = selected pool deleted location taken
  length_le : st.2.length ≤ degree
  occluded : ∀ t y f, pool[t]? = some y → st.1[t]? = some f → t ∉ taken →
    ∀ a : K, a = c ∨ c * (6 / 5) ≤ a → (a : WithTop K) < f →
      ∃ i ∈ taken, i < t ∧ ∃ x, pool[i]? = some x ∧ Occludes cfg data labels (a : WithTop K) x y

variable {taken : List ℕ}

theorem Explained.next (hc : 1 ≤ c) {st : List (WithTop K) × List ℕ}
    (h : Explained cfg data labels location pool degree deleted c taken st) :
    Explained cfg data labels location pool degree deleted (c * (6 / 5)) taken st := by
  refine { h with occluded := ?_ }
  intro t y f hy hf ht a ha
  apply h.occluded t y f hy hf ht a
  apply Or.inr
  rcases ha with rfl | ha
  · exact le_rfl
  · linarith

/-- The candidate at position `i` is taken. -/
def takeAt (cfg : Config Vec D) (data : DataStore Vec) (labels : Option (List (List Label)))
    (location : ℕ) (pool : List (Neighbor D)) (alpha : D) (deleted : ℕ → Bool) (c : D) (i : ℕ)
    (x : Neighbor D) (st : List D × List ℕ) : List D × List ℕ :=
  ((st.1.set i cfg.fl.maxValue).mapIdx fun t g =>
      match pool[t]? with
      | some y =>
        if i < t && pruneAllowed labels x.id y.id then occlude cfg data alpha c x y g else g
      | none => g,
    if !deleted x.id && x.id != location then st.2 ++ [x.id] else st.2)

theorem occludeAt_eq {pool : List (Neighbor D)} {cfg : Config Vec D} {alpha c f : D}
    {st : List D × List ℕ} (hx : pool[i]? = some x) (hf : st.1[i]? = some f) :
    occludeAt cfg data labels location pool alpha degree deleted c st i =
      if st.2.length < degree ∧ cfg.fl.lt c f = false then
        takeAt cfg data labels location pool alpha deleted c i x st
      else st := by
  unfold occludeAt takeAt
  rw [hx, hf]
  simp only [Bool.and_eq_true, decide_eq_true_eq, Bool.not_eq_true']

theorem length_takeAt {pool : List (Neighbor D)} {cfg : Config Vec D} {alpha c : D}
    {st : List D × List ℕ} :
    (takeAt cfg data labels location pool alpha deleted c i x st).1.length = st.1.length := by
  unfold takeAt
  rw [length_mapIdx, length_set]

theorem takeAt_factor {pool : List (Neighbor D)} {cfg : Config Vec D} {alpha c : D} {t : ℕ}
    {y : Neighbor D} {st : List D × List ℕ} (hy : pool[t]? = some y) {f : D}
    (hf : (takeAt cfg data labels location pool alpha deleted c i x st).1[t]? = some f) :
    ∃ g, (st.1.set i cfg.fl.maxValue)[t]? = some g ∧
      f = if i < t && pruneAllowed labels x.id y.id then occlude cfg data alpha c x y g else g := by
  unfold takeAt at hf
  rw [getElem?_mapIdx, Option.map_eq_some_iff] at hf
  obtain ⟨g, hg, rfl⟩ := hf
  refine ⟨g, hg, ?_⟩
  rw [hy]

theorem Explained.takeAt (hfl : cfg.fl = exactOps slack) (hc : 1 ≤ c)
    {st : List (WithTop K) × List ℕ}
    (h : Explained cfg data labels location pool degree deleted c taken st)
    {x : Neighbor (WithTop K)} (hx : pool[i]? = some x) (hi : i ∉ taken)
    (hlen : st.2.length < degree) :
    Explained cfg data labels location pool degree deleted c (taken ++ [i])
      (Filtered.takeAt cfg data labels location pool (alpha : WithTop K) deleted c i x st) := by
  have hil : i < pool.length := (List.getElem?_eq_some_iff.1 hx).1
  have hmax : cfg.fl.maxValue = ⊤ := by rw [hfl]; rfl
  refine ⟨?_, ?_, ?_, ?_, ?_, ?_, ?_⟩
  · rw [length_takeAt, h.length_eq]
  · intro j hj
    rcases mem_append.1 hj with hj | hj
    · exact h.lt j hj
    · rw [mem_singleton.1 hj]
      exact hil
  · rw [nodup_append]
    refine ⟨h.nodup, nodup_singleton i, ?_⟩
    intro a ha b hb hab
    rw [hab, mem_singleton.1 hb] at ha
    exact hi ha
  · intro j hj
    have hjl : j < pool.length := by
      rcases mem_append.1 hj with hj | hj
      · exact h.lt j hj
      · rw [mem_singleton.1 hj]
        exact hil
    have hset : (st.1.set i cfg.fl.maxValue)[j]? = some ⊤ := by
      by_cases hji : j = i
      · rw [hji, getElem?_set_self (by rw [h.length_eq]; exact hil), hmax]
      · rw [getElem?_set_ne (Ne.symm hji)]
        rcases mem_append.1 hj with hj | hj
        · exact h.marked j hj
        · exact absurd (mem_singleton.1 hj) hji
    have hget : ∃ f, (Filtered.takeAt cfg data labels location pool (alpha : WithTop K) deleted c i
        x st).1[j]? = some f := by
      refine ⟨_, getElem?_eq_getElem ?_⟩
      rw [length_takeAt, h.length_eq]
      exact hjl
    obtain ⟨f, hf⟩ := hget
    obtain ⟨g, hg, hfg⟩ := takeAt_factor (getElem?_eq_getElem hjl) hf
    obtain rfl := Option.some.inj (hset.symm.trans hg)
    rw [hf, hfg]
    split_ifs
    · rw [occlude_top hfl]
    · rfl
  · rw [selected_concat hx, ← h.result_eq]
    rfl
  · unfold Filtered.takeAt
    split_ifs
    · rw [length_append, length_singleton]
      omega
    · exact h.length_le
  · intro t y f hy hf ht a ha hlt
    obtain ⟨htt, hti⟩ : t ∉ taken ∧ t ≠ i := by simpa using ht
    obtain ⟨g, hg, rfl⟩ := takeAt_factor hy hf
    rw [getElem?_set_ne (Ne.symm hti)] at hg
    -- the factor was above `a` before, or this candidate occludes at `a`
    have hcase : (a : WithTop K) < g ∨
        i < t ∧ Occludes cfg data labels (a : WithTop K) x y := by
      split_ifs at hlt with hcond
      · rw [Bool.and_eq_true, decide_eq_true_eq] at hcond
        rcases lt_occlude hfl hc ha hlt with hlt | hcl
        · exact Or.inl hlt
        · exact Or.inr ⟨hcond.1, hcond.2, hcl⟩
      · exact Or.inl hlt
    rcases hcase with hlt | ⟨hit, hocc⟩
    · obtain ⟨j, hj, hjt, hrest⟩ := h.occluded t y g hy hg htt a ha hlt
      exact ⟨j, mem_append_left _ hj, hjt, hrest⟩
    · exact ⟨i, mem_append_right _ (mem_singleton_self i), hit, x, hx, hocc⟩

/-- The pass at `alpha = c` has come to position `i` and has taken `cur`. -/
structure InPass (cfg : Config Vec (WithTop K)) (data : DataStore Vec)
    (labels : Option (List (List Label))) (location : ℕ) (pool : List (Neighbor (WithTop K)))
    (degree : ℕ) (deleted : ℕ → Bool) (c : K) (taken : List ℕ) (i : ℕ) (cur : List ℕ)
    (st : List (WithTop K) × List ℕ) : Prop where
  explained : Explained cfg data labels location pool degree deleted c (taken ++ cur) st
  ordered : cur.Pairwise (· < ·)
  lt : ∀ j ∈ cur, j < i
  passed : st.2.length < degree → ∀ t < i, t ∉ taken ++ cur → ∀ f, st.1[t]? = some f →
    (c : WithTop K) < f

theorem InPass.occludeAt (hfl : cfg.fl = exactOps slack) (hc : 1 ≤ c) {cur : List ℕ}
    {st : List (WithTop K) × List ℕ}
    (h : InPass cfg data labels location pool degree deleted c taken i cur st)
    (hi : i < pool.length) :
    ∃ cur', InPass cfg data labels location pool degree deleted c taken (i + 1) cur'
      (Filtered.occludeAt cfg data labels location pool (alpha : WithTop K) degree deleted
        (c : WithTop K) st i) := by
  have hx := getElem?_eq_getElem hi
  have hf := getElem?_eq_getElem (h.explained.length_eq ▸ hi)
  rw [occludeAt_eq hx hf]
  split_ifs with hcond
  · obtain ⟨hlen, hle⟩ := hcond
    have hnot : i ∉ taken ++ cur := by
      intro hmem
      have := Option.some.inj (hf.symm.trans (h.explained.marked i hmem))
      rw [this, hfl] at hle
      exact absurd (WithTop.coe_lt_top c) (of_decide_eq_false hle)
    refine ⟨cur ++ [i], ?_, ?_, ?_, ?_⟩
    · rw [← append_assoc]
      exact h.explained.takeAt hfl hc hx hnot hlen
    · rw [pairwise_append]
      refine ⟨h.ordered, pairwise_singleton _ i, ?_⟩
      intro a ha b hb
      rw [mem_singleton.1 hb]
      exact h.lt a ha
    · intro j hj
      rcases mem_append.1 hj with hj | hj
      · exact Nat.lt_succ_of_lt (h.lt j hj)
      · rw [mem_singleton.1 hj]
        exact Nat.lt_succ_self i
    · intro _ t ht hmem f hft
      rw [← append_assoc, mem_append, mem_singleton, not_or] at hmem
      have hti : t < i := by omega
      obtain ⟨g, hg, rfl⟩ := takeAt_factor (getElem?_eq_getElem (hti.trans hi)) hft
      rw [getElem?_set_ne (by omega)] at hg
      rw [if_neg (by simp [hti.not_gt])]
      exact h.passed hlen t hti hmem.1 g hg
  · refine ⟨cur, h.explained, h.ordered, fun j hj => Nat.lt_succ_of_lt (h.lt j hj), ?_⟩
    intro hlen t ht hmem f hft
    rcases Nat.lt_succ_iff_lt_or_eq.1 ht with ht | rfl
    · exact h.passed hlen t ht hmem f hft
    · rw [hf, Option.some.injEq] at hft
      rw [← hft]
      by_contra hle
      refine hcond ⟨hlen, ?_⟩
      rw [hfl]
      exact decide_eq_false hle

theorem Explained.pass (hfl : cfg.fl = exactOps slack) (hc : 1 ≤ c) {st : List (WithTop K) × List ℕ}
    (h : Explained cfg data labels location pool degree deleted c taken st) :
    ∃ cur, InPass cfg data labels location pool degree deleted c taken pool.length cur
      ((List.range pool.length).foldl (Filtered.occludeAt cfg data labels location pool
        (alpha : WithTop K) degree deleted (c : WithTop K)) st) := by
  have hrun : ∀ n ≤ pool.length, ∃ cur,
      InPass cfg data labels location pool degree deleted c taken n cur
        ((List.range n).foldl (Filtered.occludeAt cfg data labels location pool
          (alpha : WithTop K) degree deleted (c : WithTop K)) st) := by
    intro n
    induction n with
    | zero =>
      intro _
      refine ⟨[], by rwa [append_nil], Pairwise.nil, ?_, ?_⟩
      · intro j hj
        exact absurd hj not_mem_nil
      · intro _ t ht
        exact absurd ht (Nat.not_lt_zero t)
    | succ n ih =>
      intro hn
      obtain ⟨cur, hcur⟩ := ih (by omega)
      rw [range_succ, foldl_append]
      exact hcur.occludeAt hfl hc (by omega)
  exact hrun pool.length le_rfl

omit [IsStrictOrderedRing K] in
/-- After a pass that has not filled the list, what is left out has been occluded at its `alpha`. -/
theorem InPass.occluded {cur : List ℕ} {st : List (WithTop K) × List ℕ}
    (h : InPass cfg data labels location pool degree deleted c taken pool.length cur st)
    (hlen : st.2.length < degree) {t : ℕ} {y : Neighbor (WithTop K)} (hy : pool[t]? = some y)
    (ht : t ∉ taken ++ cur) : ∃ i ∈ taken ++ cur, i < t ∧ ∃ x, pool[i]? = some x ∧
      Occludes cfg data labels (c : WithTop K) x y := by
  have htl := (List.getElem?_eq_some_iff.1 hy).1
  have hf := getElem?_eq_getElem (h.explained.length_eq ▸ htl)
  exact h.explained.occluded t y _ hy hf ht c (Or.inl rfl) (h.passed hlen t htl ht _ hf)

/-- The list that `occlude_list` makes of a pool: `passes` are the positions taken at
`alpha = 1, 1.2, …`. -/
structure IsSelection (cfg : Config Vec (WithTop K)) (data : DataStore Vec)
    (labels : Option (List (List Label))) (location : ℕ) (pool : List (Neighbor (WithTop K)))
    (alpha : K) (degree : ℕ) (deleted : ℕ → Bool) (passes : List (List ℕ)) (result : List ℕ) :
    Prop where
  lt : ∀ i ∈ passes.flatten, i < pool.length
  nodup : passes.flatten.Nodup
  ordered : ∀ pass ∈ passes, pass.Pairwise (· < ·)
  result_eq : result = selected pool deleted location passes.flatten
  length_le : result.length ≤ degree
  /-- `m` is the last `alpha` tried, as a power of `1.2`. -/
  occluded : result.length < degree → ∃ m, passes.length = m + 1 ∧ (6 / 5 : K) ^ m ≤ alpha ∧
    alpha < (6 / 5 : K) ^ (m + 1) ∧ ∀ t y, pool[t]? = some y → t ∉ passes.flatten →
      ∃ i ∈ passes.flatten, i < t ∧ ∃ x, pool[i]? = some x ∧
        Occludes cfg data labels (((6 / 5 : K) ^ m : K) : WithTop K) x y

theorem one_le_pow_step (n : ℕ) : (1 : K) ≤ (6 / 5 : K) ^ n :=
  one_le_pow₀ (by norm_num)

/-- The state between two passes. -/
structure Between (cfg : Config Vec (WithTop K)) (data : DataStore Vec)
    (labels : Option (List (List Label))) (location : ℕ) (pool : List (Neighbor (WithTop K)))
    (alpha : K) (degree : ℕ) (deleted : ℕ → Bool) (passes : List (List ℕ))
    (st : List (WithTop K) × List ℕ) : Prop where
  explained : Explained cfg data labels location pool degree deleted ((6 / 5 : K) ^ passes.length)
    passes.flatten st
  ordered : ∀ pass ∈ passes, pass.Pairwise (· < ·)
  last : ∀ m, passes.length = m + 1 → (6 / 5 : K) ^ m ≤ alpha ∧ (st.2.length < degree →
    ∀ t y, pool[t]? = some y → t ∉ passes.flatten → ∃ i ∈ passes.flatten, i < t ∧
      ∃ x, pool[i]? = some x ∧ Occludes cfg data labels (((6 / 5 : K) ^ m : K) : WithTop K) x y)

variable {passes : List (List ℕ)} {st : List (WithTop K) × List ℕ}

theorem between_start (hfl : cfg.fl = exactOps slack) :
    Between cfg data labels location pool alpha degree deleted []
      (replicate pool.length cfg.fl.zero, []) := by
  refine ⟨⟨length_replicate, ?_, nodup_nil, ?_, rfl, Nat.zero_le degree, ?_⟩, ?_, ?_⟩
  · intro i hi
    exact absurd hi not_mem_nil
  · intro i hi
    exact absurd hi not_mem_nil
  · intro t y f _ hf _ a ha hlt
    -- no factor is above an `alpha` yet
    rw [getElem?_replicate] at hf
    split_ifs at hf
    cases hf
    rw [hfl] at hlt
    have hlt0 : a < 0 := WithTop.coe_lt_coe.1 hlt
    rw [length_nil, pow_zero] at ha
    rcases ha with rfl | ha
    · exact absurd hlt0 (not_lt_of_ge zero_le_one)
    · linarith
  · intro pass hpass
    exact absurd hpass not_mem_nil
  · intro m hm
    exact absurd hm (Nat.succ_ne_zero m).symm

omit [IsStrictOrderedRing K] in
theorem Between.isSelection (h : Between cfg data labels location pool alpha degree deleted passes st)
    (hα : 1 ≤ alpha)
    (hstop : alpha < (6 / 5 : K) ^ passes.length ∨ degree ≤ st.2.length) :
    IsSelection cfg data labels location pool alpha degree deleted passes st.2 := by
  refine ⟨h.explained.lt, h.explained.nodup, h.ordered, h.explained.result_eq,
    h.explained.length_le, ?_⟩
  intro hlen
  have hlt := hstop.resolve_right (by omega)
  rcases hm : passes.length with _ | m
  · rw [hm, pow_zero] at hlt
    exact absurd hlt (not_lt_of_ge hα)
  · obtain ⟨hle, hocc⟩ := h.last m hm
    exact ⟨m, rfl, hle, hm ▸ hlt, hocc hlen⟩

theorem Between.pass (hfl : cfg.fl = exactOps slack)
    (h : Between cfg data labels location pool alpha degree deleted passes st)
    (hle : (6 / 5 : K) ^ passes.length ≤ alpha) : ∃ cur,
    Between cfg data labels location pool alpha degree deleted (passes ++ [cur])
      ((List.range pool.length).foldl (Filtered.occludeAt cfg data labels location pool
        (alpha : WithTop K) degree deleted (((6 / 5 : K) ^ passes.length : K) : WithTop K)) st) := by
  have hc := one_le_pow_step (K := K) passes.length
  obtain ⟨cur, hcur⟩ := h.explained.pass hfl hc
  have hflat : (passes ++ [cur]).flatten = passes.flatten ++ cur := by simp
  have hlength : (passes ++ [cur]).length = passes.length + 1 := by simp
  refine ⟨cur, ?_, ?_, ?_⟩
  · rw [hflat, hlength, pow_succ]
    exact hcur.explained.next hc
  · intro pass hpass
    rcases mem_append.1 hpass with hpass | hpass
    · exact h.ordered pass hpass
    · rw [mem_singleton.1 hpass]
      exact hcur.ordered
  · intro m hm
    obtain rfl : m = passes.length := by omega
    refine ⟨hle, ?_⟩
    intro hlen t y hy ht
    rw [hflat] at ht ⊢
    exact hcur.occluded hlen hy ht

omit [IsStrictOrderedRing K] in
theorem occludeRounds_succ (hfl : cfg.fl = exactOps slack) (n fuel : ℕ) :
    occludeRounds cfg data labels location pool (alpha : WithTop K) degree deleted (fuel + 1)
      (((6 / 5 : K) ^ n : K) : WithTop K) st =
        if (6 / 5 : K) ^ n ≤ alpha ∧ st.2.length < degree then
          occludeRounds cfg data labels location pool (alpha : WithTop K) degree deleted fuel
            (((6 / 5 : K) ^ (n + 1) : K) : WithTop K)
            ((List.range pool.length).foldl (Filtered.occludeAt cfg data labels location pool
              (alpha : WithTop K) degree deleted (((6 / 5 : K) ^ n : K) : WithTop K)) st)
        else .ok st.2 := by
  rw [occludeRounds, hfl, pow_succ]
  simp only [exactOps, WithTop.coe_le_coe, Bool.and_eq_true, decide_eq_true_eq]
  rfl

theorem Between.exists_occludeRounds (hfl : cfg.fl = exactOps slack) (hα : 1 ≤ alpha) {N : ℕ}
    (hN : alpha < (6 / 5 : K) ^ N)
    (h : Between cfg data labels location pool alpha degree deleted passes st) :
    ∃ passes' result fuel₀, (∀ fuel ≥ fuel₀, occludeRounds cfg data labels location pool
        (alpha : WithTop K) degree deleted fuel (((6 / 5 : K) ^ passes.length : K) : WithTop K) st =
          .ok result) ∧
      IsSelection cfg data labels location pool alpha degree deleted passes' result := by
  have hend : ∀ {passes : List (List ℕ)} {st : List (WithTop K) × List ℕ},
      ¬ ((6 / 5 : K) ^ passes.length ≤ alpha ∧ st.2.length < degree) → ∀ fuel ≥ 1,
        occludeRounds cfg data labels location pool (alpha : WithTop K) degree deleted fuel
          (((6 / 5 : K) ^ passes.length : K) : WithTop K) st = .ok st.2 := by
    intro passes st hc fuel hfuel
    obtain ⟨fuel, rfl⟩ := Nat.exists_eq_succ_of_ne_zero (show fuel ≠ 0 by omega)
    rw [occludeRounds_succ hfl, if_neg hc]
  induction hk : N - passes.length generalizing passes st with
  | zero =>
    have hstop : alpha < (6 / 5 : K) ^ passes.length :=
      hN.trans_le (pow_le_pow_right₀ (by norm_num) (by omega))
    exact ⟨passes, st.2, 1, hend fun hc => absurd hc.1 (not_le_of_gt hstop),
      h.isSelection hα (Or.inl hstop)⟩
  | succ k ih =>
    by_cases hc : (6 / 5 : K) ^ passes.length ≤ alpha ∧ st.2.length < degree
    · obtain ⟨cur, hcur⟩ := h.pass hfl hc.1
      have hlength : (passes ++ [cur]).length = passes.length + 1 := by simp
      obtain ⟨passes', result, fuel₀, hrun, hsel⟩ := ih hcur (by omega)
      refine ⟨passes', result, fuel₀ + 1, ?_, hsel⟩
      intro fuel hfuel
      obtain ⟨fuel, rfl⟩ := Nat.exists_eq_succ_of_ne_zero (show fuel ≠ 0 by omega)
      rw [occludeRounds_succ hfl, if_pos hc, ← hlength]
      exact hrun fuel (by omega)
    · refine ⟨passes, st.2, 1, hend hc, h.isSelection hα ?_⟩
      rw [not_and_or, not_le, not_lt] at hc
      exact hc

/-! ### The lists as a whole -/

omit [Field K] [LinearOrder K] [IsStrictOrderedRing K] in
theorem nodup_selected {pool : List (Neighbor D)} (ht : taken.Nodup) (hnd : (ids pool).Nodup) :
    (selected pool deleted location taken).Nodup := by
  unfold selected
  rw [map_filterMap]
  apply Nodup.filter
  apply Nodup.filterMap _ ht
  intro a b k ha hb
  rw [← getElem?_map] at ha hb
  exact (getElem?_inj (List.getElem?_eq_some_iff.1 ha).1 hnd).1 (ha.trans hb.symm)

theorem exists_occludeList [Archimedean K] (hfl : cfg.fl = exactOps slack) (hα : 1 ≤ alpha)
    (pool : List (Neighbor (WithTop K))) :
    ∃ passes result fuel₀, (∀ fuel ≥ fuel₀, occludeList cfg data labels location pool
        (alpha : WithTop K) degree maxc deleted fuel = .ok result) ∧
      IsSelection cfg data labels location (pool.take maxc) alpha degree deleted passes result := by
  obtain ⟨N, hN⟩ := pow_unbounded_of_one_lt alpha (show (1 : K) < 6 / 5 by norm_num)
  have hstart : Between cfg data labels location (pool.take maxc) alpha degree deleted []
      (replicate (pool.take maxc).length cfg.fl.zero, []) := between_start hfl
  obtain ⟨passes, result, fuel₀, hrun, hsel⟩ := hstart.exists_occludeRounds hfl hα hN
  refine ⟨passes, result, fuel₀, ?_, hsel⟩
  intro fuel hfuel
  unfold occludeList
  split_ifs with hempty
  · -- nothing can have been taken
    rw [List.isEmpty_iff] at hempty
    have hflat : passes.flatten = [] := by
      rw [eq_nil_iff_forall_not_mem]
      intro i hi
      have := hsel.lt i hi
      rw [hempty, take_nil] at this
      exact absurd this (Nat.not_lt_zero i)
    rw [hsel.result_eq, hflat]
    rfl
  · rw [← hrun fuel hfuel, hfl, length_nil, pow_zero]
    rfl

/-- What the loop of `_saturate_graph` adds. -/
structure IsFilled (location : ℕ) (pool : List (Neighbor D)) (range : ℕ) (pruned extra : List ℕ) :
    Prop where
  sublist : extra.Sublist (ids pool)
  nodup : extra.Nodup
  fresh : ∀ k ∈ extra, k ∉ pruned ∧ k ≠ location
  length_le : pruned.length ≤ range → (pruned ++ extra).length ≤ range
  complete : (pruned ++ extra).length < range → ∀ x ∈ pool, x.id ≠ location → x.id ∈ pruned ++ extra

omit [Field K] [LinearOrder K] [IsStrictOrderedRing K] in
theorem exists_saturate (location : ℕ) (pool : List (Neighbor D)) (range : ℕ) (pruned : List ℕ) :
    ∃ extra, saturate location pool range pruned = pruned ++ extra ∧
      IsFilled location pool range pruned extra := by
  induction pool generalizing pruned with
  | nil =>
    refine ⟨[], (append_nil pruned).symm, Sublist.refl [], nodup_nil, ?_, ?_, ?_⟩
    · intro k hk
      exact absurd hk not_mem_nil
    · rw [append_nil]
      exact id
    · intro _ x hx
      exact absurd hx not_mem_nil
  | cons x pool ih =>
    by_cases hc : pruned.length < range ∧ x.id ∉ pruned ∧ x.id ≠ location
    · obtain ⟨extra, heq, h⟩ := ih (pruned ++ [x.id])
      have happ : pruned ++ x.id :: extra = pruned ++ [x.id] ++ extra := by simp
      refine ⟨x.id :: extra, ?_, ?_, ?_, ?_, ?_, ?_⟩
      · rw [happ, ← heq, saturate, foldl_cons, if_pos hc]
        rfl
      · exact h.sublist.cons_cons x.id
      · rw [nodup_cons]
        refine ⟨fun hx => ?_, h.nodup⟩
        exact (h.fresh x.id hx).1 (mem_append_right _ (mem_singleton_self _))
      · intro k hk
        rcases mem_cons.1 hk with rfl | hk
        · exact hc.2
        · exact ⟨fun hp => (h.fresh k hk).1 (mem_append_left _ hp), (h.fresh k hk).2⟩
      · intro _
        rw [happ]
        apply h.length_le
        rw [length_append]
        exact hc.1
      · intro hlen y hy hyl
        rw [happ] at hlen ⊢
        rcases mem_cons.1 hy with rfl | hy
        · simp
        · exact h.complete hlen y hy hyl
    · obtain ⟨extra, heq, h⟩ := ih pruned
      refine ⟨extra, ?_, h.sublist.cons x.id, h.nodup, h.fresh, h.length_le, ?_⟩
      · rw [← heq, saturate, foldl_cons, if_neg hc]
        rfl
      · intro hlen y hy hyl
        rcases mem_cons.1 hy with rfl | hy
        · have hroom : pruned.length < range := by
            rw [length_append] at hlen
            omega
          by_contra hmem
          exact hc ⟨hroom, fun hp => hmem (mem_append_left _ hp), hyl⟩
        · exact h.complete hlen y hy hyl

omit [IsStrictOrderedRing K] in
/-- The pool that is pruned is sorted by distance, and by id where the distances are equal. -/
theorem pairwise_prunePool (hfl : cfg.fl = exactOps slack) (pqDist : Bool)
    (pool : List (Neighbor (WithTop K))) :
    (prunePool cfg data pqDist location pool).Pairwise fun a b =>
      toLex (a.distance, a.id) ≤ toLex (b.distance, b.id) := by
  have hrel : ∀ a b : Neighbor (WithTop K), b.lt cfg.fl a = false ↔
      toLex (a.distance, a.id) ≤ toLex (b.distance, b.id) := by
    intro a b
    rw [← not_lt, Prod.Lex.toLex_lt_toLex, hfl]
    simp [Neighbor.lt, exactOps]
  unfold prunePool sortPool
  simp only [hrel]
  exact Lib.pairwise_insertionSort_key (fun a : Neighbor (WithTop K) => toLex (a.distance, a.id)) _

omit [Field K] [LinearOrder K] [IsStrictOrderedRing K] in
theorem nodup_ids_prunePool {cfg : Config Vec D} {pool : List (Neighbor D)} (pqDist : Bool) (hnd : (ids pool).Nodup) :
    (ids ((prunePool cfg data pqDist location pool).take maxc)).Nodup := by
  apply nodup_ids_take_sortPool
  split_ifs
  · unfold ids
    rw [map_map]
    exact hnd
  · exact hnd

/-- `occlude_list` and `prune_neighbors` end, with a list of the first `maxc` candidates (of the sorted
pool) that has no deleted point and not the node itself, at most `degree` long.  Each pass takes
candidates in the order of the pool.  If the list has not been filled, a candidate that was not
taken has been occluded at the last `alpha` by one that was taken and precedes it.  `_saturate_graph`
then adds candidates in the order of the pool until the list is full or has all of them. -/
theorem prune_selects [Archimedean K] (hfl : cfg.fl = exactOps slack) (hα : 1 ≤ alpha)
    (data : DataStore Vec) (labels : Option (List (List Label))) (pqDist : Bool)
    (location degree maxc : ℕ) (deleted : ℕ → Bool) (pool : List (Neighbor (WithTop K))) :
    (∃ passes result fuel₀, (∀ fuel ≥ fuel₀, occludeList cfg data labels location pool
          (alpha : WithTop K) degree maxc deleted fuel = .ok result) ∧
        IsSelection cfg data labels location (pool.take maxc) alpha degree deleted passes result ∧
        ((ids pool).Nodup → result.Nodup)) ∧
    ((prunePool cfg data pqDist location pool).Pairwise fun a b =>
      toLex (a.distance, a.id) ≤ toLex (b.distance, b.id)) ∧
    ∃ passes pruned extra fuel₀, (∀ fuel ≥ fuel₀, pruneNeighbors cfg data labels pqDist location pool
          degree maxc (alpha : WithTop K) fuel = .ok (pruned ++ extra)) ∧
        IsSelection cfg data labels location ((prunePool cfg data pqDist location pool).take maxc)
          alpha degree (fun _ => false) passes pruned ∧
        ((ids pool).Nodup → (pruned ++ extra).Nodup) ∧
        if cfg.saturateGraph = true ∧ 1 < alpha then
          IsFilled location ((prunePool cfg data pqDist location pool).take maxc) degree pruned extra
        else extra = [] := by
  refine ⟨?_, pairwise_prunePool hfl pqDist pool, ?_⟩
  · obtain ⟨passes, result, fuel₀, hrun, hsel⟩ := @exists_occludeList Vec Label K _ _ _ _ cfg slack
      data labels location degree maxc alpha deleted _ hfl hα pool
    refine ⟨passes, result, fuel₀, hrun, hsel, ?_⟩
    intro hnd
    rw [hsel.result_eq]
    apply nodup_selected hsel.nodup
    unfold ids
    rw [map_take]
    exact hnd.sublist (take_sublist _ _)
  · obtain ⟨passes, pruned, fuel₀, hrun, hsel⟩ := @exists_occludeList Vec Label K _ _ _ _ cfg slack
      data labels location degree maxc alpha (fun _ => false) _ hfl hα
      (prunePool cfg data pqDist location pool)
    have hnodup : (ids pool).Nodup → pruned.Nodup := by
      intro hnd
      rw [hsel.result_eq]
      exact nodup_selected hsel.nodup (nodup_ids_prunePool pqDist hnd)
    have hlt : cfg.fl.lt cfg.fl.one (alpha : WithTop K) = decide (1 < alpha) := by
      rw [hfl]
      exact decide_eq_decide.2 WithTop.coe_lt_coe
    have hprune : ∀ fuel ≥ fuel₀, pruneNeighbors cfg data labels pqDist location pool degree maxc
        (alpha : WithTop K) fuel = .ok (if cfg.saturateGraph && decide (1 < alpha) then
          saturate location ((prunePool cfg data pqDist location pool).take maxc) degree pruned
        else pruned) := by
      intro fuel hfuel
      rw [pruneNeighbors_eq, hrun fuel hfuel, hlt]
      rfl
    by_cases hsat : cfg.saturateGraph = true ∧ 1 < alpha
    · obtain ⟨extra, heq, hfill⟩ := exists_saturate location
        ((prunePool cfg data pqDist location pool).take maxc) degree pruned
      rw [if_pos (by simpa using hsat), heq] at hprune
      refine ⟨passes, pruned, extra, fuel₀, hprune, hsel, ?_, ?_⟩
      · intro hnd
        rw [nodup_append]
        refine ⟨hnodup hnd, hfill.nodup, ?_⟩
        intro a ha b hb hab
        exact (hfill.fresh b hb).1 (hab ▸ ha)
      · rw [if_pos hsat]
        exact hfill
    · rw [if_neg (by simpa using hsat)] at hprune
      refine ⟨passes, pruned, [], fuel₀, ?_, hsel, ?_, ?_⟩
      · rw [append_nil]
        exact hprune
      · rw [append_nil]
        exact hnodup
      · rw [if_neg hsat]

end Exact

/-! ### Three candidates in the plane -/

/-- Capacity `5`, with vectors of the plane and the square of the distance. -/
def planeConfig : Config (ℚ × ℚ) (WithTop ℚ) where
  maxPoints := 5
  numFrozenPts := 1
  maxPoints_pos := by decide
  numFrozenPts_pos := Nat.one_pos
  totalPoints_lt := by decide
  fl := exactOps fun range => 13 * range / 10
  compare a b := (((a.1 - b.1) ^ 2 + (a.2 - b.2) ^ 2 : ℚ) : WithTop ℚ)
  preprocess := id
  zeroVec := (0, 0)
  metric := .l2
  indexingQueueSize := 4
  indexingRange := 3
  indexingMaxC := 3
  indexingAlpha := ((6 / 5 : ℚ) : WithTop ℚ)
  saturateGraph := false
  concConsolidate := false

/-- The node `0` at the origin and its candidates. -/
def planePoints : DataStore (ℚ × ℚ) := fun k =>
  [(0, 0), (1, 0), (3 / 5, 6 / 5), (-2, 0)].getD k (0, 0)

def planePool : List (Neighbor (WithTop ℚ)) :=
  [.new 1 ((1 : ℚ) : WithTop ℚ), .new 2 ((9 / 5 : ℚ) : WithTop ℚ), .new 3 ((4 : ℚ) : WithTop ℚ)]

theorem prune_selects_plane : ∃ passes result fuel₀,
    (∀ fuel ≥ fuel₀, occludeList planeConfig planePoints (none : Option (List (List ℕ))) 0 planePool
      ((6 / 5 : ℚ) : WithTop ℚ) 3 3 (fun _ => false) fuel = .ok result) ∧
    IsSelection planeConfig planePoints (none : Option (List (List ℕ))) 0 (planePool.take 3)
      (6 / 5 : ℚ) 3 (fun _ => false) passes result ∧ ((ids planePool).Nodup → result.Nodup) :=
  have hfl : planeConfig.fl = exactOps fun range => 13 * range / 10 := rfl
  (prune_selects hfl (by norm_num) planePoints none false 0 3 3 (fun _ => false) planePool).1

/-- Candidate `2` is occluded by `1` at `alpha = 1` and taken at `alpha = 1.2`, after `3`.  With `1`
deleted and degree `2` the list stays empty: `2` has been occluded by `1`, which is not in it. -/
theorem occludeList_not_in_order :
    (occludeList planeConfig planePoints (none : Option (List (List ℕ))) 0 planePool
        ((6 / 5 : ℚ) : WithTop ℚ) 3 3 (fun _ => false) 3 = .ok [1, 3, 2] ∧
      ids planePool = [1, 2, 3] ∧ ¬ [1, 3, 2].Sublist [1, 2, 3]) ∧
    occludeList planeConfig planePoints (none : Option (List (List ℕ))) 0 (planePool.take 2)
        ((1 : ℚ) : WithTop ℚ) 2 2 (fun k => k == 1) 3 = .ok [] ∧
      ids (planePool.take 2) = [1, 2] := by
  decide +kernel

end Filtered

end DiskANNEval.AiSAQ
