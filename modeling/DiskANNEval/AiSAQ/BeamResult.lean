import DiskANNEval.AiSAQ.BeamReach
import DiskANNEval.Lib.Loops

/-!
# BeamResult — the results that `cached_beam_search` and `aisaq_cached_beam_search` copy

Both sort `full_retset`, cut it and sort it again by the exact distances when they reorder, and then
copy its first `k_search` elements, however many there are.  There are enough when so many nodes can
be reached from the entry and nothing but a want of candidates ends the loop.
-/

namespace DiskANNEval.AiSAQ

open Lib List

variable {C P D : Type}

/-- The arguments of the copy.  `reorderDist` is the distance to the vector of an id in the reorder
data, when `use_reorder_data`; without such data in the index this throws. -/
structure ResultArgs (D : Type) where
  kSearch : ℕ
  reorderDist : Option (ℕ → D)
  rearrangedVectors : Bool
  dummyToReal : ℕ → Option ℕ
  innerProduct : Bool
  maxBaseNorm : D
  queryNorm : D

namespace BeamLoop

variable (fl : FloatOps D) (a : ResultArgs D)

/-- `operator<` on the elements of `full_retset`. -/
def Expanded.lt (x y : Expanded D) : Bool :=
  Neighbor.lt fl (.new x.id x.distance) (.new y.id y.distance)

/-- `std::sort(full_retset.begin(), full_retset.end())` -/
def sortRetset (l : List (Expanded D)) : List (Expanded D) :=
  l.insertionSort fun x y => Expanded.lt fl y x = false

/-- `full_retset` when it is copied; `FULL_PRECISION_REORDER_MULTIPLIER` is 3. -/
def ranked (fullRetset : List (Expanded D)) : List (Expanded D) :=
  match a.reorderDist with
  | none => sortRetset fl fullRetset
  | some dist =>
    sortRetset fl (((sortRetset fl fullRetset).take (a.kSearch * 3)).map fun x =>
      { x with distance := dist x.id })

/-- `indices[i]` -/
def index (id rid : ℕ) : ℕ :=
  let key := if a.rearrangedVectors then rid else id
  (a.dummyToReal key).getD key

/-- `distances[i]` -/
def outDistance (distance : D) : D :=
  if a.innerProduct then
    if fl.eq a.maxBaseNorm fl.zero then fl.neg distance
    else fl.mul (fl.neg distance) (fl.mul a.maxBaseNorm a.queryNorm)
  else distance

/-- The `indices` and `distances` that are copied; `none`: an element behind the end is read. -/
def copyResults (fullRetset : List (Expanded D)) : Option (List (ℕ × D)) :=
  (List.range a.kSearch).mapM fun i =>
    (ranked fl a fullRetset)[i]?.map fun x => (index a x.id x.rid, outDistance fl a x.distance)

/-- The exact distance of an id: to the vector of the reorder data, or to the coordinates in the
node. -/
def exactDist (ix : BeamIndex C P) (q : BeamQuery C P D) (id : ℕ) : D :=
  match a.reorderDist with
  | none => q.fullDist (ix.node id).coords
  | some dist => dist id

/-- The nodes that can be reached come out under different ids: no two of them stand for one point.
-/
def Named (ix : BeamIndex C P) (nbrs : ℕ → List ℕ) (q : BeamQuery C P D) : Prop :=
  ∀ i j, Relation.ReflTransGen (Offers q nbrs) q.entry i →
    Relation.ReflTransGen (Offers q nbrs) q.entry j →
    index a i (ix.node i).rid = index a j (ix.node j).rid → i = j

/-- No distance is `NaN`. -/
def Comparable (fullRetset : List (Expanded D)) : Prop :=
  ∃ S : D → Prop, fl.OrderedOn S ∧ ∀ x ∈ fullRetset, S x.distance ∧
    ∀ dist, a.reorderDist = some dist → S (dist x.id)

/-- The elements `res` are copied: distinct expanded nodes in ascending order of the exact
distances. `usesPqDist`: the distances of the queue stand in `full_retset`. -/
structure Copied (ix : BeamIndex C P) (nbrs : ℕ → List ℕ) (q : BeamQuery C P D) (usesPqDist : Bool)
    (fullRetset res : List (Expanded D)) : Prop where
  copied : copyResults fl a fullRetset =
    some (res.map fun x => (index a x.id x.rid, outDistance fl a x.distance))
  length : res.length = a.kSearch
  distinct : (res.map (·.id)).Nodup
  indices : Named a ix nbrs q → (res.map fun x => index a x.id x.rid).Nodup
  expanded : ∀ x ∈ res, x.id ∈ fullRetset.map (·.id) ∧ x.rid = (ix.node x.id).rid
  exact : usesPqDist = false ∨ a.reorderDist.isSome = true →
    ∀ x ∈ res, x.distance = exactDist a ix q x.id
  ascending : Comparable fl a fullRetset →
    res.Pairwise fun x y => fl.lt y.distance x.distance = false

/-- There are `kSearch` nodes that the search expands.  `stopped`: the I/O limit ends the loop. -/
def Enough (nbrs : ℕ → List ℕ) (q : BeamQuery C P D) (kSearch : ℕ) (stopped : Bool)
    (fullRetset : List (Expanded D)) : Prop :=
  if stopped = true ∨ q.lSearch < kSearch then kSearch ≤ fullRetset.length
  else Reaches (Offers q nbrs) q.entry kSearch

variable {fl a}

/-! ### The order -/

theorem perm_sortRetset (fl : FloatOps D) (l : List (Expanded D)) : (sortRetset fl l).Perm l :=
  perm_insertionSort _ l

theorem Expanded.lt_iff (fl : FloatOps D) (x y : Expanded D) :
    Expanded.lt fl x y = true ↔ fl.lt x.distance y.distance = true ∨
      fl.eq x.distance y.distance = true ∧ x.id < y.id := by
  rw [Expanded.lt, Neighbor.lt, Bool.or_eq_true, Bool.and_eq_true, decide_eq_true_iff]
  rfl

variable {S : D → Prop} {x : Expanded D}

theorem Expanded.connected (hfl : fl.OrderedOn S) {y z : Expanded D} (hx : S x.distance)
    (hy : S y.distance) (hz : S z.distance) (h : Expanded.lt fl x z = true) :
    Expanded.lt fl x y = true ∨ Expanded.lt fl y z = true := by
  rw [Expanded.lt_iff] at h
  rw [Expanded.lt_iff, Expanded.lt_iff]
  rcases h with h | ⟨heq, hlt⟩
  · exact (hfl.connected _ _ _ hx hy hz h).imp Or.inl Or.inl
  · obtain ⟨hxz, hzx⟩ := (hfl.eq_iff _ _ hx hz).1 heq
    by_cases hxy : fl.lt x.distance y.distance = true
    · exact Or.inl (Or.inl hxy)
    by_cases hyz : fl.lt y.distance z.distance = true
    · exact Or.inr (Or.inl hyz)
    -- the three distances are equal
    have hyx : ¬ fl.lt y.distance x.distance = true := fun hyx =>
      (hfl.connected _ _ _ hy hz hx hyx).elim hyz fun hzx' => by
        rw [hzx] at hzx'
        cases hzx'
    have hzy : ¬ fl.lt z.distance y.distance = true := fun hzy =>
      (hfl.connected _ _ _ hz hx hy hzy).elim (fun hzx' => by
        rw [hzx] at hzx'
        cases hzx') hxy
    rw [Bool.not_eq_true] at hxy hyz hyx hzy
    by_cases hid : x.id < y.id
    · exact Or.inl (Or.inr ⟨(hfl.eq_iff _ _ hx hy).2 ⟨hxy, hyx⟩, hid⟩)
    · exact Or.inr (Or.inr ⟨(hfl.eq_iff _ _ hy hz).2 ⟨hyz, hzy⟩, by omega⟩)

theorem Expanded.asymm (hfl : fl.OrderedOn S) {y : Expanded D} (hx : S x.distance)
    (hy : S y.distance) (h : Expanded.lt fl x y = true) : Expanded.lt fl y x = false := by
  by_contra hne
  rw [Bool.not_eq_false, Expanded.lt_iff] at hne
  rcases (Expanded.lt_iff fl x y).1 h with hlt | ⟨heq, hid⟩
  · have hle := hfl.asymm _ _ hx hy hlt
    rcases hne with hne | ⟨heq', -⟩
    · rw [hle] at hne
      cases hne
    · rw [((hfl.eq_iff _ _ hy hx).1 heq').2] at hlt
      cases hlt
  · rcases hne with hne | ⟨-, hid'⟩
    · rw [((hfl.eq_iff _ _ hx hy).1 heq).2] at hne
      cases hne
    · omega

theorem pairwise_sortRetset (hfl : fl.OrderedOn S) {l : List (Expanded D)}
    (hl : ∀ x ∈ l, S x.distance) :
    (sortRetset fl l).Pairwise fun x y => fl.lt y.distance x.distance = false := by
  -- the relation is total and transitive on the elements with such distances
  let r : {x : Expanded D // S x.distance} → {x : Expanded D // S x.distance} → Prop :=
    fun x y => Expanded.lt fl y.1 x.1 = false
  have htotal : Std.Total r := ⟨fun x y => by
    rcases hxy : Expanded.lt fl y.1 x.1 with _ | _
    · exact Or.inl hxy
    · exact Or.inr (Expanded.asymm hfl y.2 x.2 hxy)⟩
  have htrans : IsTrans _ r := ⟨fun x y z hxy hyz => by
    by_contra hne
    rcases Expanded.connected hfl z.2 y.2 x.2 (Bool.eq_true_of_not_eq_false hne) with hlt | hlt
    · rw [show Expanded.lt fl z.1 y.1 = false from hyz] at hlt
      cases hlt
    · rw [show Expanded.lt fl y.1 x.1 = false from hxy] at hlt
      cases hlt⟩
  have hmap := map_insertionSort (r := r) (s := fun x y => Expanded.lt fl y x = false)
    Subtype.val (l.attachWith (fun x => S x.distance) hl) fun _ _ _ _ => Iff.rfl
  rw [attachWith_map_subtype_val] at hmap
  rw [sortRetset, ← hmap, pairwise_map]
  refine (pairwise_insertionSort r _).imp fun {x y} hxy => ?_
  by_contra hlt
  have hbefore := (Expanded.lt_iff fl y.1 x.1).2 (Or.inl (Bool.eq_true_of_not_eq_false hlt))
  rw [show Expanded.lt fl y.1 x.1 = false from hxy] at hbefore
  cases hbefore

/-! ### The copy -/

variable {ix : BeamIndex C P} {nbrs : ℕ → List ℕ} {q : BeamQuery C P D} {usesPqDist : Bool}
  {fullRetset : List (Expanded D)} {pool₀ : List ℕ}

theorem le_length_ranked (fl : FloatOps D) (a : ResultArgs D) (fullRetset : List (Expanded D)) :
    a.kSearch ≤ (ranked fl a fullRetset).length ↔ a.kSearch ≤ fullRetset.length := by
  rw [ranked]
  rcases a.reorderDist with _ | dist
  · rw [(perm_sortRetset fl fullRetset).length_eq]
  · dsimp only
    rw [(perm_sortRetset fl _).length_eq, length_map, List.length_take,
      (perm_sortRetset fl fullRetset).length_eq]
    omega

theorem mem_ranked (hx : x ∈ ranked fl a fullRetset) :
    ∃ y ∈ fullRetset, x.id = y.id ∧ x.rid = y.rid ∧ (a.reorderDist = none → x = y) ∧
      ∀ dist, a.reorderDist = some dist → x.distance = dist x.id := by
  rw [ranked] at hx
  rcases hdist : a.reorderDist with _ | dist
  · rw [hdist] at hx
    exact ⟨x, (perm_sortRetset fl fullRetset).mem_iff.1 hx, rfl, rfl, fun _ => rfl,
      fun dist hsome => absurd hsome (by simp)⟩
  · rw [hdist] at hx
    obtain ⟨y, hy, rfl⟩ := mem_map.1 ((perm_sortRetset fl _).mem_iff.1 hx)
    refine ⟨y, (perm_sortRetset fl fullRetset).mem_iff.1 (mem_of_mem_take hy), rfl, rfl,
      fun hnone => absurd hnone (by simp), fun dist' hsome => ?_⟩
    cases hsome
    rfl

theorem nodup_ranked (fl : FloatOps D) (a : ResultArgs D)
    (hnodup : (fullRetset.map (·.id)).Nodup) : ((ranked fl a fullRetset).map (·.id)).Nodup := by
  have hsort := ((perm_sortRetset fl fullRetset).map (·.id)).nodup_iff.2 hnodup
  rw [ranked]
  rcases a.reorderDist with _ | dist
  · exact hsort
  · refine ((perm_sortRetset fl _).map (·.id)).nodup_iff.2 ?_
    rw [map_map]
    exact hsort.sublist ((take_sublist _ _).map _)

theorem pairwise_ranked (h : Comparable fl a fullRetset) :
    (ranked fl a fullRetset).Pairwise fun x y => fl.lt y.distance x.distance = false := by
  obtain ⟨S, hfl, hS⟩ := h
  rw [ranked]
  rcases hdist : a.reorderDist with _ | dist
  · exact pairwise_sortRetset hfl fun x hx => (hS x hx).1
  · refine pairwise_sortRetset hfl fun x hx => ?_
    obtain ⟨y, hy, rfl⟩ := mem_map.1 hx
    exact (hS y ((perm_sortRetset fl _).mem_iff.1 (mem_of_mem_take hy))).2 dist hdist

theorem copyResults_eq_some_iff (fl : FloatOps D) (a : ResultArgs D)
    (fullRetset : List (Expanded D)) (out : List (ℕ × D)) :
    copyResults fl a fullRetset = some out ↔ a.kSearch ≤ fullRetset.length ∧
      out = ((ranked fl a fullRetset).take a.kSearch).map fun x =>
        (index a x.id x.rid, outDistance fl a x.distance) := by
  rw [← le_length_ranked fl a, copyResults]
  generalize ranked fl a fullRetset = l
  constructor
  · intro h
    obtain ⟨hlen, hget⟩ := mapM_range_eq_some h
    have hle : a.kSearch ≤ l.length := by
      by_contra hlt
      have hnone := hget l.length (not_le.1 hlt)
      rw [getElem?_eq_none_iff.2 le_rfl, getElem?_eq_getElem (by omega)] at hnone
      cases hnone
    refine ⟨hle, ext_getElem? fun i => ?_⟩
    rw [getElem?_map, getElem?_take]
    by_cases hi : i < a.kSearch
    · rw [hget i hi, if_pos hi]
    · rw [if_neg hi, getElem?_eq_none_iff.2 (by omega)]
      rfl
  · rintro ⟨hle, rfl⟩
    have hlen : ((l.take a.kSearch).map fun x =>
        (index a x.id x.rid, outDistance fl a x.distance)).length = a.kSearch := by
      rw [length_map, List.length_take]
      exact Nat.min_eq_left hle
    have hmap := mapM_range_of_getElem? (l := (l.take a.kSearch).map fun x =>
      (index a x.id x.rid, outDistance fl a x.distance)) fun i hi => by
        rw [getElem?_map, getElem?_take, if_pos (by omega)]
    rw [hlen] at hmap
    exact hmap

variable {put : ℕ → Prop} {held : List ℕ}

theorem exists_copied_iff (fl : FloatOps D) (a : ResultArgs D)
    (h : Explored (Offers q nbrs) q.entry q.lSearch put held (fullRetset.map (·.id)))
    (hnodes : OfNodes ix q usesPqDist fullRetset) :
    (∃ res, Copied fl a ix nbrs q usesPqDist fullRetset res) ↔ a.kSearch ≤ fullRetset.length := by
  constructor
  · rintro ⟨res, hres⟩
    exact ((copyResults_eq_some_iff fl a fullRetset _).1 hres.copied).1
  · intro hle
    have hmem : ∀ x ∈ (ranked fl a fullRetset).take a.kSearch, x ∈ ranked fl a fullRetset :=
      fun x hx => mem_of_mem_take hx
    have hnode : ∀ x ∈ (ranked fl a fullRetset).take a.kSearch,
        x.id ∈ fullRetset.map (·.id) ∧ x.rid = (ix.node x.id).rid := by
      intro x hx
      obtain ⟨y, hy, hid, hrid, -⟩ := mem_ranked (hmem x hx)
      rw [hid, hrid]
      exact ⟨mem_map_of_mem hy, (hnodes y hy).1⟩
    have hdistinct : (((ranked fl a fullRetset).take a.kSearch).map (·.id)).Nodup :=
      (nodup_ranked fl a h.full_nodup).sublist ((take_sublist _ _).map _)
    refine ⟨(ranked fl a fullRetset).take a.kSearch,
      (copyResults_eq_some_iff fl a fullRetset _).2 ⟨hle, rfl⟩, ?_, hdistinct, fun hnamed => ?_,
      hnode, fun hexact x hx => ?_,
      fun hcomp => (pairwise_ranked hcomp).sublist (take_sublist _ _)⟩
    · rw [List.length_take]
      exact Nat.min_eq_left ((le_length_ranked fl a fullRetset).2 hle)
    · have hreached : ∀ x ∈ (ranked fl a fullRetset).take a.kSearch,
          Relation.ReflTransGen (Offers q nbrs) q.entry x.id := fun x hx =>
        h.reached _ (h.full_put _ (hnode x hx).1)
      refine hdistinct.of_map.map_on fun x hx y hy heq => ?_
      rw [(hnode x hx).2, (hnode y hy).2] at heq
      exact inj_on_of_nodup_map hdistinct hx hy
        (hnamed _ _ (hreached x hx) (hreached y hy) heq)
    · obtain ⟨y, hy, -, -, hsame, hdist⟩ := mem_ranked (hmem x hx)
      rw [exactDist]
      rcases hreorder : a.reorderDist with _ | dist
      · obtain rfl := hsame hreorder
        refine (hnodes x hy).2 (hexact.resolve_right ?_)
        rw [hreorder]
        exact Bool.false_ne_true
      · exact hdist dist hreorder

theorem le_length_iff_enough {stopped : Bool}
    (h : Explored (Offers q nbrs) q.entry q.lSearch put held (fullRetset.map (·.id)))
    (hheld : stopped = false → ∀ id ∈ held, id ∈ fullRetset.map (·.id)) (kSearch : ℕ) :
    kSearch ≤ fullRetset.length ↔ Enough nbrs q kSearch stopped fullRetset := by
  rw [Enough]
  split_ifs with hcond
  · exact Iff.rfl
  · obtain ⟨hstopped, hle⟩ := not_or.1 hcond
    have hiff := h.le_length_iff (hheld (Bool.eq_false_of_not_eq_true hstopped)) (not_lt.1 hle)
    rw [length_map] at hiff
    exact hiff

/-- The frame of `cached_beam_search` after at most `n` turns. -/
def cachedAfterTurns (fl : FloatOps D) (ix : BeamIndex C P) (q : BeamQuery C P D) :
    ℕ → CachedFrame D → CachedFrame D
  | 0, g => g
  | n + 1, g =>
    match cachedStep fl ix q g with
    | none => g
    | some g => cachedAfterTurns fl ix q n g

theorem reach_cachedAfterTurns (n : ℕ) {g : CachedFrame D}
    (h : Reach (CachedInit fl q) (CachedStep fl ix q) g) :
    Reach (CachedInit fl q) (CachedStep fl ix q) (cachedAfterTurns fl ix q n g) := by
  induction n generalizing g with
  | zero => exact h
  | succ n ih =>
    rw [cachedAfterTurns]
    rcases hstep : cachedStep fl ix q g with _ | g'
    · exact h
    · exact ih (.next (a := ()) h hstep)

/-- The points `0` and `1` are neighbours, and `2` has no neighbours. -/
def twoComponents : BeamIndex ℕ ℕ where
  record _ id := ⟨id, if id < 2 then 1 else 0, fun _ => 1 - id, fun _ => 0, id⟩
  cache _ := none
  inlinePqVectors := 0
  pqCache _ := none
  pqVector := id

/-- The query `0` with `l_search` 3, from the point `0`. -/
def fromZero : BeamQuery ℕ ℕ ℕ where
  entry := 0
  entryDist := 0
  beamWidth := 1
  bv := 1
  lSearch := 3
  ioLimit := 100
  pqDist := id
  fullDist := id
  usesPqDist := false
  passes _ := true
  lSearch_pos := threeCands_pos
  lSearch_lt := threeCands_lt
  bv_pos := Nat.one_pos

/-- The closest `k` points are asked for. -/
def closestArgs (k : ℕ) : ResultArgs ℕ := ⟨k, none, false, fun _ => none, false, 0, 0⟩

/-- The frames at the end of the two searches. -/
def aisaqEnd : BeamFrame ℕ :=
  afterTurns natConfig.fl twoComponents fromZero 5 (start natConfig.fl fromZero [0, 1] id)

def cachedEnd : CachedFrame ℕ :=
  cachedAfterTurns natConfig.fl twoComponents fromZero 5 (cachedStart natConfig.fl fromZero)

theorem reach_aisaqEnd : Reach (Init natConfig.fl fromZero [0, 1])
    (Step natConfig.fl twoComponents fromZero) aisaqEnd :=
  reach_afterTurns 5 (.start ⟨id, rfl⟩)

theorem reach_cachedEnd : Reach (CachedInit natConfig.fl fromZero)
    (CachedStep natConfig.fl twoComponents fromZero) cachedEnd :=
  reach_cachedAfterTurns 5 (.start rfl)

theorem aisaqEnd_ends : BeamLoop.step natConfig.fl twoComponents fromZero aisaqEnd = none :=
  Option.isNone_iff_eq_none.1 (by decide +kernel)

theorem cachedEnd_ends : cachedStep natConfig.fl twoComponents fromZero cachedEnd = none :=
  Option.isNone_iff_eq_none.1 (by decide +kernel)

end BeamLoop

end DiskANNEval.AiSAQ
