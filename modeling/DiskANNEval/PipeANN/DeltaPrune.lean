import DiskANNEval.PipeANN.PruneNeighbors

/-!
# DeltaPrune — which point `delta_prune_neighbors` takes out

The first scans look for a pair that the new point is in, with a threshold that goes down from
`alpha`; so the point that is taken out may be one that the full `alpha` rule would keep.  The
second path applies the rule with `alpha` to all pairs that are left, and when none meets it, the
point that is farthest away from the center goes (`deltaPrune_removes`).
-/

namespace DiskANNEval.PipeANN

open Pruning List

variable {K : Type} [Field K] [LinearOrder K]

/-- Exact arithmetic; `maxValue` stands for `numeric_limits<float>::max()`. -/
def exactFloats (maxValue : K) : Floats K where
  lt a b := decide (a < b)
  le a b := decide (a ≤ b)
  eq a b := decide (a = b)
  mul a b := a * b
  div a b := a / b
  max a b := max a b
  zero := 0
  one := 1
  alphaStep := (6 : ℕ) / (5 : ℕ)
  almostOne := (99999 : ℕ) / (100000 : ℕ)
  maxValue
  lt_irrefl d := decide_eq_false (lt_irrefl d)

namespace Pruning

/-- `x` is pruned by `p`, which is not farther away from the center. -/
def Occludes (c : Pruning K) (centerId : ℕ) (a : K) (p x : ℕ) : Prop :=
  c.dist centerId p ≤ c.dist centerId x ∧
    a < getOccludeFactor c.fl c.metric (c.dist centerId x) (c.dist p x)

/-- The values of `cur_alpha`. -/
def curAlpha (c : Pruning K) (k : ℕ) : K := c.alpha / c.fl.alphaStep ^ k

variable {c : Pruning K} {maxValue : K} {centerId targetId : ℕ}

theorem lt_eq (hfl : c.fl = exactFloats maxValue) (u v : K) : (c.fl.lt u v = true) = (u < v) := by
  rw [hfl]
  exact decide_eq_true_eq

theorem alphaStep_eq (hfl : c.fl = exactFloats maxValue) : c.fl.alphaStep = 6 / 5 := by
  have h : (exactFloats maxValue).alphaStep = ((6 : ℕ) : K) / (5 : ℕ) := rfl
  rw [hfl, h, Nat.cast_ofNat, Nat.cast_ofNat]

theorem almostOne_le_iff (hfl : c.fl = exactFloats maxValue) (a : K) :
    c.fl.le c.fl.almostOne a = true ↔ 99999 / 100000 ≤ a := by
  rw [hfl]
  exact decide_eq_true_iff

theorem div_alphaStep (hfl : c.fl = exactFloats maxValue) (a : K) :
    c.fl.div a c.fl.alphaStep = a / (6 / 5) := by
  rw [hfl]
  rfl

theorem curAlpha_succ (hfl : c.fl = exactFloats maxValue) (k : ℕ) :
    c.curAlpha (k + 1) = c.fl.div (c.curAlpha k) c.fl.alphaStep := by
  rw [div_alphaStep hfl, curAlpha, curAlpha, alphaStep_eq hfl, pow_succ, ← div_div]

/-! ### The pool -/

theorem pairwise_orderedInsert (hfl : c.fl = exactFloats maxValue) (x : TriangleNeighbor K)
    {s : List (TriangleNeighbor K)} (hs : s.Pairwise fun a b => a.distance ≤ b.distance) :
    (s.orderedInsert (fun a b => a.less c.fl b) x).Pairwise fun a b => a.distance ≤ b.distance := by
  induction s with
  | nil => exact pairwise_singleton _ _
  | cons b s ih =>
    obtain ⟨hb, hs'⟩ := pairwise_cons.1 hs
    have hless : x.less c.fl b = true ↔
        x.distance < b.distance ∨ x.distance = b.distance ∧ x.id < b.id := by
      rw [hfl, TriangleNeighbor.less, Bool.or_eq_true, Bool.and_eq_true]
      exact or_congr decide_eq_true_iff (and_congr decide_eq_true_iff decide_eq_true_iff)
    rw [orderedInsert_cons]
    split_ifs with h
    · have hxb : x.distance ≤ b.distance := (hless.1 h).elim le_of_lt fun h => h.1.le
      refine pairwise_cons.2 ⟨fun y hy => ?_, hs⟩
      rcases mem_cons.1 hy with rfl | hy
      · exact hxb
      · exact hxb.trans (hb y hy)
    · have hbx : b.distance ≤ x.distance := not_lt.1 fun hlt => h (hless.2 (.inl hlt))
      refine pairwise_cons.2 ⟨fun y hy => ?_, ih hs'⟩
      rcases mem_cons.1 ((perm_orderedInsert _ x s).mem_iff.1 hy) with rfl | hy
      · exact hbx
      · exact hb y hy

theorem pairwise_trianglePool (hfl : c.fl = exactFloats maxValue) (nhood : List ℕ) :
    (c.trianglePool nhood centerId targetId).Pairwise fun a b => a.distance ≤ b.distance := by
  induction nhood with
  | nil => exact .nil
  | cons id nhood ih => exact pairwise_orderedInsert hfl _ ih

section

omit [Field K] [LinearOrder K]

theorem perm_trianglePool (c : Pruning K) (nhood : List ℕ) (centerId targetId : ℕ) :
    ((c.trianglePool nhood centerId targetId).map (·.id)).Perm nhood := by
  have hperm := perm_insertionSort (fun a b : TriangleNeighbor K => a.less c.fl b)
    (nhood.map fun id => ⟨id, c.dist targetId id, c.dist centerId id⟩)
  refine (hperm.map (·.id)).trans ?_
  rw [map_map]
  exact .of_eq (map_id nhood)

theorem dists_of_mem {nhood : List ℕ} {x : TriangleNeighbor K}
    (hx : x ∈ c.trianglePool nhood centerId targetId) :
    x.tgtDis = c.dist targetId x.id ∧ x.distance = c.dist centerId x.id := by
  obtain ⟨id, -, rfl⟩ := mem_map.1 ((mem_insertionSort _).1 hx)
  exact ⟨rfl, rfl⟩

end

/-! ### The scans -/

/-- What makes a scan stop at a point: it is pruned by the target, or the target by it. -/
def Stops (c : Pruning K) (targetCenterDist a : K) (x : TriangleNeighbor K) : Prop :=
  a < getOccludeFactor c.fl c.metric (max x.distance targetCenterDist) x.tgtDis

variable {targetCenterDist a : K} {xs : List (TriangleNeighbor K × ℕ)} {tgtIdx tgtIdx' : Option ℕ}

open Classical in
theorem evictScan_cons (hfl : c.fl = exactFloats maxValue) (x : TriangleNeighbor K) (i : ℕ) :
    c.evictScan targetId targetCenterDist a ((x, i) :: xs) tgtIdx =
      if x.id = targetId then c.evictScan targetId targetCenterDist a xs (some i)
      else if c.Stops targetCenterDist a x then
        (if targetCenterDist < x.distance then some i else tgtIdx, tgtIdx)
      else c.evictScan targetId targetCenterDist a xs tgtIdx := by
  rw [evictScan, Stops]
  simp only [lt_eq hfl]
  by_cases hd : targetCenterDist < x.distance
  · rw [max_eq_left hd.le]
    simp only [hd, if_true]
  · rw [max_eq_right (not_lt.1 hd)]
    simp only [hd, if_false]

theorem evictScan_eq_some (hfl : c.fl = exactFloats maxValue) {e : ℕ}
    (h : c.evictScan targetId targetCenterDist a xs tgtIdx = (some e, tgtIdx')) :
    ∃ x i, (x, i) ∈ xs ∧ x.id ≠ targetId ∧ c.Stops targetCenterDist a x ∧
      (targetCenterDist < x.distance ∧ e = i ∨ x.distance ≤ targetCenterDist ∧
        (tgtIdx = some e ∨ ∃ y, (y, e) ∈ xs ∧ y.id = targetId)) := by
  induction xs generalizing tgtIdx with
  | nil => cases h
  | cons y xs ih =>
    obtain ⟨y, j⟩ := y
    rw [evictScan_cons hfl] at h
    split_ifs at h with hid hstop hd
    · obtain ⟨x, i, hx, hxid, hxstop, hcase⟩ := ih h
      refine ⟨x, i, mem_cons_of_mem _ hx, hxid, hxstop, ?_⟩
      refine hcase.imp_right fun ⟨hle, hplace⟩ => ⟨hle, .inr ?_⟩
      rcases hplace with hj | ⟨z, hz, hzid⟩
      · exact ⟨y, Option.some.inj hj ▸ mem_cons_self, hid⟩
      · exact ⟨z, mem_cons_of_mem _ hz, hzid⟩
    · obtain ⟨h1, -⟩ := Prod.mk.inj h
      exact ⟨y, j, mem_cons_self, hid, hstop, .inl ⟨hd, (Option.some.inj h1).symm⟩⟩
    · exact ⟨y, j, mem_cons_self, hid, hstop, .inr ⟨not_lt.1 hd, .inl (Prod.mk.inj h).1⟩⟩
    · obtain ⟨x, i, hx, hxid, hxstop, hcase⟩ := ih h
      refine ⟨x, i, mem_cons_of_mem _ hx, hxid, hxstop, ?_⟩
      refine hcase.imp_right fun ⟨hle, hplace⟩ => ⟨hle, hplace.imp_right ?_⟩
      exact fun ⟨z, hz, hzid⟩ => ⟨z, mem_cons_of_mem _ hz, hzid⟩

theorem evictScan_target (hfl : c.fl = exactFloats maxValue) {e : Option ℕ} {t : ℕ}
    (h : c.evictScan targetId targetCenterDist a xs tgtIdx = (e, some t)) :
    tgtIdx = some t ∨ ∃ x, (x, t) ∈ xs ∧ x.id = targetId := by
  induction xs generalizing tgtIdx with
  | nil => exact .inl (Prod.mk.inj h).2
  | cons y xs ih =>
    obtain ⟨y, j⟩ := y
    rw [evictScan_cons hfl] at h
    split_ifs at h with hid hstop hd
    · rcases ih h with hj | ⟨x, hx, hxid⟩
      · exact .inr ⟨y, Option.some.inj hj ▸ mem_cons_self, hid⟩
      · exact .inr ⟨x, mem_cons_of_mem _ hx, hxid⟩
    · exact .inl (Prod.mk.inj h).2
    · exact .inl (Prod.mk.inj h).2
    · rcases ih h with ht | ⟨x, hx, hxid⟩
      · exact .inl ht
      · exact .inr ⟨x, mem_cons_of_mem _ hx, hxid⟩

/-- A scan that finds nothing although it has passed the target has stopped nowhere. -/
theorem evictScan_eq_none (hfl : c.fl = exactFloats maxValue) {t : ℕ}
    (h : c.evictScan targetId targetCenterDist a xs tgtIdx = (none, some t)) :
    ∀ x i, (x, i) ∈ xs → x.id ≠ targetId → ¬ c.Stops targetCenterDist a x := by
  induction xs generalizing tgtIdx with
  | nil => exact fun x i hx => absurd hx not_mem_nil
  | cons y xs ih =>
    rw [evictScan_cons hfl] at h
    intro x i hx hxid
    split_ifs at h with hid hstop hd
    · rcases mem_cons.1 hx with hx | hx
      · exact absurd ((Prod.mk.inj hx).1 ▸ hid) hxid
      · exact ih h x i hx hxid
    · cases h
    · cases (Prod.mk.inj h).1.symm.trans (Prod.mk.inj h).2
    · rcases mem_cons.1 hx with hx | hx
      · exact (Prod.mk.inj hx).1 ▸ hstop
      · exact ih h x i hx hxid

/-! ### The second path -/

theorem slowPath_eq_some (hfl : c.fl = exactFloats maxValue) {pool : List (TriangleNeighbor K)} {e : ℕ}
    (h : c.slowPath pool tgtIdx = some e) : ∃ p x start, pool[start]? = some p ∧ pool[e]? = some x ∧
      start < e ∧ c.alpha < getOccludeFactor c.fl c.metric x.distance (c.dist p.id x.id) := by
  obtain ⟨⟨p, start⟩, hp, hx⟩ := exists_of_findSome?_eq_some h
  dsimp only at hx
  split_ifs at hx
  obtain ⟨⟨x, i⟩, hfind, rfl⟩ := Option.map_eq_some_iff.1 hx
  have hmem := mem_of_find?_eq_some hfind
  have hcond := find?_some hfind
  have hlt : start < i := by
    obtain ⟨j, hj, hxj⟩ := getElem_of_mem hmem
    rw [getElem_drop, getElem_zipIdx] at hxj
    have hi := (Prod.mk.inj hxj).2
    omega
  refine ⟨p, x, start, mem_zipIdx_iff_getElem?.1 (mem_of_mem_dropLast hp),
    mem_zipIdx_iff_getElem?.1 (mem_of_mem_drop hmem), hlt, ?_⟩
  rwa [lt_eq hfl] at hcond

theorem slowPath_eq_none (hfl : c.fl = exactFloats maxValue) {pool : List (TriangleNeighbor K)}
    (h : c.slowPath pool tgtIdx = none) {p x : TriangleNeighbor K} {start t : ℕ}
    (hp : pool[start]? = some p) (hx : pool[t]? = some x) (hlt : start < t)
    (htgt : some start ≠ tgtIdx) :
    ¬ c.alpha < getOccludeFactor c.fl c.metric x.distance (c.dist p.id x.id) := by
  have ht : t < pool.length := (List.getElem?_eq_some_iff.1 hx).1
  have hmem : (p, start) ∈ pool.zipIdx.dropLast := by
    rw [dropLast_eq_take, mem_take_iff_getElem]
    obtain ⟨hs, rfl⟩ := List.getElem?_eq_some_iff.1 hp
    refine ⟨start, by rw [length_zipIdx]; omega, ?_⟩
    rw [getElem_zipIdx, Nat.zero_add]
  have hnone := findSome?_eq_none_iff.1 h _ hmem
  dsimp only at hnone
  rw [if_neg htgt, Option.map_eq_none_iff, find?_eq_none] at hnone
  have hxmem : (x, t) ∈ pool.zipIdx.drop (start + 1) := by
    rw [mem_drop_iff_getElem]
    obtain ⟨hs, rfl⟩ := List.getElem?_eq_some_iff.1 hx
    refine ⟨t - (start + 1), by rw [length_zipIdx]; omega, ?_⟩
    rw [getElem_zipIdx]
    congr 1
    · congr 1
      omega
    · omega
  have hx' := hnone _ hxmem
  rwa [lt_eq hfl] at hx'

/-! ### The first path -/

variable [IsStrictOrderedRing K]

theorem exists_rounds [Archimedean K] (hfl : c.fl = exactFloats maxValue) :
    ∃ n, ∀ k, n ≤ k → c.curAlpha k < 99999 / 100000 := by
  obtain ⟨n, hn⟩ := pow_unbounded_of_one_lt (c.alpha / (99999 / 100000))
    (show (1 : K) < 6 / 5 by norm_num)
  refine ⟨n, fun k hk => ?_⟩
  rw [curAlpha, alphaStep_eq hfl]
  have hpow : (6 / 5 : K) ^ n ≤ (6 / 5) ^ k := pow_le_pow_right₀ (by norm_num) hk
  have hpos : (0 : K) < (6 / 5) ^ k := pow_pos (by norm_num) k
  rw [div_lt_iff₀ hpos]
  rw [div_lt_iff₀ (by norm_num)] at hn
  calc c.alpha < (6 / 5) ^ n * (99999 / 100000) := hn
    _ ≤ (6 / 5) ^ k * (99999 / 100000) := mul_le_mul_of_nonneg_right hpow (by norm_num)
    _ = 99999 / 100000 * (6 / 5) ^ k := mul_comm _ _

omit [IsStrictOrderedRing K] in
theorem fastPath_eq_some (hfl : c.fl = exactFloats maxValue) {n e k : ℕ}
    (h : c.fastPath targetId targetCenterDist xs n (c.curAlpha k) tgtIdx = (some e, tgtIdx')) :
    ∃ k, 99999 / 100000 ≤ c.curAlpha k ∧
      ∃ x i, (x, i) ∈ xs ∧ x.id ≠ targetId ∧ c.Stops targetCenterDist (c.curAlpha k) x ∧
        (targetCenterDist < x.distance ∧ e = i ∨ x.distance ≤ targetCenterDist ∧
          (tgtIdx = some e ∨ ∃ y, (y, e) ∈ xs ∧ y.id = targetId)) := by
  induction n generalizing k tgtIdx with
  | zero => cases h
  | succ n ih =>
    rw [fastPath] at h
    split_ifs at h with hle
    · split at h
      · rename_i hscan
        rw [(Prod.mk.inj h).1] at hscan
        exact ⟨k, (almostOne_le_iff hfl _).1 hle, evictScan_eq_some hfl hscan⟩
      · rename_i t hscan
        rw [← curAlpha_succ hfl] at h
        obtain ⟨k', hk', x, i, hx, hxid, hxstop, hcase⟩ := ih h
        refine ⟨k', hk', x, i, hx, hxid, hxstop, ?_⟩
        rcases hcase with hfar | ⟨hd, rfl | hplace⟩
        · exact .inl hfar
        · exact .inr ⟨hd, evictScan_target hfl hscan⟩
        · exact .inr ⟨hd, .inr hplace⟩
    · cases h

/-- When the rounds find nothing but the place of the target, no scan with `alpha` would stop. -/
theorem fastPath_eq_none (hfl : c.fl = exactFloats maxValue) {n t : ℕ} {curAlpha : K}
    (halpha : curAlpha ≤ c.alpha)
    (h : c.fastPath targetId targetCenterDist xs n curAlpha tgtIdx = (none, some t)) :
    tgtIdx = some t ∨ (∃ x, (x, t) ∈ xs ∧ x.id = targetId) ∧
      ∀ x i, (x, i) ∈ xs → x.id ≠ targetId → ¬ c.Stops targetCenterDist c.alpha x := by
  induction n generalizing curAlpha tgtIdx with
  | zero => exact .inl (Prod.mk.inj h).2
  | succ n ih =>
    rw [fastPath] at h
    split_ifs at h with hle
    · split at h
      · cases h
      · rename_i t' hscan
        have hpos : 0 ≤ curAlpha := le_trans (by norm_num) ((almostOne_le_iff hfl _).1 hle)
        have hdiv : c.fl.div curAlpha c.fl.alphaStep ≤ c.alpha := by
          rw [div_alphaStep hfl]
          exact (div_le_self hpos (by norm_num)).trans halpha
        rcases ih hdiv h with rfl | hfound
        · rcases evictScan_target hfl hscan with ht | ht
          · exact .inl ht
          · refine .inr ⟨ht, fun x i hx hxid hstop => ?_⟩
            exact evictScan_eq_none hfl hscan x i hx hxid (halpha.trans_lt hstop)
        · exact .inr hfound
    · exact .inl (Prod.mk.inj h).2

/-! ### The point that is taken out -/

omit [Field K] [LinearOrder K] [IsStrictOrderedRing K] in
theorem mem_zipIdx_reverse {pool : List (TriangleNeighbor K)} {x : TriangleNeighbor K} {i : ℕ} :
    (x, i) ∈ pool.zipIdx.reverse ↔ pool[i]? = some x := by
  rw [mem_reverse, mem_zipIdx_iff_getElem?]

/-- The points of a list, by their distance to the center. -/
structure IsPool (c : Pruning K) (nhood : List ℕ) (centerId targetId : ℕ)
    (pool : List (TriangleNeighbor K)) : Prop where
  perm : (pool.map (·.id)).Perm nhood
  sorted : pool.Pairwise fun a b => a.distance ≤ b.distance
  tgtDis : ∀ x ∈ pool, x.tgtDis = c.dist targetId x.id
  distance : ∀ x ∈ pool, x.distance = c.dist centerId x.id

variable {nhood : List ℕ} {pool : List (TriangleNeighbor K)} {i j e : ℕ} {x y : TriangleNeighbor K}

omit [IsStrictOrderedRing K] in
theorem isPool_trianglePool (hfl : c.fl = exactFloats maxValue) (nhood : List ℕ)
    (centerId targetId : ℕ) :
    IsPool c nhood centerId targetId (c.trianglePool nhood centerId targetId) where
  perm := perm_trianglePool c nhood centerId targetId
  sorted := pairwise_trianglePool hfl nhood
  tgtDis _ hx := (dists_of_mem hx).1
  distance _ hx := (dists_of_mem hx).2

namespace IsPool

section

variable (h : IsPool c nhood centerId targetId pool)

include h

omit [Field K] [IsStrictOrderedRing K]

theorem mem_nhood (hx : pool[i]? = some x) : x.id ∈ nhood :=
  h.perm.mem_iff.1 (mem_map_of_mem (mem_of_getElem? hx))

theorem exists_of_mem {id : ℕ} (hid : id ∈ nhood) : ∃ (i : ℕ) (x : _), pool[i]? = some x ∧ x.id = id := by
  obtain ⟨x, hx, rfl⟩ := mem_map.1 (h.perm.mem_iff.2 hid)
  obtain ⟨i, hi⟩ := getElem?_of_mem hx
  exact ⟨i, x, hi, rfl⟩

theorem ne (hnd : nhood.Nodup) (hx : pool[i]? = some x) (hy : pool[j]? = some y) (hij : i ≠ j) :
    x.id ≠ y.id := by
  intro heq
  have hids : (pool.map (·.id)).Nodup := h.perm.nodup_iff.2 hnd
  obtain ⟨hi, rfl⟩ := List.getElem?_eq_some_iff.1 hx
  refine hij ((getElem?_inj (by simpa using hi) hids).1 ?_)
  rw [getElem?_map, getElem?_map, hx, hy, Option.map_some, Option.map_some, heq]

theorem dist_le (hx : pool[i]? = some x) (hy : pool[j]? = some y) (hij : i ≤ j) :
    c.dist centerId x.id ≤ c.dist centerId y.id := by
  rw [← h.distance x (mem_of_getElem? hx), ← h.distance y (mem_of_getElem? hy)]
  obtain ⟨hi, rfl⟩ := List.getElem?_eq_some_iff.1 hx
  obtain ⟨hj, rfl⟩ := List.getElem?_eq_some_iff.1 hy
  rcases hij.eq_or_lt with rfl | hlt
  · exact le_rfl
  · exact pairwise_iff_getElem.1 h.sorted i j hi hj hlt

end

section

variable (h : IsPool c nhood centerId targetId pool)

include h

omit [IsStrictOrderedRing K]

/-- A point that the first path finds is pruned by the target, or is the target and pruned by
another point. -/
theorem of_fastPath (hfl : c.fl = exactFloats maxValue) (hsymm : ∀ p q, c.dist p q = c.dist q p)
    (htgt : targetId ∈ nhood) {n : ℕ} {t : Option ℕ}
    (hfast : c.fastPath targetId (c.dist centerId targetId) pool.zipIdx.reverse n c.alpha none =
      (some e, t)) (hx : pool[e]? = some x) :
    ∃ k, 99999 / 100000 ≤ c.curAlpha k ∧ ∃ p ∈ nhood, p ≠ x.id ∧ (p = targetId ∨ x.id = targetId) ∧
      c.Occludes centerId (c.curAlpha k) p x.id := by
  have hzero : c.curAlpha 0 = c.alpha := by rw [curAlpha, pow_zero, div_one]
  rw [← hzero] at hfast
  obtain ⟨k, hk, y, i, hy, hyid, hstop, hcase⟩ := fastPath_eq_some hfl hfast
  rw [mem_zipIdx_reverse] at hy
  have hydist := h.distance y (mem_of_getElem? hy)
  rw [Stops, hydist, h.tgtDis y (mem_of_getElem? hy)] at hstop
  rw [hydist] at hcase
  refine ⟨k, hk, ?_⟩
  rcases hcase with ⟨hd, rfl⟩ | ⟨hd, hplace⟩
  · obtain rfl : y = x := Option.some.inj (hy.symm.trans hx)
    rw [max_eq_left hd.le] at hstop
    exact ⟨targetId, htgt, hyid.symm, .inl rfl, hd.le, hstop⟩
  · rcases hplace with hplace | ⟨z, hz, hzid⟩
    · cases hplace
    rw [mem_zipIdx_reverse] at hz
    obtain rfl : z = x := Option.some.inj (hz.symm.trans hx)
    rw [max_eq_right hd, hsymm targetId y.id] at hstop
    rw [hzid]
    exact ⟨y.id, h.mem_nhood hy, hyid, .inr rfl, hd, hstop⟩

theorem of_slowPath (hfl : c.fl = exactFloats maxValue) (hnd : nhood.Nodup) {t : Option ℕ}
    (hslow : c.slowPath pool t = some e) (hx : pool[e]? = some x) :
    ∃ p ∈ nhood, p ≠ x.id ∧ c.Occludes centerId c.alpha p x.id := by
  obtain ⟨p, y, start, hp, hy, hlt, hocc⟩ := slowPath_eq_some hfl hslow
  obtain rfl : y = x := Option.some.inj (hy.symm.trans hx)
  rw [h.distance y (mem_of_getElem? hy)] at hocc
  exact ⟨p.id, h.mem_nhood hp, h.ne hnd hp hy hlt.ne, h.dist_le hp hy hlt.le, hocc⟩

end

variable (h : IsPool c nhood centerId targetId pool)

include h

theorem not_occludes_of_lt (hfl : c.fl = exactFloats maxValue) (hnd : nhood.Nodup) {n : ℕ}
    {t : Option ℕ}
    (hfast : c.fastPath targetId (c.dist centerId targetId) pool.zipIdx.reverse n c.alpha none =
      (none, t)) (hslow : c.slowPath pool t = none) (hx : pool[i]? = some x)
    (hy : pool[j]? = some y) (hij : i < j) : ¬ c.Occludes centerId c.alpha x.id y.id := by
  rintro ⟨hle, hocc⟩
  have hydist := h.distance y (mem_of_getElem? hy)
  by_cases htgt : some i = t
  · -- the scan has passed the target, and would have stopped at `y`
    subst htgt
    obtain hnone | ⟨⟨z, hz, hzid⟩, hstop⟩ := fastPath_eq_none hfl le_rfl hfast
    · cases hnone
    rw [mem_zipIdx_reverse] at hz
    obtain rfl : z = x := Option.some.inj (hz.symm.trans hx)
    have hyid : y.id ≠ targetId := fun heq => h.ne hnd hx hy hij.ne (hzid.trans heq.symm)
    refine hstop y j (mem_zipIdx_reverse.2 hy) hyid ?_
    rw [Stops, h.tgtDis y (mem_of_getElem? hy), hydist]
    rw [hzid] at hle hocc
    rwa [max_eq_left hle]
  · refine slowPath_eq_none hfl hslow hx hy hij htgt ?_
    rwa [hydist]

theorem not_occludes (hfl : c.fl = exactFloats maxValue) (hsymm : ∀ p q, c.dist p q = c.dist q p)
    (hnd : nhood.Nodup) {n : ℕ} {t : Option ℕ}
    (hfast : c.fastPath targetId (c.dist centerId targetId) pool.zipIdx.reverse n c.alpha none =
      (none, t)) (hslow : c.slowPath pool t = none) {p q : ℕ} (hp : p ∈ nhood) (hq : q ∈ nhood)
    (hpq : p ≠ q) : ¬ c.Occludes centerId c.alpha p q := by
  obtain ⟨i, x, hx, rfl⟩ := h.exists_of_mem hp
  obtain ⟨j, y, hy, rfl⟩ := h.exists_of_mem hq
  intro hocc
  rcases lt_trichotomy i j with hij | rfl | hij
  · exact h.not_occludes_of_lt hfl hnd hfast hslow hx hy hij hocc
  · exact hpq (congrArg _ (Option.some.inj (hx.symm.trans hy)))
  · -- the two are equally far away
    have heq : c.dist centerId x.id = c.dist centerId y.id :=
      le_antisymm hocc.1 (h.dist_le hy hx hij.le)
    refine h.not_occludes_of_lt hfl hnd hfast hslow hy hx hij ⟨heq.ge, ?_⟩
    rw [heq, hsymm y.id x.id]
    exact hocc.2

end IsPool

/-- `delta_prune_neighbors` ends, and takes one point out of a list whose last point is the target:
one that another one prunes, with `alpha`, or, if the target is one of the two, with one of the
values of `cur_alpha`; or else no two points prune each other with `alpha`, and it is the farthest
one. -/
theorem deltaPrune_removes [Archimedean K] (c : Pruning K) {maxValue : K}
    (hfl : c.fl = exactFloats maxValue) (hsymm : ∀ p q, c.dist p q = c.dist q p) {nhood : List ℕ}
    {centerId targetId : ℕ} (hnd : nhood.Nodup) (hlast : nhood.getLast? = some targetId) :
    (∃ n, ∀ k, n ≤ k → c.curAlpha k < 99999 / 100000) ∧
      ∃ x ∈ nhood, nhood.Perm (x :: c.deltaPruneNeighbors nhood centerId targetId) ∧
        ((∃ k, 99999 / 100000 ≤ c.curAlpha k ∧ ∃ p ∈ nhood, p ≠ x ∧ (p = targetId ∨ x = targetId) ∧
            c.Occludes centerId (c.curAlpha k) p x) ∨
          (∃ p ∈ nhood, p ≠ x ∧ c.Occludes centerId c.alpha p x) ∨
          (∀ y ∈ nhood, c.dist centerId y ≤ c.dist centerId x) ∧
            ∀ p ∈ nhood, ∀ y ∈ nhood, p ≠ y → ¬ c.Occludes centerId c.alpha p y) := by
  have h := isPool_trianglePool hfl nhood centerId targetId
  have htgt : targetId ∈ nhood := mem_of_getLast? hlast
  refine ⟨exists_rounds hfl, ?_⟩
  rw [deltaPruneNeighbors]
  generalize c.trianglePool nhood centerId targetId = pool at h
  have hne : pool ≠ [] := by
    rintro rfl
    obtain ⟨i, x, hx, -⟩ := h.exists_of_mem htgt
    cases hx
  have hlt : c.toEvict pool centerId targetId < pool.length := toEvict_lt hne centerId
  obtain ⟨x, hx⟩ : ∃ x, pool[c.toEvict pool centerId targetId]? = some x :=
    ⟨_, getElem?_eq_getElem hlt⟩
  refine ⟨x.id, h.mem_nhood hx, ?_, ?_⟩
  · have hx' : pool[c.toEvict pool centerId targetId] = x := (List.getElem?_eq_some_iff.1 hx).2
    have herase := (getElem_cons_eraseIdx_perm hlt).map (·.id)
    rw [hx', map_cons] at herase
    exact h.perm.symm.trans herase.symm
  rw [toEvict] at hx
  rcases hfast : c.fastPath targetId (c.dist centerId targetId) pool.zipIdx.reverse c.rounds c.alpha
    none with ⟨_ | e, t⟩
  · rw [hfast] at hx
    dsimp only at hx
    cases hslow : c.slowPath pool t with
    | some e =>
      rw [hslow, Option.getD_some] at hx
      exact .inr (.inl (h.of_slowPath hfl hnd hslow hx))
    | none =>
      rw [hslow, Option.getD_none] at hx
      refine .inr (.inr ⟨fun y hy => ?_, fun p hp y hy hpy =>
        h.not_occludes hfl hsymm hnd hfast hslow hp hy hpy⟩)
      obtain ⟨i, z, hz, rfl⟩ := h.exists_of_mem hy
      have hi := (List.getElem?_eq_some_iff.1 hz).1
      exact h.dist_le hz hx (by omega)
  · rw [hfast] at hx
    exact .inl (h.of_fastPath hfl hsymm htgt hfast hx)

theorem alphaStep_twice : (exactFloats (1000 : ℚ)).le ((fun a => (exactFloats 1000).mul a
    (exactFloats 1000).alphaStep)^[2] (exactFloats (1000 : ℚ)).one) (6 / 5) = false := by
  decide +kernel

theorem almostOne_twice : (exactFloats (1000 : ℚ)).le (exactFloats 1000).almostOne
    ((fun a => (exactFloats 1000).div a (exactFloats 1000).alphaStep)^[2] (6 / 5)) = false := by
  decide +kernel

/-- `alpha` is `1.2`; the new point `9` is a little farther away than `1`, and as near to it as `1`
is to the center, and `2` is far away. -/
def slightlyOccluded : Pruning ℚ where
  fl := exactFloats 1000
  metric := .l2
  R := 2
  C := 10
  alpha := 6 / 5
  saturateGraph := false
  dist p q :=
    match min p q, max p q with
    | 0, 1 => 10
    | 0, 9 => 11
    | 1, 9 => 10
    | _, _ => 20
  rounds := 2
  rounds_enough := alphaStep_twice
  rounds_down := almostOne_twice

theorem slightlyOccluded_symm (p q : ℕ) : slightlyOccluded.dist p q = slightlyOccluded.dist q p := by
  simp only [slightlyOccluded, min_comm, max_comm]

theorem deltaPrune_removes_slightlyOccluded :
    ∃ x ∈ [1, 2, 9], [1, 2, 9].Perm (x :: slightlyOccluded.deltaPruneNeighbors [1, 2, 9] 0 9) := by
  obtain ⟨-, x, hx, hperm, -⟩ := @deltaPrune_removes ℚ _ _ _ _ slightlyOccluded 1000 rfl
    slightlyOccluded_symm [1, 2, 9] 0 9 (by decide) rfl
  exact ⟨x, hx, hperm⟩

theorem deltaPrune_slightlyOccluded :
    slightlyOccluded.deltaPruneNeighbors [1, 2, 9] 0 9 = [1, 2] := by decide +kernel

/-- The new point is taken out, which no point prunes with `alpha`, and `2` is farther away. -/
theorem deltaPrune_removes_kept :
    ¬ ∃ x ∈ [1, 2, 9], [1, 2, 9].Perm (x :: slightlyOccluded.deltaPruneNeighbors [1, 2, 9] 0 9) ∧
      ((∃ p ∈ [1, 2, 9], p ≠ x ∧ slightlyOccluded.Occludes 0 slightlyOccluded.alpha p x) ∨
        (∀ y ∈ [1, 2, 9], slightlyOccluded.dist 0 y ≤ slightlyOccluded.dist 0 x) ∧
          ∀ p ∈ [1, 2, 9], ∀ y ∈ [1, 2, 9], p ≠ y →
            ¬ slightlyOccluded.Occludes 0 slightlyOccluded.alpha p y) := by
  rw [deltaPrune_slightlyOccluded]
  rintro ⟨x, -, hperm, hx⟩
  obtain rfl : 9 = x := by
    have hmem : 9 ∈ [x, 1, 2] := hperm.mem_iff.1 (by decide)
    simpa using hmem
  rcases hx with ⟨p, hp, hne, -, hocc⟩ | ⟨hfar, -⟩
  · have hall : ∀ p ∈ [1, 2], ¬ slightlyOccluded.alpha <
        getOccludeFactor slightlyOccluded.fl slightlyOccluded.metric (slightlyOccluded.dist 0 9)
          (slightlyOccluded.dist p 9) := by
      decide +kernel
    refine hall p ?_ hocc
    simp only [mem_cons, not_mem_nil, or_false] at hp ⊢
    omega
  · exact absurd (hfar 2 (by decide)) (by decide +kernel)

end Pruning

end DiskANNEval.PipeANN
