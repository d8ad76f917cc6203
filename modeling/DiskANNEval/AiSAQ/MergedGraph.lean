import DiskANNEval.AiSAQ.MergeShards

/-!
# MergedGraph — the merged file is the graph of the whole data set

The pairs of `node_shard` come node by node, and within a node shard by shard (`nodeShard_eq`).
After the pairs of a node its list is the union of its lists in the shards (`Full`), and each reader
has come to the next of its ids.
-/

namespace DiskANNEval.AiSAQ.MergeShards

open Lib List Function

/-- The graph of one shard, over the positions in the id map. -/
structure VamanaShard where
  idmap : List ℕ
  graph : List (List ℕ)
  medoid : ℕ
  width : ℕ
  ascending : idmap.Pairwise (· < ·)
  length_eq : graph.length = idmap.length
  nbr_lt : ∀ l ∈ graph, ∀ x ∈ l, x < idmap.length
  medoid_lt : medoid < idmap.length

namespace VamanaShard

variable (s : VamanaShard) (i : ℕ)

/-- The file of a shard. -/
def shard : Shard where
  idmap := s.idmap
  file :=
    { expectedFileSize := vamanaMetadataSize + 4 * (encode s.graph).length
      width := s.width
      medoid := s.medoid
      frozen := 0
      words := encode s.graph }

/-- The list of a node in a shard. -/
def localNhood : List ℕ := s.graph.getD (s.idmap.idxOf i) []

/-- The same list under the ids. -/
def nhood : List ℕ := (s.localNhood i).map fun j => s.idmap.getD j 0

/-- The records of the nodes from `i` on. -/
def rest : List (List ℕ) := ((s.idmap.zip s.graph).filter fun r => i ≤ r.1).map Prod.snd

theorem rest_zero : s.rest 0 = s.graph := by
  simp only [rest, Nat.zero_le, decide_true, filter_true]
  exact map_snd_zip (Nat.le_of_eq s.length_eq)

theorem rest_eq : s.rest i =
    (if i ∈ s.idmap then [s.localNhood i] else []) ++ s.rest (i + 1) := by
  have hasc := s.ascending
  have hlen := s.length_eq
  unfold rest localNhood
  generalize s.idmap = ids, s.graph = graph at hasc hlen
  induction ids generalizing graph with
  | nil => simp
  | cons id ids ih =>
    obtain ⟨l, graph, rfl⟩ := exists_cons_of_length_eq_add_one hlen
    obtain ⟨hid, hasc⟩ := pairwise_cons.1 hasc
    have ih := ih graph hasc (by simpa using hlen)
    rw [zip_cons_cons, filter_cons, filter_cons]
    by_cases heq : i = id
    · subst heq
      have hnot : i ∉ ids := fun hi => Nat.lt_irrefl i (hid i hi)
      rw [if_neg hnot, nil_append] at ih
      simp only [Nat.le_refl, decide_true, if_true, map_cons, ih, mem_cons_self,
        idxOf_cons_self, getD_cons_zero, Nat.not_succ_le_self, decide_false,
        Bool.false_eq_true, if_false, singleton_append]
    · have hle : i ≤ id ↔ i + 1 ≤ id := by omega
      have hmem : i ∈ id :: ids ↔ i ∈ ids := by
        rw [mem_cons, or_iff_right heq]
      have hidx : idxOf i (id :: ids) = idxOf i ids + 1 := idxOf_cons_ne _ (Ne.symm heq)
      by_cases hlt : i + 1 ≤ id
      · have hnot : i ∉ ids := fun hi => by
          have := hid i hi
          omega
        simp only [hle, hlt, decide_true, if_true, map_cons, ih, hmem, hnot, if_false,
          nil_append]
      · simp only [hle, hlt, decide_false, Bool.false_eq_true, if_false, ih, hmem, hidx,
          getD_cons_succ]

theorem localNhood_lt {x : ℕ} (hx : x ∈ s.localNhood i) : x < s.idmap.length := by
  by_cases h : s.idmap.idxOf i < s.graph.length
  · rw [localNhood, getD_eq_getElem _ _ h] at hx
    exact s.nbr_lt _ (getElem_mem h) x hx
  · rw [localNhood, getD_eq_default _ _ (Nat.le_of_not_lt h)] at hx
    cases hx

theorem nhood_of_not_mem (h : i ∉ s.idmap) : s.nhood i = [] := by
  rw [nhood, localNhood, idxOf_eq_length h, ← s.length_eq,
    getD_eq_default _ _ (Nat.le_refl _), map_nil]

end VamanaShard

variable {σ : Shuffle} {shards : List VamanaShard} {maxDegree n i k : ℕ} {m : State}

/-- The neighbours of a node in all shards. -/
def unionNhood (shards : List VamanaShard) (i : ℕ) : Finset ℕ :=
  (shards.flatMap fun s => s.nhood i).toFinset

/-! ### The order of the pairs -/

instance : Std.Total le := ⟨fun a b => by simp only [le]; omega⟩

instance : IsTrans (ℕ × ℕ) le := ⟨fun a b c => by simp only [le]; omega⟩

instance : Std.Antisymm le := ⟨fun a b hab hba => by
  simp only [le] at hab hba
  exact Prod.ext (by omega) (by omega)⟩

/-- The pairs of a node with the first `k` shards. -/
def pairs (shards : List VamanaShard) (i k : ℕ) : List (ℕ × ℕ) :=
  (List.range k).filterMap fun j =>
    if shards[j]?.any (fun s => i ∈ s.idmap) then some (i, j) else none

theorem mem_pairs {p : ℕ × ℕ} : p ∈ pairs shards i k ↔
    p.1 = i ∧ p.2 < k ∧ ∃ s, shards[p.2]? = some s ∧ i ∈ s.idmap := by
  rw [pairs, mem_filterMap]
  constructor
  · rintro ⟨j, hj, hp⟩
    split_ifs at hp with hs
    cases hp
    obtain ⟨s, hs, hi⟩ := (Option.any_eq_true _ _).1 hs
    exact ⟨rfl, List.mem_range.1 hj, s, hs, by simpa using hi⟩
  · rintro ⟨hi, hk, s, hs, hmem⟩
    refine ⟨p.2, List.mem_range.2 hk, ?_⟩
    rw [if_pos ((Option.any_eq_true _ _).2 ⟨s, hs, by simpa using hmem⟩), ← hi]

theorem pairs_sorted : (pairs shards i k).Pairwise le := by
  refine Pairwise.filterMap _ (fun a b hab p hp p' hp' => ?_)
    pairwise_lt_range
  split_ifs at hp hp'
  cases hp
  cases hp'
  exact .inr ⟨rfl, Nat.le_of_lt hab⟩

theorem pairs_nodup : (pairs shards i k).Nodup := by
  refine Pairwise.filterMap _ (fun a b hab p hp p' hp' => ?_)
    pairwise_lt_range
  split_ifs at hp hp'
  cases hp
  cases hp'
  exact fun heq => Nat.ne_of_lt hab (Prod.mk.inj heq).2

theorem nodeShard_eq (hcover : ∀ i, i < n ↔ ∃ s ∈ shards, i ∈ s.idmap) :
    nodeShard (shards.map VamanaShard.shard) =
      (List.range n).flatMap fun i => pairs shards i shards.length := by
  have hmem : ∀ p : ℕ × ℕ, p ∈ ((shards.map VamanaShard.shard).zipIdx.flatMap fun x =>
      x.1.idmap.map fun id => (id, x.2)) ↔ ∃ s, shards[p.2]? = some s ∧ p.1 ∈ s.idmap := by
    intro p
    simp only [mem_flatMap, mem_map, Prod.exists]
    constructor
    · rintro ⟨s, j, hs, id, hid, rfl⟩
      rw [mem_zipIdx_iff_getElem?, getElem?_map, Option.map_eq_some_iff] at hs
      obtain ⟨s, hs, rfl⟩ := hs
      exact ⟨s, hs, hid⟩
    · rintro ⟨s, hs, hid⟩
      refine ⟨s.shard, p.2, ?_, p.1, hid, rfl⟩
      rw [mem_zipIdx_iff_getElem?, getElem?_map, hs]
      rfl
  have hmem' : ∀ p : ℕ × ℕ, p ∈ ((List.range n).flatMap fun i => pairs shards i shards.length) ↔
      ∃ s, shards[p.2]? = some s ∧ p.1 ∈ s.idmap := by
    intro p
    rw [mem_flatMap]
    constructor
    · rintro ⟨i, -, hp⟩
      obtain ⟨rfl, -, hs⟩ := mem_pairs.1 hp
      exact hs
    · rintro ⟨s, hs, hid⟩
      have hlt : p.1 < n := (hcover p.1).2 ⟨s, mem_of_getElem? hs, hid⟩
      exact ⟨p.1, List.mem_range.2 hlt,
        mem_pairs.2 ⟨rfl, (List.getElem?_eq_some_iff.1 hs).1, s, hs, hid⟩⟩
  have hnodup : ((shards.map VamanaShard.shard).zipIdx.flatMap fun x =>
      x.1.idmap.map fun id => (id, x.2)).Nodup := by
    refine nodup_flatMap.2 ⟨fun x hx => ?_, ?_⟩
    · have hget := mem_zipIdx_iff_getElem?.1 hx
      obtain ⟨s, -, hs⟩ := mem_map.1 (mem_of_getElem? hget)
      refine Nodup.map (fun a b hab => (Prod.mk.inj hab).1) ?_
      rw [← hs]
      exact s.ascending.imp fun hlt => Nat.ne_of_lt hlt
    · have hidx : ((shards.map VamanaShard.shard).zipIdx.map Prod.snd).Nodup := by
        rw [zipIdx_map_snd]
        exact nodup_range'
      refine (pairwise_map.1 hidx).imp fun {a b} hab => ?_
      intro p hp hp'
      obtain ⟨id, -, rfl⟩ := mem_map.1 hp
      obtain ⟨id', -, heq⟩ := mem_map.1 hp'
      exact hab (Prod.mk.inj heq).2.symm
  have hnodup' : ((List.range n).flatMap fun i => pairs shards i shards.length).Nodup := by
    refine nodup_flatMap.2 ⟨fun i _ => pairs_nodup, ?_⟩
    refine nodup_range.imp fun {a b} hab => ?_
    intro p hp hp'
    exact hab ((mem_pairs.1 hp).1.symm.trans (mem_pairs.1 hp').1)
  have hsorted : ((List.range n).flatMap fun i => pairs shards i shards.length).Pairwise le := by
    refine pairwise_flatMap.2 ⟨fun i _ => pairs_sorted, ?_⟩
    refine pairwise_lt_range.imp fun {a b} hab p hp p' hp' => .inl ?_
    rw [(mem_pairs.1 hp).1, (mem_pairs.1 hp').1]
    exact hab
  have hperm := (perm_insertionSort le _).trans ((perm_ext_iff_of_nodup hnodup hnodup').2
    fun p => (hmem p).trans (hmem' p).symm)
  exact hperm.eq_of_pairwise' (pairwise_insertionSort le _) hsorted

/-! ### One list -/

/-- The new elements of `xs` behind `acc`, each once. -/
def addNew (acc xs : List ℕ) : List ℕ := xs.foldl (fun acc x => if x ∈ acc then acc else acc ++ [x]) acc

theorem addNew_append (acc xs ys : List ℕ) : addNew acc (xs ++ ys) = addNew (addNew acc xs) ys :=
  foldl_append

theorem addNew_spec {acc xs : List ℕ} (h : acc.Nodup) :
    (addNew acc xs).Nodup ∧ ∀ x, x ∈ addNew acc xs ↔ x ∈ acc ∨ x ∈ xs := by
  induction xs generalizing acc with
  | nil => exact ⟨h, fun x => by simp [addNew]⟩
  | cons y xs ih =>
    have hstep : addNew acc (y :: xs) = addNew (if y ∈ acc then acc else acc ++ [y]) xs := rfl
    rw [hstep]
    by_cases hy : y ∈ acc
    · rw [if_pos hy]
      obtain ⟨h1, h2⟩ := ih h
      refine ⟨h1, fun x => (h2 x).trans ?_⟩
      rw [mem_cons]
      constructor
      · exact Or.imp_right .inr
      · rintro (hx | rfl | hx)
        · exact .inl hx
        · exact .inl hy
        · exact .inr hx
    · rw [if_neg hy]
      obtain ⟨h1, h2⟩ := ih (nodup_append.2 ⟨h, nodup_singleton y, fun a ha b hb hab =>
        hy (by rwa [← mem_singleton.1 hb, ← hab])⟩)
      refine ⟨h1, fun x => (h2 x).trans ?_⟩
      rw [mem_append, mem_singleton, mem_cons, or_assoc]

/-- `nhood_set` marks the list. -/
def Marked (m : State) : Prop := ∀ x, m.nhoodSet x = true ↔ x ∈ m.finalNhood

theorem foldlM_rename {idmap l : List ℕ} (hl : ∀ x ∈ l, x < idmap.length) (hm : Marked m) :
    ∃ m', l.foldlM (State.rename idmap) m = some m' ∧ Marked m' ∧ m' =
      { m with
        nhoodSet := m'.nhoodSet
        finalNhood := addNew m.finalNhood (l.map fun j => idmap.getD j 0) } := by
  induction l generalizing m with
  | nil => exact ⟨m, rfl, hm, rfl⟩
  | cons x l ih =>
    have hx : idmap[x]? = some (idmap.getD x 0) := by
      have hlt := hl x mem_cons_self
      rw [getD_eq_getElem _ _ hlt, getElem?_eq_getElem hlt]
    set id := idmap.getD x 0 with hid
    obtain ⟨m1, h1, hm1, heq⟩ : ∃ m1, State.rename idmap m x = some m1 ∧ Marked m1 ∧ m1 =
        { m with
          nhoodSet := m1.nhoodSet
          finalNhood := if id ∈ m.finalNhood then m.finalNhood else m.finalNhood ++ [id] } := by
      rw [State.rename, hx, Option.map_some]
      by_cases hmem : id ∈ m.finalNhood
      · rw [if_neg (by rw [(hm id).2 hmem]; simp), if_pos hmem]
        exact ⟨m, rfl, hm, rfl⟩
      · have hfalse : m.nhoodSet id = false := Bool.eq_false_iff.2 fun ht => hmem ((hm id).1 ht)
        rw [if_pos hfalse, if_neg hmem]
        refine ⟨_, rfl, fun y => ?_, rfl⟩
        dsimp only
        by_cases hy : y = id
        · rw [hy]
          simp
        · rw [update_of_ne hy, hm y]
          simp [hy]
    obtain ⟨m2, h2, hm2, heq2⟩ := ih (fun y hy => hl y (mem_cons_of_mem x hy)) hm1
    refine ⟨m2, ?_, hm2, ?_⟩
    · rw [foldlM_cons, h1]
      exact h2
    · rw [heq2, heq]
      rfl

/-! ### One node -/

/-- A written list of a node. -/
structure Written (shards : List VamanaShard) (maxDegree i : ℕ) (l : List ℕ) : Prop where
  nodup : l.Nodup
  subset : ∀ x ∈ l, x ∈ unionNhood shards i
  length_eq : l.length = min maxDegree (unionNhood shards i).card

/-- The lists of the nodes before `i` are written. -/
structure Done (shards : List VamanaShard) (maxDegree i : ℕ) (m : State) : Prop where
  marked : Marked m
  size : m.mergedIndexSize = vamanaMetadataSize + 4 * m.words.length
  written : ∃ graph : List (List ℕ), m.words = encode graph ∧ graph.length = i ∧
    ∀ j l, graph[j]? = some l → Written shards maxDegree j l

/-- The list of node `i` is that of the first `k` shards. -/
structure Partial (shards : List VamanaShard) (maxDegree i k : ℕ) (m : State) : Prop
    extends Done shards maxDegree i m where
  curId : m.curId = i
  nhood : m.finalNhood = addNew [] ((shards.take k).flatMap fun s => s.nhood i)
  readers : ∀ j s, shards[j]? = some s →
    m.readers j = encode (if j < k then s.rest (i + 1) else s.rest i)

variable (σ) in
theorem Partial.step {s : VamanaShard} (h : Partial shards maxDegree i k m) (hs : shards[k]? = some s)
    (hmem : i ∈ s.idmap) : ∃ m', State.step σ (shards.map VamanaShard.shard) maxDegree m (i, k) =
      some m' ∧ Partial shards maxDegree i (k + 1) m' := by
  have hread : m.readers k = encode (s.localNhood i :: s.rest (i + 1)) := by
    rw [h.readers k s hs, if_neg (Nat.lt_irrefl k), s.rest_eq, if_pos hmem]
    rfl
  obtain ⟨m', hm', hmarked, heq⟩ := @foldlM_rename
    { m with readers := Function.update m.readers k (encode (s.rest (i + 1))) } s.idmap (s.localNhood i)
    (fun x hx => s.localNhood_lt i hx) h.marked
  refine ⟨m', ?_, ⟨hmarked, ?_, ?_⟩, ?_, ?_, fun j t ht => ?_⟩
  · rw [State.step]
    rw [if_neg (by rw [h.curId]; exact Nat.lt_irrefl i), getElem?_map, hs, hread, readRecord_encode]
    exact hm'
  · rw [heq]
    exact h.size
  · rw [heq]
    exact h.written
  · rw [heq]
    exact h.curId
  · have htake : shards.take (k + 1) = shards.take k ++ [s] := by
      rw [take_add_one, hs]
      rfl
    rw [heq, htake, flatMap_append, addNew_append, ← h.nhood, flatMap_singleton]
    rfl
  · rw [heq]
    dsimp only
    by_cases hj : j = k
    · subst hj
      rw [update_self, if_pos (Nat.lt_succ_self j)]
      rw [hs] at ht
      rw [Option.some.inj ht]
    · have hlt : j < k + 1 ↔ j < k := by omega
      rw [update_of_ne hj, h.readers j t ht]
      simp only [hlt]

theorem Partial.skip {s : VamanaShard} (h : Partial shards maxDegree i k m) (hs : shards[k]? = some s)
    (hmem : i ∉ s.idmap) : Partial shards maxDegree i (k + 1) m := by
  refine ⟨h.toDone, h.curId, ?_, fun j t ht => ?_⟩
  · have htake : shards.take (k + 1) = shards.take k ++ [s] := by
      rw [take_add_one, hs]
      rfl
    rw [htake, flatMap_append, flatMap_singleton, s.nhood_of_not_mem i hmem, append_nil]
    exact h.nhood
  · rw [h.readers j t ht]
    by_cases hj : j = k
    · subst hj
      rw [hs] at ht
      rw [← Option.some.inj ht, if_neg (Nat.lt_irrefl j), if_pos (Nat.lt_succ_self j), s.rest_eq,
        if_neg hmem, nil_append]
    · have hlt : j < k + 1 ↔ j < k := by omega
      simp only [hlt]

variable (σ) in
theorem Partial.foldlM (h : Partial shards maxDegree i 0 m) (hk : k ≤ shards.length) :
    ∃ m', (pairs shards i k).foldlM (State.step σ (shards.map VamanaShard.shard) maxDegree) m =
      some m' ∧ Partial shards maxDegree i k m' := by
  induction k with
  | zero => exact ⟨m, rfl, h⟩
  | succ k ih =>
    obtain ⟨m1, h1, hp⟩ := ih (Nat.le_of_succ_le hk)
    have hs : shards[k]? = some shards[k] := getElem?_eq_getElem hk
    have hpairs : pairs shards i (k + 1) =
        pairs shards i k ++ if i ∈ shards[k].idmap then [(i, k)] else [] := by
      rw [pairs, range_succ, filterMap_append, filterMap_cons, hs]
      by_cases hmem : i ∈ shards[k].idmap
      · simp [hmem, pairs]
      · simp [hmem, pairs]
    rw [hpairs, foldlM_append, h1]
    by_cases hmem : i ∈ shards[k].idmap
    · obtain ⟨m2, h2, hp2⟩ := hp.step σ hs hmem
      refine ⟨m2, ?_, hp2⟩
      rw [if_pos hmem]
      simp [h2]
    · rw [if_neg hmem]
      exact ⟨m1, rfl, hp.skip hs hmem⟩

variable (σ) in
theorem Partial.flush (h : Partial shards maxDegree i shards.length m) :
    Done shards maxDegree (i + 1) (m.flush σ maxDegree) ∧ (m.flush σ maxDegree).finalNhood = [] ∧
      (m.flush σ maxDegree).readers = m.readers := by
  obtain ⟨hnodup, hmem⟩ := @addNew_spec [] ((shards.take shards.length).flatMap fun s => s.nhood i)
    nodup_nil
  rw [← h.nhood] at hmem
  rw [← h.nhood] at hnodup
  have hperm := σ.perm m.shuffles m.finalNhood
  set final := σ.run m.shuffles m.finalNhood with hfinal
  have hmem' : ∀ x, x ∈ final ↔ x ∈ unionNhood shards i := by
    intro x
    rw [hperm.mem_iff, hmem, unionNhood]
    simp
  have hcard : final.length = (unionNhood shards i).card := by
    rw [← toFinset_card_of_nodup (hperm.nodup_iff.2 hnodup)]
    congr 1
    ext x
    rw [mem_toFinset, hmem']
  have hlen : (final.take (min final.length maxDegree)).length = min final.length maxDegree := by
    rw [List.length_take, Nat.min_eq_left (Nat.min_le_left ..)]
  have hset : ∀ (l : List ℕ) (set : ℕ → Bool) x,
      l.foldl (fun set p => Function.update set p false) set x = true ↔ set x = true ∧ x ∉ l := by
    intro l
    induction l with
    | nil => simp
    | cons p l ih =>
      intro set x
      rw [foldl_cons, ih]
      by_cases hx : x = p
      · simp [hx]
      · simp [hx]
  obtain ⟨graph, hwords, hglen, hgraph⟩ := h.written
  refine ⟨⟨fun x => ?_, ?_, graph ++ [final.take (min final.length maxDegree)], ?_, ?_,
    fun j l hl => ?_⟩, rfl, rfl⟩
  · simp only [State.flush, ← hfinal, hset, h.marked x, hperm.mem_iff, not_mem_nil, iff_false]
    exact fun hx => hx.2 hx.1
  · simp only [State.flush, ← hfinal, h.size, length_append, length_cons]
    omega
  · rw [encode_append, ← hwords]
    simp only [State.flush, ← hfinal, encode, flatMap_singleton, hlen]
  · rw [length_append, hglen, length_singleton]
  · by_cases hj : j < graph.length
    · rw [getElem?_append_left hj] at hl
      exact hgraph j l hl
    · rw [getElem?_append_right (Nat.le_of_not_lt hj)] at hl
      have hj0 : j - graph.length = 0 := by
        by_contra hne
        rw [getElem?_eq_none (by simp; omega)] at hl
        cases hl
      rw [hj0] at hl
      have hji : j = i := by omega
      rw [← Option.some.inj hl, hji]
      exact ⟨(hperm.nodup_iff.2 hnodup).sublist (take_sublist ..),
        fun x hx => (hmem' x).1 (mem_of_mem_take hx), by rw [hlen, hcard, Nat.min_comm]⟩

/-! ### All nodes -/

variable (σ) in
theorem Partial.next (h : Partial shards maxDegree i shards.length m)
    (hmem : ∃ s ∈ shards, i + 1 ∈ s.idmap) : ∃ m',
    (pairs shards (i + 1) shards.length).foldlM
      (State.step σ (shards.map VamanaShard.shard) maxDegree) m = some m' ∧
        Partial shards maxDegree (i + 1) shards.length m' := by
  obtain ⟨hdone, hnil, hreaders⟩ := h.flush σ
  set m1 : State := { m.flush σ maxDegree with curId := i + 1 } with hm1
  have hfresh : Partial shards maxDegree (i + 1) 0 m1 := by
    refine ⟨⟨hdone.marked, hdone.size, hdone.written⟩, rfl, hnil, fun j s hs => ?_⟩
    have hj : j < shards.length := (List.getElem?_eq_some_iff.1 hs).1
    have hread := h.readers j s hs
    rw [if_pos hj] at hread
    rw [if_neg (Nat.not_lt_zero j), ← hread]
    exact congrFun hreaders j
  obtain ⟨m2, h2, hp⟩ := hfresh.foldlM σ (Nat.le_refl shards.length)
  refine ⟨m2, ?_, hp⟩
  rw [← h2]
  have hne : pairs shards (i + 1) shards.length ≠ [] := by
    obtain ⟨s, hs, hi⟩ := hmem
    obtain ⟨j, hj, rfl⟩ := getElem_of_mem hs
    exact ne_nil_of_mem (mem_pairs.2
      (⟨rfl, hj, shards[j], getElem?_eq_getElem hj, hi⟩ : (i + 1, j).1 = i + 1 ∧ _))
  obtain ⟨p, ps, hps⟩ := exists_cons_of_ne_nil hne
  have hp1 : p.1 = i + 1 := (mem_pairs.1 (hps ▸ mem_cons_self : p ∈ pairs shards (i + 1) _)).1
  have hstep : State.step σ (shards.map VamanaShard.shard) maxDegree m p =
      State.step σ (shards.map VamanaShard.shard) maxDegree m1 p := by
    have hcur : m1.curId = i + 1 := rfl
    rw [State.step, State.step, h.curId, hp1, if_pos (Nat.lt_succ_self i),
      if_neg (Nat.lt_irrefl (i + 1))]
  rw [hps, foldlM_cons, foldlM_cons, hstep]

theorem foldlM_nodeShard (hcover : ∀ j ≤ i, ∃ s ∈ shards, j ∈ s.idmap)
    (h : Partial shards maxDegree 0 0 m) : ∃ m',
    ((List.range (i + 1)).flatMap fun i => pairs shards i shards.length).foldlM
      (State.step σ (shards.map VamanaShard.shard) maxDegree) m = some m' ∧
        Partial shards maxDegree i shards.length m' := by
  induction i with
  | zero =>
    obtain ⟨m1, h1, hp⟩ := h.foldlM σ (Nat.le_refl shards.length)
    exact ⟨m1, by simpa using h1, hp⟩
  | succ i ih =>
    obtain ⟨m1, h1, hp⟩ := ih fun j hj => hcover j (Nat.le_succ_of_le hj)
    obtain ⟨m2, h2, hp2⟩ := hp.next σ (hcover (i + 1) (Nat.le_refl _))
    refine ⟨m2, ?_, hp2⟩
    rw [range_succ, flatMap_append, foldlM_append, h1, flatMap_singleton]
    exact h2

/-- The ids of the shards are those below `n`. -/
def Covers (shards : List VamanaShard) (n : ℕ) : Prop := ∀ i, i < n ↔ ∃ s ∈ shards, i ∈ s.idmap

/-- The merged file is a graph of `n` nodes. -/
structure MergedOk (shards : List VamanaShard) (maxDegree n : ℕ) (file : VamanaFile) : Prop where
  load : ∃ graph, file.load = some graph ∧ graph.length = n ∧
    ∀ i l, graph[i]? = some l → Written shards maxDegree i l
  size : file.expectedFileSize = file.fileSize
  width : file.width = maxDegree

theorem mapM_medoids (shards : List VamanaShard) :
    (shards.map VamanaShard.shard).mapM (fun s => s.idmap[s.file.medoid]?) =
      some (shards.map fun s => s.idmap.getD s.medoid 0) := by
  induction shards with
  | nil => rfl
  | cons s shards ih =>
    have hs : s.shard.idmap[s.shard.file.medoid]? = some (s.idmap.getD s.medoid 0) := by
      rw [getD_eq_getElem _ _ s.medoid_lt]
      exact getElem?_eq_getElem s.medoid_lt
    rw [map_cons, mapM_cons, hs, ih]
    rfl

/-- The shards of a data set of `n` points are merged into a file with the graph of all points; the
header has the length of the file and the degree that no list exceeds. -/
theorem mergeShards_ok (σ : Shuffle) {shards : List VamanaShard} {n : ℕ} (maxDegree : ℕ)
    (hne : shards ≠ []) (hcover : Covers shards n) :
    ∃ file medoids, mergeShards σ (shards.map VamanaShard.shard) maxDegree = some (file, medoids) ∧
      MergedOk shards maxDegree n file := by
  -- a shard has a medoid, so there is a point
  obtain ⟨s0, hs0⟩ := exists_mem_of_ne_nil shards hne
  have hpos : 0 < n := by
    have hmem : s0.idmap.getD s0.medoid 0 ∈ s0.idmap := by
      rw [getD_eq_getElem _ _ s0.medoid_lt]
      exact getElem_mem _
    exact Nat.lt_of_le_of_lt (Nat.zero_le _) ((hcover _).2 ⟨s0, hs0, hmem⟩)
  obtain ⟨i, rfl⟩ : ∃ i, n = i + 1 := ⟨n - 1, by omega⟩
  set m0 : State :=
    { readers := fun shard => ((shards.map VamanaShard.shard)[shard]?.map fun s => s.file.words).getD []
      nhoodSet := fun _ => false
      finalNhood := []
      curId := 0
      mergedIndexSize := vamanaMetadataSize
      words := []
      shuffles := 0 } with hm0
  have hinit : Partial shards maxDegree 0 0 m0 := by
    refine ⟨⟨fun x => by simp [hm0], rfl, [], rfl, rfl, fun j l hl => by simp at hl⟩, rfl, rfl,
      fun j s hs => ?_⟩
    rw [if_neg (Nat.not_lt_zero j), s.rest_zero]
    simp only [hm0, getElem?_map, hs]
    rfl
  obtain ⟨m1, h1, hp⟩ := @foldlM_nodeShard σ _ maxDegree i _
    (fun j hj => (hcover j).1 (Nat.lt_succ_of_le hj)) hinit
  obtain ⟨hdone, -, -⟩ := hp.flush σ
  obtain ⟨graph, hwords, hlen, hwritten⟩ := hdone.written
  have hlast : ∃ medoid, (shards.map fun s => s.idmap.getD s.medoid 0).getLast? = some medoid :=
    ⟨_, getLast?_eq_some_getLast (by simpa using hne)⟩
  obtain ⟨medoid, hlast⟩ := hlast
  have heq : mergeShards σ (shards.map VamanaShard.shard) maxDegree =
      some ({ expectedFileSize := (m1.flush σ maxDegree).mergedIndexSize
              width := maxDegree
              medoid
              frozen := 0
              words := (m1.flush σ maxDegree).words }, shards.map fun s => s.idmap.getD s.medoid 0) := by
    rw [mergeShards, mapM_medoids, Option.bind_some, hlast, Option.bind_some, nodeShard_eq hcover, h1]
    rfl
  refine ⟨_, _, heq, ⟨graph, ?_, hlen, hwritten⟩, ?_, rfl⟩
  · have hsize : (m1.flush σ maxDegree).mergedIndexSize - vamanaMetadataSize =
        4 * (encode graph).length := by
      rw [hdone.size, Nat.add_sub_cancel_left, hwords]
    have hle : vamanaMetadataSize ≤ (m1.flush σ maxDegree).mergedIndexSize := by
      rw [hdone.size]
      exact Nat.le_add_right ..
    rw [VamanaFile.load, hsize, if_pos ⟨Nat.mul_mod_right 4 _, hle⟩, hwords,
      Nat.mul_div_cancel_left _ (by decide)]
    have hdecode := decode_encode graph 0
    rwa [Nat.zero_add] at hdecode
  · rw [hdone.size]
    rfl

/-- Two points that are each other's neighbours. -/
def pairShard (a b : ℕ) (h : a < b) : VamanaShard where
  idmap := [a, b]
  graph := [[1], [0]]
  medoid := 0
  width := 1
  ascending := by simpa using h
  length_eq := rfl
  nbr_lt := by simp
  medoid_lt := by simp

def noShuffle : Shuffle := ⟨fun _ l => l, fun _ l => List.Perm.refl l⟩

/-- The point `1` is in two shards, and one of its two neighbours is kept. -/
theorem mergeShards_overlap : ∃ file medoids,
    mergeShards noShuffle [(pairShard 0 1 (by decide)).shard, (pairShard 1 2 (by decide)).shard] 1 =
      some (file, medoids) ∧
      MergedOk [pairShard 0 1 (by decide), pairShard 1 2 (by decide)] 1 3 file := by
  have hne : [pairShard 0 1 (by decide), pairShard 1 2 (by decide)] ≠ [] := by simp
  refine mergeShards_ok noShuffle 1 hne fun i => ?_
  simp [pairShard]
  omega

/-- The header has the degree that is allowed, not the largest one: no list of this file has `64`
neighbours. -/
theorem merged_width_ne : ∃ file medoids graph,
    mergeShards noShuffle [(pairShard 0 1 (by decide)).shard] 64 = some (file, medoids) ∧
      file.load = some graph ∧ ∀ l ∈ graph, l.length ≠ file.width :=
  ⟨⟨40, 64, 0, 0, [1, 1, 1, 0]⟩, [0], [[1], [0]], rfl, decode_encode [[1], [0]] 0, by decide⟩

end DiskANNEval.AiSAQ.MergeShards
