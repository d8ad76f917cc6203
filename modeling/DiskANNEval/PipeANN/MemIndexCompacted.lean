import DiskANNEval.PipeANN.MemIndexRuns
import DiskANNEval.Lib.Packed

/-!
# MemIndexCompacted — the locations after `consolidate`

The tagged locations are numbered in their order, so no element is overwritten before it is moved
(`compact_eq`).  Afterwards the tagged locations are the first `_nd` ones, and lists name these only
(`lt_newNd_of_mem_compacted`); the lists behind them are empty.
-/

namespace DiskANNEval.PipeANN.MemIndex

open Lib List

variable {D Vec Tag : Type} {c : MemConfig D Vec Tag} {p : MemParams D} {s s' : MemIndex Vec Tag}
  {i n : ℕ} {t : Tag}

/-! ### The numbers of the tagged locations -/

theorem idMap_eq_some : s.idMap i = some n ↔
    i < s.maxPoints ∧ (s.locationToTag i).isSome = true ∧ s.newId i = n := by
  rw [idMap]
  split_ifs with h
  · rw [Option.some.injEq]
    exact ⟨fun hn => ⟨h.1, h.2, hn⟩, fun hn => hn.2.2⟩
  · exact iff_of_false (by simp) fun hn => h ⟨hn.1, hn.2.1⟩

theorem idMap_lt (h : s.idMap i = some n) : n < s.newNd := by
  obtain ⟨hi, htag, rfl⟩ := idMap_eq_some.1 h
  exact Nat.count_strict_mono htag hi

theorem idMap_inj {i' : ℕ} (h : s.idMap i = some n) (h' : s.idMap i' = some n) : i = i' := by
  obtain ⟨-, htag, hn⟩ := idMap_eq_some.1 h
  obtain ⟨-, htag', hn'⟩ := idMap_eq_some.1 h'
  exact Nat.count_injective htag htag' (hn.trans hn'.symm)

theorem exists_idMap (h : n < s.newNd) : ∃ i, s.idMap i = some n := by
  obtain ⟨i, hi, htag, hn⟩ := exists_count_eq h
  exact ⟨i, idMap_eq_some.2 ⟨hi, htag, hn⟩⟩

theorem newNd_le : s.newNd ≤ s.maxPoints := Nat.count_le _

theorem moveElement_eq {α : Type} (a : ℕ → α) (hi : i < s.maxPoints) :
    s.moveElement a i = packStep (fun j => (s.locationToTag j).isSome = true) a i := by
  unfold moveElement packStep idMap
  by_cases htag : (s.locationToTag i).isSome = true
  · rw [if_pos ⟨hi, htag⟩]
    dsimp only
    split_ifs with hn
    · rw [newId] at hn
      rw [hn, Function.update_eq_self]
    · rfl
  · rw [if_neg fun h => htag h.2, if_neg htag]

theorem compact_eq {α : Type} (a : ℕ → α) (h : s.idMap i = some n) : s.compact a n = a i := by
  obtain ⟨hi, htag, rfl⟩ := idMap_eq_some.1 h
  have hpacked : s.compact a = packed (fun j => (s.locationToTag j).isSome = true) s.maxPoints a :=
    foldl_ext _ _ _ fun b j hj => moveElement_eq b (List.mem_range.1 hj)
  rw [hpacked]
  exact packed_count a hi htag

/-! ### The new lists -/

theorem isSome_of_mem_nbrSet {id : ℕ} (h : n ∈ s.nbrSet c id) : (s.idMap n).isSome = true := by
  rw [nbrSet, (c.setOrder_perm _).mem_iff, mem_dedup, mem_flatMap] at h
  obtain ⟨nbr, -, hn⟩ := h
  split_ifs at hn with hnbr
  · rwa [mem_singleton.1 hn]
  · have hn' := (mem_filter.1 hn).2
    rw [decide_eq_true_eq] at hn'
    exact hn'.1

theorem lt_newNd_of_mem_newNbrs {id : ℕ} (h : n ∈ s.newNbrs c p id) : n < s.newNd := by
  obtain ⟨old, hold, rfl⟩ := mem_map.1 h
  have hset : old ∈ s.nbrSet c id := by
    split_ifs at hold
    · refine (mem_pruneNeighbors hold).elim (fun hmem => hmem) fun hmem => ?_
      rw [map_map] at hmem
      obtain ⟨x, hx, rfl⟩ := mem_map.1 hmem
      exact hx
    · exact hold
  obtain ⟨new, hnew⟩ := Option.isSome_iff_exists.1 (isSome_of_mem_nbrSet hset)
  rw [hnew]
  exact idMap_lt hnew

section Compacted

variable [DecidableEq Tag]

theorem lt_newNd_of_mem_compacted (h : n ∈ (s.compacted c p).finalGraph i) : i < s.newNd ∧ n < s.newNd := by
  have h' : n ∈ if i < s.newNd then s.compact (s.updatedGraph c p) i else [] := h
  split_ifs at h' with hi
  · obtain ⟨old, hold⟩ := exists_idMap hi
    rw [compact_eq _ hold, updatedGraph, if_pos (by rw [hold]; rfl)] at h'
    exact ⟨hi, lt_newNd_of_mem_newNbrs h'⟩
  · exact absurd h' not_mem_nil

/-! ### Tags -/

theorem tagToLocation_compacted : (s.compacted c p).tagToLocation t = some n ↔
    ∃ i, s.tagToLocation t = some i ∧ s.idMap i = some n :=
  Option.bind_eq_some_iff

theorem locationToTag_compacted (h : s.Inv) : (s.compacted c p).locationToTag n = some t ↔
    ∃ i, s.tagToLocation t = some i ∧ s.idMap i = some n := by
  show s.newTag n = some t ↔ _
  have hfind : ∀ {i}, s.idMap i = some n →
      (List.range s.maxPoints).find? (fun old => s.idMap old = some n) = some i := by
    intro i hi
    cases hf : (List.range s.maxPoints).find? fun old => s.idMap old = some n with
    | none =>
      have hlt := (idMap_eq_some.1 hi).1
      have hnot := find?_eq_none.1 hf i (List.mem_range.2 hlt)
      simp [hi] at hnot
    | some i' =>
      have hi' : s.idMap i' = some n := by simpa using find?_some hf
      rw [idMap_inj hi hi']
  constructor
  · intro hn
    obtain ⟨i, hi, hn⟩ := Option.bind_eq_some_iff.1 hn
    obtain ⟨t', ht', hn⟩ := Option.bind_eq_some_iff.1 hn
    have hid : s.idMap i = some n := by simpa using find?_some hi
    split_ifs at hn with hloc
    cases hn
    exact ⟨i, hloc, hid⟩
  · rintro ⟨i, hloc, hi⟩
    rw [newTag, hfind hi, Option.bind_eq_bind, Option.bind_some, (h.tagged i t).2 hloc,
      Option.bind_eq_bind, Option.bind_some, if_pos hloc]

theorem Inv.isSome_compacted (h : s.Inv) :
    ((s.compacted c p).locationToTag n).isSome = true ↔ n < s.newNd := by
  constructor
  · intro hn
    obtain ⟨t, ht⟩ := Option.isSome_iff_exists.1 hn
    obtain ⟨i, -, hi⟩ := (locationToTag_compacted h).1 ht
    exact idMap_lt hi
  · intro hn
    obtain ⟨i, hi⟩ := exists_idMap hn
    obtain ⟨t, ht⟩ := Option.isSome_iff_exists.1 (idMap_eq_some.1 hi).2.1
    rw [(locationToTag_compacted h).2 ⟨i, (h.tagged i t).1 ht, hi⟩]
    rfl

theorem Inv.compacted (h : s.Inv) : (s.compacted c p).Inv := by
  have hle := newNd_le (s := s)
  refine ⟨fun i t => ?_, fun i t hi => ?_, fun i hi => ?_, fun i hi => ?_, fun i hi => ?_, ?_, ?_, h.ep⟩
  · rw [locationToTag_compacted h, tagToLocation_compacted]
  · have hlt : i < s.newNd := h.isSome_compacted.1 (by rw [hi]; rfl)
    exact hlt.trans_le hle
  · rw [h.isSome_compacted]
    show i ∈ Finset.Ico s.newNd s.maxPoints ∨ _
    rw [Finset.mem_Ico]
    have hi' : i < s.maxPoints := hi
    by_cases hn : i < s.newNd
    · exact .inr (.inr hn)
    · exact .inl ⟨Nat.not_lt.1 hn, hi'⟩
  · obtain ⟨h1, h2⟩ := Finset.mem_Ico.1 hi
    refine ⟨h2, Finset.notMem_empty i, ?_⟩
    rw [← Option.not_isSome_iff_eq_none, h.isSome_compacted]
    exact Nat.not_lt.2 h1
  · exact absurd hi (Finset.notMem_empty i)
  · show s.newNd + (Finset.Ico s.newNd s.maxPoints).card = s.maxPoints
    rw [Nat.card_Ico]
    omega
  · intro i n hn
    exact (lt_newNd_of_mem_compacted hn).2.trans_le hle

end Compacted

/-! ### The new entry point -/

variable [LinearOrder D] [Zero D]

theorem exists_search {P : ℕ → Prop} (hep : P s.ep)
    (hP : ∀ id, P id → id < s.maxPoints ∧ ∀ n ∈ s.finalGraph id, P n) (query : Vec) {L : ℕ}
    (hL : 0 < L) : ∃ id, s.search c query 1 L hL = some [id] ∧ P id := by
  obtain ⟨r, hr, hok⟩ := @FixedPoint.exists_iterateToFixedPoint _ _ _
    (s.searchGraph c (c.normalize query) L hL) P c.maxDist s.ep hep hP
  have hpos := hok.pos
  have hlen : 0 < r.pool.length := by
    rw [hok.length]
    omega
  obtain ⟨nn, pool, hpool⟩ := exists_cons_of_length_pos hlen
  have hmem : nn ∈ r.cands := by
    rw [FixedPoint.State.cands, hpool]
    obtain ⟨l, hl⟩ := Nat.exists_eq_succ_of_ne_zero hpos.ne'
    rw [hl]
    exact mem_cons_self
  have hnn := (hok.cands nn hmem).1
  refine ⟨nn.id, ?_, hnn⟩
  rw [search, hr, Option.map_some, hpool, filter_cons_of_pos (by simpa using (hP nn.id hnn).1)]
  rfl

end DiskANNEval.PipeANN.MemIndex
