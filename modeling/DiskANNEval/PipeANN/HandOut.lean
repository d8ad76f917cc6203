import DiskANNEval.PipeANN.MergeDeletes

/-!
# HandOut — the new ids of `merge_deletes`

The populate loop gives a surviving node its place in `handOut`.  Chunk by chunk the places follow
the locations (`le_idxOf_handOut`, `idxOf_handOut_lt`); within a chunk they follow the order in
which the loop runs.
-/

namespace DiskANNEval.PipeANN

open List Function Nat

/-! ### Loops over chunks of locations -/

variable {n : ℕ}

theorem locRange_append {step j : ℕ} : List.range (min n (j * step)) ++ locRange n step (j * step) =
      List.range (min n ((j + 1) * step)) := by
  have hj : (j + 1) * step = j * step + step := succ_mul ..
  rw [range_eq_range', range_eq_range', locRange]
  obtain h | h := Nat.le_total n (j * step)
  · have : min n (j * step + step) - j * step = 0 := by omega
    rw [this, range'_zero, append_nil, Nat.min_eq_left h, Nat.min_eq_left (by omega)]
  · rw [min_eq_right h]
    conv_lhs => rw [show range' (j * step) (min n (j * step + step) - j * step) =
      range' (0 + j * step) (min n (j * step + step) - j * step) by rw [zero_add]]
    rw [range'_append_1]
    congr 1
    omega

/-- The first `j` chunks, in any order within a chunk, are the locations below `j * step`. -/
theorem flatMap_chunks_perm {step : ℕ} {order : ℕ → List ℕ}
    (hperm : ∀ st, (order st).Perm (locRange n step st)) (j : ℕ) :
    ((range' 0 j step).flatMap order).Perm (List.range (min n (j * step))) := by
  induction j with
  | zero => simp
  | succ j ih =>
    rw [range'_concat, flatMap_append, mul_comm step j,
      ← locRange_append]
    exact ih.append (by simpa using hperm (j * step))

theorem length_filter_of_perm_range {l : List ℕ} (p : ℕ → Prop) [DecidablePred p]
    (h : l.Perm (List.range n)) : (l.filter p).length = Nat.count p n := by
  rw [(h.filter _).length_eq, ← countP_eq_length_filter]
  rfl

theorem chunk_lt {step loc : ℕ} (hstep : 0 < step) (h : loc < n) :
    loc / step < (n + step - 1) / step := by
  have h1 := div_mul_le_self loc step
  rw [lt_iff_add_one_le, le_div_iff_mul_le hstep, succ_mul]
  omega

theorem le_chunks_mul {step : ℕ} (hstep : 0 < step) : n ≤ (n + step - 1) / step * step := by
  have h := lt_div_mul_add hstep (a := n + step - 1)
  omega

theorem count_le_count_add {p : ℕ → Prop} [DecidablePred p] {a b d : ℕ} (h : b ≤ a + d) :
    Nat.count p b ≤ Nat.count p a + d :=
  calc Nat.count p b ≤ Nat.count p (a + d) := count_monotone p h
    _ = Nat.count p a + Nat.count (fun k => p (a + k)) d := count_add ..
    _ ≤ Nat.count p a + d := Nat.add_le_add_left (Nat.count_le _) _

namespace MergeDeletes

variable {T Tag : Type} [DecidableEq Tag] (m : MergeDeletes T Tag)

/-- The locations of the first `j` chunks, as the populate loop goes through them. -/
def populated (j : ℕ) : List ℕ := (List.range' 0 j locPerPopulate).flatMap m.populateOrder

omit [DecidableEq Tag] in
theorem populated_perm (j : ℕ) :
    (m.populated j).Perm (List.range (min m.index.curLoc (j * locPerPopulate))) :=
  flatMap_chunks_perm m.populate_perm j

omit [DecidableEq Tag] in
theorem populated_all_perm :
    ((locStarts m.index.curLoc locPerPopulate).flatMap m.populateOrder).Perm
      (List.range m.index.curLoc) := by
  have h := m.populated_perm ((m.index.curLoc + locPerPopulate - 1) / locPerPopulate)
  rwa [min_eq_left (le_chunks_mul (by decide))] at h

variable {loc id : ℕ}

theorem mem_handOut : loc ∈ m.handOut ↔ loc < m.index.curLoc ∧ m.Survives loc := by
  rw [handOut, mem_filter, m.populated_all_perm.mem_iff, List.mem_range, decide_eq_true_iff]

theorem nodup_handOut : m.handOut.Nodup :=
  (m.populated_all_perm.nodup_iff.2 nodup_range).filter _

theorem length_handOut : m.handOut.length = Nat.count m.Survives m.index.curLoc :=
  length_filter_of_perm_range _ m.populated_all_perm

theorem idxOf_handOut_inj {loc' : ℕ} (h : loc ∈ m.handOut)
    (he : m.handOut.idxOf loc = m.handOut.idxOf loc') : loc = loc' :=
  (idxOf_inj h).1 he

/-- A place is that of the chunk's first survivor and the place within the chunk. -/
theorem idxOf_handOut (h : loc ∈ m.handOut) : m.handOut.idxOf loc =
      Nat.count m.Survives (loc / locPerPopulate * locPerPopulate) +
        ((m.populateOrder (loc / locPerPopulate * locPerPopulate)).filter m.Survives).idxOf loc ∧
    loc ∈ (m.populateOrder (loc / locPerPopulate * locPerPopulate)).filter m.Survives := by
  obtain ⟨hlt, hs⟩ := m.mem_handOut.1 h
  set c := loc / locPerPopulate with hc
  have hc1 : c * locPerPopulate ≤ loc := div_mul_le_self ..
  have hc2 : loc < (c + 1) * locPerPopulate := by
    rw [succ_mul]
    exact lt_div_mul_add (by decide)
  have hcq := @chunk_lt _ locPerPopulate _ (by decide) hlt
  obtain ⟨q, hq⟩ := Nat.exists_eq_add_of_le (show c + 1 ≤ _ from hcq)
  -- the chunks before, the chunk of `loc`, and the rest
  have hsplit : m.handOut = (m.populated c).filter m.Survives ++
      ((m.populateOrder (c * locPerPopulate)).filter m.Survives ++
        ((range' ((c + 1) * locPerPopulate) q locPerPopulate).flatMap
          m.populateOrder).filter m.Survives) := by
    rw [handOut, locStarts, hq, ← filter_append, populated]
    rw [← range'_append, range'_concat]
    simp [mul_comm]
  have hmem : loc ∈ (m.populateOrder (c * locPerPopulate)).filter m.Survives := by
    rw [mem_filter, (m.populate_perm _).mem_iff, locRange, mem_range'_1,
      decide_eq_true_iff]
    rw [succ_mul] at hc2
    exact ⟨by omega, hs⟩
  have hnot : loc ∉ (m.populated c).filter m.Survives := by
    rw [mem_filter, (m.populated_perm c).mem_iff, List.mem_range]
    omega
  refine ⟨?_, hmem⟩
  rw [hsplit, idxOf_append_of_notMem hnot, idxOf_append_of_mem hmem,
    length_filter_of_perm_range _ (m.populated_perm c), Nat.min_eq_right (by omega)]

theorem le_idxOf_handOut (h : loc ∈ m.handOut) :
    Nat.count m.Survives (loc / locPerPopulate * locPerPopulate) ≤ m.handOut.idxOf loc := by
  rw [(m.idxOf_handOut h).1]
  exact Nat.le_add_right ..

theorem idxOf_handOut_lt (h : loc ∈ m.handOut) : m.handOut.idxOf loc <
      Nat.count m.Survives (min m.index.curLoc ((loc / locPerPopulate + 1) * locPerPopulate)) := by
  obtain ⟨heq, hmem⟩ := m.idxOf_handOut h
  have hlt := idxOf_lt_length_of_mem hmem
  have hperm := @locRange_append m.index.curLoc locPerPopulate (loc / locPerPopulate)
  have hle : loc / locPerPopulate * locPerPopulate ≤ m.index.curLoc :=
    (div_mul_le_self ..).trans (m.mem_handOut.1 h).1.le
  -- the survivors up to the end of the chunk are those before it and those of the chunk
  have hcount := length_filter_of_perm_range m.Survives (Perm.of_eq hperm)
  rw [filter_append, length_append, min_eq_right hle,
    length_filter_of_perm_range _ (Perm.refl _),
    ← ((m.populate_perm (loc / locPerPopulate * locPerPopulate)).filter _).length_eq] at hcount
  omega

/-! ### The populate loop -/

/-- What the populate loop has filled after the locations `ls`. -/
structure PopulatedOk (ls : List ℕ) (p : Populated) : Prop where
  newNpoints_eq : p.newNpoints = (ls.filter m.Survives).length
  idMap_eq : ∀ loc ∈ ls, ∀ id, m.index.loc2id loc = some id → ¬ m.isDeleted id →
    p.idMap id = some ((ls.filter m.Survives).idxOf loc)
  nhoods_eq : ∀ loc ∈ ls, ∀ id, m.index.loc2id loc = some id → m.isDeleted id →
    p.deletedNhoods id = some (m.sampledNhood (m.index.node loc))
  fresh : ∀ id, (∀ loc ∈ ls, m.index.loc2id loc ≠ some id) →
    p.idMap id = none ∧ p.deletedNhoods id = none

variable {m}

omit [DecidableEq Tag] in
theorem survives_of (h : m.index.loc2id loc = some id) : m.Survives loc ↔ ¬ m.isDeleted id := by
  simp [Survives, h]

theorem mapInsert_fresh {V : Type} {map : ℕ → Option V} {key : ℕ} (h : map key = none) (v : V) :
    mapInsert map key v = Function.update map key (some v) := by
  simp [mapInsert, h]

variable {ls : List ℕ}

theorem PopulatedOk.snoc {p p' : Populated} (h : m.PopulatedOk ls p)
    (hother : ∀ l ∈ ls, ∀ id, m.index.loc2id l = some id → m.index.loc2id loc ≠ some id)
    (hnew : loc ∉ ls) (hnpoints : p'.newNpoints = p.newNpoints + if m.Survives loc then 1 else 0)
    (hkeep : ∀ id, m.index.loc2id loc ≠ some id → p'.idMap id = p.idMap id ∧ p'.deletedNhoods id = p.deletedNhoods id)
    (hid : ∀ id, m.index.loc2id loc = some id → ¬ m.isDeleted id → p'.idMap id = some p.newNpoints)
    (hnhood : ∀ id, m.index.loc2id loc = some id → m.isDeleted id → p'.deletedNhoods id = some (m.sampledNhood (m.index.node loc))) :
    m.PopulatedOk (ls ++ [loc]) p' := by
  have hmem : ∀ l, l ∈ ls ++ [loc] ↔ l ∈ ls ∨ l = loc := by simp
  refine ⟨?_, ?_, ?_, fun id hf => ?_⟩
  · rw [hnpoints, h.newNpoints_eq]
    by_cases hs : m.Survives loc <;> simp [hs]
  · intro l hl id hl' hd
    have hs : m.Survives l := (survives_of hl').2 hd
    obtain hl | rfl := (hmem l).1 hl
    · rw [(hkeep id (hother l hl id hl')).1, h.idMap_eq l hl id hl' hd, filter_append,
        idxOf_append_of_mem (mem_filter.2 ⟨hl, by simpa using hs⟩)]
    · have hnot : l ∉ ls.filter m.Survives := fun hm => hnew (mem_filter.1 hm).1
      rw [hid id hl' hd, filter_append, idxOf_append_of_notMem hnot, h.newNpoints_eq]
      simp [hs]
  · intro l hl id hl' hd
    obtain hl | rfl := (hmem l).1 hl
    · rw [(hkeep id (hother l hl id hl')).2, h.nhoods_eq l hl id hl' hd]
    · exact hnhood id hl' hd
  · obtain ⟨h1, h2⟩ := hkeep id (hf loc (by simp))
    rw [h1, h2]
    exact h.fresh id fun l hl => hf l (by simp [hl])

theorem PopulatedOk.step {p : Populated} (h : m.PopulatedOk ls p)
    (hls : ∀ l ∈ ls, l < m.index.curLoc) (hloc : loc < m.index.curLoc) (hnew : loc ∉ ls) :
    m.PopulatedOk (ls ++ [loc]) (m.populateLoc p loc) := by
  -- no location before has the same id
  have hother : ∀ l ∈ ls, ∀ id, m.index.loc2id l = some id → m.index.loc2id loc ≠ some id :=
    fun l hl id hl' hid => hnew (m.index.loc2id_inj l (hls l hl) loc hloc id hl' hid ▸ hl)
  cases hid : m.index.loc2id loc with
  | none =>
    have hs : ¬ m.Survives loc := by simp [Survives, hid]
    have heq : m.populateLoc p loc = p := by rw [populateLoc, hid]
    rw [heq]
    exact h.snoc hother hnew (by simp [hs]) (fun _ _ => ⟨rfl, rfl⟩) (by simp [hid])
      (by simp [hid])
  | some id0 =>
    obtain ⟨hf1, hf2⟩ := h.fresh id0 fun l hl hl' => hother l hl id0 hl' hid
    have hne : ∀ id, m.index.loc2id loc ≠ some id → id ≠ id0 := by
      rintro id hn rfl
      exact hn hid
    by_cases hd0 : m.isDeleted id0
    · have hs : ¬ m.Survives loc := by simp [survives_of hid, hd0]
      have heq : m.populateLoc p loc = { p with
          deletedNhoods := Function.update p.deletedNhoods id0
            (some (m.sampledNhood (m.index.node loc))) } := by
        simp [populateLoc, hid, hd0, mapInsert_fresh hf2]
      rw [heq]
      refine h.snoc hother hnew (by simp [hs]) (fun id hn => ⟨rfl, ?_⟩) ?_ ?_
      · exact update_of_ne (hne id hn) ..
      · rintro id h1 hd
        rw [hid, Option.some.injEq] at h1
        exact absurd (h1 ▸ hd0) hd
      · rintro id h1 -
        rw [hid, Option.some.injEq] at h1
        exact h1 ▸ update_self ..
    · have hs : m.Survives loc := (survives_of hid).2 hd0
      have heq : m.populateLoc p loc = { p with
          newNpoints := p.newNpoints + 1
          idMap := Function.update p.idMap id0 (some p.newNpoints) } := by
        simp [populateLoc, hid, hd0, mapInsert_fresh hf1]
      rw [heq]
      refine h.snoc hother hnew (by simp [hs]) (fun id hn => ⟨?_, rfl⟩) ?_ ?_
      · exact update_of_ne (hne id hn) ..
      · rintro id h1 -
        rw [hid, Option.some.injEq] at h1
        exact h1 ▸ update_self ..
      · rintro id h1 hd
        rw [hid, Option.some.injEq] at h1
        exact absurd (h1 ▸ hd) hd0

theorem populatedOk_foldl (hls : ∀ l ∈ ls, l < m.index.curLoc) (hnd : ls.Nodup) :
    m.PopulatedOk ls (ls.foldl m.populateLoc ⟨0, fun _ => none, fun _ => none⟩) := by
  induction ls using reverseRecOn with
  | nil => exact ⟨rfl, by simp, by simp, by simp⟩
  | append_singleton ls loc ih =>
    rw [nodup_append] at hnd
    have hls' : ∀ l ∈ ls, l < m.index.curLoc := fun l hl => hls l (by simp [hl])
    rw [foldl_append]
    exact (ih hls' hnd.1).step hls' (hls loc (by simp)) fun h => hnd.2.2 loc h loc (by simp) rfl

variable (m)

theorem populatedOk_populate :
    m.PopulatedOk ((locStarts m.index.curLoc locPerPopulate).flatMap m.populateOrder)
      m.populate := by
  rw [populate, ← foldl_flatMap]
  refine populatedOk_foldl (fun l hl => ?_) (m.populated_all_perm.nodup_iff.2 nodup_range)
  rwa [m.populated_all_perm.mem_iff, List.mem_range] at hl

theorem newNpoints_populate : m.populate.newNpoints = m.handOut.length :=
  m.populatedOk_populate.newNpoints_eq

theorem idMap_populate (hloc : loc < m.index.curLoc) (hid : m.index.loc2id loc = some id)
    (hd : ¬ m.isDeleted id) : m.populate.idMap id = some (m.handOut.idxOf loc) :=
  m.populatedOk_populate.idMap_eq loc (by simpa [m.populated_all_perm.mem_iff]) id hid hd

theorem deletedNhoods_populate (hloc : loc < m.index.curLoc) (hid : m.index.loc2id loc = some id)
    (hd : m.isDeleted id) :
    m.populate.deletedNhoods id = some (m.sampledNhood (m.index.node loc)) :=
  m.populatedOk_populate.nhoods_eq loc (by simpa [m.populated_all_perm.mem_iff]) id hid hd

end MergeDeletes

end DiskANNEval.PipeANN
