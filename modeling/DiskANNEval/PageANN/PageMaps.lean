import DiskANNEval.PageANN.MergedPages

/-!
# PageMaps — the maps of the ids, and the number of hops

The new id of a node is its place in the pages one after the other, where the first `npts` ids are
the nodes and the rest are copies.  With that `mergeNodesIntoPage` returns what it should, whenever
it returns; it returns exactly when the powers of `R` get to 500 in a `uint32_t`, or there are too
many nodes for the test.
-/

namespace DiskANNEval.PageANN

open Lib List Option Function Nat

variable {D : Type} {m : MergeNodes D}

/-! ### Slots -/

variable {α : Type*}

variable {n : ℕ}

theorem length_flatten_pages {pages : List (List α)} (h : ∀ page ∈ pages, page.length = n) :
    pages.flatten.length = pages.length * n := by
  rw [length_flatten, map_congr_left h, map_const', sum_replicate, smul_eq_mul]

theorem getElem?_flatten_pages {pages : List (List α)} (h : ∀ page ∈ pages, page.length = n)
    {p j : ℕ} {page : List α} (hp : pages[p]? = some page) (hj : j < n) :
    pages.flatten[p * n + j]? = page[j]? := by
  induction pages generalizing p with
  | nil => cases hp
  | cons first pages ih =>
    have hfirst := h first mem_cons_self
    rw [flatten_cons]
    cases p with
    | zero =>
      obtain rfl : first = page := Option.some.inj hp
      rw [zero_mul, zero_add, getElem?_append_left (by omega)]
    | succ p =>
      rw [succ_mul, getElem?_append_right (by omega), hfirst,
        show p * n + n + j - n = p * n + j by omega]
      exact ih (fun page hp => h page (mem_cons_of_mem _ hp)) hp

/-! ### The maps of the ids -/

/-- The maps agree on the ids that are mapped. -/
def Mapped (x : (ℕ → ℕ) × List ℕ) : Prop :=
  x.2.Nodup ∧ ∀ k id, x.2[k]? = some id → x.1 id = k

variable {x : (ℕ → ℕ) × List ℕ}

theorem Mapped.mapId (h : Mapped x) {id : ℕ} (hid : id ∉ x.2) (hlen : x.2.length < m.npts) :
    Mapped (m.mapId x id) ∧ (m.mapId x id).2 = x.2 ++ [id] := by
  rw [MergeNodes.mapId, if_neg (by omega)]
  refine ⟨⟨?_, fun k i hk => ?_⟩, rfl⟩
  · refine nodup_append'.2 ⟨h.1, nodup_singleton id, fun i hi hi' => ?_⟩
    rw [mem_singleton] at hi'
    exact hid (hi' ▸ hi)
  · show Function.update x.1 id x.2.length i = k
    have hk' : (x.2 ++ [id])[k]? = some i := hk
    obtain hlt | rfl | hgt := Nat.lt_trichotomy k x.2.length
    · rw [getElem?_append_left hlt] at hk'
      rw [update_of_ne fun he => hid (by rw [← he]; exact mem_of_getElem? hk')]
      exact h.2 k i hk'
    · rw [getElem?_concat_length] at hk'
      rw [Option.some.inj hk', update_self]
    · rw [getElem?_eq_none (by rw [length_append, length_singleton]; omega)] at hk'
      cases hk'

variable {ids : List ℕ}

theorem Mapped.foldl (h : Mapped x) (hids : (x.2 ++ ids).Nodup)
    (hlen : (x.2 ++ ids).length ≤ m.npts) :
    Mapped (ids.foldl m.mapId x) ∧ (ids.foldl m.mapId x).2 = x.2 ++ ids := by
  induction ids generalizing x with
  | nil => exact ⟨h, (append_nil _).symm⟩
  | cons id ids ih =>
    have happ : x.2 ++ id :: ids = (x.2 ++ [id]) ++ ids := append_cons _ _ _
    have hid : id ∉ x.2 := fun hmem =>
      (nodup_append'.1 hids).2.2 hmem mem_cons_self
    rw [length_append, length_cons] at hlen
    obtain ⟨h₁, h₂⟩ := h.mapId (m := m) hid (by omega)
    rw [happ] at hids ⊢
    rw [← h₂] at hids ⊢
    refine ih h₁ hids ?_
    rw [h₂, length_append, length_append, length_singleton]
    omega

theorem foldl_mapId_of_le (hlen : m.npts ≤ x.2.length) : ids.foldl m.mapId x = x := by
  induction ids with
  | nil => rfl
  | cons id ids ih =>
    rw [foldl_cons, MergeNodes.mapId, if_pos hlen]
    exact ih

theorem idMaps_spec {mergedNodes : List (List ℕ)} {padding : List ℕ}
    (hflat : mergedNodes.flatten = ids ++ padding) (hids : ids.Nodup) (hlen : ids.length = m.npts) :
    (m.idMaps mergedNodes).2 = ids ∧ ∀ k id, ids[k]? = some id → (m.idMaps mergedNodes).1 id = k := by
  have hstart : Mapped ((fun _ => uint32Max, []) : (ℕ → ℕ) × List ℕ) :=
    ⟨nodup_nil, fun k id hk => nomatch hk⟩
  obtain ⟨h₁, h₂⟩ := hstart.foldl hids hlen.le
  rw [nil_append] at h₂
  rw [MergeNodes.idMaps, hflat, foldl_append, foldl_mapId_of_le (by rw [h₂, hlen])]
  exact ⟨h₂, fun k id hk => h₁.2 k id (by rw [h₂]; exact hk)⟩

/-! ### What is returned -/

/-- The pages take the nodes in and the maps number their slots. -/
structure MergedPages.Ok (m : MergeNodes D) (r : MergedPages) : Prop where
  count : r.mergedNodes.length = (m.npts + m.nnodesPerSector - 1) / m.nnodesPerSector
  slots : ∀ page ∈ r.mergedNodes, page.length = m.nnodesPerSector
  once : ∃ pages last, r.mergedNodes = pages ++
      [last ++ List.replicate (m.nnodesPerSector - last.length) (last.headD 0)] ∧
    last ≠ [] ∧ (pages.flatten ++ last).Nodup ∧ ∀ id, id ∈ pages.flatten ++ last ↔ id < m.npts
  page : ∀ p page, r.mergedNodes[p]? = some page → ∀ id ∈ page, r.nodeToPage id = p
  inverse : ∀ id < m.npts, r.newToOriginal[r.originalToNew id]? = some id
  inverse' : ∀ k id, r.newToOriginal[k]? = some id → id < m.npts ∧ r.originalToNew id = k
  length : r.newToOriginal.length = m.npts
  slot : ∀ id < m.npts, ∃ page slot, r.mergedNodes[r.nodeToPage id]? = some page ∧
    page[slot]? = some id ∧ r.originalToNew id = r.nodeToPage id * m.nnodesPerSector + slot

variable {s : Merging} {pages : List (List ℕ)} {grouped : List ℕ}

theorem Finished.length_ids (h : Finished m s pages grouped) :
    (pages.flatten ++ grouped).length = m.npts := by
  have hcount := h.filling.count
  rwa [h.count, zero_add] at hcount

theorem Finished.mem_ids (h : Finished m s pages grouped) (id : ℕ) :
    id ∈ pages.flatten ++ grouped ↔ id < m.npts := by
  refine ⟨fun hid => ((h.filling.mem id).1 hid).1, fun hid => ?_⟩
  have hsub : pages.flatten ++ grouped ⊆ List.range m.npts := fun i hi =>
    List.mem_range.2 ((h.filling.mem i).1 hi).1
  have hperm := (h.filling.nodup.subperm hsub).perm_of_length_le
    (by rw [length_range, h.length_ids])
  exact hperm.mem_iff.2 (List.mem_range.2 hid)

theorem Finished.slots (h : Finished m s pages grouped) :
    ∀ page ∈ s.mergedNodes, page.length = m.nnodesPerSector := by
  intro page hp
  rw [h.pages] at hp
  obtain hp | hp := mem_append.1 hp
  · exact h.full page hp
  · have hle := h.le
    rw [mem_singleton.1 hp, length_append, length_replicate]
    omega

theorem Finished.length_pages (h : Finished m s pages grouped) :
    s.mergedNodes.length = (m.npts + m.nnodesPerSector - 1) / m.nnodesPerSector := by
  have hids := h.length_ids
  have hpos := h.pos
  have hle := h.le
  rw [length_append, length_flatten_pages h.full] at hids
  rw [h.pages, length_append, length_singleton, eq_comm]
  apply Nat.div_eq_of_lt_le
  · rw [succ_mul]
    omega
  · rw [succ_mul, succ_mul]
    omega

theorem Finished.flatten (h : Finished m s pages grouped) :
    s.mergedNodes.flatten = (pages.flatten ++ grouped) ++
      replicate (m.nnodesPerSector - grouped.length) (grouped.headD 0) := by
  rw [h.pages, flatten_append, flatten_singleton, append_assoc]

theorem Finished.nodeToPage (h : Finished m s pages grouped) {p : ℕ} {page : List ℕ}
    (hp : s.mergedNodes[p]? = some page) {id : ℕ} (hid : id ∈ page) : s.nodeToPage id = p := by
  rw [h.pages] at hp
  by_cases hlt : p < pages.length
  · rw [getElem?_append_left hlt] at hp
    exact h.filling.page p page hp id hid
  · obtain ⟨hlen, -⟩ := List.getElem?_eq_some_iff.1 hp
    rw [length_append, length_singleton] at hlen
    obtain rfl : p = pages.length := by omega
    rw [getElem?_concat_length] at hp
    cases hp
    obtain hid | hid := mem_append.1 hid
    · exact h.filling.grouped id hid
    · -- a copy of the first node of the page
      rw [(mem_replicate.1 hid).2]
      obtain ⟨first, rest, rfl⟩ := exists_cons_of_length_pos h.pos
      exact h.filling.grouped first mem_cons_self

theorem Finished.ok (h : Finished m s pages grouped) :
    MergedPages.Ok m ⟨s.mergedNodes, s.nodeToPage, (m.idMaps s.mergedNodes).1,
      (m.idMaps s.mergedNodes).2⟩ := by
  obtain ⟨hnew, hold⟩ := idMaps_spec h.flatten h.filling.nodup h.length_ids
  have hinv : ∀ id < m.npts, (pages.flatten ++ grouped)[(m.idMaps s.mergedNodes).1 id]? = some id := by
    intro id hid
    obtain ⟨k, hk⟩ := mem_iff_getElem?.1 ((h.mem_ids id).2 hid)
    rw [hold k id hk]
    exact hk
  have hne : grouped ≠ [] := ne_nil_of_length_pos h.pos
  refine ⟨h.length_pages, h.slots, ⟨pages, grouped, h.pages, hne, h.filling.nodup, h.mem_ids⟩,
    fun p page hp id => h.nodeToPage hp, ?_, ?_, ?_, ?_⟩
  · intro id hid
    show (m.idMaps s.mergedNodes).2[(m.idMaps s.mergedNodes).1 id]? = some id
    rw [hnew]
    exact hinv id hid
  · intro k id hk
    have hk' : (pages.flatten ++ grouped)[k]? = some id := by
      rw [← hnew]
      exact hk
    exact ⟨(h.mem_ids id).1 (mem_of_getElem? hk'), hold k id hk'⟩
  · show (m.idMaps s.mergedNodes).2.length = m.npts
    rw [hnew, h.length_ids]
  · intro id hid
    have hnn := m.nnodes_pos
    set k := (m.idMaps s.mergedNodes).1 id with hk
    have hget := hinv id hid
    have hlt : k < (pages.flatten ++ grouped).length := (List.getElem?_eq_some_iff.1 hget).1
    have hflat : s.mergedNodes.flatten[k]? = some id := by
      rw [h.flatten, getElem?_append_left hlt]
      exact hget
    have hpage : k / m.nnodesPerSector < s.mergedNodes.length := by
      apply Nat.div_lt_of_lt_mul
      rw [mul_comm, ← length_flatten_pages h.slots]
      exact (List.getElem?_eq_some_iff.1 hflat).1
    obtain ⟨page, hp⟩ : ∃ page, s.mergedNodes[k / m.nnodesPerSector]? = some page :=
      ⟨_, getElem?_eq_getElem hpage⟩
    have hslot := getElem?_flatten_pages h.slots hp (mod_lt k hnn)
    rw [mul_comm, div_add_mod, hflat] at hslot
    have hpid : s.nodeToPage id = k / m.nnodesPerSector :=
      h.nodeToPage hp (mem_of_getElem? hslot.symm)
    refine ⟨page, k % m.nnodesPerSector, ?_, hslot.symm, ?_⟩
    · show s.mergedNodes[s.nodeToPage id]? = some page
      rw [hpid]
      exact hp
    · show k = s.nodeToPage id * m.nnodesPerSector + k % m.nnodesPerSector
      rw [hpid, mul_comm, div_add_mod]

/-! ### Whatever the fuel is -/

theorem mergePage_mono {hops fuel fuel' : ℕ} (hle : fuel ≤ fuel') (s s' : Merging)
    (h : m.mergePage hops fuel s = some s') : m.mergePage hops fuel' s = some s' := by
  unfold MergeNodes.mergePage at h ⊢
  split_ifs at h ⊢
  · obtain ⟨g, hg, h⟩ := bind_eq_some_iff.1 h
    exact bind_eq_some_iff.2 ⟨g, whileM_mono hle hg, h⟩
  · obtain ⟨g, hg, h⟩ := bind_eq_some_iff.1 h
    exact bind_eq_some_iff.2 ⟨g, whileM_mono hle hg, h⟩

theorem ok_of_mergeNodesIntoPage {fuel : ℕ} {r : MergedPages}
    (h : m.mergeNodesIntoPage fuel = some r) : MergedPages.Ok m r := by
  obtain ⟨hops, hhops, h⟩ := bind_eq_some_iff.1 h
  obtain ⟨s, hs, h⟩ := bind_eq_some_iff.1 h
  cases h
  obtain ⟨s', pages, grouped, hs', hfin⟩ := exists_mergePages m hops
    (le_add_left (m.npts + m.nnodesPerSector) fuel)
  have hle : fuel ≤ fuel + (m.npts + m.nnodesPerSector) := le_add_right _ _
  have hsame := whileM_le (mergePage_mono hle) hle hs
  obtain rfl := Option.some.inj (hs'.symm.trans hsame)
  exact hfin.ok

/-! ### The number of hops -/

theorem exists_pow_between {r : ℕ} (h : 2 ≤ r) (h' : r < 500) :
    ∃ j, 500 ≤ r ^ j ∧ r ^ j < 2 ^ 32 := by
  have hlow := pow_pred_clog_lt_self h (by norm_num : 1 < 500)
  have hpos := clog_pos h (by norm_num : 2 ≤ 500)
  refine ⟨clog r 500, le_pow_clog h 500, ?_⟩
  calc r ^ clog r 500 = r ^ ((clog r 500).pred + 1) := by
        rw [← succ_eq_add_one, succ_pred_eq_of_pos hpos]
    _ ≤ 500 * 500 := Nat.mul_le_mul hlow.le h'.le
    _ < 2 ^ 32 := by norm_num

theorem exists_pow_mod_iff {R : ℕ} (hpos : 0 < R) (hlt : R < 2 ^ 32) :
    (∃ k, 500 ≤ R ^ (k + 2) % 2 ^ 32) ↔ R ≠ 1 ∧ ¬ 2 ^ 16 ∣ R := by
  constructor
  · rintro ⟨k, hk⟩
    constructor
    · rintro rfl
      norm_num at hk
    · intro hdvd
      have h0 : 2 ^ 32 ∣ R ^ (k + 2) := by
        rw [pow_add]
        exact Dvd.dvd.mul_left (by simpa [← pow_mul] using pow_dvd_pow_of_dvd hdvd 2) _
      rw [mod_eq_zero_of_dvd h0] at hk
      norm_num at hk
  · rintro ⟨hone, hdvd⟩
    have hr0 : R ^ 2 % 2 ^ 32 ≠ 0 := by
      intro h0
      apply hdvd
      rw [← Nat.pow_dvd_pow_iff (two_ne_zero)]
      exact dvd_of_mod_eq_zero h0
    by_cases hbig : 500 ≤ R ^ 2 % 2 ^ 32
    · exact ⟨0, hbig⟩
    by_cases hr1 : R ^ 2 % 2 ^ 32 = 1
    · -- the third power is `R`, which is not small
      refine ⟨1, ?_⟩
      rw [pow_succ, mul_mod, hr1, one_mul, mod_mod, mod_eq_of_lt hlt]
      by_contra hsmall
      have hsq : R ^ 2 < 2 ^ 32 := by nlinarith
      rw [mod_eq_of_lt hsq] at hr1
      exact hone (by nlinarith)
    · obtain ⟨j, hj, hj'⟩ := exists_pow_between (r := R ^ 2 % 2 ^ 32) (by omega) (by omega)
      have hj0 : j ≠ 0 := by
        rintro rfl
        rw [pow_zero] at hj
        omega
      refine ⟨2 * j - 2, ?_⟩
      rw [show 2 * j - 2 + 2 = 2 * j by omega, pow_mul, pow_mod, mod_eq_of_lt hj']
      exact hj

theorem iterate_hops (m : MergeNodes D) (k : ℕ) :
    ((fun x : ℕ × ℕ => (x.1 * m.R % 2 ^ 32, x.2 + 1))^[k] (m.R * m.R % 2 ^ 32, 2)).1 =
      m.R ^ (k + 2) % 2 ^ 32 := by
  induction k with
  | zero => rw [iterate_zero_apply, sq]
  | succ k ih =>
    rw [iterate_succ_apply', ih, mod_mul_mod, ← pow_succ]

theorem exists_numHops_iff (m : MergeNodes D) :
    (∃ fuel, (m.numHops fuel).isSome) ↔ 1000000000 ≤ m.npts ∨ (m.R ≠ 1 ∧ ¬ 2 ^ 16 ∣ m.R) := by
  simp only [MergeNodes.numHops, isSome_map]
  rw [exists_whileM_iff, ← exists_pow_mod_iff m.R_pos m.R_lt]
  simp only [Bool.and_eq_false_iff, decide_eq_false_iff_not, not_lt, iterate_hops]
  constructor
  · rintro ⟨k, hk | hn⟩
    · exact Or.inr ⟨k, hk⟩
    · exact Or.inl hn
  · rintro (hn | ⟨k, hk⟩)
    · exact ⟨0, Or.inr hn⟩
    · exact ⟨k, Or.inl hk⟩

theorem numHops_mono {n' : ℕ} (hn : n ≤ n') {hops : ℕ} (h : m.numHops n = some hops) :
    m.numHops n' = some hops := by
  obtain ⟨x, hx, rfl⟩ := map_eq_some_iff.1 h
  rw [MergeNodes.numHops, whileM_mono hn hx]
  rfl

/-- `mergeNodesIntoPage` returns, and then as it should, exactly when the number of hops is found. -/
theorem exists_mergeNodesIntoPage_iff (m : MergeNodes D) :
    (∃ fuel r, m.mergeNodesIntoPage fuel = some r ∧ MergedPages.Ok m r) ↔
      1000000000 ≤ m.npts ∨ (m.R ≠ 1 ∧ ¬ 2 ^ 16 ∣ m.R) := by
  rw [← exists_numHops_iff]
  constructor
  · rintro ⟨fuel, r, hr, -⟩
    refine ⟨fuel, ?_⟩
    obtain ⟨hops, hhops, -⟩ := bind_eq_some_iff.1 hr
    rw [hhops]
    rfl
  · rintro ⟨n, hn⟩
    obtain ⟨hops, hhops⟩ := isSome_iff_exists.1 hn
    obtain ⟨s, pages, grouped, hs, hfin⟩ := exists_mergePages m hops
      (le_add_left (m.npts + m.nnodesPerSector) n)
    refine ⟨n + (m.npts + m.nnodesPerSector), _, ?_, hfin.ok⟩
    rw [MergeNodes.mergeNodesIntoPage, numHops_mono (le_add_right _ _) hhops]
    show Option.bind (whileM _ _ _ _) _ = _
    rw [hs]
    rfl

/-- One node without neighbours, `R = 1`. -/
def oneNode : MergeNodes ℕ where
  npts := 1
  npts_pos := Nat.one_pos
  npts_lt := by norm_num
  nnodesPerSector := 1
  nnodes_pos := Nat.one_pos
  R := 1
  R_pos := Nat.one_pos
  R_lt := by norm_num
  nbrs _ := []
  nbrs_lt _ _ h := nomatch h
  dist _ _ := 0
  setOrder l := l
  setOrder_perm _ := List.Perm.refl _
  sort l := l
  sort_perm _ := List.Perm.refl _

/-- The powers of `1` stay below 500. -/
theorem oneNode_does_not_return : ¬ ∃ fuel, (oneNode.mergeNodesIntoPage fuel).isSome := by
  rintro ⟨fuel, hsome⟩
  have hno : ¬ ∃ fuel, (oneNode.numHops fuel).isSome := by
    rw [exists_numHops_iff]
    rintro (hn | ⟨hone, -⟩)
    · exact absurd hn (by show ¬ 1000000000 ≤ 1; norm_num)
    · exact hone rfl
  have hnone : oneNode.numHops fuel = none := by
    by_contra hne
    exact hno ⟨fuel, isSome_iff_ne_none.2 hne⟩
  rw [MergeNodes.mergeNodesIntoPage, hnone] at hsome
  cases hsome

end DiskANNEval.PageANN
