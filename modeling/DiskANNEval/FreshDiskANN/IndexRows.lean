import DiskANNEval.FreshDiskANN.Index
import DiskANNEval.Lib.Packed

/-!
# IndexRows — an index as a list of tagged vectors

A compacted index holds its points in the first locations.  An insertion puts a row behind them;
deletions that are consolidated and compacted leave the other rows, in their order; `save` and `load`
keep the rows when there are any.
-/

namespace DiskANNEval.FreshDiskANN.Index

open Lib List Option Function

variable {V C Tag : Type} [DecidableEq Tag] {c : ShardConfig V C Tag} {s : Index V Tag}
  {rows : List (Tag × V)}

/-- A compacted index, with the tag and the vector of each location. -/
structure Holds (s : Index V Tag) (rows : List (Tag × V)) : Prop where
  nd : s.nd = rows.length
  le : rows.length ≤ s.maxPoints
  nodup : (rows.map Prod.fst).Nodup
  dataCompacted : s.dataCompacted = true
  canDelete : s.canDelete = false
  deleteSet : s.deleteSet = ∅
  loc : ∀ l t, s.locationToTag.lookup l = some t ↔ ∃ v, rows[l]? = some (t, v)
  tag : ∀ t l, s.tagToLocation.lookup t = some l ↔ ∃ v, rows[l]? = some (t, v)
  data : ∀ l r, rows[l]? = some r → s.data l = r.2

/-- An index whose deletions are consolidated: `kept` tags are at their old locations. -/
structure Remains (s : Index V Tag) (rows : List (Tag × V)) (kept : Tag → Bool) : Prop where
  nd : s.nd = (rows.filter fun r => kept r.1).length
  le : rows.length ≤ s.maxPoints
  nodup : (rows.map Prod.fst).Nodup
  canDelete : s.canDelete = false
  loc : ∀ l t, s.locationToTag.lookup l = some t ↔ kept t = true ∧ ∃ v, rows[l]? = some (t, v)
  data : ∀ l r, rows[l]? = some r → s.data l = r.2

/-! ### Rows -/

variable {t : Tag} {v : V}

omit [DecidableEq Tag] in
theorem row_unique (hnd : (rows.map Prod.fst).Nodup) {i j : ℕ} {w : V} (hi : rows[i]? = some (t, v))
    (hj : rows[j]? = some (t, w)) : i = j ∧ v = w := by
  have hi' : (rows.map Prod.fst)[i]? = some t := by rw [getElem?_map, hi]; rfl
  have hj' : (rows.map Prod.fst)[j]? = some t := by rw [getElem?_map, hj]; rfl
  have hij : i = j := (getElem?_inj (List.getElem?_eq_some_iff.1 hi').1 hnd).1 (hi'.trans hj'.symm)
  subst hij
  rw [hi, Option.some.injEq] at hj
  exact ⟨rfl, (Prod.mk.inj hj).2⟩

variable {l : ℕ}

omit [DecidableEq Tag] in
theorem getElem?_concat {t' : Tag} {v' : V} : (rows ++ [(t, v)])[l]? = some (t', v') ↔
      rows[l]? = some (t', v') ∨ l = rows.length ∧ t' = t ∧ v' = v := by
  rcases Nat.lt_trichotomy l rows.length with hl | rfl | hl
  · rw [getElem?_append_left hl]
    exact ⟨.inl, fun h => h.resolve_right fun h => hl.ne h.1⟩
  · rw [getElem?_append_right le_rfl, Nat.sub_self]
    simp only [getElem?_cons_zero, Option.some.injEq, Prod.mk.injEq, getElem?_length,
      reduceCtorEq, false_or, true_and]
    exact ⟨fun h => ⟨h.1.symm, h.2.symm⟩, fun h => ⟨h.1.symm, h.2.symm⟩⟩
  · rw [getElem?_eq_none (by simpa using hl), getElem?_eq_none hl.le]
    simp only [reduceCtorEq, false_or, false_iff]
    exact fun h => hl.ne' h.1

omit [DecidableEq Tag] in
theorem card_eq_length_filter {q : Tag → Bool} {F : Finset ℕ}
    (hF : ∀ l, l ∈ F ↔ ∃ r, rows[l]? = some r ∧ q r.1 = true) :
    F.card = (rows.filter fun r => q r.1).length := by
  have hlt : ∀ l ∈ F, l < rows.length := by
    intro l hl
    obtain ⟨r, hr, -⟩ := (hF l).1 hl
    exact (List.getElem?_eq_some_iff.1 hr).1
  have hrange : F = (Finset.range rows.length).filter (· ∈ F) := by
    ext l
    rw [Finset.mem_filter, Finset.mem_range]
    exact ⟨fun hl => ⟨hlt l hl, hl⟩, fun hl => hl.2⟩
  rw [hrange, ← Nat.count_eq_card_filter_range, count_eq_length_filter hF le_rfl]

variable {locationToTag : AList fun _ : ℕ => Tag}

omit [DecidableEq Tag] in
theorem size_loc (kept : Tag → Bool)
    (hloc : ∀ l t, locationToTag.lookup l = some t ↔ kept t = true ∧ ∃ v, rows[l]? = some (t, v)) :
    locationToTag.entries.length = (rows.filter fun r => kept r.1).length := by
  rw [← card_eq_length_filter]
  · rw [toFinset_card_of_nodup locationToTag.keys_nodup]
    exact (length_map _).symm
  · intro l
    rw [List.mem_toFinset, show l ∈ locationToTag.keys ↔ _ from AList.lookup_isSome.symm,
      isSome_iff_exists]
    constructor
    · rintro ⟨t, ht⟩
      obtain ⟨hk, v, hv⟩ := (hloc l t).1 ht
      exact ⟨(t, v), hv, hk⟩
    · rintro ⟨⟨t, v⟩, hv, hk⟩
      exact ⟨t, (hloc l t).2 ⟨hk, v, hv⟩⟩

theorem size_tag {tagToLocation : AList fun _ : Tag => ℕ} (hnd : (rows.map Prod.fst).Nodup)
    (kept : Tag → Bool)
    (htag : ∀ t l, tagToLocation.lookup t = some l ↔ kept t = true ∧ ∃ v, rows[l]? = some (t, v)) :
    tagToLocation.entries.length = (rows.filter fun r => kept r.1).length := by
  have hnd' := hnd.sublist ((filter_sublist (p := fun r => kept r.1)).map Prod.fst)
  rw [← length_map (f := Prod.fst), ← toFinset_card_of_nodup hnd']
  apply length_entries_eq_card
  intro t
  rw [isSome_iff_exists, List.mem_toFinset]
  constructor
  · rintro ⟨l, hl⟩
    obtain ⟨hk, v, hv⟩ := (htag t l).1 hl
    exact mem_map.2 ⟨(t, v), mem_filter.2 ⟨mem_of_getElem? hv, hk⟩, rfl⟩
  · intro ht
    obtain ⟨⟨t', v⟩, hmem, rfl⟩ := mem_map.1 ht
    obtain ⟨hmem, hk⟩ := mem_filter.1 hmem
    obtain ⟨l, hl⟩ := mem_iff_getElem?.1 hmem
    exact ⟨l, (htag t' l).2 ⟨hk, v, hl⟩⟩

omit [DecidableEq Tag] in
theorem nodup_entries_tag (hnd : (rows.map Prod.fst).Nodup)
    (hloc : ∀ l t, locationToTag.lookup l = some t ↔ ∃ v, rows[l]? = some (t, v)) :
    (locationToTag.entries.map fun e => e.2).Nodup := by
  apply Nodup.map_on
  · rintro ⟨l, t⟩ he ⟨l', t'⟩ he' (rfl : t = t')
    obtain ⟨v, hv⟩ := (hloc l t).1 (mem_entries.1 he)
    obtain ⟨v', hv'⟩ := (hloc l' t).1 (mem_entries.1 he')
    obtain ⟨rfl, -⟩ := row_unique hnd hv hv'
    rfl
  · exact locationToTag.nodupKeys.nodup

theorem lookup_inverse (hnd : (rows.map Prod.fst).Nodup)
    (hloc : ∀ l t, locationToTag.lookup l = some t ↔ ∃ v, rows[l]? = some (t, v)) :
    (mapOf (locationToTag.entries.map fun e => (e.2, e.1))).lookup t = some l ↔
      ∃ v, rows[l]? = some (t, v) := by
  have hkeys : ((locationToTag.entries.map fun e => (e.2, e.1)).map Prod.fst).Nodup := by
    rw [List.map_map]
    exact nodup_entries_tag hnd hloc
  rw [lookup_mapOf hkeys, ← hloc l t, ← mem_entries]
  constructor
  · intro hin
    obtain ⟨⟨l', t'⟩, he, heq⟩ := mem_map.1 hin
    cases heq
    exact he
  · exact fun he => mem_map.2 ⟨⟨l, t⟩, he, rfl⟩

/-! ### New indexes -/

theorem lookup_mapOf_zipIdx {ts : List Tag} (hnd : ts.Nodup) :
    (mapOf ts.zipIdx).lookup t = some l ↔ ts[l]? = some t := by
  rw [lookup_mapOf (by rwa [zipIdx_map_fst]), mem_zipIdx_iff_getElem?]

section

omit [DecidableEq Tag]

theorem nodup_zipIdx_snd (ts : List Tag) : (ts.zipIdx.map Prod.snd).Nodup := by
  rw [zipIdx_map_snd]
  exact nodup_range'

theorem lookup_mapOf_swap_zipIdx (ts : List Tag) :
    (mapOf (ts.zipIdx.map Prod.swap)).lookup l = some t ↔ ts[l]? = some t := by
  have hkeys : ((ts.zipIdx.map Prod.swap).map Prod.fst).Nodup := by
    rw [List.map_map]
    exact nodup_zipIdx_snd ts
  have hmem := @mem_zipIdx_iff_getElem? Tag (t, l) ts
  rw [lookup_mapOf hkeys, ← hmem]
  constructor
  · intro h
    obtain ⟨⟨t', l'⟩, he, heq⟩ := mem_map.1 h
    cases heq
    exact he
  · exact fun h => mem_map.2 ⟨(t, l), h, rfl⟩

theorem getElem?_map_fst : (rows.map Prod.fst)[l]? = some t ↔ ∃ v, rows[l]? = some (t, v) := by
  rw [getElem?_map, map_eq_some_iff]
  constructor
  · rintro ⟨⟨t', v⟩, hr, rfl⟩
    exact ⟨v, hr⟩
  · rintro ⟨v, hr⟩
    exact ⟨(t, v), hr, rfl⟩

end

theorem holds_new (maxPoints : ℕ) : (new c maxPoints).Holds [] where
  nd := rfl
  le := Nat.zero_le _
  nodup := nodup_nil
  dataCompacted := rfl
  canDelete := rfl
  deleteSet := rfl
  loc l t := by simp [new]
  tag t l := by simp [new]
  data l r h := by simp at h

theorem holds_of_maps (hnd : (rows.map Prod.fst).Nodup) (hle : rows.length ≤ s.maxPoints)
    (h : s.nd = rows.length ∧ s.dataCompacted = true ∧ s.canDelete = false ∧ s.deleteSet = ∅)
    (htag : s.tagToLocation = mapOf (rows.map Prod.fst).zipIdx)
    (hloc : s.locationToTag = mapOf ((rows.map Prod.fst).zipIdx.map Prod.swap))
    (hdata : ∀ l r, rows[l]? = some r → s.data l = r.2) : s.Holds rows where
  nd := h.1
  le := hle
  nodup := hnd
  dataCompacted := h.2.1
  canDelete := h.2.2.1
  deleteSet := h.2.2.2
  loc l t := by rw [hloc, lookup_mapOf_swap_zipIdx, getElem?_map_fst]
  tag t l := by rw [htag, lookup_mapOf_zipIdx hnd, getElem?_map_fst]
  data := hdata

theorem holds_build {maxPoints : ℕ} (hnd : (rows.map Prod.fst).Nodup)
    (h : build c maxPoints rows = some s) : s.Holds rows ∧ s.maxPoints = maxPoints ∧ s.lazyDone = false := by
  unfold build at h
  split_ifs at h with hlt
  · rw [Option.some.injEq] at h
    subst h
    refine ⟨holds_of_maps hnd (Nat.not_lt.1 hlt) ⟨rfl, rfl, rfl, rfl⟩ rfl rfl fun l r hr => ?_, rfl, rfl⟩
    show (rows[l]?.map Prod.snd).getD c.zeros = r.2
    rw [hr]
    rfl

/-! ### Insertions -/

omit [DecidableEq Tag] in
theorem map_range_eq {d : ℕ → V} (h : ∀ l r, rows[l]? = some r → d l = r.2) :
    (List.range rows.length).map d = rows.map Prod.snd := by
  apply ext_getElem
  · simp
  · intro l h1 h2
    rw [getElem_map, getElem_map, getElem_range]
    rw [length_map] at h2
    exact h l _ (getElem?_eq_getElem h2)

theorem Holds.extractData (h : s.Holds rows) :
    s.extractData = some (rows.map Prod.snd, s.tagToLocation) := by
  unfold Index.extractData
  rw [h.dataCompacted, h.nd, map_range_eq h.data]
  rfl

theorem Holds.lookup_tag (h : s.Holds rows) (t : Tag) :
    (s.tagToLocation.lookup t).isSome = true ↔ t ∈ rows.map Prod.fst := by
  rw [isSome_iff_exists, List.mem_map]
  constructor
  · rintro ⟨l, hl⟩
    obtain ⟨v, hv⟩ := (h.tag t l).1 hl
    exact ⟨(t, v), mem_of_getElem? hv, rfl⟩
  · rintro ⟨⟨t', v⟩, hmem, rfl⟩
    obtain ⟨l, hl⟩ := mem_iff_getElem?.1 hmem
    exact ⟨l, (h.tag t' l).2 ⟨v, hl⟩⟩

theorem Holds.append (h : s.Holds rows) (ht : t ∉ rows.map Prod.fst)
    (hle : rows.length < s.maxPoints) {s' : Index V Tag} (hmax : s'.maxPoints = s.maxPoints)
    (hnd : s'.nd = rows.length + 1) (hcomp : s'.dataCompacted = s.dataCompacted)
    (hcan : s'.canDelete = s.canDelete) (hdel : s'.deleteSet = s.deleteSet)
    (htag : s'.tagToLocation = s.tagToLocation.insert t rows.length)
    (hloc : s'.locationToTag = s.locationToTag.insert rows.length t)
    (hdata : s'.data = Function.update s.data rows.length v) : s'.Holds (rows ++ [(t, v)]) := by
  constructor
  case nd => simpa using hnd
  case le => simpa [hmax] using hle
  case nodup =>
    rw [map_append]
    apply Nodup.append h.nodup (nodup_singleton t)
    simpa [disjoint_singleton] using ht
  case dataCompacted => rw [hcomp, h.dataCompacted]
  case canDelete => rw [hcan, h.canDelete]
  case deleteSet => rw [hdel, h.deleteSet]
  case loc =>
    intro l t'
    rw [hloc]
    simp only [getElem?_concat]
    by_cases hl : l = rows.length
    · subst hl
      simp [eq_comm]
    · rw [AList.lookup_insert_ne hl, h.loc]
      simp [hl]
  case tag =>
    intro t' l
    rw [htag]
    simp only [getElem?_concat]
    by_cases ht' : t' = t
    · subst ht'
      have hno : ∀ w, rows[l]? ≠ some (t', w) := fun w hw =>
        ht (mem_map.2 ⟨(t', w), mem_of_getElem? hw, rfl⟩)
      simp [hno, eq_comm]
    · rw [AList.lookup_insert_ne ht', h.tag]
      simp [ht']
  case data =>
    rintro l ⟨t', v'⟩ hr
    rw [hdata]
    rcases getElem?_concat.1 hr with hr | ⟨rfl, -, rfl⟩
    · rw [update_of_ne (List.getElem?_eq_some_iff.1 hr).1.ne]
      exact h.data l _ hr
    · exact update_self _ _ _

theorem Holds.insertPoint (h : s.Holds rows) {r : ℤ} {s' : Index V Tag}
    (hs : s.insertPoint c v t = some (r, s')) :
    t ∉ rows.map Prod.fst ∧ s'.maxPoints = s.maxPoints ∧ s'.lazyDone = s.lazyDone ∧
      s'.Holds (if rows.length < s.maxPoints then rows ++ [(t, v)] else rows) := by
  unfold Index.insertPoint at hs
  split_ifs at hs with hmem
  · have htag : t ∉ rows.map Prod.fst := fun ht => hmem ((h.lookup_tag t).2 ht)
    unfold reserveLocation at hs
    rw [h.nd, h.dataCompacted] at hs
    refine ⟨htag, ?_⟩
    by_cases hfull : s.maxPoints ≤ rows.length
    · rw [if_pos hfull] at hs
      obtain ⟨-, rfl⟩ := hs
      rw [if_neg (by omega)]
      exact ⟨rfl, rfl, h⟩
    · rw [if_neg hfull] at hs
      obtain ⟨-, rfl⟩ := hs
      rw [if_pos (by omega)]
      exact ⟨rfl, rfl, h.append htag (Nat.not_le.1 hfull) rfl rfl h.dataCompacted.symm rfl rfl rfl rfl rfl⟩

/-! ### Compaction -/

section Compaction

variable {kept : Tag → Bool}

/-- The locations that have a tag. -/
def Tagged (s : Index V Tag) (l : ℕ) : Prop := (s.locationToTag.lookup l).isSome = true

instance : DecidablePred s.Tagged := fun _ => inferInstanceAs (Decidable (_ = true))

section

omit [DecidableEq Tag]

theorem Remains.tagged_iff (h : s.Remains rows kept) (l : ℕ) :
    s.Tagged l ↔ ∃ r, rows[l]? = some r ∧ kept r.1 = true := by
  unfold Tagged
  rw [isSome_iff_exists]
  constructor
  · rintro ⟨t, ht⟩
    obtain ⟨hk, v, hv⟩ := (h.loc l t).1 ht
    exact ⟨(t, v), hv, hk⟩
  · rintro ⟨⟨t, v⟩, hv, hk⟩
    exact ⟨t, (h.loc l t).2 ⟨hk, v, hv⟩⟩

theorem newLocation_of_tagged {l : ℕ} (hl : s.Tagged l) : s.newLocation l = Nat.count s.Tagged l :=
  if_pos hl

theorem Remains.moveData_eq (h : s.Remains rows kept) (d : ℕ → V) (old : ℕ) :
    s.moveData d old = packStep s.Tagged d old := by
  unfold moveData packStep
  by_cases ht : s.Tagged old
  · have hlt : old < s.maxPoints := by
      obtain ⟨r, hr, -⟩ := (h.tagged_iff old).1 ht
      exact (List.getElem?_eq_some_iff.1 hr).1.trans_le h.le
    have hcount : Nat.count s.Tagged old ≤ old := Nat.count_le _
    rw [newLocation_of_tagged ht, if_pos (.inl (by omega))]
    split_ifs with hne
    · rfl
    · rw [not_not.1 hne, update_eq_self]
  · have hnew : s.newLocation old = s.maxPoints := if_neg ht
    rw [hnew]
    split_ifs with h1 h2
    · exact absurd (h1.resolve_left (lt_irrefl _)).symm h2
    · rfl
    · rfl

end

theorem Remains.data_compactData (h : s.Remains rows kept) :
    s.compactData.data = packed s.Tagged (s.maxPoints + 1) s.data := by
  apply foldl_ext
  exact fun d old _ => h.moveData_eq d old

omit [DecidableEq Tag] in
theorem Remains.getElem?_filter (h : s.Remains rows kept) {n : ℕ} {r : Tag × V} :
    (rows.filter fun r => kept r.1)[n]? = some r ↔
      ∃ l, rows[l]? = some r ∧ kept r.1 = true ∧ Nat.count s.Tagged l = n := by
  constructor
  · exact exists_count_of_getElem?_filter h.tagged_iff
  · rintro ⟨l, hl, hk, rfl⟩
    exact getElem?_filter_count h.tagged_iff hl hk

omit [DecidableEq Tag] in
theorem Remains.nodup_filter (h : s.Remains rows kept) :
    ((rows.filter fun r => kept r.1).map Prod.fst).Nodup :=
  h.nodup.sublist (filter_sublist.map _)

theorem Remains.tag_compactData (h : s.Remains rows kept) (t : Tag) (n : ℕ) :
    s.compactData.tagToLocation.lookup t = some n ↔
      ∃ v, (rows.filter fun r => kept r.1)[n]? = some (t, v) := by
  show (mapOf (s.locationToTag.entries.map fun e => (e.2, s.newLocation e.1))).lookup t = some n ↔ _
  have hmem : ∀ e ∈ s.locationToTag.entries, kept e.2 = true ∧ ∃ v, rows[e.1]? = some (e.2, v) :=
    fun e he => (h.loc e.1 e.2).1 (mem_entries.1 he)
  have hkeys : ((s.locationToTag.entries.map fun e => (e.2, s.newLocation e.1)).map Prod.fst).Nodup := by
    rw [List.map_map]
    apply Nodup.map_on
    · rintro ⟨l, t⟩ he ⟨l', t'⟩ he' (rfl : t = t')
      obtain ⟨-, v, hv⟩ := hmem _ he
      obtain ⟨-, v', hv'⟩ := hmem _ he'
      obtain ⟨rfl, -⟩ := row_unique h.nodup hv hv'
      rfl
    · exact s.locationToTag.nodupKeys.nodup
  rw [lookup_mapOf hkeys]
  simp only [h.getElem?_filter]
  constructor
  · intro hin
    obtain ⟨⟨l, t'⟩, he, heq⟩ := mem_map.1 hin
    cases heq
    obtain ⟨hk, v, hv⟩ := hmem _ he
    exact ⟨v, l, hv, hk, (newLocation_of_tagged ((h.tagged_iff l).2 ⟨_, hv, hk⟩)).symm⟩
  · rintro ⟨v, l, hv, hk, rfl⟩
    rw [← newLocation_of_tagged ((h.tagged_iff l).2 ⟨_, hv, hk⟩)]
    exact mem_map.2 ⟨⟨l, t⟩, mem_entries.2 ((h.loc l t).2 ⟨hk, v, hv⟩), rfl⟩

theorem Remains.loc_compactData (h : s.Remains rows kept) (n : ℕ) (t : Tag) :
    s.compactData.locationToTag.lookup n = some t ↔
      ∃ v, (rows.filter fun r => kept r.1)[n]? = some (t, v) := by
  have htag := h.tag_compactData
  show (mapOf (s.compactData.tagToLocation.entries.map fun e => (e.2, e.1))).lookup n = some t ↔ _
  have hkeys : ((s.compactData.tagToLocation.entries.map fun e => (e.2, e.1)).map Prod.fst).Nodup := by
    rw [List.map_map]
    apply Nodup.map_on
    · rintro ⟨t, n⟩ he ⟨t', n'⟩ he' (rfl : n = n')
      obtain ⟨v, hv⟩ := (htag t n).1 (mem_entries.1 he)
      obtain ⟨v', hv'⟩ := (htag t' n).1 (mem_entries.1 he')
      rw [hv, Option.some.injEq] at hv'
      obtain rfl := (Prod.mk.inj hv').1
      rfl
    · exact s.compactData.tagToLocation.nodupKeys.nodup
  rw [lookup_mapOf hkeys, ← htag t n, ← mem_entries]
  constructor
  · intro hin
    obtain ⟨⟨t', n'⟩, he, heq⟩ := mem_map.1 hin
    cases heq
    exact he
  · exact fun he => mem_map.2 ⟨⟨t, n⟩, he, rfl⟩

theorem Remains.compactData (h : s.Remains rows kept) :
    s.compactData.Holds (rows.filter fun r => kept r.1) where
  nd := h.nd
  le := (length_filter_le _ _).trans h.le
  nodup := h.nodup_filter
  dataCompacted := rfl
  canDelete := h.canDelete
  deleteSet := rfl
  loc := h.loc_compactData
  tag := h.tag_compactData
  data n r hr := by
    obtain ⟨l, hl, hk, rfl⟩ := h.getElem?_filter.1 hr
    have hlt : l < s.maxPoints + 1 := by
      have := (List.getElem?_eq_some_iff.1 hl).1
      have := h.le
      omega
    rw [h.data_compactData, packed_count _ hlt ((h.tagged_iff l).2 ⟨r, hl, hk⟩)]
    exact h.data l r hl

theorem Holds.remains (h : s.Holds rows) : s.Remains rows fun _ => true where
  nd := by rw [filter_true, h.nd]
  le := h.le
  nodup := h.nodup
  canDelete := h.canDelete
  loc l t := by simpa using h.loc l t
  data := h.data

end Compaction

/-! ### Deletions -/

/-- An index in which the tags of `D` are deleted and not consolidated. -/
structure Deleting (s : Index V Tag) (rows : List (Tag × V)) (D : List Tag) : Prop where
  nd : s.nd = rows.length
  le : rows.length ≤ s.maxPoints
  nodup : (rows.map Prod.fst).Nodup
  canDelete : s.canDelete = true
  pending : s.lazyDone = true ∧ s.dataCompacted = false
  loc : ∀ l t, s.locationToTag.lookup l = some t ↔ t ∉ D ∧ ∃ v, rows[l]? = some (t, v)
  tag : ∀ t l, s.tagToLocation.lookup t = some l ↔ t ∉ D ∧ ∃ v, rows[l]? = some (t, v)
  deleteSet : ∀ l, l ∈ s.deleteSet ↔ ∃ r, rows[l]? = some r ∧ r.1 ∈ D
  data : ∀ l r, rows[l]? = some r → s.data l = r.2

theorem Holds.enableDelete (h : s.Holds rows) :
    ({ s.enableDelete with lazyDone := true } : Index V Tag).Deleting rows [] ∧
      s.enableDelete.maxPoints = s.maxPoints := by
  unfold Index.enableDelete
  rw [h.canDelete, h.dataCompacted]
  simp only [Bool.false_eq_true, if_false, if_true]
  refine ⟨?_, trivial⟩
  constructor
  case nd => exact h.nd
  case le => exact h.le
  case nodup => exact h.nodup
  case canDelete => rfl
  case pending => exact ⟨rfl, rfl⟩
  case loc => exact fun l t => by simpa using h.loc l t
  case tag => exact fun t l => by simpa using h.tag t l
  case deleteSet => exact fun l => by simp [h.deleteSet]
  case data => exact h.data

variable {D : List Tag}

theorem Deleting.dropTag (h : s.Deleting rows D) (failed : List Tag) (t : Tag) :
    (Index.dropTag (failed, s) t).2.Deleting rows (t :: D) ∧
      (Index.dropTag (failed, s) t).2.maxPoints = s.maxPoints ∧
      (Index.dropTag (failed, s) t).1 =
        failed ++ if t ∈ rows.map Prod.fst ∧ t ∉ D then [] else [t] := by
  unfold Index.dropTag
  rcases ht : s.tagToLocation.lookup t with _ | l
  · dsimp only
    have hno : ∀ (l : ℕ) (v : V), rows[l]? = some (t, v) → t ∈ D := by
      intro l v hv
      by_contra hD
      rw [(h.tag t l).2 ⟨hD, v, hv⟩] at ht
      cases ht
    have hcons : ∀ (t' : Tag) (l : ℕ), (t' ∉ D ∧ ∃ v, rows[l]? = some (t', v)) ↔
        t' ∉ t :: D ∧ ∃ v, rows[l]? = some (t', v) := by
      intro t' l
      rw [mem_cons, not_or]
      constructor
      · rintro ⟨hD, v, hv⟩
        refine ⟨⟨?_, hD⟩, v, hv⟩
        rintro rfl
        exact hD (hno l v hv)
      · exact fun hx => ⟨hx.1.2, hx.2⟩
    refine ⟨{ h with loc := ?_, tag := ?_, deleteSet := ?_ }, rfl, ?_⟩
    · exact fun l t' => (h.loc l t').trans (hcons t' l)
    · exact fun t' l => (h.tag t' l).trans (hcons t' l)
    · intro l
      rw [h.deleteSet l]
      constructor
      · rintro ⟨r, hr, hD⟩
        exact ⟨r, hr, mem_cons_of_mem t hD⟩
      · rintro ⟨⟨t', v⟩, hr, hD⟩
        rcases mem_cons.1 hD with rfl | hD
        · exact ⟨_, hr, hno l v hr⟩
        · exact ⟨_, hr, hD⟩
    · rw [if_neg]
      rintro ⟨hmem, hD⟩
      obtain ⟨⟨t', v⟩, hr, rfl⟩ := mem_map.1 hmem
      obtain ⟨l, hl⟩ := mem_iff_getElem?.1 hr
      exact hD (hno l v hl)
  · dsimp only
    obtain ⟨hD, v, hv⟩ := (h.tag t l).1 ht
    have hmem : t ∈ rows.map Prod.fst := mem_map.2 ⟨(t, v), mem_of_getElem? hv, rfl⟩
    refine ⟨{ h with loc := ?_, tag := ?_, deleteSet := ?_ }, rfl, ?_⟩
    · intro l' t'
      rw [mem_cons, not_or]
      by_cases hl : l' = l
      · subst hl
        rw [AList.lookup_erase]
        simp only [reduceCtorEq, false_iff]
        rintro ⟨⟨hne, -⟩, w, hw⟩
        rw [hv, Option.some.injEq] at hw
        exact hne (Prod.mk.inj hw).1.symm
      · rw [AList.lookup_erase_ne hl, h.loc l' t']
        constructor
        · rintro ⟨hD', w, hw⟩
          refine ⟨⟨?_, hD'⟩, w, hw⟩
          rintro rfl
          exact hl (row_unique h.nodup hw hv).1
        · exact fun hx => ⟨hx.1.2, hx.2⟩
    · intro t' l'
      by_cases hne : t' = t
      · subst hne
        simp
      · rw [AList.lookup_erase_ne hne, h.tag t' l']
        simp [hne]
    · intro l'
      rw [Finset.mem_insert, h.deleteSet l']
      constructor
      · rintro (rfl | ⟨r, hr, hD'⟩)
        · exact ⟨_, hv, mem_cons_self⟩
        · exact ⟨r, hr, mem_cons_of_mem t hD'⟩
      · rintro ⟨⟨t', w⟩, hr, hD'⟩
        rcases mem_cons.1 hD' with rfl | hD'
        · exact .inl (row_unique h.nodup hr hv).1
        · exact .inr ⟨_, hr, hD'⟩
    · rw [if_pos ⟨hmem, hD⟩, append_nil]

theorem Deleting.foldl_dropTag (h : s.Deleting rows D) (failed tags : List Tag) :
    (tags.foldl Index.dropTag (failed, s)).2.Deleting rows (tags.reverse ++ D) ∧
      (tags.foldl Index.dropTag (failed, s)).2.maxPoints = s.maxPoints ∧
      ((D.reverse ++ tags).Nodup → (tags.foldl Index.dropTag (failed, s)).1 =
        failed ++ tags.filter fun t => t ∉ rows.map Prod.fst) := by
  induction tags generalizing s D failed with
  | nil => exact ⟨h, rfl, fun _ => (append_nil failed).symm⟩
  | cons t tags ih =>
    obtain ⟨hdrop, hmax, hfailed⟩ := h.dropTag failed t
    obtain ⟨hall, hmax', hfailed'⟩ := ih hdrop (Index.dropTag (failed, s) t).1
    rw [foldl_cons]
    refine ⟨?_, hmax'.trans hmax, fun hnd => ?_⟩
    · rw [reverse_cons, append_assoc]
      exact hall
    · have hD : t ∉ D := by
        intro hD
        exact (disjoint_of_nodup_append hnd) (mem_reverse.2 hD) mem_cons_self
      rw [hfailed' (by simpa using hnd), hfailed,
        append_assoc, filter_cons]
      by_cases ht : t ∈ rows.map Prod.fst
      · simp [ht, hD]
      · simp [ht]

theorem Deleting.disableDelete (h : s.Deleting rows D) :
    s.disableDelete.Remains rows (fun t => t ∉ D) ∧ s.disableDelete.maxPoints = s.maxPoints ∧
      s.disableDelete.lazyDone = true ∧ s.disableDelete.dataCompacted = false := by
  have hloc := size_loc (fun t => t ∉ D) fun l t => by simpa using h.loc l t
  have htag := size_tag h.nodup (fun t => t ∉ D) fun t l => by simpa using h.tag t l
  have hdel : s.deleteSet.card = (rows.filter fun r => decide (r.1 ∈ D)).length :=
    card_eq_length_filter (q := fun t => decide (t ∈ D)) fun l => by simpa using h.deleteSet l
  have hsum := length_eq_length_filter_add (l := rows) fun r => decide (r.1 ∈ D)
  have hnot : (rows.filter fun r => !decide (r.1 ∈ D)) = rows.filter fun r => decide (r.1 ∉ D) := by
    simp
  rw [hnot] at hsum
  unfold Index.disableDelete
  rw [h.canDelete, h.nd]
  simp only [Bool.not_true, Bool.false_eq_true, if_false]
  rw [if_neg (by omega), if_neg (by omega)]
  refine ⟨?_, rfl, h.pending⟩
  constructor
  case nd =>
    show s.nd - s.deleteSet.card = _
    rw [h.nd, hdel]
    omega
  case le => exact h.le
  case nodup => exact h.nodup
  case canDelete => rfl
  case loc =>
    intro l t
    rw [decide_eq_true_eq]
    exact h.loc l t
  case data => exact h.data

theorem Holds.delete (h : s.Holds rows) (D : List Tag) :
    (s.enableDelete.lazyDelete D).2.disableDelete.Remains rows (fun t => t ∉ D) ∧
      (s.enableDelete.lazyDelete D).2.disableDelete.maxPoints = s.maxPoints ∧
      (s.enableDelete.lazyDelete D).2.disableDelete.lazyDone = true ∧
      (s.enableDelete.lazyDelete D).2.disableDelete.dataCompacted = false ∧
      (D.Nodup → (s.enableDelete.lazyDelete D).1 = D.filter fun t => t ∉ rows.map Prod.fst) := by
  obtain ⟨hstart, hmax⟩ := h.enableDelete
  obtain ⟨hdel, hmax', hfailed⟩ := hstart.foldl_dropTag [] D
  obtain ⟨hrem, hmax'', hlazy, hcomp⟩ := hdel.disableDelete
  refine ⟨?_, hmax''.trans (hmax'.trans hmax), hlazy, hcomp, fun hnd => ?_⟩
  · have hrev : (fun t => decide (t ∉ D.reverse ++ [])) = fun t => decide (t ∉ D) := by
      simp
    rw [hrev] at hrem
    exact hrem
  · have hres := hfailed (by simpa using hnd)
    rwa [nil_append] at hres

/-! ### Files -/

/-- The files of a list of rows. -/
def filesOf (rows : List (Tag × V)) : IndexFiles V Tag :=
  ⟨rows.length + 1, some (rows.map Prod.snd), some (rows.map Prod.fst)⟩

theorem Holds.lookup_loc (h : s.Holds rows) {i : ℕ} (hi : i < rows.length) :
    s.locationToTag.lookup i = some (rows[i].1) :=
  (h.loc i _).2 ⟨rows[i].2, getElem?_eq_getElem hi⟩

theorem Holds.foldl_enterTag (h : s.Holds rows) (c : ShardConfig V C Tag) {k : ℕ} (hk : k ≤ rows.length) :
    (List.range k).foldl (enterTag c) s.locationToTag = s.locationToTag := by
  induction k with
  | zero => rfl
  | succ k ih =>
    rw [range_succ, foldl_append, ih (by omega), foldl_cons]
    unfold enterTag
    rw [h.lookup_loc hk]
    rfl

theorem Holds.writeFiles (h : s.Holds rows) (files : IndexFiles V Tag) :
    (s.writeFiles c files).1.Holds rows ∧ (s.writeFiles c files).1.maxPoints = s.maxPoints ∧
      (rows ≠ [] → (s.writeFiles c files).2 = filesOf rows) := by
  have henter := h.foldl_enterTag c le_rfl
  have hdata : ∀ l r, rows[l]? = some r →
      (if s.nd < s.maxPoints then Function.update s.data s.nd c.zeros else s.data) l = r.2 := by
    intro l r hr
    have hne : l ≠ s.nd := h.nd ▸ (List.getElem?_eq_some_iff.1 hr).1.ne
    split_ifs
    · rw [update_of_ne hne]
      exact h.data l r hr
    · exact h.data l r hr
  have htags : ((List.range rows.length).map fun i => (s.locationToTag.lookup i).getD c.tagInit) =
      rows.map Prod.fst := by
    apply ext_getElem
    · simp
    · intro l h1 h2
      rw [length_map] at h2
      rw [getElem_map, getElem_map, getElem_range, h.lookup_loc h2]
      rfl
  unfold Index.writeFiles
  generalize (if s.nd < s.maxPoints then Function.update s.data s.nd c.zeros else s.data) = d at hdata ⊢
  dsimp only
  split_ifs with hnd
  · refine ⟨{ h with data := hdata }, rfl, fun hne => absurd ?_ hne⟩
    exact eq_nil_of_length_eq_zero (h.nd ▸ hnd)
  · rw [h.nd, henter, htags, map_range_eq h.data]
    exact ⟨{ h with nd := rfl, data := hdata }, rfl, fun _ => rfl⟩

theorem Holds.save (h : s.Holds rows) (files : IndexFiles V Tag) :
    s.save c files = some (s.writeFiles c files) := by
  unfold Index.save
  rw [h.dataCompacted, Bool.not_true, Bool.and_false]
  rfl

theorem Remains.save {kept : Tag → Bool} (h : s.Remains rows kept) (hlazy : s.lazyDone = true)
    (hcomp : s.dataCompacted = false) (files : IndexFiles V Tag) :
    s.save c files = some (s.compactData.writeFiles c files) := by
  unfold Index.save
  dsimp only
  rw [hlazy, hcomp, h.compactData.canDelete]
  rfl

theorem Holds.saveData (h : s.Holds rows) (hne : rows ≠ []) (file : Option (List V)) :
    s.saveData file = some (rows.map Prod.snd ++ [s.data rows.length]) := by
  unfold Index.saveData
  have hpos := length_pos_of_ne_nil hne
  rw [h.nd, if_neg hpos.ne', range_succ, map_append, map_range_eq h.data]
  rfl

theorem holds_load {maxPoints : ℕ} (hnd : (rows.map Prod.fst).Nodup) (hle : rows.length ≤ maxPoints) :
    ∃ s, load c maxPoints (filesOf rows) = some s ∧ s.Holds rows ∧ s.maxPoints = maxPoints ∧
      s.lazyDone = false := by
  unfold load filesOf
  simp only [bind_some, length_map, getD_some, ne_eq]
  rw [if_neg (by omega)]
  refine ⟨_, rfl, holds_of_maps hnd hle ⟨rfl, rfl, rfl, rfl⟩ rfl rfl fun l r hr => ?_, rfl, rfl⟩
  show (rows.map Prod.snd).getD l c.zeros = r.2
  rw [getD_eq_getElem?_getD, getElem?_map, hr]
  rfl

end DiskANNEval.FreshDiskANN.Index
