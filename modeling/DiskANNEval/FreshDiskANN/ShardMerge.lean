import DiskANNEval.FreshDiskANN.Shard

/-!
# ShardMerge — what a merge does to the rows and the codes of a shard

The new rows are the old ones without the deleted tags, and behind them the rows of the short-term
index that are not deleted, as many as there is room for.  The codes follow when there was a point to
insert; else they are those of the old rows.
-/

namespace DiskANNEval.FreshDiskANN

open Lib List Option

namespace Shard

variable {V C Tag : Type} [DecidableEq Tag] {c : ShardConfig V C Tag} {s : Shard V C Tag}
  {rows sr : List (Tag × V)}

/-- The rows whose tags are not deleted. -/
def kept (deletionSet : List Tag) (rows : List (Tag × V)) : List (Tag × V) :=
  rows.filter fun r => r.1 ∉ deletionSet

/-- Between two calls: the long-term index has `rows` and the short-term index has `sr`. -/
structure Stores (c : ShardConfig V C Tag) (s : Shard V C Tag) (rows sr : List (Tag × V)) : Prop where
  le : rows.length ≤ s.maxPoints
  ne : rows ≠ []
  nodup : (rows.map Prod.fst).Nodup
  files : s.files = Index.filesOf rows
  fullPrecision : ∃ z, s.fullPrecision = some (rows.map Prod.snd ++ [z])
  compressed : ∃ z, s.compressed = (rows.map fun r => c.pqCode r.2) ++ [z]
  ltiNumPoints : s.ltiNumPoints = rows.length
  lti : ∀ l t, s.ltiLocationToTag.lookup l = some t ↔ ∃ v, rows[l]? = some (t, v)
  short : s.shortTermIndex.Holds sr
  active : s.active = true

omit [DecidableEq Tag] in
theorem length_pos_of_lti
    (hlti : ∀ l t, s.ltiLocationToTag.lookup l = some t ↔ ∃ v, rows[l]? = some (t, v)) {l : ℕ} {t : Tag}
    (hl : s.ltiLocationToTag.lookup l = some t) : rows ≠ [] := by
  obtain ⟨v, hv⟩ := (hlti l t).1 hl
  rintro rfl
  cases hv

omit [DecidableEq Tag] in
theorem codesMatch_of_rows
    (hlti : ∀ l t, s.ltiLocationToTag.lookup l = some t ↔ ∃ v, rows[l]? = some (t, v))
    (hfull : rows ≠ [] → ∃ z, s.fullPrecision = some (rows.map Prod.snd ++ [z]))
    (hcodes : ∃ z, s.compressed = (rows.map fun r => c.pqCode r.2) ++ [z]) : s.CodesMatch c := by
  intro l t hl
  obtain ⟨v, hv⟩ := (hlti l t).1 hl
  obtain ⟨z, hz⟩ := hfull (length_pos_of_lti hlti hl)
  obtain ⟨z', hz'⟩ := hcodes
  have hlt : l < rows.length := (List.getElem?_eq_some_iff.1 hv).1
  refine ⟨v, ?_, ?_⟩
  · rw [hz, bind_some, getElem?_append_left (by simpa using hlt), getElem?_map, hv]
    rfl
  · rw [hz', getElem?_append_left (by simpa using hlt), getElem?_map, hv]
    rfl

/-! ### Building and inserting -/

variable {maxPoints : ℕ}

theorem stores_build (hnd : (rows.map Prod.fst).Nodup) (hs : build c maxPoints rows = some s) :
    s.Stores c rows [] ∧ s.maxPoints = maxPoints := by
  unfold build at hs
  rw [bind_eq_bind, bind_eq_some_iff] at hs
  obtain ⟨temp, hbuild, hs⟩ := hs
  obtain ⟨hold, hmax, -⟩ := Index.holds_build hnd hbuild
  obtain ⟨hold', hmax', hfiles⟩ := hold.writeFiles (c := c) ⟨0, none, none⟩
  rw [hold.save, bind_eq_bind, bind_some, bind_eq_bind,
    bind_eq_some_iff] at hs
  obtain ⟨fullPrecision, hfull, hs⟩ := hs
  have hne : rows ≠ [] := by
    rintro rfl
    unfold Index.saveData at hfull
    rw [hold'.nd] at hfull
    cases hfull
  rw [hold'.saveData hne, Option.some.injEq] at hfull
  rw [Option.pure_def, Option.some.injEq] at hs
  subst hs hfull
  refine ⟨?_, rfl⟩
  constructor
  case le => exact hmax ▸ hold.le
  case ne => exact hne
  case nodup => exact hnd
  case files => exact hfiles hne
  case fullPrecision => exact ⟨_, rfl⟩
  case compressed => exact ⟨_, by rw [map_append, List.map_map]; rfl⟩
  case ltiNumPoints => rfl
  case lti => exact hold'.loc
  case short => exact Index.holds_new _
  case active => rfl

theorem Stores.insert (h : s.Stores c rows sr) {v : V} {t : Tag} {r : ℤ × Shard V C Tag}
    (hs : s.insert c v t = some r) :
    r.2.maxPoints = s.maxPoints ∧
      (r.1 = 0 ∧ s.HasRoom ∧ t ∉ sr.map Prod.fst ∧ r.2.Stores c rows (sr ++ [(t, v)]) ∨
        r.1 ≠ 0 ∧ ¬ s.HasRoom ∧ r.2 = s) := by
  unfold Shard.insert at hs
  rw [if_neg (by simp [h.active])] at hs
  split_ifs at hs with hroom
  · obtain ⟨⟨code, short⟩, hins, rfl⟩ := map_eq_some_iff.1 hs
    obtain ⟨hnew, -, -, hholds⟩ := h.short.insertPoint hins
    have hlt : sr.length < s.shortTermIndex.maxPoints := h.short.nd ▸ hroom.2
    rw [if_pos hlt] at hholds
    exact ⟨rfl, .inl ⟨rfl, hroom, hnew, { h with short := hholds }⟩⟩
  · rw [Option.some.injEq] at hs
    subst hs
    exact ⟨rfl, .inr ⟨(by decide : (-2 : ℤ) ≠ 0), hroom, rfl⟩⟩

/-! ### Deleting -/

variable {temp : Index V Tag}

theorem holds_deleteTags (h : temp.Holds rows) (D : List Tag) :
    (deleteTags D temp).2.Remains rows (fun t => t ∉ D) ∧
      (deleteTags D temp).2.maxPoints = temp.maxPoints ∧
      ((deleteTags D temp).2.lazyDone = true ∧ (deleteTags D temp).2.dataCompacted = false ∨
        (deleteTags D temp).2.Holds (kept D rows)) ∧
      (D.Nodup → (deleteTags D temp).1 = D.filter fun t => t ∉ rows.map Prod.fst) := by
  unfold deleteTags
  split_ifs with hD
  · subst hD
    have hkept : kept [] rows = rows := by
      unfold kept
      simp
    refine ⟨by simpa using h.remains, rfl, .inr ?_, fun _ => rfl⟩
    rw [hkept]
    exact h
  · obtain ⟨h1, h2, h3, h4, h5⟩ := h.delete D
    exact ⟨h1, h2, .inl ⟨h3, h4⟩, h5⟩

/-! ### Inserting the points of the short-term index -/

/-- The rows of a list of tags and locations. -/
def rowsAt (c : ShardConfig V C Tag) (retData : List V) (es : List (Tag × ℕ)) : List (Tag × V) :=
  es.map fun e => (e.1, retData.getD e.2 c.zeros)

omit [DecidableEq Tag] in
theorem take_concat {base : List (Tag × V)} {x : Tag × V} {n : ℕ} (h : base.length ≤ n)
    (rest : List (Tag × V)) :
    ((if base.length < n then base ++ [x] else base) ++ rest).take n = (base ++ x :: rest).take n := by
  split_ifs with hlt
  · rw [append_assoc]
    rfl
  · have he : base.length = n := by omega
    rw [← he, take_left, take_left]

theorem holds_foldlM_insertPoint {retData : List V} {es : List (Tag × ℕ)} {temp' : Index V Tag}
    {base : List (Tag × V)} (h : temp.Holds base)
    (hs : es.foldlM (fun temp e => (temp.insertPoint c (retData.getD e.2 c.zeros) e.1).map Prod.snd) temp = some temp') :
    temp'.Holds ((base ++ rowsAt c retData es).take temp.maxPoints) ∧
      temp'.maxPoints = temp.maxPoints := by
  induction es generalizing temp base with
  | nil =>
    rw [foldlM_nil, Option.pure_def, Option.some.injEq] at hs
    subst hs
    refine ⟨?_, rfl⟩
    rw [rowsAt, map_nil, append_nil, take_of_length_le h.le]
    exact h
  | cons e es ih =>
    rw [foldlM_cons, bind_eq_bind, bind_eq_some_iff] at hs
    obtain ⟨temp₁, hins, hs⟩ := hs
    obtain ⟨⟨code, temp₂⟩, hpoint, rfl⟩ := map_eq_some_iff.1 hins
    obtain ⟨-, hmax, -, hholds⟩ := h.insertPoint hpoint
    obtain ⟨hall, hmax'⟩ := ih hholds hs
    refine ⟨?_, hmax'.trans hmax⟩
    rw [show (code, temp₂).2.maxPoints = temp.maxPoints from hmax, take_concat h.le] at hall
    exact hall

omit [DecidableEq Tag] in
theorem nodup_of_map_fst (h : (sr.map Prod.fst).Nodup) : sr.Nodup := Nodup.of_map _ h

theorem perm_rowsAt_newTags {short : Index V Tag} (h : short.Holds sr) (ord : InsertOrder Tag)
    (D : List Tag) :
    (rowsAt c (sr.map Prod.snd) (ord.order (newTags D short.tagToLocation))).Perm (kept D sr) := by
  have hentries : (rowsAt c (sr.map Prod.snd) (short.tagToLocation.entries.map fun e => (e.1, e.2))).Perm
      sr := by
    unfold rowsAt
    rw [List.map_map]
    have hget : ∀ e ∈ short.tagToLocation.entries, sr[e.2]? =
        some (e.1, (sr.map Prod.snd).getD e.2 c.zeros) := by
      intro e he
      obtain ⟨v, hv⟩ := (h.tag e.1 e.2).1 (mem_entries.1 he)
      rw [getD_eq_getElem?_getD, getElem?_map, hv]
      rfl
    apply (perm_ext_iff_of_nodup _ (nodup_of_map_fst h.nodup)).2
    · rintro ⟨t, v⟩
      rw [List.mem_map]
      constructor
      · rintro ⟨e, he, heq⟩
        rw [← heq]
        exact mem_of_getElem? (hget e he)
      · intro hmem
        obtain ⟨l, hl⟩ := mem_iff_getElem?.1 hmem
        have he := mem_entries.2 ((h.tag t l).2 ⟨v, hl⟩)
        refine ⟨⟨t, l⟩, he, ?_⟩
        have hg := hget _ he
        rw [hl, Option.some.injEq] at hg
        exact hg.symm
    · apply Nodup.map_on
      · rintro e he e' he' heq
        have htag : e.1 = e'.1 := congrArg Prod.fst heq
        have hloc : e.2 = e'.2 := by
          have h1 := mem_entries.1 he
          rw [htag, mem_entries.1 he', Option.some.injEq] at h1
          exact h1.symm
        exact Sigma.ext htag (heq_of_eq hloc)
      · exact short.tagToLocation.nodupKeys.nodup
  have hfilter := hentries.filter fun r => decide (r.1 ∉ D)
  unfold rowsAt at hfilter ⊢
  rw [List.filter_map] at hfilter
  exact ((ord.perm _).map _).trans hfilter

/-! ### The codes -/

omit [DecidableEq Tag] in
theorem length_entries_of_loc {locationToTag : AList fun _ : ℕ => Tag}
    (hloc : ∀ l t, locationToTag.lookup l = some t ↔ ∃ v, rows[l]? = some (t, v)) :
    locationToTag.entries.length = rows.length := by
  have hsize := Index.size_loc (fun _ => true) fun l t => by simpa using hloc l t
  rwa [filter_true] at hsize

/-- The code of an old row, or of one of the short-term index that was not in the old ones. -/
theorem Stores.newCode (h : s.Stores c rows sr) (newLoc : ℕ) {r : Tag × V}
    (hr : r ∈ rows ∨ r ∈ sr ∧ r.1 ∉ rows.map Prod.fst) :
    s.newCode c ((sr.map Prod.snd).map c.pqCode) s.shortTermIndex.tagToLocation newLoc r.1 =
      c.pqCode r.2 := by
  obtain ⟨z, hz⟩ := h.compressed
  unfold Shard.newCode
  dsimp only
  rcases hr with hold | ⟨hnew, hno⟩
  · obtain ⟨i, hi⟩ := mem_iff_getElem?.1 hold
    have hlt : i < rows.length := (List.getElem?_eq_some_iff.1 hi).1
    rw [(Index.lookup_inverse h.nodup h.lti).2 ⟨_, hi⟩]
    dsimp only
    rw [hz, getD_eq_getElem?_getD, getElem?_append_left (by simpa using hlt),
      getElem?_map, hi]
    rfl
  · obtain ⟨i, hi⟩ := mem_iff_getElem?.1 hnew
    have hnone : (mapOf (s.ltiLocationToTag.entries.map fun e => (e.2, e.1))).lookup r.1 = none := by
      rw [eq_none_iff_forall_ne_some]
      intro j hj
      obtain ⟨v, hv⟩ := (Index.lookup_inverse h.nodup h.lti).1 hj
      exact hno (mem_map.2 ⟨_, mem_of_getElem? hv, rfl⟩)
    rw [hnone, (h.short.tag _ i).2 ⟨_, hi⟩]
    dsimp only
    rw [getD_eq_getElem?_getD, getElem?_map, getElem?_map, hi]
    rfl

variable {rows' : List (Tag × V)}

theorem Stores.updateCompressedVectors (h : s.Stores c rows sr)
    {locationToTag : AList fun _ : ℕ => Tag}
    (hloc : ∀ l t, locationToTag.lookup l = some t ↔ ∃ v, rows'[l]? = some (t, v))
    (hrows : ∀ r ∈ rows', r ∈ rows ∨ r ∈ sr ∧ r.1 ∉ rows.map Prod.fst) :
    ∃ z, s.updateCompressedVectors c ((sr.map Prod.snd).map c.pqCode) s.shortTermIndex.tagToLocation
      locationToTag = some ((rows'.map fun r => c.pqCode r.2) ++ [z]) := by
  obtain ⟨z, hz⟩ := h.compressed
  have hlen : s.compressed.length = rows.length + 1 := by simp [hz]
  have hlast : s.compressed.drop rows.length = [z] := by
    rw [hz, drop_append_of_le_length (by simp), drop_of_length_le (by simp)]
    rfl
  refine ⟨z, ?_⟩
  unfold Shard.updateCompressedVectors
  rw [hlen, length_entries_of_loc h.lti, length_entries_of_loc hloc, if_neg (by omega), Option.some.injEq]
  congr 1
  apply ext_getElem
  · simp
  · intro l h1 h2
    rw [length_map] at h2
    have htag : locationToTag.lookup l = some rows'[l].1 :=
      (hloc l _).2 ⟨_, getElem?_eq_getElem h2⟩
    rw [getElem_map, getElem_map, getElem_range, htag]
    exact h.newCode l (hrows _ (getElem_mem h2))

/-! ### Merging -/

/-- The rows after a merge: those that are kept, and new ones while there is room. -/
def MergedRows (maxPoints : ℕ) (rows sr : List (Tag × V)) (D : List Tag) (rows' : List (Tag × V)) : Prop :=
  ∃ news : List (Tag × V), news.Perm (kept D sr) ∧ rows' = (kept D rows ++ news).take maxPoints

/-- What a merge leaves, with the codes of the new rows where they were written. -/
structure Merged (c : ShardConfig V C Tag) (s : Shard V C Tag) (rows sr : List (Tag × V)) (D : List Tag)
    (r : MergeEnd V C Tag) (rows' : List (Tag × V)) : Prop where
  mergedRows : MergedRows s.maxPoints rows sr D rows'
  nodup : (rows'.map Prod.fst).Nodup
  maxPoints : r.shard.maxPoints = s.maxPoints
  deletionSet : D.Nodup →
    r.deletionSet = D.filter fun t => t ∉ rows.map Prod.fst ∧ t ∉ sr.map Prod.fst
  lti : ∀ l t, r.shard.ltiLocationToTag.lookup l = some t ↔ ∃ v, rows'[l]? = some (t, v)
  ltiNumPoints : r.shard.ltiNumPoints = rows'.length
  files : rows' ≠ [] → r.shard.files = Index.filesOf rows'
  fullPrecision : rows' ≠ [] → ∃ z, r.shard.fullPrecision = some (rows'.map Prod.snd ++ [z])
  notWritten : rows' = [] → r.shard.fullPrecision = s.fullPrecision
  newCodes : sr ≠ [] → ∃ z, r.shard.compressed = (rows'.map fun r => c.pqCode r.2) ++ [z]
  oldCodes : sr = [] → r.shard.compressed = s.compressed
  returned : r.returned = true ↔
    r.shard.fullPrecision.map List.length = some r.shard.compressed.length
  short : r.returned = true → r.shard.shortTermIndex.Holds [] ∧ r.shard.active = true

variable {D : List Tag}

theorem holds_insertShort {short : Index V Tag} (hshort : short.Holds sr) {ord : InsertOrder Tag}
    (hrem : temp.Remains rows fun t => t ∉ D)
    (hpending : temp.lazyDone = true ∧ temp.dataCompacted = false ∨ temp.Holds (kept D rows))
    {x : (AList fun _ : Tag => ℕ) × List C × Index V Tag}
    (hs : insertShort c ord D short temp = some x) (files : IndexFiles V Tag) : (sr = [] ∧ x.1 = ∅ ∨
        sr ≠ [] ∧ x.1 = short.tagToLocation ∧ x.2.1 = (sr.map Prod.snd).map c.pqCode) ∧
      ∃ (rows' : List (Tag × V)) (t' : Index V Tag), MergedRows temp.maxPoints rows sr D rows' ∧ t'.Holds rows' ∧
        x.2.2.save c files = some (t'.writeFiles c files) := by
  unfold insertShort at hs
  have hle : (kept D rows).length ≤ temp.maxPoints := (length_filter_le _ _).trans hrem.le
  split_ifs at hs with hnd
  · have hsr : sr = [] := eq_nil_of_length_eq_zero (hshort.nd ▸ hnd)
    rw [Option.some.injEq] at hs
    subst hs
    refine ⟨.inl ⟨hsr, rfl⟩, kept D rows, ?_⟩
    have hrows : MergedRows temp.maxPoints rows sr D (kept D rows) := by
      refine ⟨[], by rw [hsr]; exact Perm.refl _, ?_⟩
      rw [append_nil, take_of_length_le hle]
    rcases hpending with ⟨hlazy, hcomp⟩ | hholds
    · exact ⟨_, hrows, hrem.compactData, hrem.save hlazy hcomp files⟩
    · exact ⟨_, hrows, hholds, hholds.save files⟩
  · have hsr : sr ≠ [] := by
      rintro rfl
      exact hnd hshort.nd
    rw [hshort.extractData, bind_eq_bind, bind_some, bind_eq_bind,
      bind_eq_some_iff] at hs
    obtain ⟨temp', hfold, hs⟩ := hs
    rw [Option.pure_def, Option.some.injEq] at hs
    subst hs
    obtain ⟨hholds, -⟩ := holds_foldlM_insertPoint hrem.compactData hfold
    exact ⟨.inr ⟨hsr, rfl, rfl⟩, _, _, ⟨_, perm_rowsAt_newTags hshort ord D, rfl⟩, hholds,
      hholds.save files⟩

theorem MergedRows.mem (h : MergedRows maxPoints rows sr D rows') (hle : rows.length ≤ maxPoints)
    (hnd : (rows'.map Prod.fst).Nodup) {r : Tag × V} (hr : r ∈ rows') :
    r ∈ rows ∨ r ∈ sr ∧ r.1 ∉ rows.map Prod.fst := by
  obtain ⟨news, hperm, rfl⟩ := h
  have hkept : (kept D rows).length ≤ maxPoints := (length_filter_le _ _).trans hle
  rw [take_append, take_of_length_le hkept] at hr hnd
  rcases mem_append.1 hr with hr | hr
  · exact .inl (mem_filter.1 hr).1
  · have hnew := mem_filter.1 (hperm.mem_iff.1 (mem_of_mem_take hr))
    refine .inr ⟨hnew.1, fun hold => ?_⟩
    obtain ⟨⟨t, v⟩, hmem, heq⟩ := mem_map.1 hold
    rw [map_append] at hnd
    apply disjoint_of_nodup_append hnd _ (mem_map.2 ⟨r, hr, rfl⟩)
    rw [← heq] at hnew ⊢
    exact mem_map.2 ⟨(t, v), mem_filter.2 ⟨hmem, hnew.2⟩, rfl⟩

theorem loadDiskIndex_spec (s : Shard V C Tag) (D : List Tag) :
    (s.loadDiskIndex c D).shard = { s with
      shortTermIndex := (s.loadDiskIndex c D).shard.shortTermIndex
      active := (s.loadDiskIndex c D).shard.active } ∧
    (s.loadDiskIndex c D).deletionSet = D ∧
    ((s.loadDiskIndex c D).returned = true ↔ s.diskNodes = s.compressed.length) ∧
    ((s.loadDiskIndex c D).returned = true → (s.loadDiskIndex c D).shard.shortTermIndex.Holds [] ∧
      (s.loadDiskIndex c D).shard.active = s.active) := by
  unfold loadDiskIndex
  split_ifs with hne
  · exact ⟨rfl, rfl, iff_of_false (by simp) hne, fun h => absurd h (by simp)⟩
  · exact ⟨rfl, rfl, iff_of_true rfl (not_not.1 hne), fun _ => ⟨Index.holds_new _, rfl⟩⟩

theorem Stores.merged (h : s.Stores c rows sr) {ord : InsertOrder Tag} {r : MergeEnd V C Tag}
    (hr : s.mergeShard c ord D = some r) : ∃ rows', Merged c s rows sr D r rows' := by
  unfold mergeShard at hr
  rw [if_neg (by simp [h.active]), h.files] at hr
  obtain ⟨temp, hload, hholds, hmax, -⟩ := Index.holds_load h.nodup h.le
  obtain ⟨hrem, hmax', hpending, hfailed⟩ := holds_deleteTags hholds D
  rw [bind_eq_bind, hload, bind_some] at hr
  rw [bind_eq_bind, bind_eq_some_iff] at hr
  obtain ⟨⟨tagToLocShort, incr, temp'⟩, hins, hr⟩ := hr
  obtain ⟨hshort, rows', t', hrows, hholds', hsave⟩ :=
    holds_insertShort h.short hrem hpending hins (Index.filesOf rows)
  rw [hmax', hmax] at hrows
  dsimp only at hr hsave hshort
  rw [hsave, bind_eq_bind, bind_some] at hr
  obtain ⟨hwrite, -, hfiles⟩ := hholds'.writeFiles (Index.filesOf rows)
  generalize t'.writeFiles c (Index.filesOf rows) = w at hr hwrite hfiles
  rw [bind_eq_bind, bind_eq_some_iff] at hr
  obtain ⟨compressed, hcomp, hr⟩ := hr
  rw [bind_eq_bind, bind_eq_some_iff] at hr
  obtain ⟨diskNodes, hdisk, hr⟩ := hr
  have hdel : D.Nodup → ((deleteTags D temp).1.filter fun t => !(tagToLocShort.lookup t).isSome) =
      D.filter fun t => t ∉ rows.map Prod.fst ∧ t ∉ sr.map Prod.fst := by
    intro hnd
    rw [hfailed hnd, List.filter_filter]
    apply filter_congr
    intro t _
    have hlook : (tagToLocShort.lookup t).isSome = true ↔ t ∈ sr.map Prod.fst := by
      rcases hshort with ⟨rfl, rfl⟩ | ⟨-, rfl, -⟩
      · simp
      · exact h.short.lookup_tag t
    by_cases ht : t ∈ sr.map Prod.fst
    · simp [hlook.2 ht, ht]
    · have hno : (tagToLocShort.lookup t).isSome = false := by
        rw [← Bool.not_eq_true]
        exact fun hl => ht (hlook.1 hl)
      simp [hno, ht]
  unfold writeCodes at hcomp
  rw [h.short.nd] at hcomp
  have hnew : sr ≠ [] → ∃ z, compressed = (rows'.map fun r => c.pqCode r.2) ++ [z] := by
    intro hne
    obtain ⟨-, rfl, rfl⟩ := hshort.resolve_left fun hs => hne hs.1
    obtain ⟨z, hz⟩ := h.updateCompressedVectors hwrite.loc fun r hr => hrows.mem h.le hwrite.nodup hr
    rw [if_neg (length_pos_of_ne_nil hne).ne', hz, Option.some.injEq] at hcomp
    exact ⟨z, hcomp.symm⟩
  have hold : sr = [] → compressed = s.compressed := by
    rintro rfl
    rw [length_nil, if_pos rfl, Option.some.injEq] at hcomp
    exact hcomp.symm
  rw [Option.pure_def, Option.some.injEq] at hr
  subst hr
  obtain ⟨hshard, hdels, hret, hafter⟩ := loadDiskIndex_spec { s with
    files := w.2, fullPrecision := w.1.saveData s.fullPrecision, compressed, diskNodes
    ltiNumPoints := w.1.nd, ltiLocationToTag := w.1.locationToTag }
    ((deleteTags D temp).1.filter fun t => !(tagToLocShort.lookup t).isSome)
  refine ⟨rows', ?_⟩
  constructor
  case mergedRows => exact hrows
  case nodup => exact hwrite.nodup
  case maxPoints => rw [hshard]
  case deletionSet => exact fun hnd => hdels.trans (hdel hnd)
  case lti =>
    rw [hshard]
    exact hwrite.loc
  case ltiNumPoints =>
    rw [hshard]
    exact hwrite.nd
  case files =>
    rw [hshard]
    exact hfiles
  case fullPrecision =>
    rw [hshard]
    exact fun hne => ⟨_, hwrite.saveData hne s.fullPrecision⟩
  case notWritten =>
    rw [hshard]
    intro hnil
    exact if_pos (by rw [hwrite.nd, hnil]; rfl)
  case newCodes =>
    rw [hshard]
    exact hnew
  case oldCodes =>
    rw [hshard]
    exact hold
  case returned =>
    rw [hret, hshard]
    show _ ↔ (w.1.saveData s.fullPrecision).map List.length = some compressed.length
    rw [hdisk, Option.some.injEq]
  case short => exact fun hr => ⟨(hafter hr).1, (hafter hr).2.trans h.active⟩

/-! ### Which merges keep the codes right -/

theorem MergedRows.eq_of_nil (h : MergedRows maxPoints rows [] D rows')
    (hle : rows.length ≤ maxPoints) (hD : ∀ r ∈ rows, r.1 ∉ D) : rows' = rows := by
  obtain ⟨news, hperm, rfl⟩ := h
  have hkept : kept D rows = rows := filter_eq_self.2 fun r hr => by simpa using hD r hr
  have hnil : news = [] := Perm.eq_nil hperm
  rw [hnil, append_nil, hkept, take_of_length_le hle]

/-- A merge that inserts a point, or deletes none from the long-term index, leaves the codes of its
vectors; it returns when there is a vector left. -/
theorem Merged.codesMatch {r : MergeEnd V C Tag} (hm : Merged c s rows sr D r rows')
    (h : s.Stores c rows sr) (hcodes : s.HasCodes D) :
    r.shard.CodesMatch c ∧ (r.returned = true ↔ rows' ≠ []) ∧
      (r.returned = true → r.shard.Stores c rows' []) := by
  have hall : ∃ z, r.shard.compressed = (rows'.map fun r => c.pqCode r.2) ++ [z] := by
    by_cases hsr : sr = []
    · subst hsr
      have hD : ∀ r ∈ rows, r.1 ∉ D := by
        rintro ⟨t, v⟩ hmem
        obtain ⟨l, hl⟩ := mem_iff_getElem?.1 hmem
        have hentry := mem_entries.2 ((h.lti l t).2 ⟨v, hl⟩)
        exact hcodes.resolve_left (by simp [h.short.nd]) _ hentry
      rw [hm.mergedRows.eq_of_nil h.le hD, hm.oldCodes rfl]
      exact h.compressed
    · exact hm.newCodes hsr
  have hreturned : r.returned = true ↔ rows' ≠ [] := by
    rw [hm.returned]
    obtain ⟨z, hz⟩ := hall
    constructor
    · rintro hlen rfl
      obtain ⟨z', hz'⟩ := h.fullPrecision
      have hpos := length_pos_of_ne_nil h.ne
      rw [hm.notWritten rfl, hz', hz] at hlen
      simp only [map_some, length_append, length_map, length_singleton,
        length_nil, Option.some.injEq] at hlen
      omega
    · intro hne
      obtain ⟨z', hz'⟩ := hm.fullPrecision hne
      rw [hz', hz]
      simp
  refine ⟨codesMatch_of_rows hm.lti hm.fullPrecision hall, hreturned, fun hret => ?_⟩
  have hne := hreturned.1 hret
  constructor
  case le =>
    obtain ⟨news, -, heq⟩ := hm.mergedRows
    rw [heq, hm.maxPoints]
    exact length_take_le _ _
  case ne => exact hne
  case nodup => exact hm.nodup
  case files => exact hm.files hne
  case fullPrecision => exact hm.fullPrecision hne
  case compressed => exact hall
  case ltiNumPoints => exact hm.ltiNumPoints
  case lti => exact hm.lti
  case short => exact (hm.short hret).1
  case active => exact (hm.short hret).2

theorem Stores.step (h : s.Stores c rows sr) {op : Op V Tag} (hok : s.KeepsCodes op)
    {s' : Shard V C Tag} (hstep : s.step c op = some s') :
    ∃ rows' sr', s'.Stores c rows' sr' := by
  cases op with
  | insert point tag =>
    obtain ⟨r, hins, rfl⟩ := map_eq_some_iff.1 hstep
    rcases (h.insert hins).2 with ⟨-, -, -, hstores⟩ | ⟨-, -, heq⟩
    · exact ⟨_, _, hstores⟩
    · rw [heq]
      exact ⟨_, _, h⟩
  | merge ord D =>
    obtain ⟨r, hmerge, hret⟩ := bind_eq_some_iff.1 hstep
    obtain ⟨rows', hm⟩ := h.merged hmerge
    obtain ⟨-, -, hstores⟩ := hm.codesMatch h hok
    split_ifs at hret with hreturned
    · rw [Option.some.injEq] at hret
      exact ⟨_, _, hret ▸ hstores hreturned⟩

/-- Over every run from a built shard in which each merge inserts a point or deletes none from the
long-term index, the codes are those of the vectors, also after the next such merge, which returns
unless it leaves no vector. -/
theorem codesMatch_of_reach {maxPoints : ℕ} {source : List (Tag × V)}
    (hnd : (source.map Prod.fst).Nodup)
    (hs : Reach (fun s => build c maxPoints source = some s) (guarded KeepsCodes (ofFn (Shard.step c))) s) :
    s.CodesMatch c ∧ ∀ ord D r, s.HasCodes D → s.mergeShard c ord D = some r →
      r.shard.CodesMatch c ∧ (r.shard.ltiNumPoints ≠ 0 → r.returned = true) := by
  have hinv : ∃ rows sr, s.Stores c rows sr := by
    apply hs.invariant (P := fun s => ∃ rows sr, s.Stores c rows sr)
    · exact fun s hb => ⟨source, [], (stores_build hnd hb).1⟩
    · rintro s op s' ⟨rows, sr, h⟩ ⟨hok, hstep⟩
      exact h.step hok hstep
  obtain ⟨rows, sr, h⟩ := hinv
  refine ⟨codesMatch_of_rows h.lti (fun _ => h.fullPrecision) h.compressed, fun ord D r hcodes hr => ?_⟩
  obtain ⟨rows', hm⟩ := h.merged hr
  obtain ⟨hmatch, hret, -⟩ := hm.codesMatch h hcodes
  refine ⟨hmatch, fun hpos => hret.2 ?_⟩
  rintro rfl
  exact hpos hm.ltiNumPoints

/-! ### Three points -/

/-- Vectors and codes are numbers, and a code is ten times its vector. -/
def tenfold : ShardConfig ℕ ℕ ℕ where
  zeros := 0
  tagInit := 0
  firstSlot := fun s => s.sup id
  pqCode := fun v => 10 * v
  uninit := fun _ => 0

def inMapOrder : InsertOrder ℕ := ⟨id, fun _ => List.Perm.refl _⟩

/-- A merge that deletes tag 7 and inserts tag 10. -/
theorem codesMatch_after_insert : ∃ (s : Shard ℕ ℕ ℕ) (r : MergeEnd ℕ ℕ ℕ),
    s.mergeShard tenfold inMapOrder [7] = some r ∧
    r.shard.ltiNumPoints = 3 ∧ r.shard.CodesMatch tenfold ∧ r.returned = true := by
  have hrun : ((build tenfold 4 [(7, 1), (8, 2), (9, 3)]).bind fun s =>
      (runsGuarded KeepsCodes (Shard.step tenfold) s [.insert 4 10]).bind fun s =>
        (s.mergeShard tenfold inMapOrder [7]).map fun r =>
          (r.shard.ltiNumPoints, decide (s.HasCodes [7]))) = some (3, true) := by
    decide +kernel
  obtain ⟨s₀, hs₀, hrun⟩ := bind_eq_some_iff.1 hrun
  obtain ⟨s, hs, hrun⟩ := bind_eq_some_iff.1 hrun
  obtain ⟨r, hr, heq⟩ := map_eq_some_iff.1 hrun
  obtain ⟨hpoints, hcodes⟩ := Prod.mk.inj heq
  obtain ⟨hmatch, hret⟩ := (@codesMatch_of_reach _ _ _ _ tenfold s 4 [(7, 1), (8, 2), (9, 3)] (by decide)
    (reach_of_runsGuarded hs₀ hs)).2 inMapOrder [7] r (of_decide_eq_true hcodes) hr
  exact ⟨s, r, hr, hpoints, hmatch, hret (by omega)⟩

/-- After tag 7 is deleted alone, location 0 has the vector of tag 8 and the code of tag 7. -/
theorem codes_stale_after_delete : ¬ ∀ s, Reach (fun s => build tenfold 4 [(7, 1), (8, 2), (9, 3)] = some s)
    (ofFn (Shard.step tenfold)) s → ∀ ord D r, s.mergeShard tenfold ord D = some r →
      r.shard.CodesMatch tenfold := by
  intro hall
  have hrun : ((build tenfold 4 [(7, 1), (8, 2), (9, 3)]).bind fun s =>
      (s.mergeShard tenfold inMapOrder [7]).map fun r => (r.shard.ltiLocationToTag.lookup 0,
        r.shard.fullPrecision, r.shard.compressed)) = some (some 8, some [2, 3, 0], [10, 20, 30, 0]) := by
    decide +kernel
  obtain ⟨s, hs, hrun⟩ := bind_eq_some_iff.1 hrun
  obtain ⟨r, hr, heq⟩ := map_eq_some_iff.1 hrun
  simp only [Prod.mk.injEq] at heq
  obtain ⟨hl, hfull, hcodes⟩ := heq
  obtain ⟨v, hv, hcode⟩ := hall s (.start hs) inMapOrder [7] r hr 0 8 hl
  rw [hfull] at hv
  rw [hcodes] at hcode
  simp [tenfold] at hv hcode
  omega

end Shard

end DiskANNEval.FreshDiskANN
