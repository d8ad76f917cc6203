import DiskANNEval.Lib.Loops
import DiskANNEval.FreshDiskANN.ShardMerge

/-!
# SyncIndex — shards behind one counter and one set of deleted tags

`_num_points` goes up with each insertion that a shard takes and down with each call of `lazy_delete`,
whatever the tag.  A merge empties the set of deleted tags: those that no shard had stay in it.
-/

namespace DiskANNEval.FreshDiskANN

open Lib List Option

namespace Shard

variable {V C Tag : Type} [DecidableEq Tag] (s : Shard V C Tag)

/-- The tags of the long-term index, and those of the short-term one. -/
def tags : List Tag :=
  (s.ltiLocationToTag.entries.map fun e => e.2) ++ s.shortTermIndex.tagToLocation.entries.map fun e => e.1

/-- A merge leaves a point, and there is room for all that it leaves. -/
def MergeFits (deletionSet : List Tag) : Prop :=
  (s.tags.filter fun t => t ∉ deletionSet) ≠ [] ∧
    (s.tags.filter fun t => t ∉ deletionSet).length ≤ s.maxPoints

instance (deletionSet : List Tag) : Decidable (s.MergeFits deletionSet) :=
  inferInstanceAs (Decidable (_ ∧ _))

end Shard

structure SyncIndex (V C Tag : Type) where
  numPoints : UInt64
  maxPoints : UInt64
  deletionSet : List Tag
  shards : List (Shard V C Tag)

namespace SyncIndex

variable {V C Tag : Type} [DecidableEq Tag] (c : ShardConfig V C Tag)

/-- `build`; `maxPointsShard` is `(_max_points / _num_shards) * SHARD_SLACK_FACTOR`.  `none`: there are
no shards, there are too many points, or a shard cannot be built. -/
def build (numShards maxPointsShard : ℕ) (maxPoints : UInt64) (source : List (Tag × V)) :
    Option (SyncIndex V C Tag) :=
  if numShards = 0 ∨ maxPoints.toNat < source.length then none
  else
    let numPointsShard := source.length / numShards
    ((List.range numShards).mapM fun i =>
      let rest := source.drop (i * numPointsShard)
      Shard.build c maxPointsShard (if i = numShards - 1 then rest else rest.take numPointsShard)).map
    fun shards => ⟨UInt64.ofNat source.length, maxPoints, [], shards⟩

variable (s : SyncIndex V C Tag)

/-- The result code and the index; `shard` is `rand() % _num_shards`. -/
def insert (shard : ℕ) (point : V) (tag : Tag) : Option (ℤ × SyncIndex V C Tag) :=
  if s.maxPoints ≤ s.numPoints then some (-1, s)
  else
    s.shards[shard]?.bind fun sh => (sh.insert c point tag).map fun r =>
      let s := { s with shards := s.shards.set shard r.2 }
      if r.1 ≠ 0 then (-2, s) else (0, { s with numPoints := s.numPoints + 1 })

def lazyDelete (tag : Tag) : SyncIndex V C Tag :=
  { s with
    deletionSet := if tag ∈ s.deletionSet then s.deletionSet else s.deletionSet ++ [tag]
    numPoints := s.numPoints - 1 }

/-- The loop of `merge_all`, with the order of the insertions in each shard; `none`: the process ends,
or the merge of a shard does not return. -/
def mergeShards : List (InsertOrder Tag × Shard V C Tag) → List Tag → Option (List (Shard V C Tag) × List Tag)
  | [], deletionSet => some ([], deletionSet)
  | (ord, sh) :: rest, deletionSet => do
    let r ← sh.mergeShard c ord deletionSet
    if r.returned then
      let (shards, deletionSet) ← mergeShards rest r.deletionSet
      return (r.shard :: shards, deletionSet)
    else none

def mergeAll (ord : ℕ → InsertOrder Tag) : Option (SyncIndex V C Tag) :=
  (mergeShards c (s.shards.zipIdx.map fun x => (ord x.2, x.1)) s.deletionSet).map fun r =>
    { s with shards := r.1, deletionSet := r.2 }

/-! ### Runs -/

inductive Op (V Tag : Type)
  | insert (shard : ℕ) (point : V) (tag : Tag)
  | lazyDelete (tag : Tag)
  | mergeAll (ord : ℕ → InsertOrder Tag)

def step (s : SyncIndex V C Tag) : Op V Tag → Option (SyncIndex V C Tag)
  | .insert shard point tag => (s.insert c shard point tag).map Prod.snd
  | .lazyDelete tag => some (s.lazyDelete tag)
  | .mergeAll ord => s.mergeAll c ord

def tags : List Tag := s.shards.flatMap Shard.tags

/-- The tags over all shards that are not deleted: those that a search can return. -/
def liveTags : Finset Tag := (s.tags.filter fun t => t ∉ s.deletionSet).toFinset

/-- What keeps the counter right: an insertion that is taken has a new tag, a deletion has a live one,
and a merge leaves in each shard at least a point and no more than fit. -/
def KeepsCount (s : SyncIndex V C Tag) : Op V Tag → Prop
  | .insert shard _ tag => s.numPoints < s.maxPoints →
      (s.shards[shard]?.any fun sh => sh.HasRoom) = true → tag ∉ s.liveTags ∧ tag ∉ s.deletionSet
  | .lazyDelete tag => tag ∈ s.liveTags
  | .mergeAll _ => ∀ sh ∈ s.shards, sh.MergeFits s.deletionSet

instance (s : SyncIndex V C Tag) : ∀ op, Decidable (s.KeepsCount op)
  | .insert _ _ _ => inferInstanceAs (Decidable (_ → _ → _ ∧ _))
  | .lazyDelete _ => inferInstanceAs (Decidable (_ ∈ _))
  | .mergeAll _ => inferInstanceAs (Decidable (∀ _ ∈ _, _))

end SyncIndex

/-! ### The tags of a shard -/

namespace Shard

variable {V C Tag : Type} [DecidableEq Tag] {c : ShardConfig V C Tag} {s : Shard V C Tag}
  {rows sr : List (Tag × V)} {D : List Tag}

theorem Stores.tags_perm (h : s.Stores c rows sr) : s.tags.Perm ((rows ++ sr).map Prod.fst) := by
  rw [map_append]
  apply Perm.append
  · apply (perm_ext_iff_of_nodup (Index.nodup_entries_tag h.nodup h.lti) h.nodup).2
    intro t
    rw [List.mem_map, List.mem_map]
    constructor
    · rintro ⟨e, he, rfl⟩
      obtain ⟨v, hv⟩ := (h.lti e.1 e.2).1 (mem_entries.1 he)
      exact ⟨_, mem_of_getElem? hv, rfl⟩
    · rintro ⟨⟨t', v⟩, hmem, rfl⟩
      obtain ⟨l, hl⟩ := mem_iff_getElem?.1 hmem
      exact ⟨_, mem_entries.2 ((h.lti l t').2 ⟨v, hl⟩), rfl⟩
  · have hkeys : (s.shortTermIndex.tagToLocation.entries.map fun e => e.1) =
        s.shortTermIndex.tagToLocation.keys := rfl
    apply (perm_ext_iff_of_nodup s.shortTermIndex.tagToLocation.keys_nodup h.short.nodup).2
    intro t
    rw [← h.short.lookup_tag t, AList.lookup_isSome]
    rfl

theorem Merged.hasCodes {r : MergeEnd V C Tag} {rows' : List (Tag × V)} (h : s.Stores c rows sr)
    (hm : Merged c s rows sr D r rows') (hret : r.returned = true) (hne : rows' ≠ []) : s.HasCodes D := by
  by_cases hsr : sr = []
  · right
    subst hsr
    obtain ⟨z, hz⟩ := hm.fullPrecision hne
    obtain ⟨z', hz'⟩ := h.compressed
    have hlen := hm.returned.1 hret
    rw [hz, hm.oldCodes rfl, hz'] at hlen
    simp only [map_some, length_append, length_map, length_singleton,
      Option.some.injEq] at hlen
    obtain ⟨news, hperm, rfl⟩ := hm.mergedRows
    have hnil : news = [] := Perm.eq_nil hperm
    rw [hnil, append_nil, List.length_take] at hlen
    have hfull : (kept D rows).length = rows.length :=
      le_antisymm (length_filter_le _ _) (by omega)
    have hall := length_filter_eq_length_iff.1 hfull
    rintro ⟨l, t⟩ he
    obtain ⟨v, hv⟩ := (h.lti l t).1 (mem_entries.1 he)
    simpa using hall (t, v) (mem_of_getElem? hv)
  · left
    rw [h.short.nd]
    exact length_pos_of_ne_nil hsr

theorem map_fst_kept (rows : List (Tag × V)) :
    (kept D rows).map Prod.fst = (rows.map Prod.fst).filter fun t => t ∉ D := by
  rw [List.filter_map]
  rfl

theorem Stores.merge_fits (h : s.Stores c rows sr) (hfit : s.MergeFits D) {ord : InsertOrder Tag}
    {r : MergeEnd V C Tag} (hr : s.mergeShard c ord D = some r) (hret : r.returned = true) :
    ∃ rows', r.shard.Stores c rows' [] ∧
      (rows'.map Prod.fst).Perm (((rows ++ sr).map Prod.fst).filter fun t => t ∉ D) ∧
      (D.Nodup → r.deletionSet = D.filter fun t => t ∉ (rows ++ sr).map Prod.fst) := by
  obtain ⟨rows', hm⟩ := h.merged hr
  obtain ⟨news, hperm, heq⟩ := hm.mergedRows
  have hall : ((kept D rows ++ news).map Prod.fst).Perm
      (((rows ++ sr).map Prod.fst).filter fun t => t ∉ D) := by
    rw [map_append, map_append, filter_append, map_fst_kept, ← map_fst_kept sr]
    exact (hperm.map Prod.fst).append_left _
  have hlen : (kept D rows ++ news).length = (s.tags.filter fun t => t ∉ D).length := by
    rw [(h.tags_perm.filter _).length_eq, ← hall.length_eq, length_map]
  have hrows : rows' = kept D rows ++ news := by
    rw [heq]
    exact take_of_length_le (hlen.le.trans hfit.2)
  have hne : rows' ≠ [] := by
    rw [← length_pos_iff_ne_nil, hrows, hlen, length_pos_iff_ne_nil]
    exact hfit.1
  obtain ⟨-, -, hstores⟩ := hm.codesMatch h (hm.hasCodes h hret hne)
  refine ⟨rows', hstores hret, hrows ▸ hall, fun hnd => ?_⟩
  rw [hm.deletionSet hnd]
  apply filter_congr
  intro t _
  simp only [map_append, mem_append, not_or]

end Shard

namespace SyncIndex

variable {V C Tag : Type} [DecidableEq Tag] {c : ShardConfig V C Tag} {s : SyncIndex V C Tag}

/-- The tags of the rows of some shards. -/
def tagsOf (rs : List (List (Tag × V) × List (Tag × V))) : List Tag :=
  rs.flatMap fun r => (r.1 ++ r.2).map Prod.fst

omit [DecidableEq Tag] in
@[simp] theorem tagsOf_cons (r : List (Tag × V) × List (Tag × V))
    (rs : List (List (Tag × V) × List (Tag × V))) :
    tagsOf (r :: rs) = (r.1 ++ r.2).map Prod.fst ++ tagsOf rs := List.flatMap_cons

def AllStore (c : ShardConfig V C Tag) (shards : List (Shard V C Tag))
    (rs : List (List (Tag × V) × List (Tag × V))) : Prop :=
  List.Forall₂ (fun sh r => sh.Stores c r.1 r.2) shards rs

variable {rs : List (List (Tag × V) × List (Tag × V))}

theorem AllStore.tags_perm {shards : List (Shard V C Tag)} (h : AllStore c shards rs) :
    (shards.flatMap Shard.tags).Perm (tagsOf rs) := by
  induction h with
  | nil => exact Perm.refl _
  | cons hsh _ ih => exact hsh.tags_perm.append ih

variable {D : List Tag}

theorem mergeFits_congr {sh : Shard V C Tag} {D' : List Tag} (h : ∀ t ∈ sh.tags, t ∈ D ↔ t ∈ D') :
    sh.MergeFits D ↔ sh.MergeFits D' := by
  have hfilter : (sh.tags.filter fun t => t ∉ D) = sh.tags.filter fun t => t ∉ D' :=
    filter_congr fun t ht => by simp [h t ht]
  unfold Shard.MergeFits
  rw [hfilter]

/-- The loop of `merge_all` keeps the tags that are not deleted, and leaves deleted the tags that no
shard had. -/
theorem allStore_mergeShards {xs : List (InsertOrder Tag × Shard V C Tag)}
    (h : AllStore c (xs.map Prod.snd) rs) (hnd : (tagsOf rs).Nodup) (hD : D.Nodup)
    (hfit : ∀ x ∈ xs, x.2.MergeFits D) {r : List (Shard V C Tag) × List Tag}
    (hr : mergeShards c xs D = some r) :
    ∃ rs', AllStore c r.1 rs' ∧ (tagsOf rs').Perm ((tagsOf rs).filter fun t => t ∉ D) ∧
      r.2 = D.filter fun t => t ∉ tagsOf rs := by
  induction xs generalizing D rs r with
  | nil =>
    cases h
    cases hr
    exact ⟨[], .nil, Perm.refl _, by simp [tagsOf]⟩
  | cons x xs ih =>
    rcases h with - | ⟨hsh, hrest⟩
    rename_i row rs
    rw [mergeShards, bind_eq_bind, bind_eq_some_iff] at hr
    obtain ⟨m, hm, hr⟩ := hr
    split_ifs at hr with hret
    rw [bind_eq_bind, bind_eq_some_iff] at hr
    obtain ⟨r', hr', hr⟩ := hr
    rw [Option.pure_def, Option.some.injEq] at hr
    subst hr
    obtain ⟨rows', hstores, hperm, hdel⟩ := hsh.merge_fits (hfit _ mem_cons_self) hm hret
    rw [hdel hD] at hr'
    rw [tagsOf_cons] at hnd ⊢
    -- the tags of the other shards are deleted if and only if they were
    have hsame : ∀ t ∈ tagsOf rs, t ∈ D ↔ t ∈ D.filter fun t => t ∉ (row.1 ++ row.2).map Prod.fst := by
      intro t ht
      have hno : t ∉ (row.1 ++ row.2).map Prod.fst := fun hrow =>
        disjoint_of_nodup_append hnd hrow ht
      rw [mem_filter]
      exact ⟨fun hin => ⟨hin, decide_eq_true hno⟩, fun hin => hin.1⟩
    have hfit' : ∀ y ∈ xs, y.2.MergeFits (D.filter fun t => t ∉ (row.1 ++ row.2).map Prod.fst) := by
      intro y hy
      refine (mergeFits_congr fun t ht => hsame t ?_).1 (hfit y (mem_cons_of_mem _ hy))
      have hmem : t ∈ (xs.map Prod.snd).flatMap Shard.tags :=
        mem_flatMap.2 ⟨y.2, mem_map_of_mem hy, ht⟩
      exact (AllStore.tags_perm hrest).mem_iff.1 hmem
    obtain ⟨rs', hall, hperm', hdel'⟩ := ih hrest (nodup_append.1 hnd).2.1 (hD.filter _) hfit' hr'
    refine ⟨(rows', []) :: rs', .cons hstores hall, ?_, ?_⟩
    · rw [tagsOf_cons, append_nil, filter_append]
      refine hperm.append (hperm'.trans (Perm.of_eq ?_))
      exact filter_congr fun t ht => by simp only [hsame t ht]
    · rw [hdel', List.filter_filter]
      apply filter_congr
      intro t _
      simp only [mem_append, not_or, Bool.decide_and]
      rw [Bool.and_comm]

/-! ### The counter -/

/-- The shards store rows with distinct tags, and the counter is the number of those that are not
deleted. -/
def Counts (c : ShardConfig V C Tag) (s : SyncIndex V C Tag) : Prop :=
  ∃ rs, AllStore c s.shards rs ∧ (tagsOf rs).Nodup ∧ s.deletionSet.Nodup ∧
    s.numPoints.toNat = ((tagsOf rs).filter fun t => t ∉ s.deletionSet).length

theorem Counts.card_liveTags (h : s.Counts c) : s.numPoints.toNat = s.liveTags.card := by
  obtain ⟨rs, hall, hnd, -, hcount⟩ := h
  have hperm := hall.tags_perm.filter fun t => decide (t ∉ s.deletionSet)
  unfold liveTags tags
  rw [toFinset_card_of_nodup, hcount, hperm.length_eq]
  exact hperm.nodup_iff.2 (hnd.filter _)

theorem mem_liveTags (h : AllStore c s.shards rs) (t : Tag) :
    t ∈ s.liveTags ↔ t ∈ tagsOf rs ∧ t ∉ s.deletionSet := by
  unfold liveTags tags
  rw [List.mem_toFinset, mem_filter, h.tags_perm.mem_iff, decide_eq_true_eq]

/-- The points of a shard: the last one gets the rest. -/
def piece (source : List (Tag × V)) (numShards numPointsShard i : ℕ) : List (Tag × V) :=
  if i = numShards - 1 then source.drop (i * numPointsShard)
  else (source.drop (i * numPointsShard)).take numPointsShard

omit [DecidableEq Tag] in
theorem piece_sublist (source : List (Tag × V)) (numShards numPointsShard i : ℕ) :
    (piece source numShards numPointsShard i).Sublist source := by
  unfold piece
  split_ifs
  · exact drop_sublist _ source
  · exact (take_sublist _ _).trans (drop_sublist _ source)

omit [DecidableEq Tag] in
theorem flatMap_piece (source : List (Tag × V)) {numShards : ℕ} (numPointsShard : ℕ) (h0 : numShards ≠ 0) :
    (List.range numShards).flatMap (piece source numShards numPointsShard) = source := by
  obtain ⟨n, rfl⟩ := Nat.exists_eq_add_one_of_ne_zero h0
  have hprefix : ∀ k ≤ n, (List.range k).flatMap (piece source (n + 1) numPointsShard) =
      source.take (k * numPointsShard) := by
    intro k hk
    induction k with
    | zero => simp
    | succ k ih =>
      rw [range_succ, flatMap_append, ih (by omega), flatMap_singleton, piece,
        if_neg (by omega), Nat.succ_mul, take_add]
  rw [range_succ, flatMap_append, hprefix n le_rfl, flatMap_singleton, piece,
    if_pos (Nat.add_sub_cancel n 1).symm, take_append_drop]

theorem counts_build {numShards maxPointsShard : ℕ} {maxPoints : UInt64} {source : List (Tag × V)}
    (hnd : (source.map Prod.fst).Nodup)
    (hs : build c numShards maxPointsShard maxPoints source = some s) : s.Counts c := by
  unfold build at hs
  split_ifs at hs with hbad
  obtain ⟨h0, hle⟩ := not_or.1 hbad
  obtain ⟨shards, hmap, rfl⟩ := map_eq_some_iff.1 hs
  have hbuilt := forall₂_of_mapM hmap
  have hsource := flatMap_piece source (source.length / numShards) h0
  have hpieces : tagsOf ((List.range numShards).map fun i =>
      (piece source numShards (source.length / numShards) i, [])) = source.map Prod.fst := by
    unfold tagsOf
    rw [flatMap_map]
    simp only [append_nil]
    rw [← map_flatMap, hsource]
  refine ⟨_, ?_, hpieces ▸ hnd, nodup_nil, ?_⟩
  · apply forall₂_map_right_iff.2
    refine hbuilt.flip.imp fun sh i hsh => (Shard.stores_build ?_ hsh).1
    exact hnd.sublist ((piece_sublist source numShards _ i).map Prod.fst)
  · show (UInt64.ofNat source.length).toNat = _
    have hlt := maxPoints.toNat_lt
    rw [hpieces, UInt64.toNat_ofNat', Nat.mod_eq_of_lt (by omega), filter_eq_self.2 (by simp),
      length_map]

variable {tag : Tag}

theorem filter_concat {ts : List Tag} (hnd : ts.Nodup) (hts : tag ∈ ts) (hD : tag ∉ D) :
    (ts.filter fun t => t ∉ D ++ [tag]).length + 1 = (ts.filter fun t => t ∉ D).length := by
  have hmem : tag ∈ ts.filter fun t => t ∉ D := mem_filter.2 ⟨hts, decide_eq_true hD⟩
  have herase : (ts.filter fun t => t ∉ D ++ [tag]) = (ts.filter fun t => t ∉ D).erase tag := by
    rw [(hnd.filter _).erase_eq_filter, List.filter_filter]
    apply filter_congr
    intro t _
    rw [Bool.eq_iff_iff]
    simp [and_comm]
  have hpos := length_pos_of_mem hmem
  rw [herase, length_erase_of_mem hmem]
  omega

theorem Counts.lazyDelete (h : s.Counts c) (htag : tag ∈ s.liveTags) :
    (s.lazyDelete tag).Counts c := by
  obtain ⟨rs, hall, hnd, hD, hcount⟩ := h
  obtain ⟨htags, hno⟩ := (mem_liveTags hall tag).1 htag
  have hlen := filter_concat hnd htags hno
  unfold SyncIndex.lazyDelete
  rw [if_neg hno]
  refine ⟨rs, hall, hnd, ?_, ?_⟩
  · apply Nodup.append hD (nodup_singleton tag)
    simpa [disjoint_singleton] using hno
  · have hle : (1 : UInt64) ≤ s.numPoints := by
      rw [UInt64.le_iff_toNat_le, hcount, ← hlen]
      exact Nat.succ_le_succ (Nat.zero_le _)
    show (s.numPoints - 1).toNat = _
    rw [UInt64.toNat_sub_of_le _ _ hle, UInt64.toNat_one, hcount, ← hlen, Nat.add_sub_cancel]

theorem AllStore.set {shards : List (Shard V C Tag)} (h : AllStore c shards rs) {i : ℕ}
    {sh : Shard V C Tag} (hsh : shards[i]? = some sh) :
    ∃ rows sr, sh.Stores c rows sr ∧ ∀ sh' v tag, sh'.Stores c rows (sr ++ [(tag, v)]) →
      ∃ rs', AllStore c (shards.set i sh') rs' ∧ (tagsOf rs').Perm (tag :: tagsOf rs) := by
  induction h generalizing i with
  | nil => cases hsh
  | @cons sh₀ row shards rs hstores hrest ih =>
    cases i with
    | zero =>
      cases hsh
      refine ⟨row.1, row.2, hstores, fun sh' v tag hnew => ?_⟩
      refine ⟨(row.1, row.2 ++ [(tag, v)]) :: rs, .cons hnew hrest, ?_⟩
      rw [tagsOf_cons, ← append_assoc, map_append]
      have hswap : ((row.1 ++ row.2).map Prod.fst ++ [tag]).Perm (tag :: (row.1 ++ row.2).map Prod.fst) :=
        perm_append_singleton tag _
      exact hswap.append_right _
    | succ i =>
      obtain ⟨rows, sr, hst, hset⟩ := ih hsh
      refine ⟨rows, sr, hst, fun sh' v tag hnew => ?_⟩
      obtain ⟨rs', hall, hperm⟩ := hset sh' v tag hnew
      refine ⟨row :: rs', .cons hstores hall, ?_⟩
      exact (hperm.append_left _).trans perm_middle

theorem Counts.insert (h : s.Counts c) {shard : ℕ} {v : V}
    (hok : s.KeepsCount (.insert shard v tag)) {r : ℤ × SyncIndex V C Tag}
    (hs : s.insert c shard v tag = some r) : r.2.Counts c := by
  unfold SyncIndex.insert at hs
  split_ifs at hs with hfull
  · rw [Option.some.injEq] at hs
    subst hs
    exact h
  · obtain ⟨sh, hsh, hs⟩ := bind_eq_some_iff.1 hs
    obtain ⟨r', hins, hs⟩ := map_eq_some_iff.1 hs
    obtain ⟨rs, hall, hnd, hD, hcount⟩ := h
    obtain ⟨rows, sr, hstores, hset⟩ := hall.set hsh
    have hlt : s.numPoints < s.maxPoints := by
      rw [← UInt64.not_le]
      exact hfull
    rcases (hstores.insert hins).2 with ⟨hcode, hroom, -, hnew⟩ | ⟨hcode, -, heq⟩
    · have hany : (s.shards[shard]?.any fun sh => sh.HasRoom) = true := by
        rw [hsh, any_some]
        exact decide_eq_true hroom
      obtain ⟨hlive, hno⟩ := hok hlt hany
      obtain ⟨rs', hall', hperm⟩ := hset _ v tag hnew
      have htags : tag ∉ tagsOf rs := fun ht => hlive ((mem_liveTags hall tag).2 ⟨ht, hno⟩)
      rw [if_neg (not_not.2 hcode)] at hs
      subst hs
      refine ⟨rs', hall', hperm.nodup_iff.2 (nodup_cons.2 ⟨htags, hnd⟩), hD, ?_⟩
      show (s.numPoints + 1).toNat = ((tagsOf rs').filter fun t => t ∉ s.deletionSet).length
      rw [(hperm.filter _).length_eq, filter_cons_of_pos (by simpa using hno), length_cons]
      have hmax := s.maxPoints.toNat_lt
      have hlt' := UInt64.lt_iff_toNat_lt.1 hlt
      rw [UInt64.toNat_add, UInt64.toNat_one]
      omega
    · dsimp only at hs
      rw [if_pos hcode, heq] at hs
      subst hs
      refine ⟨rs, ?_, hnd, hD, hcount⟩
      show AllStore c (s.shards.set shard sh) rs
      have hself : s.shards.set shard sh = s.shards := by
        obtain ⟨hlt, hget⟩ := List.getElem?_eq_some_iff.1 hsh
        rw [← hget, set_getElem_self hlt]
      rwa [hself]

theorem Counts.mergeAll (h : s.Counts c) (hfit : ∀ sh ∈ s.shards, sh.MergeFits s.deletionSet)
    {ord : ℕ → InsertOrder Tag} {s' : SyncIndex V C Tag} (hs : s.mergeAll c ord = some s') :
    s'.Counts c := by
  obtain ⟨rs, hall, hnd, hD, hcount⟩ := h
  obtain ⟨r, hr, rfl⟩ := map_eq_some_iff.1 hs
  have hsnd : (s.shards.zipIdx.map fun x => (ord x.2, x.1)).map Prod.snd = s.shards := by
    rw [List.map_map]
    exact zipIdx_map_fst 0 s.shards
  have hfit' : ∀ x ∈ s.shards.zipIdx.map fun x => (ord x.2, x.1), x.2.MergeFits s.deletionSet := by
    intro x hx
    exact hfit x.2 (hsnd ▸ mem_map_of_mem hx)
  obtain ⟨rs', hall', hperm, hdel⟩ := allStore_mergeShards (hsnd.symm ▸ hall) hnd hD hfit' hr
  refine ⟨rs', hall', hperm.nodup_iff.2 (hnd.filter _), ?_, ?_⟩
  · show r.2.Nodup
    rw [hdel]
    exact hD.filter _
  · show s.numPoints.toNat = ((tagsOf rs').filter fun t => t ∉ r.2).length
    rw [hcount, ← hperm.length_eq, filter_eq_self.2]
    intro t ht
    have hin := (mem_filter.1 (hperm.mem_iff.1 ht)).1
    rw [hdel, decide_eq_true_eq, mem_filter]
    exact fun hdel => of_decide_eq_true hdel.2 hin

/-- The counter is the number of live tags over every run in which the deletions are of live tags, the
insertions that are taken are of new ones, and the merges leave points that fit. -/
theorem numPoints_eq_card_liveTags {numShards maxPointsShard : ℕ} {maxPoints : UInt64}
    {source : List (Tag × V)} (hnd : (source.map Prod.fst).Nodup)
    (hs : Reach (fun s => build c numShards maxPointsShard maxPoints source = some s)
      (guarded KeepsCount (ofFn (step c))) s) : s.numPoints.toNat = s.liveTags.card := by
  have hcounts : s.Counts c := by
    apply hs.invariant (P := Counts c)
    · exact fun s hb => counts_build hnd hb
    · rintro s op s' h ⟨hok, hstep⟩
      cases op with
      | insert shard v tag =>
        obtain ⟨r, hins, rfl⟩ := map_eq_some_iff.1 hstep
        exact h.insert hok hins
      | lazyDelete tag =>
        obtain rfl := Option.some.inj hstep
        exact h.lazyDelete hok
      | mergeAll ord => exact h.mergeAll hok hstep
  exact hcounts.card_liveTags

/-- Two shards with two points each: a deletion, an insertion and a merge. -/
theorem numPoints_after_merge : ∃ s : SyncIndex ℕ ℕ ℕ,
    s.numPoints = 5 ∧ s.numPoints.toNat = s.liveTags.card := by
  have hrun : ((build Shard.tenfold 2 4 8 [(7, 1), (8, 2), (9, 3), (10, 4)]).bind fun s =>
      runsGuarded KeepsCount (step Shard.tenfold) s [.lazyDelete 8, .insert 0 5 11, .insert 1 6 12,
        .lazyDelete 9, .insert 1 7 13, .lazyDelete 13, .insert 1 8 14,
        .mergeAll fun _ => Shard.inMapOrder]).map numPoints = some 5 := by
    decide +kernel
  obtain ⟨s, hs, hcount⟩ := map_eq_some_iff.1 hrun
  obtain ⟨s₀, hs₀, hs⟩ := bind_eq_some_iff.1 hs
  exact ⟨s, hcount, @numPoints_eq_card_liveTags _ _ _ _ Shard.tenfold s 2 4 8
    [(7, 1), (8, 2), (9, 3), (10, 4)] (by decide)
    (reach_of_runsGuarded hs₀ hs)⟩

/-- An unknown tag is deleted twice from an index with one point. -/
theorem numPoints_underflows : ¬ ∀ s, Reach (fun s => build Shard.tenfold 1 4 4 [(7, 1)] = some s)
    (ofFn (step Shard.tenfold)) s → s.numPoints.toNat = s.liveTags.card := by
  intro hall
  have hrun : ((build Shard.tenfold 1 4 4 [(7, 1)]).bind fun s =>
      runs (step Shard.tenfold) s [.lazyDelete 8, .lazyDelete 8]).map
        (fun s => (s.numPoints, s.liveTags)) = some (18446744073709551615, {7}) := by
    decide +kernel
  obtain ⟨s, hs, hcount⟩ := map_eq_some_iff.1 hrun
  obtain ⟨s₀, hs₀, hs⟩ := bind_eq_some_iff.1 hs
  have heq := hall s (reach_of_runs (.start hs₀) hs)
  rw [(Prod.mk.inj hcount).1, (Prod.mk.inj hcount).2] at heq
  exact absurd heq (by decide)

end SyncIndex

end DiskANNEval.FreshDiskANN
