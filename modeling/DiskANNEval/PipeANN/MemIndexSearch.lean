import DiskANNEval.PipeANN.FixedPointReach
import DiskANNEval.PipeANN.MemIndexEntry

/-!
# MemIndexSearch — what the searches of the index in memory hand out

All three go through the array of the search without regard to how much of it has been filled; a
place that has not holds location `0` at the largest distance.  `search` and `search_with_tags` may
end before such a place, when enough has been found, and `search_with_tags` leaves it out when
location `0` has no tag; `search_with_tags_fast` fills all its places, and puts `TagT()` into the map
for a location without a tag.
-/

namespace DiskANNEval.PipeANN.MemIndex

open Lib FixedPoint List Option

variable {D Vec Tag : Type}

/-! ### The searches -/

/-- The loop over `best_L_nodes` in `search`: what has been written to `indices` and `distances`,
the length of which is `pos`. -/
def writeResults (maxPoints K : ℕ) : List (ℕ × D) → List (Neighbor D) → List (ℕ × D)
  | out, [] => out
  | out, it :: rest =>
    let out := if it.id < maxPoints then out ++ [(it.id, it.distance)] else out
    if out.length = K then out else writeResults maxPoints K out rest

/-- The loop over `indices` in `search_with_tags`. -/
def copyTags (locationToTag : ℕ → Option Tag) (K : ℕ) :
    List (Tag × D) → List (ℕ × D) → List (Tag × D)
  | out, [] => out
  | out, (id, dist) :: rest =>
    match locationToTag id with
    | some tag =>
      let out := out ++ [(tag, dist)]
      if out.length = K then out else copyTags locationToTag K out rest
    | none => copyTags locationToTag K out rest

/-- `_location_to_tag[id]`: a location without a tag gets `TagT()`. -/
def tagAt (tagInit : Tag) (locationToTag : ℕ → Option Tag) (id : ℕ) : Tag × (ℕ → Option Tag) :=
  match locationToTag id with
  | some tag => (tag, locationToTag)
  | none => (tagInit, Function.update locationToTag id (some tagInit))

/-- The last loop of `search_with_tags_fast`. -/
def writeTags (tagInit : Tag) : (ℕ → Option Tag) → List (Neighbor D) →
    List (Tag × D) × (ℕ → Option Tag)
  | locationToTag, [] => ([], locationToTag)
  | locationToTag, n :: rest =>
    let (tag, locationToTag) := tagAt tagInit locationToTag n.id
    let (out, locationToTag) := writeTags tagInit locationToTag rest
    ((tag, n.distance) :: out, locationToTag)

section Search

variable [LinearOrder D] [Zero D] (c : MemConfig D Vec Tag) (s : MemIndex Vec Tag)

/-- `search`: the values of `indices` and `distances`. -/
def searchPairs (query : Vec) (K L : ℕ) (hL : 0 < L) : Option (List (ℕ × D)) :=
  (iterateToFixedPoint (s.searchGraph c (c.normalize query) L hL) c.maxDist s.ep).map fun r =>
    writeResults s.maxPoints K [] r.pool

def searchWithTags (query : Vec) (K L : ℕ) (hL : 0 < L) : Option (List (Tag × D)) :=
  (s.searchPairs c query L L hL).map (copyTags s.locationToTag K [])

/-- `search_with_tags_fast`, which has the loop of `iterate_to_fixed_point`, and what it leaves in
`_location_to_tag`. -/
def searchWithTagsFast (normalizedQuery : Vec) (Lsize : ℕ) (hL : 0 < Lsize) :
    Option (List (Tag × D) × (ℕ → Option Tag)) :=
  (iterateToFixedPoint (s.searchGraph c normalizedQuery Lsize hL) c.maxDist s.ep).map fun r =>
    writeTags c.tagInit s.locationToTag (r.pool.take Lsize)

end Search

/-! ### The loops -/

/-- As many as are asked for; for `0`, all. -/
def stopAt {α : Type} (K : ℕ) (l : List α) : List α := if K = 0 then l else l.take K

variable {K : ℕ}

theorem stopAt_append_cons {α : Type} {out rest : List α} {a : α} : stopAt K (out ++ a :: rest) =
      if (out ++ [a]).length = K then out ++ [a] else stopAt K ((out ++ [a]) ++ rest) := by
  have hlen : (out ++ [a]).length = out.length + 1 := length_append
  rw [← singleton_append, ← append_assoc]
  split_ifs with h
  · rw [stopAt, if_neg (by omega), ← h, take_left]
  · rfl

theorem writeResults_eq {maxPoints : ℕ} {pool : List (Neighbor D)}
    (hpool : ∀ n ∈ pool, n.id < maxPoints) {out : List (ℕ × D)} (hK : K = 0 ∨ out.length < K) :
    writeResults maxPoints K out pool = stopAt K (out ++ pool.map fun n => (n.id, n.distance)) := by
  induction pool generalizing out with
  | nil =>
    rw [writeResults, map_nil, append_nil, stopAt]
    split_ifs
    · rfl
    · rw [take_of_length_le (by omega)]
  | cons n pool ih =>
    have hlen : (out ++ [(n.id, n.distance)]).length = out.length + 1 := length_append
    rw [writeResults, if_pos (hpool n mem_cons_self), map_cons, stopAt_append_cons]
    split_ifs with h
    · rfl
    · exact ih (fun n hn => hpool n (mem_cons_of_mem _ hn)) (by omega)

/-- The tags of the locations that have one. -/
def tagsOf (locationToTag : ℕ → Option Tag) (pairs : List (ℕ × D)) : List (Tag × D) :=
  pairs.filterMap fun p => (locationToTag p.1).map fun tag => (tag, p.2)

theorem copyTags_eq {locationToTag : ℕ → Option Tag} {pairs : List (ℕ × D)} {out : List (Tag × D)}
    (hK : K = 0 ∨ out.length < K) :
    copyTags locationToTag K out pairs = stopAt K (out ++ tagsOf locationToTag pairs) := by
  induction pairs generalizing out with
  | nil =>
    rw [copyTags, tagsOf, filterMap_nil, append_nil, stopAt]
    split_ifs
    · rfl
    · rw [take_of_length_le (by omega)]
  | cons p pairs ih =>
    obtain ⟨id, dist⟩ := p
    rw [copyTags, tagsOf, filterMap_cons]
    cases htag : locationToTag id with
    | none => exact ih hK
    | some tag =>
      have hlen : (out ++ [(tag, dist)]).length = out.length + 1 := length_append
      simp only [map_some]
      rw [stopAt_append_cons]
      split_ifs with h
      · rfl
      · exact ih (by omega)

theorem getD_tagAt (tagInit : Tag) (locationToTag : ℕ → Option Tag) (id id' : ℕ) :
    ((tagAt tagInit locationToTag id).2 id').getD tagInit = (locationToTag id').getD tagInit := by
  rw [tagAt]
  cases htag : locationToTag id with
  | some tag => rfl
  | none =>
    by_cases he : id' = id
    · subst he
      simp [htag]
    · simp [he]

theorem writeTags_eq (tagInit : Tag) (locationToTag : ℕ → Option Tag) (pool : List (Neighbor D)) :
    (writeTags tagInit locationToTag pool).1 =
      pool.map fun n => ((locationToTag n.id).getD tagInit, n.distance) := by
  induction pool generalizing locationToTag with
  | nil => rfl
  | cons n pool ih =>
    rw [writeTags, map_cons]
    dsimp only
    rw [ih]
    simp only [getD_tagAt]
    rw [tagAt]
    cases locationToTag n.id
    all_goals rfl

theorem stopAt_of_pos {α : Type} (hK : 0 < K) (l : List α) : stopAt K l = l.take K :=
  if_neg hK.ne'

theorem stopAt_of_length_le {α : Type} {l : List α} (h : K = 0 ∨ l.length ≤ K) :
    stopAt K l = l := by
  rw [stopAt]
  split_ifs with h0
  · rfl
  · exact take_of_length_le (h.resolve_left h0)

theorem stopAt_sublist {α : Type} (K : ℕ) (l : List α) : (stopAt K l).Sublist l := by
  rw [stopAt]
  split_ifs
  · exact Sublist.refl l
  · exact take_sublist K l

theorem map_stopAt {α β : Type} (K : ℕ) (l : List α) (f : α → β) :
    (stopAt K l).map f = stopAt K (l.map f) := by
  rw [stopAt, stopAt, apply_ite (List.map f), map_take]

theorem tagsOf_append (locationToTag : ℕ → Option Tag) (l₁ l₂ : List (ℕ × D)) :
    tagsOf locationToTag (l₁ ++ l₂) = tagsOf locationToTag l₁ ++ tagsOf locationToTag l₂ :=
  filterMap_append

theorem tagsOf_replicate (locationToTag : ℕ → Option Tag) (n : ℕ) (p : ℕ × D) :
    tagsOf locationToTag (replicate n p) =
      match locationToTag p.1 with
      | none => []
      | some tag => replicate n (tag, p.2) := by
  cases htag : locationToTag p.1 with
  | none =>
    refine filterMap_eq_nil_iff.2 fun q hq => ?_
    rw [eq_of_mem_replicate hq, htag, map_none]
  | some tag =>
    rw [tagsOf, filterMap_replicate_of_some]
    rw [htag, map_some]

theorem map_tagsOf (locationToTag : ℕ → Option Tag) (cands : List (Neighbor D)) :
    ((tagsOf locationToTag (cands.map fun n => (n.id, n.distance))).map fun p => (some p.1, p.2)) =
      (cands.filter fun n => (locationToTag n.id).isSome).map
        fun n => (locationToTag n.id, n.distance) := by
  induction cands with
  | nil => rfl
  | cons n cands ih =>
    rw [map_cons, tagsOf, filterMap_cons]
    cases htag : locationToTag n.id with
    | none =>
      rw [filter_cons_of_neg (by simp [htag])]
      exact ih
    | some tag =>
      rw [filter_cons_of_pos (by simp [htag]), map_cons, htag]
      exact congrArg _ ih

theorem length_tagsOf (locationToTag : ℕ → Option Tag) (cands : List (Neighbor D)) :
    (tagsOf locationToTag (cands.map fun n => (n.id, n.distance))).length =
      (cands.filter fun n => (locationToTag n.id).isSome).length := by
  have hlen := congrArg List.length (map_tagsOf locationToTag cands)
  rwa [length_map, length_map] at hlen

theorem length_le_of_found {locationToTag : ℕ → Option Tag} {out : List (Tag × D)}
    {found cands : List (Neighbor D)} (hsub : found.Sublist cands)
    (heq : (out.map fun p => (some p.1, p.2)) =
      found.map fun n => (locationToTag n.id, n.distance)) :
    out.length ≤ (cands.filter fun n => (locationToTag n.id).isSome).length := by
  have hall : ∀ n ∈ found, (locationToTag n.id).isSome = true := by
    intro n hn
    have hmem : (locationToTag n.id, n.distance) ∈ out.map fun p => (some p.1, p.2) :=
      heq ▸ mem_map_of_mem hn
    obtain ⟨p, -, hp⟩ := mem_map.1 hmem
    have htag : some p.1 = locationToTag n.id := congrArg Prod.fst hp
    rw [← htag]
    rfl
  have hlen := congrArg List.length heq
  rw [length_map, length_map] at hlen
  have hfew := (hsub.filter fun n => (locationToTag n.id).isSome).length_le
  rwa [filter_eq_self.2 hall, ← hlen] at hfew

/-! ### What is handed out -/

section Found

variable [LinearOrder D] [Zero D] {c : MemConfig D Vec Tag} {s : MemIndex Vec Tag} {query : Vec}
  {K L : ℕ} {hL : 0 < L} {r : State D}

variable (c s)

/-- `search` returns points that have been found. -/
def SearchFinds (query : Vec) (K L : ℕ) (hL : 0 < L) : Prop :=
  let g := s.searchGraph c (c.normalize query) L hL
  ∃ r out found, iterateToFixedPoint g c.maxDist s.ep = some r ∧
    s.searchPairs c query K L hL = some out ∧ Found g r (filled g c.maxDist s.ep r) found ∧
    out = found.map fun n => (n.id, n.distance)

/-- The tags that are returned are those of points that have been found. -/
def TagsOfFound (query : Vec) (L : ℕ) (hL : 0 < L) (out : List (Tag × D)) : Prop :=
  let g := s.searchGraph c query L hL
  ∃ r found, iterateToFixedPoint g c.maxDist s.ep = some r ∧ Found g r r.cands found ∧
    (out.map fun p => (some p.1, p.2)) = found.map fun n => (s.locationToTag n.id, n.distance)

def SearchWithTagsFinds (query : Vec) (K L : ℕ) (hL : 0 < L) : Prop :=
  ∃ out, s.searchWithTags c query K L hL = some out ∧
    s.TagsOfFound c (c.normalize query) L hL out

def SearchWithTagsFastFinds (normalizedQuery : Vec) (L : ℕ) (hL : 0 < L) : Prop :=
  ∃ out map, s.searchWithTagsFast c normalizedQuery L hL = some (out, map) ∧
    s.TagsOfFound c normalizedQuery L hL out

/-- There are `n` points with a tag that can be reached from the entry point. -/
def ReachesTagged (n : ℕ) : Prop :=
  ∃ ids : List ℕ, ids.Nodup ∧ ids.length = n ∧ ∀ id ∈ ids, (s.locationToTag id).isSome = true ∧
    Relation.ReflTransGen (fun id n => n ∈ s.finalGraph id) s.ep id

variable {c s}

/-! ### The results -/

theorem SearchFinds.iff_of (hs : iterateToFixedPoint (s.searchGraph c (c.normalize query) L hL)
      c.maxDist s.ep = some r) {out : List (ℕ × D)} (hout : s.searchPairs c query K L hL = some out) :
    s.SearchFinds c query K L hL ↔ ∃ found, Found (s.searchGraph c (c.normalize query) L hL) r
      (filled (s.searchGraph c (c.normalize query) L hL) c.maxDist s.ep r) found ∧
      out = found.map fun n => (n.id, n.distance) := by
  constructor
  · rintro ⟨r', out', found, hr', hout', hfound, heq⟩
    obtain rfl : r = r' := Option.some.inj (hs.symm.trans hr')
    obtain rfl : out = out' := Option.some.inj (hout.symm.trans hout')
    exact ⟨found, hfound, heq⟩
  · rintro ⟨found, hfound, heq⟩
    exact ⟨r, out, found, hs, hout, hfound, heq⟩

theorem TagsOfFound.iff_of (hs : iterateToFixedPoint (s.searchGraph c query L hL) c.maxDist s.ep =
      some r) (h : Searched (s.searchGraph c query L hL) c.maxDist s.ep r) {out : List (Tag × D)} :
    s.TagsOfFound c query L hL out ↔ ∃ found : List (Neighbor D), found.Sublist r.cands ∧
      (out.map fun p => (some p.1, p.2)) = found.map fun n => (s.locationToTag n.id, n.distance) := by
  constructor
  · rintro ⟨r', found, hr', hfound, heq⟩
    obtain rfl : r = r' := Option.some.inj (hs.symm.trans hr')
    exact ⟨found, hfound.sublist, heq⟩
  · rintro ⟨found, hsub, heq⟩
    exact ⟨r, found, hs, h.found_take hsub, heq⟩

theorem searchPairs_eq (hl : s.ListsIn) (hep : s.ep < s.maxPoints)
    (hr : iterateToFixedPoint (s.searchGraph c (c.normalize query) L hL) c.maxDist s.ep = some r)
    (h : Searched (s.searchGraph c (c.normalize query) L hL) c.maxDist s.ep r) :
    s.searchPairs c query K L hL = some (stopAt K (r.pool.map fun n => (n.id, n.distance))) := by
  have hlt : ∀ n ∈ r.pool, n.id < s.maxPoints := h.pool_lt hep hl
  rw [searchPairs, hr, map_some, writeResults_eq hlt (Nat.eq_zero_or_pos K)]
  rfl

theorem searchWithTags_eq (hl : s.ListsIn) (hep : s.ep < s.maxPoints)
    (hr : iterateToFixedPoint (s.searchGraph c (c.normalize query) L hL) c.maxDist s.ep = some r)
    (h : Searched (s.searchGraph c (c.normalize query) L hL) c.maxDist s.ep r) :
    s.searchWithTags c query K L hL =
      some (stopAt K (tagsOf s.locationToTag (r.cands.map fun n => (n.id, n.distance)) ++
        tagsOf s.locationToTag (replicate (L - r.l) (0, c.maxDist)))) := by
  have htake : stopAt L (r.pool.map fun n => (n.id, n.distance)) =
      r.cands.map (fun n => (n.id, n.distance)) ++ replicate (L - r.l) (0, c.maxDist) := by
    rw [stopAt_of_pos hL, ← map_take]
    refine (congrArg _ h.take_pool).trans ?_
    rw [map_append, map_replicate]
    rfl
  rw [searchWithTags, searchPairs_eq hl hep hr h, map_some, htake,
    copyTags_eq (Nat.eq_zero_or_pos K), nil_append, tagsOf_append]

/-- `search` hands out found points when it ends within the filled part of the list, or when the
array has been filled to its last place. -/
theorem searchFinds_iff (hl : s.ListsIn) (hep : s.ep < s.maxPoints) (query : Vec) (K : ℕ) {L : ℕ}
    (hL : 0 < L) : s.SearchFinds c query K L hL ↔
      0 < K ∧ K ≤ L ∧ Reaches (fun id n => n ∈ s.finalGraph id) s.ep K ∨
      (K = 0 ∨ L < K) ∧
        displaced (s.searchGraph c (c.normalize query) L hL) c.maxDist s.ep = true := by
  obtain ⟨r, hr, h⟩ := exists_searched (g := s.searchGraph c (c.normalize query) L hL)
    c.maxDist hep hl
  have hlen : r.pool.length = L + 1 := h.walk.held.ok.length
  have hle : r.l ≤ L := h.walk.held.ok.le
  rw [SearchFinds.iff_of hr (searchPairs_eq hl hep hr h)]
  set g := s.searchGraph c (c.normalize query) L hL
  have hcount : ∀ found : List (Neighbor D), Found g r (filled g c.maxDist s.ep r) found →
      displaced g c.maxDist s.ep = false → found.length ≤ r.l := by
    intro found hfound hdis
    have hsub := hfound.sublist
    rw [FixedPoint.filled, hdis, if_neg Bool.false_ne_true] at hsub
    have hlen := hsub.length_le
    rwa [h.walk.held.ok.length_cands] at hlen
  by_cases hK : 0 < K ∧ K ≤ L
  · have hiff : K ≤ r.l ↔ Reaches (fun id n => n ∈ s.finalGraph id) s.ep K := h.le_l_iff hK.2
    rw [stopAt_of_pos hK.1, ← map_take, ← hiff]
    refine Iff.trans ?_ (show K ≤ r.l ↔ _ by omega)
    constructor
    · rintro ⟨found, hfound, heq⟩
      have hfoundlen : found.length = K := by
        have h1 := congrArg List.length heq
        rw [length_map, length_map, length_take_of_le (by omega)] at h1
        exact h1.symm
      cases hdis : displaced g c.maxDist s.ep with
      | false => exact hfoundlen ▸ hcount found hfound hdis
      | true => exact hK.2.trans (h.l_eq_of_displaced hdis).ge
    · intro hKl
      have hsub : (r.pool.take K).Sublist r.cands := by
        rw [← Nat.min_eq_left hKl, ← take_take]
        exact take_sublist K _
      exact ⟨r.pool.take K, { h.found_take hsub with sublist := hsub.trans cands_sublist_filled }, rfl⟩
  · have hall : K = 0 ∨ (r.pool.map fun n => (n.id, n.distance)).length ≤ K := by
      rw [length_map]
      omega
    rw [stopAt_of_length_le hall]
    refine Iff.trans ?_ (show displaced g c.maxDist s.ep = true ↔ _ by
      rw [or_iff_right (fun hcond => hK ⟨hcond.1, hcond.2.1⟩), and_iff_right (by omega)])
    constructor
    · rintro ⟨found, hfound, heq⟩
      by_contra hdis
      have h1 := congrArg List.length heq
      rw [length_map, length_map] at h1
      have h2 := hcount found hfound (Bool.eq_false_iff.2 hdis)
      omega
    · intro hdis
      refine ⟨r.pool, ?_, rfl⟩
      rw [FixedPoint.filled, if_pos hdis]
      exact h.found_pool hdis

/-- In a list that has not been filled the candidates with a tag are the tagged points that can be
reached. -/
theorem reachesTagged_iff {g : Graph D} (hg : g.nbrs = s.finalGraph) (h : Searched g c.maxDist s.ep r)
    (hlt : r.l < g.Lsize) : s.ReachesTagged K ↔
      K ≤ (r.cands.filter fun n => (s.locationToTag n.id).isSome).length := by
  have hmem : ∀ {id : ℕ}, id ∈ r.cands.map Neighbor.id ↔
      Relation.ReflTransGen (fun id n => n ∈ s.finalGraph id) s.ep id := fun {id} =>
    hg ▸ h.mem_cands_iff hlt
  have hnodup := h.walk.held.ok.nodup.sublist
    ((filter_sublist (p := fun n : Neighbor D => (s.locationToTag n.id).isSome)).map Neighbor.id)
  constructor
  · rintro ⟨ids, hnodup, rfl, hids⟩
    have hsub : ids ⊆ (r.cands.filter fun n => (s.locationToTag n.id).isSome).map Neighbor.id := by
      intro id hid
      obtain ⟨htag, hreach⟩ := hids id hid
      obtain ⟨n, hn, rfl⟩ := mem_map.1 (hmem.2 hreach)
      exact mem_map_of_mem (mem_filter.2 ⟨hn, htag⟩)
    have hle := (subperm_of_subset hnodup hsub).length_le
    rwa [length_map] at hle
  · intro hle
    refine ⟨(((r.cands.filter fun n => (s.locationToTag n.id).isSome).map Neighbor.id).take K),
      hnodup.sublist (take_sublist _ _), ?_, fun id hid => ?_⟩
    · rw [length_take_of_le]
      rwa [length_map]
    · obtain ⟨n, hn, rfl⟩ := mem_map.1 (mem_of_mem_take hid)
      obtain ⟨hn, htag⟩ := mem_filter.1 hn
      exact ⟨htag, hmem.1 (mem_map_of_mem hn)⟩

/-- `search_with_tags` hands out the tags of found points unless it gets to a place that has not been
filled, and location `0` has a tag. -/
theorem searchWithTagsFinds_iff (hl : s.ListsIn) (hep : s.ep < s.maxPoints) (query : Vec) (K : ℕ)
    {L : ℕ} (hL : 0 < L) : s.SearchWithTagsFinds c query K L hL ↔
      Reaches (fun id n => n ∈ s.finalGraph id) s.ep L ∨ s.locationToTag 0 = none ∨
        0 < K ∧ s.ReachesTagged K := by
  obtain ⟨r, hr, h⟩ := exists_searched (g := s.searchGraph c (c.normalize query) L hL)
    c.maxDist hep hl
  have hout : s.searchWithTags c query K L hL = _ := searchWithTags_eq hl hep hr h
  set T := tagsOf s.locationToTag (r.cands.map fun n => (n.id, n.distance)) with hT
  set F := tagsOf s.locationToTag (replicate (L - r.l) (0, c.maxDist)) with hF
  set tagged := r.cands.filter fun n => (s.locationToTag n.id).isSome with htagged
  have hTlen : T.length = tagged.length := length_tagsOf s.locationToTag r.cands
  have hiff : s.SearchWithTagsFinds c query K L hL ↔ ∃ found : List (Neighbor D),
      found.Sublist r.cands ∧ ((stopAt K (T ++ F)).map fun p => (some p.1, p.2)) =
        found.map fun n => (s.locationToTag n.id, n.distance) := by
    rw [← TagsOfFound.iff_of hr h]
    exact ⟨fun ⟨out, ho, hf⟩ => Option.some.inj (hout.symm.trans ho) ▸ hf, fun hf => ⟨_, hout, hf⟩⟩
  have hgood : stopAt K (T ++ F) = stopAt K T → s.SearchWithTagsFinds c query K L hL := by
    intro heq
    have hTmap : T.map (fun p => (some p.1, p.2)) = _ := map_tagsOf s.locationToTag r.cands
    rw [hiff, heq, map_stopAt, hTmap, ← map_stopAt]
    exact ⟨_, (stopAt_sublist K tagged).trans filter_sublist, rfl⟩
  have hbad : T.length < (stopAt K (T ++ F)).length → ¬ s.SearchWithTagsFinds c query K L hL := by
    rw [hiff]
    rintro hlt ⟨found, hsub, heq⟩
    have hfew := length_le_of_found hsub heq
    rw [← htagged] at hfew
    omega
  have hreach : L ≤ r.l ↔ Reaches (fun id n => n ∈ s.finalGraph id) s.ep L := h.le_l_iff (le_refl L)
  rw [← hreach]
  by_cases hfull : L ≤ r.l
  · refine iff_of_true (hgood ?_) (.inl hfull)
    rw [hF, Nat.sub_eq_zero_of_le hfull]
    exact congrArg _ (append_nil T)
  cases htag : s.locationToTag 0 with
  | none =>
    refine iff_of_true (hgood ?_) (.inr (.inl rfl))
    rw [hF, tagsOf_replicate, htag]
    exact congrArg _ (append_nil T)
  | some tag =>
    have hFlen : F.length = L - r.l := by
      rw [hF, tagsOf_replicate, htag]
      exact length_replicate
    rw [reachesTagged_iff rfl h (Nat.lt_of_not_le hfull), ← hTlen]
    by_cases hK : 0 < K ∧ K ≤ T.length
    · refine iff_of_true (hgood ?_) (.inr (.inr hK))
      rw [stopAt_of_pos hK.1, stopAt_of_pos hK.1, take_append_of_le_length hK.2]
    · refine iff_of_false (hbad ?_) ?_
      · rw [stopAt]
        split_ifs with h0
        · rw [length_append]
          omega
        · rw [List.length_take, length_append]
          omega
      · rintro (hle | hnone | hK')
        · exact hfull hle
        · cases hnone
        · exact hK hK'

/-- `search_with_tags_fast` hands out the tags of found points when the list has been filled with
locations that have a tag. -/
theorem searchWithTagsFastFinds_iff (hl : s.ListsIn) (hep : s.ep < s.maxPoints)
    (normalizedQuery : Vec) {L : ℕ} (hL : 0 < L) : s.SearchWithTagsFastFinds c normalizedQuery L hL ↔
      Reaches (fun id n => n ∈ s.finalGraph id) s.ep L ∧
        ∀ r, iterateToFixedPoint (s.searchGraph c normalizedQuery L hL) c.maxDist s.ep = some r →
          ∀ n ∈ r.cands, (s.locationToTag n.id).isSome = true := by
  obtain ⟨r, hr, h⟩ := exists_searched (g := s.searchGraph c normalizedQuery L hL) c.maxDist hep hl
  have hlen : r.pool.length = L + 1 := h.walk.held.ok.length
  have hle : r.l ≤ L := h.walk.held.ok.le
  set out := (r.pool.take L).map fun n => ((s.locationToTag n.id).getD c.tagInit, n.distance) with hout
  have hfast : (s.searchWithTagsFast c normalizedQuery L hL).map Prod.fst = some out := by
    rw [searchWithTagsFast, hr, map_some, map_some, writeTags_eq]
  have hiff : s.SearchWithTagsFastFinds c normalizedQuery L hL ↔ ∃ found : List (Neighbor D),
      found.Sublist r.cands ∧ (out.map fun p => (some p.1, p.2)) =
        found.map fun n => (s.locationToTag n.id, n.distance) := by
    rw [← TagsOfFound.iff_of hr h]
    obtain ⟨⟨out', map⟩, ho, heq⟩ := map_eq_some_iff.1 hfast
    obtain rfl : out' = out := heq
    refine ⟨?_, fun hf => ⟨_, map, ho, hf⟩⟩
    rintro ⟨out', map', ho', hf⟩
    have he : out' = out := congrArg Prod.fst (Option.some.inj (ho'.symm.trans ho))
    exact he ▸ hf
  have hreach : L ≤ r.l ↔ Reaches (fun id n => n ∈ s.finalGraph id) s.ep L := h.le_l_iff (le_refl L)
  have hfull : L ≤ r.l → r.pool.take L = r.cands := fun hLl => by
    rw [State.cands, le_antisymm hle hLl]
  have hsame : ∀ o : Option Tag, some (o.getD c.tagInit) = o ↔ o.isSome = true := by
    intro o
    cases o
    all_goals simp
  rw [hiff, ← hreach]
  constructor
  · rintro ⟨found, hsub, heq⟩
    have hlenout : found.length = L := by
      have h1 := congrArg List.length heq
      rw [length_map, length_map, length_map,
        length_take_of_le (by omega)] at h1
      exact h1.symm
    have hLl : L ≤ r.l := by
      have h1 := hsub.length_le
      rw [h.walk.held.ok.length_cands] at h1
      omega
    have hall : found = r.cands := hsub.eq_of_length (by rw [h.walk.held.ok.length_cands]; omega)
    refine ⟨hLl, fun r' hr' n hn => ?_⟩
    obtain rfl : r = r' := Option.some.inj (hr.symm.trans hr')
    rw [hall, hout, hfull hLl, List.map_map] at heq
    exact (hsame _).1 (congrArg Prod.fst (map_inj_left.1 heq n hn))
  · rintro ⟨hLl, hall⟩
    refine ⟨r.cands, Sublist.refl _, ?_⟩
    rw [hout, hfull hLl, List.map_map]
    exact map_congr_left fun n hn => Prod.ext ((hsame _).2 (hall r hr n hn)) rfl

/-- In an index whose edges are among its locations, and for a list with a place: `search` hands out
found points exactly when it ends within the filled part of the list, or goes to the end of an array
that has been filled; `search_with_tags`, when the list has been filled, or what has not is left out
or not reached; and `search_with_tags_fast`, when the list has been filled with locations that have a
tag. -/
theorem searchesFind_iff (hl : s.ListsIn) (hep : s.ep < s.maxPoints) (query normalizedQuery : Vec)
    (K : ℕ) {L : ℕ} (hL : 0 < L) :
    (s.SearchFinds c query K L hL ↔
      0 < K ∧ K ≤ L ∧ Reaches (fun id n => n ∈ s.finalGraph id) s.ep K ∨
      (K = 0 ∨ L < K) ∧
        displaced (s.searchGraph c (c.normalize query) L hL) c.maxDist s.ep = true) ∧
    (s.SearchWithTagsFinds c query K L hL ↔
      Reaches (fun id n => n ∈ s.finalGraph id) s.ep L ∨ s.locationToTag 0 = none ∨
        0 < K ∧ s.ReachesTagged K) ∧
    (s.SearchWithTagsFastFinds c normalizedQuery L hL ↔
      Reaches (fun id n => n ∈ s.finalGraph id) s.ep L ∧
        ∀ r, iterateToFixedPoint (s.searchGraph c normalizedQuery L hL) c.maxDist s.ep = some r →
          ∀ n ∈ r.cands, (s.locationToTag n.id).isSome = true) :=
  ⟨searchFinds_iff hl hep query K hL, searchWithTagsFinds_iff hl hep query K hL,
    searchWithTagsFastFinds_iff hl hep normalizedQuery hL⟩

end Found

/-- An index that has been built of one point. -/
def onePoint : Option (MemIndex ℕ ℕ) := build natMem natParams [5] true [7] [0]

theorem exists_onePoint : ∃ s, onePoint = some s ∧ Reach natMem s ∧ s.ep < s.maxPoints := by
  have hsome : (onePoint.map fun s => decide (s.ep < s.maxPoints)) = some true := by decide +kernel
  obtain ⟨s, hs, hep⟩ := map_eq_some_iff.1 hsome
  exact ⟨s, hs, .build (by decide) (Perm.refl _) hs, of_decide_eq_true hep⟩

theorem searchesFind_onePoint : ∃ s, onePoint = some s ∧
    (s.SearchFinds natMem 3 1 2 Nat.two_pos ↔
      0 < 1 ∧ 1 ≤ 2 ∧ Reaches (fun id n => n ∈ s.finalGraph id) s.ep 1 ∨
      (1 = 0 ∨ 2 < 1) ∧
        displaced (s.searchGraph natMem (natMem.normalize 3) 2 Nat.two_pos) 1000 s.ep = true) := by
  obtain ⟨s, hs, hr, hep⟩ := exists_onePoint
  exact ⟨s, hs, (searchesFind_iff hr.inv.lists hep 3 3 1 Nat.two_pos).1⟩

/-- With a list of two places the one point is handed out twice, the second time at the largest
distance. -/
theorem onePoint_twice : ∃ s, onePoint = some s ∧ Reach natMem s ∧
    s.searchPairs natMem 3 2 2 Nat.two_pos = some [(0, 2), (0, 1000)] ∧
    s.searchWithTags natMem 3 2 2 Nat.two_pos = some [(7, 2), (7, 1000)] ∧
    (s.searchWithTagsFast natMem 3 2 Nat.two_pos).map Prod.fst = some [(7, 2), (7, 1000)] ∧
    ¬ s.SearchFinds natMem 3 2 2 Nat.two_pos ∧ ¬ s.SearchWithTagsFinds natMem 3 2 2 Nat.two_pos ∧
    ¬ s.SearchWithTagsFastFinds natMem 3 2 Nat.two_pos := by
  have hsome : onePoint.isSome = true := by decide +kernel
  obtain ⟨s, hs⟩ := isSome_iff_exists.1 hsome
  have hpairs : onePoint.bind (fun s => s.searchPairs natMem 3 2 2 Nat.two_pos) =
      some [(0, 2), (0, 1000)] := by
    decide +kernel
  have htags : onePoint.bind (fun s => s.searchWithTags natMem 3 2 2 Nat.two_pos) =
      some [(7, 2), (7, 1000)] := by
    decide +kernel
  have hfast : onePoint.bind (fun s =>
      (s.searchWithTagsFast natMem 3 2 Nat.two_pos).map Prod.fst) = some [(7, 2), (7, 1000)] := by
    decide +kernel
  have hcands : onePoint.bind (fun s =>
      (iterateToFixedPoint (s.searchGraph natMem 3 2 Nat.two_pos) 1000 s.ep).map
        fun r => r.cands.length) = some 1 := by
    decide +kernel
  rw [hs, bind_some] at hpairs htags hfast hcands
  -- two of one candidate
  have hfound : ∀ out : List (ℕ × ℕ), out.length = 2 → ¬ s.TagsOfFound natMem 3 2 Nat.two_pos out := by
    rintro out hlen ⟨r, found, hr, hfound, heq⟩
    have hcand : (iterateToFixedPoint (s.searchGraph natMem 3 2 Nat.two_pos) 1000 s.ep).map
        (fun r => r.cands.length) = some r.cands.length := congrArg _ hr
    rw [hcands] at hcand
    have hone : 1 = r.cands.length := Option.some.inj hcand
    have hle := hfound.sublist.length_le
    have htwo := congrArg List.length heq
    rw [length_map, length_map] at htwo
    omega
  refine ⟨s, hs, .build (by decide) (Perm.refl _) hs, hpairs, htags, hfast, ?_, ?_, ?_⟩
  · rintro ⟨r, out, found, -, hout, hfound, heq⟩
    rw [hpairs] at hout
    have hids := congrArg (List.map Prod.fst) ((Option.some.inj hout).trans heq)
    rw [List.map_map] at hids
    have hnodup := hfound.nodup
    rw [show found.map Neighbor.id = [0, 0] from hids.symm] at hnodup
    exact absurd hnodup (by decide)
  · rintro ⟨out, hout, hf⟩
    rw [htags] at hout
    exact hfound out (congrArg List.length (Option.some.inj hout).symm) hf
  · rintro ⟨out, map, hout, hf⟩
    rw [hout, map_some] at hfast
    exact hfound out (congrArg List.length (Option.some.inj hfast)) hf

end DiskANNEval.PipeANN.MemIndex
