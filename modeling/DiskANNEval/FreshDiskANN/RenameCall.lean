import DiskANNEval.FreshDiskANN.RenameLists
import DiskANNEval.Lib.LowerBound

/-!
# RenameCall — a call of `compute_rename_map`

The call takes the sizes of the memory indices with their deleted ids, and the free ids of
`process_deletes`; all that is computed is in 32 bits.  The two lists of pairs are never sorted: the
binary searches over them are exact just when the ids of the points ascend, so that no offset has
come round, and the fresh ids fit (`renamesWell_iff`).  For a merger whose ids fit it is so, and the
lists are those of the merge (`computeRenameMap_renameCall`).
-/

namespace DiskANNEval.FreshDiskANN

open Lib List

/-- `std::numeric_limits<uint32_t>::max()` -/
def invalidId : ℕ := 2 ^ 32 - 1

def firstAt (pairs : List (ℕ × ℕ)) (i : ℕ) : ℕ := ((pairs[i]?).map Prod.fst).getD 0

/-- `std::lower_bound` by the first members. -/
def placeOf (pairs : List (ℕ × ℕ)) (id : ℕ) : ℕ :=
  lowerBound (fun i => firstAt pairs i < id) pairs.length 0 pairs.length

/-- `rename` and `rename_inverse` -/
def searchPairs (pairs : List (ℕ × ℕ)) (id : ℕ) : ℕ :=
  match pairs[placeOf pairs id]? with
  | some p => if p.1 = id then p.2 else invalidId
  | none => invalidId

/-- A memory index is its `mem_npts` with its `mem_deleted_ids`; `asserts`: built without
`NDEBUG`. -/
structure RenameCall where
  asserts : Bool
  diskNpts : ℕ
  diskNpts_lt : diskNpts < 2 ^ 32
  mem : List (ℕ × Finset ℕ)
  mem_small : ∀ x ∈ mem, x.1 < maxPtsPerMemIndex
  deleted_lt : ∀ x ∈ mem, ∀ id ∈ x.2, id < x.1
  freeIds : List ℕ
  freeIds_ascend : freeIds.Pairwise (· < ·)
  freeIds_lt : ∀ id ∈ freeIds, id < diskNpts

namespace RenameCall

variable (c : RenameCall)

def offsetId (i : ℕ) : ℕ := (roundUp c.diskNpts indexOffset + i * indexOffset) % 2 ^ 32

/-- The points that are not deleted, by index and place. -/
def survivors : List (ℕ × ℕ) :=
  c.mem.zipIdx.flatMap fun x =>
    ((List.range x.1.1).filter fun j => j ∉ x.1.2).map fun j => (x.2, j)

/-- `offset + j` -/
def memId (s : ℕ × ℕ) : ℕ := (c.offsetId s.1 + s.2) % 2 ^ 32

def needed : ℕ :=
  let needed := c.mem.foldl (fun n x => (n + x.1) % 2 ^ 32) 0
  c.mem.foldl (fun n x => (n + (2 ^ 32 - x.2.card)) % 2 ^ 32) needed

/-- `free_ids` with the fresh ones. -/
def allIds : List ℕ :=
  c.freeIds ++ (List.range (c.needed - c.freeIds.length)).map fun k => (c.diskNpts + k) % 2 ^ 32

def lastId : ℕ := (c.diskNpts + (c.needed - c.freeIds.length)) % 2 ^ 32

/-- The loop over the points; `none`: the assertion fails, or there is no pair left to write. -/
def assignIds : List (ℕ × ℕ) → List ℕ → Option (List (ℕ × ℕ))
  | [], _ => some []
  | s :: ss, id :: ids =>
    if c.asserts ∧ ¬ id < c.lastId then none
    else (assignIds ss ids).map fun pairs => (c.memId s, id) :: pairs
  | _ :: _, [] => none

/-- `rename_list`; the pairs of `inverse_list` are the other way round. -/
def computeRenameMap : Option (List (ℕ × ℕ)) := c.assignIds c.survivors (c.allIds.take c.needed)

/-- The free ids, and then those from `disk_npts` on, as many as there are points. -/
def handedOut : List ℕ :=
  (c.freeIds ++ List.range' c.diskNpts (c.survivors.length - c.freeIds.length)).take
    c.survivors.length

/-- The points have the ids that are handed out, and the two searches are each other's inverse. -/
structure IsRenaming (pairs : List (ℕ × ℕ)) : Prop where
  ids : (c.survivors.map fun s => searchPairs pairs (c.memId s)) = c.handedOut
  injective : (c.survivors.map fun s => searchPairs pairs (c.memId s)).Nodup
  valid : ∀ s ∈ c.survivors, searchPairs pairs (c.memId s) ≠ invalidId
  inverse : ∀ s ∈ c.survivors,
    searchPairs (pairs.map Prod.swap) (searchPairs pairs (c.memId s)) = c.memId s
  rename : ∀ id ∈ c.handedOut, searchPairs pairs (searchPairs (pairs.map Prod.swap) id) = id
  others : ∀ o ∉ c.survivors.map c.memId, searchPairs pairs o = invalidId
  othersInverse : ∀ id ∉ c.handedOut, searchPairs (pairs.map Prod.swap) id = invalidId

def RenamesWell : Prop := ∃ pairs, c.computeRenameMap = some pairs ∧ c.IsRenaming pairs

/-- The ids of the points ascend, and there are fresh ids enough below `2 ^ 32`. -/
structure Fits : Prop where
  ascend : c.survivors.Pairwise fun s t => c.offsetId s.1 + s.2 < c.offsetId t.1 + t.2
  fresh : c.diskNpts + (c.survivors.length - c.freeIds.length) < 2 ^ 32

end RenameCall

/-! ### The binary search -/

variable {pairs : List (ℕ × ℕ)}

theorem firstAt_eq {i : ℕ} {p : ℕ × ℕ} (h : pairs[i]? = some p) : firstAt pairs i = p.1 := by
  rw [firstAt, h]
  rfl

theorem searchPairs_of_not_mem {id : ℕ} (h : id ∉ pairs.map Prod.fst) :
    searchPairs pairs id = invalidId := by
  rw [searchPairs]
  split
  next p hp =>
    refine if_neg fun he => h ?_
    rw [← he]
    exact mem_map_of_mem (mem_of_getElem? hp)
  next => rfl

theorem placeOf_eq (h : (pairs.map Prod.fst).Pairwise (· < ·)) {k : ℕ} {p : ℕ × ℕ}
    (hk : pairs[k]? = some p) : placeOf pairs p.1 = k := by
  have hlt : k < pairs.length := (List.getElem?_eq_some_iff.1 hk).1
  have hasc : ∀ i j, i < j → j < pairs.length → firstAt pairs i < firstAt pairs j := by
    intro i j hij hj
    rw [firstAt_eq (getElem?_eq_getElem hj),
      firstAt_eq (getElem?_eq_getElem (hij.trans hj))]
    exact pairwise_iff_getElem.1 (pairwise_map.1 h) i j _ hj hij
  rw [← firstAt_eq hk]
  refine lowerBound_eq le_rfl (Nat.zero_le _) (by omega) (fun i _ hi => ?_) fun i hi hil => ?_
  · exact decide_eq_true (hasc i k hi hlt)
  · refine decide_eq_false (not_lt.2 ?_)
    obtain rfl | hki := hi.eq_or_lt
    · exact le_rfl
    · exact (hasc k i hki (by omega)).le

theorem searchPairs_of_mem (h : (pairs.map Prod.fst).Pairwise (· < ·)) {a b : ℕ}
    (hab : (a, b) ∈ pairs) : searchPairs pairs a = b := by
  obtain ⟨k, hk⟩ := mem_iff_getElem?.1 hab
  have hplace := placeOf_eq h hk
  rw [searchPairs, hplace, hk]
  exact if_pos rfl

theorem getElem?_placeOf {a b : ℕ} (h : searchPairs pairs a = b) (hb : b ≠ invalidId) :
    pairs[placeOf pairs a]? = some (a, b) := by
  rw [searchPairs] at h
  split at h
  next p hp =>
    split_ifs at h with he
    · rw [hp, ← he, ← h]
    · exact absurd h.symm hb
  next => exact absurd h.symm hb

/-- A search that finds each pair, the second members being valid and all different, is over
ascending ids. -/
theorem pairwise_of_searchPairs (hnodup : (pairs.map Prod.snd).Nodup)
    (hvalid : ∀ p ∈ pairs, p.2 ≠ invalidId) (h : ∀ p ∈ pairs, searchPairs pairs p.1 = p.2) :
    (pairs.map Prod.fst).Pairwise (· < ·) := by
  have hplace : ∀ k, 0 ≤ k → k < 0 + pairs.length → placeOf pairs (firstAt pairs k) = k := by
    intro k _ hk
    rw [Nat.zero_add] at hk
    have hmem := getElem_mem hk
    rw [firstAt_eq (getElem?_eq_getElem hk)]
    have hat := getElem?_placeOf (h _ hmem) (hvalid _ hmem)
    obtain ⟨hlt, he⟩ := List.getElem?_eq_some_iff.1 hat
    have hlt' : placeOf pairs (pairs[k]).1 < (pairs.map Prod.snd).length := by
      rwa [length_map]
    have hk' : k < (pairs.map Prod.snd).length := by rwa [length_map]
    have heq : (pairs.map Prod.snd)[placeOf pairs (pairs[k]).1] = (pairs.map Prod.snd)[k] := by
      rw [getElem_map, getElem_map, he]
    exact hnodup.getElem_inj_iff.1 heq
  rw [pairwise_map, pairwise_iff_getElem]
  intro i j hi hj hij
  have hlt := lt_of_lowerBound le_rfl hplace (Nat.zero_le i) hij (by omega)
  rwa [firstAt_eq (getElem?_eq_getElem hi), firstAt_eq (getElem?_eq_getElem hj)] at hlt

namespace RenameCall

variable {c : RenameCall}

/-! ### The counts -/

theorem foldl_add_mod {α : Type*} (f : α → ℕ) (l : List α) (n : ℕ) :
    l.foldl (fun n x => (n + f x) % 2 ^ 32) (n % 2 ^ 32) = (n + (l.map f).sum) % 2 ^ 32 := by
  induction l generalizing n with
  | nil => rfl
  | cons x l ih =>
    rw [foldl_cons, Nat.mod_add_mod, ih, map_cons, sum_cons, Nat.add_assoc]

theorem length_filter_not_mem {n : ℕ} {del : Finset ℕ} (h : ∀ id ∈ del, id < n) :
    ((List.range n).filter fun j => j ∉ del).length + del.card = n := by
  have hdel : ((List.range n).filter fun j => j ∈ del).toFinset = del := by
    ext id
    simpa using h id
  have hcard := toFinset_card_of_nodup
    ((nodup_range : (List.range n).Nodup).filter fun j => decide (j ∈ del))
  have hlen := length_eq_length_filter_add (l := List.range n) fun j => decide (j ∈ del)
  rw [length_range, ← hcard, hdel] at hlen
  simp only [decide_not]
  omega

theorem length_survivors_add (c : RenameCall) :
    c.survivors.length + (c.mem.map fun x => x.2.card).sum = (c.mem.map Prod.fst).sum := by
  have hmem : ∀ (mem : List (ℕ × Finset ℕ)) (n : ℕ), (∀ x ∈ mem, ∀ id ∈ x.2, id < x.1) →
      ((mem.zipIdx n).flatMap fun x => ((List.range x.1.1).filter fun j => j ∉ x.1.2).map
        fun j => (x.2, j)).length + (mem.map fun x => x.2.card).sum = (mem.map Prod.fst).sum := by
    intro mem
    induction mem with
    | nil => exact fun _ _ => rfl
    | cons x mem ih =>
      intro n h
      have hx := length_filter_not_mem (h x mem_cons_self)
      have hrest := ih (n + 1) fun y hy => h y (mem_cons_of_mem _ hy)
      rw [zipIdx_cons, flatMap_cons, length_append, length_map, map_cons,
        sum_cons, map_cons, sum_cons]
      dsimp only
      omega
  exact hmem c.mem 0 c.deleted_lt

theorem needed_eq : c.needed = c.survivors.length % 2 ^ 32 := by
  have hadd := foldl_add_mod Prod.fst c.mem 0
  have hsub := foldl_add_mod (fun x => 2 ^ 32 - x.2.card) c.mem (0 + (c.mem.map Prod.fst).sum)
  have hcard : (c.mem.map fun x => 2 ^ 32 - x.2.card).sum + (c.mem.map fun x => x.2.card).sum =
      c.mem.length * 2 ^ 32 := by
    rw [← sum_map_add, map_congr_left, map_const',
      sum_replicate, smul_eq_mul]
    intro x hx
    have hlt := c.mem_small x hx
    have hle := length_filter_not_mem (c.deleted_lt x hx)
    have hmax : maxPtsPerMemIndex ≤ 2 ^ 32 := by decide
    omega
  have hlen := length_survivors_add c
  rw [needed, ← Nat.zero_mod (2 ^ 32), hadd, hsub,
    show 0 + (c.mem.map Prod.fst).sum + (c.mem.map fun x => 2 ^ 32 - x.2.card).sum =
      c.survivors.length + c.mem.length * 2 ^ 32 by omega, Nat.add_mul_mod_self_right]

theorem length_freeIds_le : c.freeIds.length ≤ c.diskNpts := by
  have hnodup : c.freeIds.Nodup := c.freeIds_ascend.imp fun h => h.ne
  have hsub : c.freeIds ⊆ List.range c.diskNpts :=
    fun id hid => List.mem_range.2 (c.freeIds_lt id hid)
  have hle := (hnodup.subperm hsub).length_le
  rwa [length_range] at hle

theorem pairwise_handedOut : c.handedOut.Pairwise (· < ·) := by
  refine Pairwise.sublist (take_sublist _ _) (pairwise_append.2
    ⟨c.freeIds_ascend, pairwise_lt_range', fun a ha b hb => ?_⟩)
  exact (c.freeIds_lt a ha).trans_le (mem_range'_1.1 hb).1

theorem length_handedOut : c.handedOut.length = c.survivors.length := by
  rw [handedOut, List.length_take, length_append, length_range']
  omega

theorem lt_of_mem_handedOut {id : ℕ} (h : id ∈ c.handedOut) :
    id < c.diskNpts + (c.survivors.length - c.freeIds.length) := by
  obtain hid | hid := mem_append.1 (mem_of_mem_take h)
  · exact (c.freeIds_lt id hid).trans_le (Nat.le_add_right _ _)
  · exact (mem_range'_1.1 hid).2

theorem take_allIds (hneed : c.needed = c.survivors.length)
    (hfresh : c.diskNpts + (c.survivors.length - c.freeIds.length) < 2 ^ 32) :
    c.allIds.take c.needed = c.handedOut := by
  have hmap : (List.range (c.survivors.length - c.freeIds.length)).map
      (fun k => (c.diskNpts + k) % 2 ^ 32) =
        range' c.diskNpts (c.survivors.length - c.freeIds.length) := by
    rw [range'_eq_map_range]
    refine map_congr_left fun k hk => Nat.mod_eq_of_lt ?_
    have := List.mem_range.1 hk
    omega
  rw [allIds, hneed, hmap, handedOut]

/-! ### The pairs -/

variable {pairs : List (ℕ × ℕ)}

theorem assignIds_eq_some {ss : List (ℕ × ℕ)} {ids : List ℕ} (h : c.assignIds ss ids = some pairs) :
    ss.length ≤ ids.length ∧ pairs = (ss.map c.memId).zip ids := by
  induction ss generalizing ids pairs with
  | nil =>
    cases h
    exact ⟨Nat.zero_le _, rfl⟩
  | cons s ss ih =>
    cases ids with
    | nil => cases h
    | cons id ids =>
      rw [assignIds] at h
      split_ifs at h
      obtain ⟨pairs', h', rfl⟩ := Option.map_eq_some_iff.1 h
      obtain ⟨hle, rfl⟩ := ih h'
      exact ⟨Nat.succ_le_succ hle, rfl⟩

theorem assignIds_of_lt {ss : List (ℕ × ℕ)} {ids : List ℕ} (hlen : ss.length ≤ ids.length)
    (h : ∀ id ∈ ids, id < c.lastId) : c.assignIds ss ids = some ((ss.map c.memId).zip ids) := by
  induction ss generalizing ids with
  | nil => rfl
  | cons s ss ih =>
    cases ids with
    | nil => exact absurd hlen (Nat.not_succ_le_zero _)
    | cons id ids =>
      rw [assignIds, if_neg fun hn => hn.2 (h id mem_cons_self),
        ih (Nat.le_of_succ_le_succ hlen) fun id hid => h id (mem_cons_of_mem _ hid)]
      rfl

theorem mem_survivors_lt {s : ℕ × ℕ} (h : s ∈ c.survivors) : s.2 < maxPtsPerMemIndex := by
  obtain ⟨x, hx, hs⟩ := mem_flatMap.1 h
  obtain ⟨j, hj, rfl⟩ := mem_map.1 hs
  have hlt := List.mem_range.1 (mem_of_mem_filter hj)
  exact hlt.trans (c.mem_small _ (mem_of_getElem? (mem_zipIdx_iff_getElem?.1 hx)))

theorem memId_eq {s : ℕ × ℕ} (h : s ∈ c.survivors) : c.memId s = c.offsetId s.1 + s.2 := by
  have hlt := mem_survivors_lt h
  have hmax : maxPtsPerMemIndex = 2 ^ 25 := rfl
  have hoff : indexOffset = 2 ^ 27 := rfl
  refine Nat.mod_eq_of_lt ?_
  have hmod : c.offsetId s.1 % 2 ^ 27 = 0 := by
    rw [offsetId, Nat.mod_mod_of_dvd _ (by decide), roundUp, hoff, ← Nat.add_mul,
      Nat.mul_mod_left]
  have hlt' : c.offsetId s.1 < 2 ^ 32 := Nat.mod_lt _ (by decide)
  omega

theorem pairwise_memIds : (c.survivors.map c.memId).Pairwise (· < ·) ↔
    c.survivors.Pairwise fun s t => c.offsetId s.1 + s.2 < c.offsetId t.1 + t.2 := by
  rw [pairwise_map]
  refine ⟨fun h => h.imp_of_mem fun hs ht hst => ?_, fun h => h.imp_of_mem fun hs ht hst => ?_⟩
  · rwa [memId_eq hs, memId_eq ht] at hst
  · rwa [memId_eq hs, memId_eq ht]

theorem needed_of_fits
    (hfresh : c.diskNpts + (c.survivors.length - c.freeIds.length) < 2 ^ 32) :
    c.needed = c.survivors.length := by
  have hle := length_freeIds_le (c := c)
  rw [needed_eq]
  exact Nat.mod_eq_of_lt (by omega)

theorem computeRenameMap_of_fresh
    (hfresh : c.diskNpts + (c.survivors.length - c.freeIds.length) < 2 ^ 32) :
    c.computeRenameMap = some ((c.survivors.map c.memId).zip c.handedOut) := by
  have hneed := needed_of_fits hfresh
  rw [computeRenameMap, take_allIds hneed hfresh]
  refine assignIds_of_lt length_handedOut.ge fun id hid => ?_
  rw [lastId, hneed, Nat.mod_eq_of_lt hfresh]
  exact lt_of_mem_handedOut hid

theorem isRenaming_zip (h : c.Fits) :
    c.IsRenaming ((c.survivors.map c.memId).zip c.handedOut) := by
  have hlen : (c.survivors.map c.memId).length = c.handedOut.length := by
    rw [length_map, length_handedOut]
  have hfst := map_fst_zip hlen.le
  have hsnd := map_snd_zip hlen.ge
  have hasc : (((c.survivors.map c.memId).zip c.handedOut).map Prod.fst).Pairwise (· < ·) := by
    rw [hfst]
    exact pairwise_memIds.2 h.ascend
  have hasc' : ((((c.survivors.map c.memId).zip c.handedOut).map Prod.swap).map
      Prod.fst).Pairwise (· < ·) := by
    rw [zip_swap, map_fst_zip hlen.ge]
    exact pairwise_handedOut
  have hget : ∀ p ∈ (c.survivors.map c.memId).zip c.handedOut,
      searchPairs ((c.survivors.map c.memId).zip c.handedOut) p.1 = p.2 :=
    fun p hp => searchPairs_of_mem hasc hp
  have hinv : ∀ p ∈ (c.survivors.map c.memId).zip c.handedOut,
      searchPairs (((c.survivors.map c.memId).zip c.handedOut).map Prod.swap) p.2 = p.1 :=
    fun p hp => searchPairs_of_mem hasc' (mem_map_of_mem hp)
  have hids : (c.survivors.map fun s =>
      searchPairs ((c.survivors.map c.memId).zip c.handedOut) (c.memId s)) = c.handedOut := by
    calc _ = (((c.survivors.map c.memId).zip c.handedOut).map Prod.fst).map
          (searchPairs ((c.survivors.map c.memId).zip c.handedOut)) := by
            rw [hfst, map_map]
            rfl
      _ = ((c.survivors.map c.memId).zip c.handedOut).map Prod.snd := by
            rw [map_map]
            exact map_congr_left hget
      _ = c.handedOut := hsnd
  refine ⟨hids, ?_, fun s hs => ?_, fun s hs => ?_, fun id hid => ?_, fun o ho => ?_,
    fun id hid => ?_⟩
  · rw [hids]
    exact pairwise_handedOut.imp fun h => h.ne
  · have hmem := mem_map_of_mem
      (f := fun s => searchPairs ((c.survivors.map c.memId).zip c.handedOut) (c.memId s)) hs
    rw [hids] at hmem
    have hlt := lt_of_mem_handedOut hmem
    have hfresh := h.fresh
    rw [invalidId]
    omega
  · have hs' := mem_map_of_mem (f := c.memId) hs
    rw [← hfst] at hs'
    obtain ⟨p, hp, he⟩ := mem_map.1 hs'
    rw [← he, hget p hp, hinv p hp]
  · rw [← hsnd] at hid
    obtain ⟨p, hp, rfl⟩ := mem_map.1 hid
    rw [hinv p hp, hget p hp]
  · refine searchPairs_of_not_mem ?_
    rwa [hfst]
  · refine searchPairs_of_not_mem ?_
    rwa [zip_swap, map_fst_zip hlen.ge]

theorem mem_snd_of_searchPairs {a b : ℕ} (h : searchPairs pairs a = b) (hb : b ≠ invalidId) :
    b ∈ pairs.map Prod.snd :=
  mem_map_of_mem (mem_of_getElem? (getElem?_placeOf h hb))

theorem IsRenaming.fits (hpairs : c.computeRenameMap = some pairs) (h : c.IsRenaming pairs) :
    c.Fits := by
  obtain ⟨hlen, rfl⟩ := assignIds_eq_some hpairs
  -- an id that is handed out is one that was computed, so it has 32 bits
  have hlt : ∀ id ∈ c.handedOut, id < invalidId := by
    intro id hid
    rw [← h.ids] at hid
    obtain ⟨s, hs, he⟩ := mem_map.1 hid
    have hne := h.valid s hs
    rw [he] at hne
    obtain ⟨p, hp, hp'⟩ := mem_map.1 (mem_snd_of_searchPairs he hne)
    have hmem := mem_of_mem_take (of_mem_zip hp).2
    rw [hp'] at hmem
    have hbits : id < 2 ^ 32 := by
      obtain hid | hid := mem_append.1 hmem
      · exact (c.freeIds_lt id hid).trans c.diskNpts_lt
      · obtain ⟨k, -, rfl⟩ := mem_map.1 hid
        exact Nat.mod_lt _ (by decide)
    rw [invalidId] at hne ⊢
    omega
  have hfresh : c.diskNpts + (c.survivors.length - c.freeIds.length) < 2 ^ 32 := by
    obtain hle | hgt := le_or_gt c.survivors.length c.freeIds.length
    · rw [Nat.sub_eq_zero_of_le hle]
      exact c.diskNpts_lt
    · have hlast : c.diskNpts + (c.survivors.length - c.freeIds.length - 1) ∈ c.handedOut := by
        rw [handedOut, take_of_length_le]
        · refine mem_append_right _ (mem_range'_1.2 ?_)
          omega
        · rw [length_append, length_range']
          omega
      have hlast' := hlt _ hlast
      rw [invalidId] at hlast'
      omega
  refine ⟨pairwise_memIds.1 ?_, hfresh⟩
  have hneed := needed_of_fits hfresh
  rw [take_allIds hneed hfresh] at h
  have hlen : (c.survivors.map c.memId).length = c.handedOut.length := by
    rw [length_map, length_handedOut]
  have hfst := map_fst_zip hlen.le
  have hsnd := map_snd_zip hlen.ge
  rw [← hfst]
  refine pairwise_of_searchPairs ?_ (fun p hp => ?_) fun p hp => ?_
  · rw [hsnd]
    exact pairwise_handedOut.imp fun h => h.ne
  · exact (hlt _ (of_mem_zip hp).2).ne
  · obtain ⟨k, hk⟩ := mem_iff_getElem?.1 hp
    obtain ⟨h1, h2⟩ := getElem?_zip_eq_some.1 hk
    rw [getElem?_map] at h1
    obtain ⟨s, hs, he⟩ := Option.map_eq_some_iff.1 h1
    have hids := congrArg (fun ids => ids[k]?) h.ids
    rw [getElem?_map, hs, Option.map_some, h2, he] at hids
    exact Option.some.inj hids

/-- The renaming is right exactly when the ids fit. -/
theorem renamesWell_iff (c : RenameCall) : c.RenamesWell ↔ c.Fits := by
  constructor
  · rintro ⟨pairs, hpairs, h⟩
    exact h.fits hpairs
  · exact fun h => ⟨_, computeRenameMap_of_fresh h.fresh, isRenaming_zip h⟩

/-- One point in the first and one in the last of 32 memory indices. -/
def farMem : List (ℕ × Finset ℕ) := (1, ∅) :: (List.replicate 30 (0, ∅) ++ [(1, ∅)])

theorem farMem_small : ∀ x ∈ farMem, x.1 < maxPtsPerMemIndex := by decide

theorem farMem_deleted : ∀ x ∈ farMem, ∀ id ∈ x.2, id < x.1 := by decide

theorem one_lt_bits : 1 < 2 ^ 32 := by decide

theorem nil_ascends : ([] : List ℕ).Pairwise (· < ·) := Pairwise.nil

theorem nil_lt : ∀ id ∈ ([] : List ℕ), id < 1 := forall_mem_nil _

def farCall : RenameCall where
  asserts := false
  diskNpts := 1
  diskNpts_lt := one_lt_bits
  mem := farMem
  mem_small := farMem_small
  deleted_lt := farMem_deleted
  freeIds := []
  freeIds_ascend := nil_ascends
  freeIds_lt := nil_lt

/-- The offset of the last index has come round to `0`, and the search does not find its point. -/
theorem not_renamesWell_far :
    farCall.survivors = [(0, 0), (31, 0)] ∧ farCall.memId (31, 0) = 0 ∧ ¬ farCall.RenamesWell := by
  refine ⟨by decide, by decide, fun ⟨pairs, hpairs, h⟩ => ?_⟩
  obtain rfl : pairs = [(2 ^ 27, 1), (0, 2)] :=
    Option.some.inj (hpairs.symm.trans (by decide))
  exact h.valid (31, 0) (by decide) (by decide)

end RenameCall

/-! ### A merge -/

namespace IndexMerger

variable {D Code Tag : Type} [DecidableEq Tag] {m : IndexMerger D Code Tag}

/-- `mem_deleted_ids` of a memory index. -/
def deletedPlaces (m : IndexMerger D Code Tag) (pts : List (Vec × Tag)) : Finset ℕ :=
  (Finset.range pts.length).filter fun j => ∃ p, pts[j]? = some p ∧ p.2 ∈ m.deletedTags

def memCounts (m : IndexMerger D Code Tag) : List (ℕ × Finset ℕ) :=
  m.mem.map fun pts => (pts.length, m.deletedPlaces pts)

theorem memCounts_small (m : IndexMerger D Code Tag) :
    ∀ x ∈ m.memCounts, x.1 < maxPtsPerMemIndex := by
  intro x hx
  obtain ⟨pts, hpts, rfl⟩ := mem_map.1 hx
  exact m.mem_small pts hpts

theorem memCounts_deleted (m : IndexMerger D Code Tag) :
    ∀ x ∈ m.memCounts, ∀ id ∈ x.2, id < x.1 := by
  intro x hx id hid
  obtain ⟨pts, -, rfl⟩ := mem_map.1 hx
  exact Finset.mem_range.1 (Finset.mem_filter.1 hid).1

theorem pairwise_holes (m : IndexMerger D Code Tag) : m.holes.Pairwise (· < ·) :=
  pairwise_lt_range.filter _

theorem holes_lt (m : IndexMerger D Code Tag) : ∀ id ∈ m.holes, id < m.diskNpts :=
  fun _ hid => (mem_holes.1 hid).1

/-- The call in a merge. -/
def renameCall (m : IndexMerger D Code Tag) (asserts : Bool) (h : m.diskNpts < 2 ^ 32) :
    RenameCall where
  asserts
  diskNpts := m.diskNpts
  diskNpts_lt := h
  mem := m.memCounts
  mem_small := memCounts_small m
  deleted_lt := memCounts_deleted m
  freeIds := m.holes
  freeIds_ascend := pairwise_holes m
  freeIds_lt := holes_lt m

variable {asserts : Bool} {h : m.diskNpts < 2 ^ 32}

theorem filter_deletedPlaces (pts : List (Vec × Tag)) :
    ((List.range pts.length).filter fun j => j ∉ m.deletedPlaces pts) = m.survivors pts := by
  refine Pairwise.eq_of_mem_iff (pairwise_lt_range.filter _) (pairwise_survivors pts)
    fun j => ?_
  rw [mem_survivors, mem_filter, List.mem_range, decide_eq_true_eq, deletedPlaces,
    Finset.mem_filter, Finset.mem_range]
  constructor
  · rintro ⟨hlt, hdel⟩
    refine ⟨pts[j], getElem?_eq_getElem hlt, fun hmem => hdel ⟨hlt, pts[j], ?_, hmem⟩⟩
    exact getElem?_eq_getElem hlt
  · rintro ⟨p, hp, hlive⟩
    refine ⟨(List.getElem?_eq_some_iff.1 hp).1, ?_⟩
    rintro ⟨-, q, hq, hmem⟩
    obtain rfl := Option.some.inj (hp.symm.trans hq)
    exact hlive hmem

theorem survivors_renameCall : (m.renameCall asserts h).survivors =
    m.mem.zipIdx.flatMap fun x => (m.survivors x.1).map fun j => (x.2, j) := by
  show (m.memCounts.zipIdx.flatMap fun x =>
    ((List.range x.1.1).filter fun j => j ∉ x.1.2).map fun j => (x.2, j)) = _
  rw [memCounts, zipIdx_map, flatMap_map]
  refine flatMap_congr fun x _ => ?_
  rw [← filter_deletedPlaces]
  rfl

theorem memIds_renameCall :
    (m.renameCall asserts h).survivors.map (m.renameCall asserts h).memId =
      m.inserts.map Prod.fst := by
  rw [survivors_renameCall, inserts, map_flatMap, map_flatMap]
  refine flatMap_congr fun x hx => ?_
  rw [map_map, map_map]
  refine map_congr_left fun j hj => ?_
  have hi := mem_zipIdx_iff_getElem?.1 hx
  have hlt := lt_of_mem_survivors hi hj
  have hlen : x.2 < m.mem.length := (List.getElem?_eq_some_iff.1 hi).1
  have hfit := m.ids_fit
  have hend : m.offsetId x.2 + indexOffset ≤ 2 ^ 32 := by
    have hle := Nat.mul_le_mul_right indexOffset (Nat.succ_le_of_lt hlen)
    rw [Nat.succ_mul] at hle
    rw [offsetId]
    omega
  have hoff : (m.renameCall asserts h).offsetId x.2 = m.offsetId x.2 := by
    refine Nat.mod_eq_of_lt ?_
    exact lt_of_lt_of_le (Nat.lt_add_of_pos_right (by decide)) hend
  rw [Function.comp_apply, RenameCall.memId, hoff]
  exact Nat.mod_eq_of_lt (by omega)

theorem length_survivors_renameCall :
    (m.renameCall asserts h).survivors.length = m.inserts.length := by
  have hids : (m.renameCall asserts h).survivors.map (m.renameCall asserts h).memId =
      m.inserts.map Prod.fst := memIds_renameCall
  have hlen := congrArg List.length hids
  rwa [length_map, length_map] at hlen

theorem fits_renameCall : (m.renameCall asserts h).Fits where
  ascend := by
    rw [← RenameCall.pairwise_memIds, memIds_renameCall]
    exact pairwise_inserts
  fresh := by
    have hlen : m.inserts.length ≤ m.mem.length * maxPtsPerMemIndex := length_inserts_le_mul
    have hfit := m.ids_fit
    have hru := le_roundUp m.diskNpts (show 0 < indexOffset by decide)
    have hoff : indexOffset = maxPtsPerMemIndex * 4 := rfl
    have hmax : 0 < maxPtsPerMemIndex := by decide
    rw [length_survivors_renameCall]
    show m.diskNpts + (m.inserts.length - m.holes.length) < 2 ^ 32
    obtain h0 | h0 := Nat.eq_zero_or_pos m.mem.length
    · rw [h0, Nat.zero_mul] at hlen
      omega
    · have hmul : m.mem.length * maxPtsPerMemIndex < m.mem.length * indexOffset :=
        Nat.mul_lt_mul_of_pos_left (by omega) h0
      omega

theorem computeRenameMap_renameCall :
    (m.renameCall asserts h).computeRenameMap = some m.renameList := by
  have hmin : min (m.inserts.map Prod.fst).length m.freeIds.length = m.inserts.length := by
    rw [length_map]
    exact min_eq_left length_inserts_le
  rw [RenameCall.computeRenameMap_of_fresh fits_renameCall.fresh, memIds_renameCall,
    RenameCall.handedOut, length_survivors_renameCall, Option.some.injEq]
  have hzip := @zip_eq_zip_take_min _ _ (m.inserts.map Prod.fst) m.freeIds
  rw [hmin, ← length_map, take_length, length_map] at hzip
  exact hzip.symm

theorem oneInsert_ok : SmallOk 4 [(⟨[1, 0, 0, 0], []⟩, 5)] [[([3, 0, 0, 0], 7)]] := by decide

/-- A node that is deleted, and one point to insert. -/
def oneInsert : IndexMerger ℕ Vec ℕ := smallMerger 4 1 2 _ _ {5} oneInsert_ok

end IndexMerger

end DiskANNEval.FreshDiskANN
