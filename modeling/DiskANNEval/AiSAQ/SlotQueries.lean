import DiskANNEval.AiSAQ.Save

/-!
# SlotQueries — what `_empty_slots.is_in_set` is asked

`clear` leaves the bitset of a `natural_number_set` with length `0`, and only `insert` makes it
longer.  The constructor inserts every slot; `load` and `compact_data` clear the set and insert
the slots from `_nd` on, so the bitset reaches to `_max_points` afterwards if there is such a
slot, and is empty if the index is full.

`queries` lists the calls of `is_in_set` that a call of the index makes, each with the set as it is
at that moment.  As long as no load and no compaction meets a full index every query is in range
(`queriesOk_of_room`).
-/

namespace DiskANNEval.AiSAQ

open Lib List

variable {Vec Tag D : Type}

/-- A call of `is_in_set`. -/
structure SlotQuery where
  set : NaturalNumberSet
  loc : ℕ

/-- The bitset has a bit for `loc`, and it says whether `loc` is an empty slot. -/
def SlotQuery.Ok (q : SlotQuery) : Prop :=
  q.loc < q.set.valuesBitset.length ∧
    (q.set.isInSet q.loc = some true ↔ q.loc ∈ q.set.valuesVector)

/-- The bit exists. -/
def SlotQuery.Answered (q : SlotQuery) : Prop := (q.set.isInSet q.loc).isSome = true

theorem NaturalNumberSet.Ok.query {e : NaturalNumberSet} (h : e.Ok) {loc : ℕ}
    (hloc : loc < e.valuesBitset.length) : SlotQuery.Ok ⟨e, loc⟩ :=
  ⟨hloc, h.bit_iff loc⟩

/-! ### The length of the bitset -/

namespace NaturalNumberSet

@[simp] theorem length_insert (e : NaturalNumberSet) (id : ℕ) :
    (e.insert id).valuesBitset.length = max e.valuesBitset.length (id + 1) := by
  rw [NaturalNumberSet.insert, List.length_set, length_grow]

theorem insertAll_append (e : NaturalNumberSet) (l l' : List ℕ) :
    e.insertAll (l ++ l') = (e.insertAll l).insertAll l' := foldl_append

theorem length_insertAll_range' (a n : ℕ) :
    (empty.insertAll (range' a n)).valuesBitset.length = if n = 0 then 0 else a + n := by
  induction n with
  | zero => rfl
  | succ n ih =>
    rw [range'_1_concat, insertAll_append]
    show ((empty.insertAll (range' a n)).insert (a + n)).valuesBitset.length = _
    rw [length_insert, ih, if_neg (Nat.succ_ne_zero n)]
    split_ifs
    · omega
    · omega

theorem Ok.lt_length {e : NaturalNumberSet} (h : e.Ok) {k : ℕ} (hk : k ∈ e.valuesVector) :
    k < e.valuesBitset.length :=
  (List.getElem?_eq_some_iff.mp ((h.bit_iff k).mpr hk)).1

end NaturalNumberSet

namespace Index

/-! ### The queries of a call -/

section Queries

variable [DecidableEq Tag] [Zero Tag] (cfg : Config Vec D)

/-- `release_locations`: the loop ends with an exception at a location that is in the set. -/
def releaseQueries : List ℕ → NaturalNumberSet → List SlotQuery
  | [], _ => []
  | location :: rest, e =>
    ⟨e, location⟩ ::
      if e.isInSet location = some true then [] else releaseQueries rest (e.insert location)

/-- The loop of `consolidate_deletes`, whose rounds do not change the set. -/
def loopQueries (deleted : List ℕ) (s : Index Vec Tag) : List SlotQuery :=
  ((List.range cfg.maxPoints).filter (· ∉ deleted)).map fun loc => ⟨s.emptySlots, loc⟩

/-- The checks that `consolidate_deletes` makes before its loop. -/
def PassesChecks (lockFree : Bool) (s : Index Vec Tag) : Prop :=
  s.emptySlots.size + s.nd = cfg.maxPoints ∧
    s.locationToTag.size + s.deleteSet.card = s.nd ∧
    s.locationToTag.size = s.tagToLocation.entries.length ∧
    lockFree = true ∧ s.start ∉ s.deleteSet

instance (lockFree : Bool) (s : Index Vec Tag) : Decidable (s.PassesChecks cfg lockFree) :=
  inferInstanceAs (Decidable (_ ∧ _))

def queries (s : Index Vec Tag) : Call Vec Tag D → List SlotQuery
  | .insertPoint _ tag _ =>
    if tag = 0 then []
    else
      match s.reserveLocation cfg with
      | some (some location, s) =>
        if (s.tagToLocation.lookup tag).isSome then [⟨s.emptySlots, location⟩] else []
      | _ => []
  | .consolidateDeletes _ lockFree order _ _ =>
    if s.PassesChecks cfg lockFree then
      let deleted := order.order (s.deleteSet.sort (· ≤ ·))
      s.loopQueries cfg deleted ++ releaseQueries deleted s.emptySlots
    else []
  | _ => []

variable {cfg} {s : Index Vec Tag}

section

omit [DecidableEq Tag] [Zero Tag]

theorem answered_loop {deleted : List ℕ} {orders : ℕ → SetOrder} {p : DeleteParams D} {fuel : ℕ}
    {ks : List ℕ} {st st' : Graph × ℕ}
    (h : ks.foldlM (processIfUsed cfg s deleted orders p fuel) st = .ok st') :
    ∀ loc ∈ ks, loc ∉ deleted → (s.emptySlots.isInSet loc).isSome = true := by
  induction ks generalizing st with
  | nil => exact fun loc hloc => absurd hloc not_mem_nil
  | cons k ks ih =>
    rw [foldlM_cons] at h
    cases h1 : processIfUsed cfg s deleted orders p fuel st k with
    | error e =>
      rw [h1] at h
      cases h
    | ok st1 =>
      rw [h1] at h
      intro loc hloc hnd
      rcases mem_cons.mp hloc with rfl | hloc
      · unfold processIfUsed at h1
        rw [if_neg hnd] at h1
        cases hb : s.emptySlots.isInSet loc with
        | none =>
          rw [hb] at h1
          cases h1
        | some b => rfl
      · exact ih h loc hloc hnd

theorem answered_releaseLocations {ks : List ℕ} {s : Index Vec Tag}
    {r : Option String × Index Vec Tag} (h : releaseLocations cfg ks s = some r) :
    ∀ q ∈ releaseQueries ks s.emptySlots, q.Answered := by
  induction ks generalizing s with
  | nil => exact fun q hq => absurd hq not_mem_nil
  | cons k ks ih =>
    rw [releaseLocations, releaseLocation] at h
    intro q hq
    rw [releaseQueries, mem_cons] at hq
    cases hb : s.emptySlots.isInSet k with
    | none =>
      rw [hb] at h
      cases h
    | some b =>
      rcases hq with rfl | hq
      · rw [SlotQuery.Answered, hb]
        rfl
      · cases b with
        | true =>
          rw [hb] at hq
          exact absurd hq not_mem_nil
        | false =>
          rw [hb] at hq
          rw [hb] at h
          exact ih h q hq

end

theorem answered_of_call {a : Call Vec Tag D} {r : Outcome Tag × Index Vec Tag}
    (h : s.call cfg a = some r) : ∀ q ∈ s.queries cfg a, q.Answered := by
  intro q hq
  cases a with
  | lazyDelete tag => exact absurd hq not_mem_nil
  | lazyDeleteBatch tags => exact absurd hq not_mem_nil
  | compactData => exact absurd hq not_mem_nil
  | insertPoint point tag fuel =>
    rw [call, insertPoint] at h
    rw [queries] at hq
    split_ifs at h hq with h0
    · exact absurd hq not_mem_nil
    · split at hq
      · rename_i location s1 hres
        rw [hres] at h
        dsimp only at h
        split_ifs at h hq with ht
        · rw [mem_singleton.mp hq, SlotQuery.Answered]
          rw [releaseLocation] at h
          cases hb : s1.emptySlots.isInSet location with
          | none =>
            rw [hb] at h
            cases h
          | some b => rfl
        · exact absurd hq not_mem_nil
      · exact absurd hq not_mem_nil
  | consolidateDeletes p lockFree order orders fuel =>
    rw [call, consolidateDeletes] at h
    rw [queries] at hq
    split_ifs at hq with hc
    · obtain ⟨hc1, hc2, hc3, hc4, hc5⟩ := hc
      have hst : s.start ∉ order.order (s.deleteSet.sort (· ≤ ·)) := by
        rw [mem_order]
        exact hc5
      rw [if_neg (by omega), if_neg (by omega), if_neg (by omega), hc4] at h
      rw [if_neg hst] at h
      cases hp : processDeletes cfg ({ s with deleteSet := ∅ } : Index Vec Tag)
          (order.order (s.deleteSet.sort (· ≤ ·))) orders p fuel with
      | error e =>
        rw [hp] at h
        cases h
      | ok st =>
        obtain ⟨g, calls⟩ := st
        rw [hp] at h
        dsimp only at h
        rcases mem_append.mp hq with hq | hq
        · obtain ⟨loc, hloc, rfl⟩ := mem_map.mp hq
          obtain ⟨hloc, hnd⟩ := mem_filter.mp hloc
          unfold processDeletes at hp
          cases h1 : (List.range cfg.maxPoints).foldlM (processIfUsed cfg
              ({ s with deleteSet := ∅ } : Index Vec Tag)
              (order.order (s.deleteSet.sort (· ≤ ·))) orders p fuel) (s.graph, 0) with
          | error e =>
            rw [h1] at hp
            cases hp
          | ok st1 => exact answered_loop h1 loc hloc (of_decide_eq_true hnd)
        · cases hrel : releaseLocations cfg (order.order (s.deleteSet.sort (· ≤ ·)))
              ({ s with deleteSet := ∅, graph := g } : Index Vec Tag) with
          | none =>
            rw [hrel] at h
            cases h
          | some r => exact answered_releaseLocations hrel q hq
    · exact absurd hq not_mem_nil

end Queries

/-! ### What every call keeps -/

section Kept

variable [DecidableEq Tag] [Zero Tag]

/-- Both tag maps hold locations below `n` only. -/
structure TagsBelow (n : ℕ) (m : AList (fun _ : Tag => ℕ)) (l : NaturalNumberMap Tag) : Prop where
  tagged_lt : ∀ t k, m.lookup t = some k → k < n
  live_lt : ∀ k, l.contains k = true → k < n

variable {n : ℕ} {m : AList (fun _ : Tag => ℕ)} {l : NaturalNumberMap Tag}

omit [Zero Tag] in
theorem TagsBelow.empty : TagsBelow n (∅ : AList (fun _ : Tag => ℕ)) .empty := by
  constructor
  · intro t k h
    cases h
  · intro k h
    cases h

variable {k fuel : ℕ}

omit [Zero Tag] in
theorem TagsBelow.insert (h : TagsBelow n m l) {t : Tag} (hk : k < n) :
    TagsBelow n (m.insert t k) l := by
  refine ⟨?_, h.live_lt⟩
  intro t' k' h'
  by_cases ht : t' = t
  · subst ht
    rw [AList.lookup_insert] at h'
    cases h'
    exact hk
  · rw [AList.lookup_insert_ne ht] at h'
    exact h.tagged_lt t' k' h'

theorem TagsBelow.set (h : TagsBelow n m l) {t : Tag} (hk : k < n) : TagsBelow n m (l.set k t) := by
  refine ⟨h.tagged_lt, ?_⟩
  intro j hj
  rw [NaturalNumberMap.contains_iff_tryGet] at hj
  by_cases hjk : j = k
  · exact hjk ▸ hk
  · rw [NaturalNumberMap.tryGet_set_ne _ _ hjk] at hj
    exact h.live_lt j ((NaturalNumberMap.contains_iff_tryGet _ _).mpr hj)

omit [Zero Tag] in
theorem TagsBelow.foldl_insert {es : List (Tag × ℕ)} (hes : ∀ e ∈ es, e.2 < n)
    (h : TagsBelow n m l) : TagsBelow n (es.foldl (fun m e => m.insert e.1 e.2) m) l := by
  induction es generalizing m with
  | nil => exact h
  | cons e es ih =>
    exact ih (fun e' he' => hes e' (mem_cons_of_mem _ he'))
      (h.insert (hes e mem_cons_self))

theorem TagsBelow.foldl_set {es : List (Tag × ℕ)} (hes : ∀ e ∈ es, e.2 < n)
    (h : TagsBelow n m l) : TagsBelow n m (es.foldl (fun l e => l.set e.2 e.1) l) := by
  induction es generalizing l with
  | nil => exact h
  | cons e es ih =>
    exact ih (fun e' he' => hes e' (mem_cons_of_mem _ he')) (h.set (hes e mem_cons_self))

theorem TagsBelow.foldl_loadTag {deleted : Finset ℕ} {its : List (ℕ × Tag)}
    (hits : ∀ it ∈ its, it.1 < n) (h : TagsBelow n m l) :
    TagsBelow n (its.foldl (loadTag deleted) (m, l)).1 (its.foldl (loadTag deleted) (m, l)).2 := by
  induction its generalizing m l with
  | nil => exact h
  | cons it its ih =>
    have hit := hits it mem_cons_self
    rw [foldl_cons, loadTag]
    split_ifs
    · exact ih (fun it' hit' => hits it' (mem_cons_of_mem _ hit')) h
    · exact ih (fun it' hit' => hits it' (mem_cons_of_mem _ hit')) ((h.insert hit).set hit)

variable (cfg : Config Vec D)

/-- The bitset has a bit for every slot, and no container names a location that is not a slot. -/
structure QueryInv (s : Index Vec Tag) : Prop where
  emptyOk : s.emptySlots.Ok
  length_eq : s.emptySlots.valuesBitset.length = cfg.maxPoints
  deleted_lt : ∀ k ∈ s.deleteSet, k < cfg.maxPoints
  tags : TagsBelow cfg.maxPoints s.tagToLocation s.locationToTag

variable {cfg} {s s' : Index Vec Tag}

section

omit [Zero Tag]

theorem QueryInv.fill (nd : ℕ) (hnd : nd < cfg.maxPoints)
    (he : s.emptySlots = NaturalNumberSet.empty.insertAll (range' nd (cfg.maxPoints - nd)))
    (hdel : ∀ k ∈ s.deleteSet, k < cfg.maxPoints)
    (ht : TagsBelow cfg.maxPoints s.tagToLocation s.locationToTag) : QueryInv cfg s := by
  refine ⟨?_, ?_, hdel, ht⟩
  · rw [he]
    exact NaturalNumberSet.ok_empty.insertAll nodup_range' fun _ _ => not_mem_nil
  · rw [he, NaturalNumberSet.length_insertAll_range', if_neg (by omega)]
    omega

/-- A location that `reserve_location` hands out is a slot that is not in the set any more. -/
theorem QueryInv.reserve (h : QueryInv cfg s) (hr : s.reserveLocation cfg = some (some k, s')) :
    k < cfg.maxPoints ∧ k ∉ s'.emptySlots.valuesVector ∧ QueryInv cfg s' := by
  unfold reserveLocation at hr
  split_ifs at hr with hfull hc
  · cases hr
  · cases hr
    have hempty : s.emptySlots.valuesVector = [] := by
      rw [Bool.and_eq_true, NaturalNumberSet.isEmpty, List.isEmpty_iff] at hc
      exact hc.2
    refine ⟨by omega, ?_, { h with }⟩
    show s.nd ∉ s.emptySlots.valuesVector
    rw [hempty]
    exact not_mem_nil
  · cases hp : s.emptySlots.popAny with
    | none =>
      rw [hp] at hr
      cases hr
    | some r =>
      obtain ⟨location, e⟩ := r
      rw [hp] at hr
      cases hr
      obtain ⟨hok, hv⟩ := h.emptyOk.popAny hp
      have hmem : k ∈ s.emptySlots.valuesVector := by rw [hv]; exact mem_cons_self
      have hnd := h.emptyOk.nodup
      rw [hv, nodup_cons] at hnd
      have hlen : e.valuesBitset.length = s.emptySlots.valuesBitset.length := by
        unfold NaturalNumberSet.popAny at hp
        split at hp
        · cases hp
        · cases hp
          exact length_set
      refine ⟨h.length_eq ▸ h.emptyOk.lt_length hmem, hnd.1, hok, hlen.trans h.length_eq, ?_, h.tags⟩
      intro j hj
      exact h.deleted_lt j (Finset.mem_of_mem_erase hj)

theorem QueryInv.release (h : QueryInv cfg s) (hk : k < cfg.maxPoints) {msg : Option String}
    (hr : s.releaseLocation k = some (msg, s')) : QueryInv cfg s' := by
  unfold releaseLocation at hr
  cases hb : s.emptySlots.isInSet k with
  | none =>
    rw [hb] at hr
    cases hr
  | some b =>
    rw [hb] at hr
    have hb := h.emptyOk.isInSet_eq hb
    cases b with
    | true =>
      cases hr
      exact h
    | false =>
      cases hr
      refine ⟨h.emptyOk.insert fun hk' => Bool.false_ne_true (hb.mpr hk'), ?_, h.deleted_lt, h.tags⟩
      show (s.emptySlots.insert k).valuesBitset.length = _
      rw [NaturalNumberSet.length_insert, h.length_eq]
      omega

theorem QueryInv.releaseLocations {ks : List ℕ} (h : QueryInv cfg s)
    (hks : ∀ k ∈ ks, k < cfg.maxPoints) {msg : Option String}
    (hr : Index.releaseLocations cfg ks s = some (msg, s')) : QueryInv cfg s' := by
  induction ks generalizing s with
  | nil =>
    cases hr
    exact h
  | cons k ks ih =>
    rw [Index.releaseLocations] at hr
    cases h1 : s.releaseLocation k with
    | none =>
      rw [h1] at hr
      cases hr
    | some r =>
      obtain ⟨msg1, s1⟩ := r
      have hs1 := h.release (hks k mem_cons_self) h1
      rw [h1] at hr
      cases msg1 with
      | some msg1 =>
        cases hr
        exact hs1
      | none => exact ih hs1 (fun j hj => hks j (mem_cons_of_mem _ hj)) hr

end

theorem QueryInv.insertPoint (h : QueryInv cfg s) {point : Vec} {tag : Tag} {out : Outcome Tag}
    (hi : s.insertPoint cfg point tag fuel = some (out, s')) : QueryInv cfg s' := by
  unfold Index.insertPoint at hi
  split_ifs at hi with h0
  · cases hi
    exact h
  · cases hres : s.reserveLocation cfg with
    | none =>
      rw [hres] at hi
      cases hi
      exact h
    | some r =>
      obtain ⟨o, s1⟩ := r
      rw [hres] at hi
      cases o with
      | none =>
        have hs1 : s1 = s := by
          unfold reserveLocation at hres
          split_ifs at hres
          · cases hres
            rfl
          · cases hres
          · split at hres
            · cases hres
            · cases hres
        cases hi
        rw [hs1]
        exact h
      | some k =>
        obtain ⟨hk, hfree, h1⟩ := h.reserve hres
        dsimp only at hi
        split_ifs at hi with ht
        · cases hrel : s1.releaseLocation k with
          | none =>
            rw [hrel] at hi
            cases hi
          | some r =>
            obtain ⟨msg, s2⟩ := r
            have h2 := h1.release hk hrel
            rw [hrel] at hi
            cases msg with
            | some msg =>
              cases hi
              exact h2
            | none =>
              cases hi
              exact h2
        · have hset : QueryInv cfg (s1.setPoint cfg k point tag) :=
            ⟨h1.emptyOk, h1.length_eq, h1.deleted_lt, (h1.tags.insert hk).set hk⟩
          cases hl : (s1.setPoint cfg k point tag).linkPoint cfg k fuel with
          | ok g =>
            rw [hl] at hi
            cases hi
            exact { hset with }
          | error f =>
            rw [hl] at hi
            cases f with
            | stuck => cases hi
            | threw msg =>
              cases hi
              exact hset

theorem QueryInv.deletePoint (h : QueryInv cfg s) {tag : Tag}
    (ht : s.tagToLocation.lookup tag = some k) : QueryInv cfg (s.deletePoint tag k) := by
  refine ⟨h.emptyOk, h.length_eq, ?_, ?_, ?_⟩
  · intro j hj
    rcases Finset.mem_insert.mp hj with rfl | hj
    · exact h.tags.tagged_lt tag j ht
    · exact h.deleted_lt j hj
  · intro t j hj
    by_cases htt : t = tag
    · subst htt
      rw [show (s.deletePoint t k).tagToLocation = s.tagToLocation.erase t from rfl,
        AList.lookup_erase] at hj
      cases hj
    · rw [show (s.deletePoint tag k).tagToLocation = s.tagToLocation.erase tag from rfl,
        AList.lookup_erase_ne htt] at hj
      exact h.tags.tagged_lt t j hj
  · intro j hj
    exact h.tags.live_lt j ((live_deletePoint s tag k j).mp hj).2

theorem QueryInv.lazyDelete (h : QueryInv cfg s) (tag : Tag) : QueryInv cfg (s.lazyDelete tag).2 :=
  lazyDelete_keeps (fun _ h => { h with }) (fun _ _ _ h ht => h.deletePoint ht) h tag

theorem QueryInv.lazyDeleteBatch (h : QueryInv cfg s) (tags : List Tag) :
    QueryInv cfg (s.lazyDeleteBatch tags).2 :=
  lazyDeleteBatch_keeps (fun _ h => { h with }) (fun _ _ _ h ht => h.deletePoint ht) h tags

omit [Zero Tag] in
theorem QueryInv.consolidateDeletes (h : QueryInv cfg s) {p : DeleteParams D} {lockFree : Bool}
    {order : SetOrder} {orders : ℕ → SetOrder} {out : Outcome Tag}
    (hr : s.consolidateDeletes cfg p lockFree order orders fuel = some (out, s')) :
    QueryInv cfg s' := by
  have hlt : ∀ k ∈ order.order (s.deleteSet.sort (· ≤ ·)), k < cfg.maxPoints :=
    fun k hk => h.deleted_lt k (mem_order.mp hk)
  have hnone : ∀ k ∈ (∅ : Finset ℕ), k < cfg.maxPoints := fun k hk =>
    absurd hk (Finset.notMem_empty k)
  unfold Index.consolidateDeletes at hr
  split_ifs at hr
  · cases hr
    exact h
  · cases hr
    exact h
  · cases hr
    exact h
  · cases hr
    exact h
  · dsimp only at hr
    split_ifs at hr with hst
    · cases hr
      exact ⟨h.emptyOk, h.length_eq, hnone, h.tags⟩
    · cases hp : processDeletes cfg ({ s with deleteSet := ∅ } : Index Vec Tag)
          (order.order (s.deleteSet.sort (· ≤ ·))) orders p fuel with
      | error e =>
        rw [hp] at hr
        cases hr
      | ok st =>
        obtain ⟨g, calls⟩ := st
        rw [hp] at hr
        dsimp only at hr
        have h1 : QueryInv cfg ({ s with deleteSet := ∅, graph := g } : Index Vec Tag) :=
          ⟨h.emptyOk, h.length_eq, hnone, h.tags⟩
        cases hrel : Index.releaseLocations cfg (order.order (s.deleteSet.sort (· ≤ ·)))
            ({ s with deleteSet := ∅, graph := g } : Index Vec Tag) with
        | none =>
          rw [hrel] at hr
          cases hr
        | some r =>
          obtain ⟨msg, s2⟩ := r
          have h2 := h1.releaseLocations hlt hrel
          rw [hrel] at hr
          cases msg with
          | some msg =>
            cases hr
            exact h2
          | none =>
            cases hr
            exact h2

theorem QueryInv.compactSlots (h : QueryInv cfg s) (hnd : s.nd < cfg.maxPoints) :
    QueryInv cfg (s.compactSlots cfg) := by
  have hentries : ∀ e ∈ s.tagEntries cfg, e.2 < cfg.maxPoints := by
    rintro ⟨t, k⟩ he
    obtain ⟨pos, hpos, rfl⟩ := (mem_tagEntries t k).mp he
    have hl : s.Live pos := (live_iff s pos).mpr ⟨t, hpos⟩
    have hlt := h.tags.live_lt pos hl
    exact (newLocation_le (Or.inl ⟨hl, hlt⟩)).trans_lt hlt
  have htags : TagsBelow cfg.maxPoints (s.compactTags cfg) (.empty : NaturalNumberMap Tag) := by
    rw [compactTags_eq]
    exact TagsBelow.empty.foldl_insert hentries
  refine QueryInv.fill s.nd hnd rfl h.deleted_lt ?_
  rw [locationToTag_compactSlots]
  apply htags.foldl_set
  intro e he
  obtain ⟨⟨t, k⟩, hmem, rfl⟩ := mem_map.mp he
  exact htags.tagged_lt t k (AList.mem_lookup_iff.mpr hmem)

/-- `compact_data` gets past its checks. -/
def Compacts (cfg : Config Vec D) (s : Index Vec Tag) : Prop :=
  s.dataCompacted = false ∧ s.deleteSet = ∅ ∧ ¬ (s.start < cfg.maxPoints ∧ ¬ s.Live s.start)

instance : Decidable (s.Compacts cfg) := inferInstanceAs (Decidable (_ ∧ _))

theorem QueryInv.compactData (h : QueryInv cfg s) (hroom : s.Compacts cfg → s.nd < cfg.maxPoints) :
    QueryInv cfg (s.compactData cfg).2 := by
  unfold Index.compactData
  split_ifs with hc hd hst
  · exact h
  · exact h
  · exact h
  · apply h.compactSlots
    apply hroom
    exact ⟨by simpa using hc, Finset.card_eq_zero.mp (by omega), hst⟩

/-- The delete list names points of the file. -/
def Saved.DeletesPoints (cfg : Config Vec D) (f : Saved Vec Tag) : Prop :=
  ∀ k ∈ f.deleteList.getD [], k + cfg.numFrozenPts < f.data.length

theorem QueryInv.load (h : QueryInv cfg s) {f : Saved Vec Tag} (hdel : f.DeletesPoints cfg)
    (hroom : f.data.length < cfg.totalPoints) (hl : s.load cfg f = some (.void, s')) :
    QueryInv cfg s' := by
  unfold Index.load at hl
  split_ifs at hl with hfits
  cases hg : loadGraph f.graph with
  | none =>
    rw [hg] at hl
    cases hl
  | some lists =>
    rw [hg] at hl
    dsimp only at hl
    split_ifs at hl with hlen
    · cases hl
    · rw [Config.totalPoints] at hroom
      have htags : TagsBelow cfg.maxPoints s.tagToLocation s.locationToTag := h.tags
      have hits : ∀ it ∈ (List.range (f.tags.length - cfg.numFrozenPts)).zip f.tags,
          it.1 < cfg.maxPoints := by
        intro it hit
        have := List.mem_range.mp (of_mem_zip hit).1
        omega
      have hdeleted : ∀ k ∈ s.deleteSet ∪ (f.deleteList.getD []).toFinset, k < cfg.maxPoints := by
        intro k hk
        rcases Finset.mem_union.mp hk with hk | hk
        · exact h.deleted_lt k hk
        · have := hdel k (mem_toFinset.mp hk)
          omega
      have hs1 := fun s1 : Index Vec Tag =>
        @QueryInv.fill _ _ _ _ cfg s1 (f.data.length - cfg.numFrozenPts)
      cases hl
      unfold repositionFrozenPointToEnd repositionPoints
      have hpos := cfg.maxPoints_pos
      split_ifs
      all_goals
        apply hs1
        · omega
        · rfl
        · exact hdeleted
        · exact htags.foldl_loadTag hits

theorem QueryInv.queriesOk (h : QueryInv cfg s) (a : Call Vec Tag D) :
    ∀ q ∈ s.queries cfg a, q.Ok := by
  have hrelease : ∀ (ks : List ℕ) (e : NaturalNumberSet), e.Ok →
      e.valuesBitset.length = cfg.maxPoints → (∀ k ∈ ks, k < cfg.maxPoints) →
      ∀ q ∈ releaseQueries ks e, q.Ok := by
    intro ks
    induction ks with
    | nil => exact fun e _ _ _ q hq => absurd hq not_mem_nil
    | cons k ks ih =>
      intro e hok hlen hks q hq
      have hk := hks k mem_cons_self
      rw [releaseQueries, mem_cons] at hq
      rcases hq with rfl | hq
      · exact hok.query (by omega)
      · split_ifs at hq with hin
        · exact absurd hq not_mem_nil
        · apply ih (e.insert k) ?_ ?_ (fun j hj => hks j (mem_cons_of_mem _ hj)) q hq
          · exact hok.insert fun hmem => hin ((hok.bit_iff k).mpr hmem)
          · rw [NaturalNumberSet.length_insert, hlen]
            omega
  intro q hq
  cases a with
  | lazyDelete tag => exact absurd hq not_mem_nil
  | lazyDeleteBatch tags => exact absurd hq not_mem_nil
  | compactData => exact absurd hq not_mem_nil
  | insertPoint point tag fuel =>
    rw [queries] at hq
    split_ifs at hq with h0
    · exact absurd hq not_mem_nil
    · split at hq
      · rename_i k s1 hres
        obtain ⟨hk, -, h1⟩ := h.reserve hres
        split_ifs at hq
        · rw [mem_singleton.mp hq]
          exact h1.emptyOk.query (by rw [h1.length_eq]; exact hk)
        · exact absurd hq not_mem_nil
      · exact absurd hq not_mem_nil
  | consolidateDeletes p lockFree order orders fuel =>
    rw [queries] at hq
    split_ifs at hq
    · rcases mem_append.mp hq with hq | hq
      · obtain ⟨loc, hloc, rfl⟩ := mem_map.mp hq
        have hlt := List.mem_range.mp (mem_filter.mp hloc).1
        exact h.emptyOk.query (by rw [h.length_eq]; exact hlt)
      · apply hrelease _ _ h.emptyOk h.length_eq ?_ q hq
        exact fun k hk => h.deleted_lt k (mem_order.mp hk)
    · exact absurd hq not_mem_nil

/-! ### Runs -/

variable (cfg)

/-- `build`, with the tags of its points; `graph` is what `link` makes. -/
def built (data : DataStore Vec) (graph : Graph) (tags : List Tag) : Index Vec Tag :=
  { (new cfg : Index Vec Tag) with
    nd := tags.length
    tagToLocation := tags.zipIdx.foldl (fun m e => m.insert e.1 e.2) ∅
    locationToTag := tags.zipIdx.foldl (fun m e => m.set e.2 e.1) .empty
    graph, data }

/-- An index after its constructor, after `set_start_points`, or after `build`. -/
inductive Started : Index Vec Tag → Prop
  | new : Started (new cfg)
  | init (points : ℕ → Vec) : Started (Index.init cfg points)
  | built (data : DataStore Vec) (graph : Graph) (tags : List Tag)
      (h : tags.length ≤ cfg.maxPoints) : Started (built cfg data graph tags)

inductive Op (Vec Tag D : Type)
  | call (a : Call Vec Tag D)
  | load (f : Saved Vec Tag)

/-- A call that returns, or a load that succeeds. -/
def opStep (s : Index Vec Tag) : Op Vec Tag D → Index Vec Tag → Prop
  | .call a, s' => s.step cfg a s'
  | .load f, s' => f.DeletesPoints cfg ∧ s.load cfg f = some (.void, s')

/-- A load or a compaction leaves room in the index. -/
def LeavesRoom (s : Index Vec Tag) : Op Vec Tag D → Prop
  | .call .compactData => s.Compacts cfg → s.nd < cfg.maxPoints
  | .load f => f.data.length < cfg.totalPoints
  | _ => True

variable {cfg}

omit [Zero Tag] in
theorem QueryInv.new : QueryInv cfg (Index.new cfg : Index Vec Tag) := by
  refine QueryInv.fill 0 cfg.maxPoints_pos ?_ ?_ TagsBelow.empty
  · rw [← range_eq_range']
    rfl
  · exact fun k hk => absurd hk (Finset.notMem_empty k)

theorem QueryInv.started (h : Started cfg s) : QueryInv cfg s := by
  have h0 := @QueryInv.new Vec Tag _ _ cfg
  cases h with
  | new => exact h0
  | init points => exact { h0 with }
  | built data graph tags hlen =>
    have hits : ∀ e ∈ tags.zipIdx, e.2 < cfg.maxPoints := by
      intro e he
      have := (mem_zipIdx he).2.1
      omega
    exact ⟨h0.emptyOk, h0.length_eq, h0.deleted_lt,
      (TagsBelow.empty.foldl_insert hits).foldl_set hits⟩

theorem QueryInv.opStep (h : QueryInv cfg s) {op : Op Vec Tag D} (hroom : s.LeavesRoom cfg op)
    (hstep : Index.opStep cfg s op s') : QueryInv cfg s' := by
  cases op with
  | load f => exact h.load hstep.1 hroom hstep.2
  | call a =>
    obtain ⟨out, hc⟩ := hstep
    cases a with
    | insertPoint point tag fuel => exact h.insertPoint hc
    | lazyDelete tag =>
      rw [← (Prod.mk.inj (Option.some.inj hc)).2]
      exact h.lazyDelete tag
    | lazyDeleteBatch tags =>
      rw [← (Prod.mk.inj (Option.some.inj hc)).2]
      exact h.lazyDeleteBatch tags
    | consolidateDeletes p lockFree order orders fuel => exact h.consolidateDeletes hc
    | compactData =>
      rw [← (Prod.mk.inj (Option.some.inj hc)).2]
      exact h.compactData hroom

theorem queriesOk_of_room
    (h : Reach (Started cfg) (guarded (fun s op => s.LeavesRoom cfg op) (opStep cfg)) s)
    (a : Call Vec Tag D) : ∀ q ∈ s.queries cfg a, q.Ok := by
  refine QueryInv.queriesOk (Reach.invariant (P := QueryInv cfg) ?_ ?_ h) a
  · exact fun s hs => QueryInv.started hs
  · exact fun s op s' hs hstep => hs.opStep hstep.1 hstep.2

/-! ### A full index -/

theorem exists_query_past_end (hbits : s.emptySlots.valuesBitset = []) {order : SetOrder}
    {orders : ℕ → SetOrder} {p : DeleteParams D} (hc : s.PassesChecks cfg true) :
    ∃ q ∈ s.queries cfg (.consolidateDeletes p true order orders fuel), ¬ q.Ok := by
  have hpast : ∀ loc, ¬ SlotQuery.Ok ⟨s.emptySlots, loc⟩ := by
    intro loc hok
    have hlt : loc < s.emptySlots.valuesBitset.length := hok.1
    rw [hbits] at hlt
    exact absurd hlt (Nat.not_lt_zero loc)
  rw [queries, if_pos hc]
  by_cases h0 : 0 ∈ order.order (s.deleteSet.sort (· ≤ ·))
  · obtain ⟨k, ks, hks⟩ := exists_cons_of_ne_nil (ne_nil_of_mem h0)
    refine ⟨⟨s.emptySlots, k⟩, mem_append_right _ ?_, hpast k⟩
    rw [hks]
    exact mem_cons_self
  · refine ⟨⟨s.emptySlots, 0⟩, mem_append_left _ ?_, hpast 0⟩
    refine mem_map.mpr ⟨0, mem_filter.mpr ⟨?_, by simpa using h0⟩, rfl⟩
    exact List.mem_range.mpr cfg.maxPoints_pos

/-- Files with the points `10`, `11`, ... with the tags `5`, `6`, ... and the frozen point `0`. -/
def savedPoints (n : ℕ) : Saved ℕ ℕ where
  graph := saveGraph (fun _ => []) (n + 1) 1 n
  data := (List.range n).map (10 + ·) ++ [0]
  tags := (List.range n).map (5 + ·) ++ [0]
  deleteList := none

theorem deletesPoints_savedPoints (n : ℕ) : (savedPoints n).DeletesPoints natConfig :=
  fun _ hk => absurd hk not_mem_nil

/-- The index of capacity `2` after loading one point and deleting it. -/
theorem queriesOk_after_load : ∃ s : Index ℕ ℕ, s.deleteSet = {0} ∧
    ∀ a, ∀ q ∈ s.queries natConfig a, q.Ok := by
  have h1 : ((new natConfig : Index ℕ ℕ).load natConfig (savedPoints 1)).map
      (fun r => (r.1.isVoid, (r.2.lazyDelete 5).2.deleteSet)) = some (true, {0}) := by decide
  obtain ⟨⟨out, s⟩, hs, hv⟩ := Option.map_eq_some_iff.mp h1
  obtain ⟨hout, hdel⟩ := Prod.mk.inj hv
  obtain rfl := Outcome.eq_void_of_isVoid hout
  have hload : Reach (Started natConfig)
      (guarded (fun s op => s.LeavesRoom natConfig op) (opStep natConfig)) s :=
    .next (a := .load (savedPoints 1)) (.start .new)
      ⟨show 2 < 3 by decide, deletesPoints_savedPoints 1, hs⟩
  exact ⟨(s.lazyDelete 5).2, hdel,
    queriesOk_of_room (.next (a := .call (.lazyDelete 5)) hload ⟨trivial, _, rfl⟩)⟩

/-- The index of capacity `2` after loading two points and deleting one of them: the loop of
`consolidate_deletes` asks for slot `1` of an empty bitset. -/
theorem query_past_end_after_load : ∃ s : Index ℕ ℕ,
    Reach (Started natConfig) (opStep natConfig) s ∧
      ∃ a, ∃ q ∈ s.queries natConfig a, ¬ q.Ok := by
  have h1 : ((new natConfig : Index ℕ ℕ).load natConfig (savedPoints 2)).map
      (fun r => (r.1.isVoid, (r.2.lazyDelete 5).2.emptySlots.valuesBitset,
        decide ((r.2.lazyDelete 5).2.PassesChecks natConfig true))) = some (true, [], true) := by
    decide
  obtain ⟨⟨out, s⟩, hs, hv⟩ := Option.map_eq_some_iff.mp h1
  simp only [Prod.mk.injEq, decide_eq_true_eq] at hv
  obtain ⟨hout, hbits, hchecks⟩ := hv
  obtain rfl := Outcome.eq_void_of_isVoid hout
  have hload : Reach (Started natConfig) (opStep natConfig) s :=
    .next (a := .load (savedPoints 2)) (.start .new) ⟨deletesPoints_savedPoints 2, hs⟩
  exact ⟨(s.lazyDelete 5).2, .next (a := .call (.lazyDelete 5)) hload ⟨_, rfl⟩,
    .consolidateDeletes ⟨2, 8, 1⟩ true .asIs (fun _ => .asIs) 20,
    exists_query_past_end hbits hchecks⟩

end Kept

end Index

end DiskANNEval.AiSAQ
