import DiskANNEval.AiSAQ.RoundTrip
import DiskANNEval.AiSAQ.WellFormed
import DiskANNEval.Lib.Maps
import Mathlib.Data.Set.Card

/-!
# TagStore — a dynamic `Index` as a store of vectors under tags

Seen through its tags the index is a partial map with room for `_max_points` points, in which a
deleted point takes its room until `consolidate_deletes`.  Every run of the index is a run of this
store (`refines`): no call loses a vector, or moves it to another tag.  A search returns tags of the
store, each once (`finds_of_run`).
-/

namespace DiskANNEval.AiSAQ

open Lib List Function

variable {Vec Tag D : Type} [DecidableEq Tag]

/-- The vectors by their tags, and the number of slots in use. -/
structure TagStore (Tag Vec : Type) where
  points : Tag → Option Vec
  used : ℕ

namespace TagStore

/-- The tags that name no point when their turn comes, and the points that are left. -/
def remove (points : Tag → Option Vec) : List Tag → List Tag × (Tag → Option Vec)
  | [] => ([], points)
  | tag :: tags =>
    match points tag with
    | none => (tag :: (remove points tags).1, (remove points tags).2)
    | some _ => remove (update points tag none) tags

variable [Zero Tag] (cfg : Config Vec D)

/-- What a call returns, and what it makes of the store. -/
def Step (m : TagStore Tag Vec) :
    Index.Call Vec Tag D × Outcome Tag → TagStore Tag Vec → Prop
  | (.insertPoint point tag _, out), m' =>
    if tag ≠ 0 ∧ m.points tag = none ∧ m.used < cfg.maxPoints then
      out = .code 0 ∧ m' = ⟨update m.points tag (some (cfg.preprocess point)), m.used + 1⟩
    else out ≠ .code 0 ∧ m' = m
  | (.lazyDelete tag, out), m' =>
    if (m.points tag).isSome then out = .code 0 ∧ m' = ⟨update m.points tag none, m.used⟩
    else out = .code (-1) ∧ m' = m
  | (.lazyDeleteBatch tags, out), m' =>
    out = .failedTags (remove m.points tags).1 ∧ m' = ⟨(remove m.points tags).2, m.used⟩
  | (.consolidateDeletes _ lockFree .., out), m' =>
    if lockFree then (∃ r, out = .report r ∧ r.status = .success) ∧
      m' = ⟨m.points, {tag | (m.points tag).isSome = true}.ncard⟩
    else (∀ r, out = .report r → r.status ≠ .success) ∧ m' = m
  | (.compactData, _), m' => m' = m

end TagStore

namespace Index

/-- What the tags show. -/
def tagStore (s : Index Vec Tag) : TagStore Tag Vec := ⟨s.vectorOf, s.nd⟩

variable {cfg : Config Vec D} {s s' : Index Vec Tag} {tag : Tag} {out : Outcome Tag}

theorem vectorOf_eq_none : s.vectorOf tag = none ↔ s.tagToLocation.lookup tag = none :=
  Option.map_eq_none_iff

theorem ncard_vectorOf : Set.ncard {tag | (s.vectorOf tag).isSome = true} =
    s.tagToLocation.entries.length := by
  have hF : ∀ k, (s.tagToLocation.lookup k).isSome = true ↔ k ∈ s.tagToLocation.keys.toFinset := by
    intro k
    rw [mem_toFinset, AList.lookup_isSome, AList.mem_keys]
  rw [length_entries_eq_card hF, ← Set.ncard_coe_finset]
  congr 1
  ext k
  exact (Eq.congr_left Option.isSome_map).trans (hF k)

theorem vectorOf_deletePoint {k : ℕ} :
    (s.deletePoint tag k).vectorOf = update s.vectorOf tag none := by
  funext t
  by_cases ht : t = tag
  · rw [ht, update_self]
    exact vectorOf_eq_none.2 (AList.lookup_erase ..)
  · rw [update_of_ne ht]
    exact congrArg (Option.map s.data) (AList.lookup_erase_ne ht)

variable [Zero Tag]

theorem vectorOf_setPoint {k : ℕ} {point : Vec} (h : Inv cfg s) (hk : ¬ s.Live k) :
    (s.setPoint cfg k point tag).vectorOf = update s.vectorOf tag (some (cfg.preprocess point)) := by
  funext t
  by_cases ht : t = tag
  · rw [ht, update_self]
    show Option.map _ ((s.tagToLocation.insert tag k).lookup tag) = _
    rw [AList.lookup_insert]
    exact congrArg some (update_self ..)
  · rw [update_of_ne ht]
    show Option.map _ ((s.tagToLocation.insert tag k).lookup t) = _
    rw [AList.lookup_insert_ne ht]
    refine Option.map_congr fun j hj => update_of_ne (fun he => hk ?_) ..
    exact he ▸ (live_iff s j).2 ⟨t, (h.slots.inverse t j).1 hj⟩

theorem step_refused {point : Vec} {fuel : ℕ}
    (h : ¬ (tag ≠ 0 ∧ s.vectorOf tag = none ∧ s.nd < cfg.maxPoints)) (hout : out ≠ .code 0) :
    TagStore.Step cfg s.tagStore (.insertPoint point tag fuel, out) s.tagStore := by
  rw [TagStore.Step, if_neg (by exact h)]
  exact ⟨hout, rfl⟩

theorem step_insertPoint (h : Inv cfg s) {point : Vec} {fuel : ℕ}
    (hi : s.insertPoint cfg point tag fuel = some (out, s')) :
    TagStore.Step cfg s.tagStore (.insertPoint point tag fuel, out) s'.tagStore := by
  unfold Index.insertPoint at hi
  split_ifs at hi with h0
  · cases hi
    exact step_refused (fun h => h.1 h0) nofun
  · rcases h.slots.reserveLocation_cases rfl with hr | ⟨k, e, hpop, hr⟩
    · -- the index is full
      rw [hr] at hi
      cases hi
      refine step_refused (fun h => ?_) nofun
      rw [reserveLocation, if_neg (Nat.not_le.2 h.2.2)] at hr
      split_ifs at hr
      · cases hr
      · split at hr
        · cases hr
        · cases hr
    · rw [hr] at hi
      obtain ⟨hk, hslots⟩ := h.slots.reserve hpop
      have hfree : ¬ s.Live k := (hslots.held_free k (Finset.mem_insert_self _ _)).1
      have hroom : s.nd < cfg.maxPoints := by
        have := hslots.empty_count
        exact (Nat.le_add_left _ _).trans_eq this
      dsimp only at hi
      split_ifs at hi with ht
      · cases hrel : Index.releaseLocation k
            ({ s with emptySlots := e, nd := s.nd + 1 } : Index Vec Tag) with
        | none => rw [hrel] at hi; cases hi
        | some r =>
          obtain ⟨msg, s1⟩ := r
          obtain ⟨rfl, hs1, -⟩ := Slots.release hk hslots hrel
          rw [hrel] at hi
          cases hi
          subst hs1
          refine step_refused (fun h => ?_) nofun
          rw [vectorOf_eq_none.1 h.2.1] at ht
          cases ht
      · rw [Bool.not_eq_true, Option.isSome_eq_false_iff, Option.isNone_iff_eq_none] at ht
        cases hl : Index.linkPoint cfg k fuel (Index.setPoint cfg k point tag
            ({ s with emptySlots := e, nd := s.nd + 1 } : Index Vec Tag)) with
        | ok g =>
          rw [hl] at hi
          cases hi
          show TagStore.Step cfg s.tagStore _ ⟨(s.setPoint cfg k point tag).vectorOf, s.nd + 1⟩
          rw [vectorOf_setPoint h hfree]
          rw [TagStore.Step, if_pos ⟨h0, vectorOf_eq_none.2 ht, hroom⟩]
          exact ⟨rfl, rfl⟩
        | error f =>
          rw [hl] at hi
          cases f with
          | stuck => cases hi
          | threw msg =>
            refine absurd hl (NoThrow.bind ?_ (fun _ _ => noThrow_interInsert _ _ _ _) msg)
            exact noThrow_searchForPointAndPrune h.slots.initIds_lt

theorem step_lazyDelete : TagStore.Step cfg s.tagStore (.lazyDelete tag, (s.lazyDelete tag).1)
    (s.lazyDelete tag).2.tagStore := by
  have hsome : (s.tagStore.points tag).isSome = (s.tagToLocation.lookup tag).isSome :=
    Option.isSome_map
  rw [TagStore.Step, Index.lazyDelete, hsome]
  dsimp only
  cases s.tagToLocation.lookup tag with
  | none => exact ⟨rfl, rfl⟩
  | some k => exact ⟨rfl, congrArg (TagStore.mk · s.nd) vectorOf_deletePoint⟩

omit [Zero Tag] in
theorem foldl_lazyDeleteOne (tags : List Tag) (st : List Tag × Index Vec Tag) :
    (tags.foldl lazyDeleteOne st).1 = st.1 ++ (TagStore.remove st.2.vectorOf tags).1 ∧
      (tags.foldl lazyDeleteOne st).2.tagStore = ⟨(TagStore.remove st.2.vectorOf tags).2, st.2.nd⟩ := by
  induction tags generalizing st with
  | nil => exact ⟨(append_nil _).symm, rfl⟩
  | cons tag tags ih =>
    rw [foldl_cons, TagStore.remove]
    cases hk : st.2.tagToLocation.lookup tag with
    | none =>
      rw [show lazyDeleteOne st tag = (st.1 ++ [tag], st.2) by rw [lazyDeleteOne, hk],
        vectorOf_eq_none.2 hk]
      refine ⟨(ih _).1.trans ?_, (ih _).2⟩
      exact append_assoc ..
    | some k =>
      rw [show lazyDeleteOne st tag = (st.1, st.2.deletePoint tag k) by rw [lazyDeleteOne, hk],
        show st.2.vectorOf tag = some (st.2.data k) by rw [vectorOf, hk]; rfl]
      have h := ih (st.1, st.2.deletePoint tag k)
      rw [vectorOf_deletePoint] at h
      exact h

theorem step_call (h : Inv cfg s) {a : Call Vec Tag D} (hc : s.call cfg a = some (out, s')) :
    TagStore.Step cfg s.tagStore (a, out) s'.tagStore := by
  cases a with
  | insertPoint point tag fuel => exact step_insertPoint h hc
  | lazyDelete tag =>
    have hstep : TagStore.Step cfg s.tagStore (.lazyDelete tag, (s.lazyDelete tag).1)
        (s.lazyDelete tag).2.tagStore := step_lazyDelete
    rwa [show s.lazyDelete tag = (out, s') from Option.some.inj hc] at hstep
  | lazyDeleteBatch tags =>
    obtain ⟨hfailed, hview⟩ := foldl_lazyDeleteOne tags ([], { s with dataCompacted := false })
    rw [← (Prod.mk.inj (Option.some.inj hc)).1, ← (Prod.mk.inj (Option.some.inj hc)).2, hview]
    exact ⟨congrArg _ hfailed, rfl⟩
  | consolidateDeletes p lockFree order orders fuel =>
    rcases h.slots.consolidateDeletes_cases hc with ⟨rfl, rfl, hout⟩ |
      ⟨st, ⟨rfl, hout⟩, -, hslots, hs'⟩
    · exact ⟨hout, rfl⟩
    · have hused := hslots.used_count
      have hpoints : s'.vectorOf = s.vectorOf := by rw [hs']; rfl
      have hdeleted : s'.deleteSet = ∅ := by rw [hs']
      rw [hdeleted, Finset.card_empty, Nat.add_zero, ← hslots.tags_count, ← ncard_vectorOf,
        hpoints] at hused
      refine ⟨hout, ?_⟩
      rw [tagStore, tagStore, hpoints, ← hused]
  | compactData =>
    have hview : (s.compactData cfg).2.tagStore = s.tagStore := by
      unfold Index.compactData
      split_ifs with h1 h2 h3
      · rfl
      · rfl
      · rfl
      · have hview := (h.sameView_compactSlots (Finset.card_eq_zero.1 (by omega))).vectors
        exact congrArg (TagStore.mk · s.nd) (funext hview)
    rw [show s.compactData cfg = (out, s') from Option.some.inj hc] at hview
    exact hview

/-- What the tags show in a run, and what the calls return, is a run of the store. -/
theorem refines (points : ℕ → Vec) {xs : List (Call Vec Tag D × Outcome Tag)}
    (h : Steps (fun s x s' => s.call cfg x.1 = some (x.2, s')) (init cfg points) xs s) :
    Steps (TagStore.Step cfg) ⟨fun _ => none, 0⟩ xs s.tagStore :=
  h.simulate (fun _ _ _ hs hc => ⟨hs.call hc, step_call hs hc⟩) (Inv.init points)

theorem refines_insert_delete : ∃ (xs : List (Call ℕ ℕ ℕ × Outcome ℕ)) (s : Index ℕ ℕ),
    xs.map Prod.fst = [.insertPoint 7 5 20, .lazyDelete 5] ∧
      Steps (TagStore.Step natConfig) ⟨fun _ => none, 0⟩ xs s.tagStore := by
  have hsome : ((init natConfig id : Index ℕ ℕ).call natConfig (.insertPoint 7 5 20)).isSome =
      true := by decide
  obtain ⟨⟨out, s⟩, hs⟩ := Option.isSome_iff_exists.1 hsome
  exact ⟨[(_, out), (_, _)], _, rfl, refines id (.cons hs (.cons rfl (.nil _)))⟩

/-! ### `search_with_tags` -/

/-- The loop of `iterate_to_fixed_point` with `search_invocation`, of which `best_L_nodes` is read. -/
def searchLoop (cfg : Config Vec D) (graph : Graph) (dist : ℕ → D) :
    ℕ → SearchState D → Except Fault (List (Neighbor D))
  | 0, _ => .error .stuck
  | fuel + 1, st =>
    match st.bestL.closestUnexpanded with
    | none => .ok st.bestL.data
    | some (nbr, q) => searchLoop cfg graph dist fuel (expandNode cfg graph dist st nbr q)

/-- The loop over `best_L_nodes`; `room` is the size of `res_vectors`. -/
def copyTagged (s : Index Vec Tag) (k room : ℕ) :
    List (Neighbor D) → List (Tag × Neighbor D) → List (Tag × Neighbor D)
  | [], res => res
  | node :: nodes, res =>
    match s.locationToTag.tryGet node.id with
    | none => copyTagged s k room nodes res
    | some tag =>
      let res := res ++ [(tag, node)]
      if res.length = k ∨ res.length = room then res else copyTagged s k room nodes res

variable (cfg : Config Vec D)

/-- The tags, each with the candidate whose vector and distance are copied. -/
def searchWithTags (s : Index Vec Tag) (query : Vec) (k l room fuel : ℕ) :
    Except Fault (List (Tag × Neighbor D)) :=
  if l < k then .error (.threw "Set L to a value of at least K")
  else do
    let dist := fun id => cfg.compare query (s.data id)
    let st ← (getInitIds cfg s.start).foldlM (insertInit cfg dist) ⟨⟨l, 0, []⟩, [], []⟩
    let bestL ← searchLoop cfg s.graph dist fuel st
    .ok (s.copyTagged k room bestL [])

/-- A search for `k` points returns, with tags of the store. -/
def Finds (s : Index Vec Tag) (k : ℕ) (found : Except Fault (List (Tag × Neighbor D))) : Prop :=
  ∃ res, found = .ok res ∧ res.length ≤ k ∧ (res.map Prod.fst).Nodup ∧
    ∀ r ∈ res, s.vectorOf r.1 = some (s.data r.2.id)

variable {cfg} {graph : Graph} {S : ℕ → Prop} {st : SearchState D} {s : Index Vec Tag}
  {k l room fuel : ℕ}

omit [DecidableEq Tag] [Zero Tag] in
theorem copyTagged_spec (room : ℕ) (nodes : List (Neighbor D)) {res : List (Tag × Neighbor D)}
    (hk : res.length < k) : ∃ tagged, s.copyTagged k room nodes res = res ++ tagged ∧
      (res ++ tagged).length ≤ k ∧ (tagged.map Prod.snd).Sublist nodes ∧
      ∀ r ∈ tagged, s.locationToTag.tryGet r.2.id = some r.1 := by
  induction nodes generalizing res with
  | nil => exact ⟨[], (append_nil res).symm, by rw [append_nil]; exact hk.le, .slnil, nofun⟩
  | cons node nodes ih =>
    rw [copyTagged]
    cases htag : s.locationToTag.tryGet node.id with
    | none =>
      obtain ⟨tagged, heq, hlen, hsub, htags⟩ := ih hk
      exact ⟨tagged, heq, hlen, hsub.cons _, htags⟩
    | some tag =>
      have hlen : (res ++ [(tag, node)]).length ≤ k := by
        rw [length_append]
        exact hk
      dsimp only
      split_ifs with hfull
      · exact ⟨[(tag, node)], rfl, hlen, (nil_sublist _).cons_cons _, forall_mem_singleton.2 htag⟩
      · obtain ⟨tagged, heq, hlen', hsub, htags⟩ := ih (hlen.lt_of_ne fun h => hfull (.inl h))
        rw [append_assoc] at heq hlen'
        exact ⟨(tag, node) :: tagged, heq, hlen', hsub.cons_cons _, forall_mem_cons.2 ⟨htag, htags⟩⟩

theorem exists_insertInits (dist : ℕ → D) {ids : List ℕ} (h : ∀ i ∈ ids, i < cfg.totalPoints)
    (st : SearchState D) : ∃ st', ids.foldlM (insertInit cfg dist) st = .ok st' := by
  induction ids generalizing st with
  | nil => exact ⟨st, rfl⟩
  | cons i ids ih =>
    rw [forall_mem_cons] at h
    rw [foldlM_cons, insertInit, if_neg (not_le.2 h.1)]
    split_ifs
    · exact ih h.2 _
    · exact ih h.2 _

/-- Each turn expands another point. -/
theorem exists_searchLoop (dist : ℕ → D) (hS : Closed S graph) (hnd : ∀ k, S k → (graph k).Nodup)
    (hlt : ∀ k, S k → k < cfg.totalPoints) (hin : st.In S) (h : st.Once)
    (hfuel : cfg.totalPoints < fuel + st.expanded.length) :
    ∃ bestL, searchLoop cfg graph dist fuel st = .ok bestL ∧ (ids bestL).Nodup := by
  induction fuel generalizing st with
  | zero =>
    have hsub : ids st.expanded ⊆ range cfg.totalPoints := by
      intro i hi
      obtain ⟨x, hx, rfl⟩ := mem_map.1 hi
      exact mem_range.2 (hlt _ (hin.2 x hx))
    have hle := (h.nodup.subperm hsub).length_le
    rw [length_map, length_range] at hle
    omega
  | succ fuel ih =>
    rw [searchLoop]
    split
    · exact ⟨_, rfl, h.queue.nodup⟩
    · rename_i nbr q hc
      obtain ⟨hn, hq⟩ := NeighborPriorityQueue.IdsIn.closestUnexpanded hin.1 hc
      refine ih (hin.expandNode hS dist hn hq) (h.expandNode hc (hnd _ hn)) ?_
      rw [expandNode, length_append, length_singleton]
      omega

theorem GraphInv.finds {b : ℕ} (h : GraphInv cfg b s) (query : Vec) (hk : 0 < k) (hl : k ≤ l)
    (hfuel : cfg.totalPoints < fuel) : s.Finds k (s.searchWithTags cfg query k l room fuel) := by
  rw [searchWithTags, if_neg (not_lt.2 hl)]
  dsimp only
  have hlt : ∀ k, s.Linked cfg k → k < cfg.totalPoints := by
    have hle : cfg.maxPoints ≤ cfg.totalPoints := Nat.le_add_right ..
    rintro k (hlive | hdel | hf)
    · exact (h.inv.slots.live_lt k hlive).trans_le hle
    · exact (h.inv.slots.deleted_lt k hdel).trans_le hle
    · exact hf.2
  obtain ⟨st, hst⟩ := exists_insertInits (fun id => cfg.compare query (s.data id))
    h.inv.slots.initIds_lt (⟨⟨l, 0, []⟩, [], []⟩ : SearchState D)
  have hin : st.In (s.Linked cfg) :=
    SearchState.In.foldlM_insertInit ⟨fun _ hx => absurd hx not_mem_nil,
      fun _ hx => absurd hx not_mem_nil⟩ h.inv.linked_initIds hst
  obtain ⟨bestL, hbest, hnd⟩ := exists_searchLoop (fun id =>
    cfg.compare query (s.data id)) h.inv.closed (fun k hk => (h.good k hk).nodup)
    hlt hin (SearchState.once_nil.foldlM_insertInit hst) (hfuel.trans_le (Nat.le_add_right ..))
  obtain ⟨tagged, hres, hlen, hsub, htags⟩ := s.copyTagged_spec room bestL
    (show ([] : List (Tag × Neighbor D)).length < k from hk)
  have hlook : ∀ r ∈ tagged, s.tagToLocation.lookup r.1 = some r.2.id := fun r hr =>
    (h.inv.slots.inverse r.1 r.2.id).2 (htags r hr)
  rw [hst]
  dsimp only [bind, Except.bind]
  rw [hbest]
  dsimp only
  rw [hres]
  refine ⟨tagged, rfl, hlen, ?_, fun r hr => ?_⟩
  · -- two candidates with one tag would be one point
    have hids : ((tagged.map Prod.fst).map s.tagToLocation.lookup).Nodup := by
      have hmap : (tagged.map Prod.fst).map s.tagToLocation.lookup =
          (ids (tagged.map Prod.snd)).map some := by
        rw [map_map, ids, map_map, map_map]
        exact map_congr_left hlook
      rw [hmap]
      exact (hnd.sublist (hsub.map _)).map (Option.some_injective _)
    exact hids.of_map _
  · rw [vectorOf, hlook r hr]
    rfl

end Index

end DiskANNEval.AiSAQ
