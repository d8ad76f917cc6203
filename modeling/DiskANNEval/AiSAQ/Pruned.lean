import DiskANNEval.AiSAQ.Search

/-!
# Pruned — the lists that a search, a pruning pass and a repair make

A search hands out each point once, since a point enters the queue once and leaves it marked.  A
pruning pass sets the occlude factor of what it chooses to `FLT_MAX`; as long as `alpha` is below
that value the point is not chosen a second time.  So every new list of a slot has no duplicate, no
loop and at most as many entries as it was asked for (`GoodList`).
-/

namespace DiskANNEval.AiSAQ

open List

variable {Vec D : Type}

/-- A list that slot `k` may have. -/
structure GoodList (bound k : ℕ) (l : List ℕ) : Prop where
  nodup : l.Nodup
  no_self : k ∉ l
  length_le : l.length ≤ bound

theorem GoodList.mono {b b' k : ℕ} {l : List ℕ} (h : GoodList b k l) (hb : b ≤ b') :
    GoodList b' k l :=
  ⟨h.nodup, h.no_self, h.length_le.trans hb⟩

theorem goodList_nil (b k : ℕ) : GoodList b k [] := ⟨nodup_nil, not_mem_nil, Nat.zero_le b⟩

theorem GoodList.sublist {b k : ℕ} {l l' : List ℕ} (h : GoodList b k l) (hs : l'.Sublist l) :
    GoodList b k l' :=
  ⟨h.nodup.sublist hs, fun hk => h.no_self (hs.subset hk), hs.length_le.trans h.length_le⟩

theorem nodup_eraseDups (l : List ℕ) : l.eraseDups.Nodup := by
  induction h : l.length using Nat.strong_induction_on generalizing l with
  | _ n ih =>
    cases l with
    | nil => exact nodup_nil
    | cons a l =>
      rw [eraseDups_cons, nodup_cons, mem_eraseDups]
      refine ⟨fun hmem => by simpa using (mem_filter.mp hmem).2, ih _ ?_ _ rfl⟩
      have := length_filter_le (fun b => !b == a) l
      rw [length_cons] at h
      omega

/-- `alpha` is less than `numeric_limits<float>::max()`, and so is what is at most `alpha`. -/
structure FloatOps.BelowMax (fl : FloatOps D) (alpha : D) : Prop where
  lt_max : fl.lt alpha fl.maxValue = true
  lt_max_of_le : ∀ c, fl.le c alpha = true → fl.lt c fl.maxValue = true

/-! ## The search hands out each point once -/

section Once

variable {cfg : Config Vec D} {fl : FloatOps D}

abbrev ids (pool : List (Neighbor D)) : List ℕ := pool.map (·.id)

/-- `ins` have been put into the queue, `exp` taken out of it; an unmarked element has not been
taken out, and the element at `_cur` is unmarked. -/
structure QueueOk (ins exp : List ℕ) (q : NeighborPriorityQueue D) : Prop where
  nodup : (ids q.data).Nodup
  inserted : ∀ i ∈ ids q.data, i ∈ ins
  unmarked : ∀ x ∈ q.data, x.expanded = false → x.id ∉ exp
  cur : ∀ x, q.data[q.cur]? = some x → x.expanded = false

variable {fuel : ℕ}

theorem findIndex_le {data : List (Neighbor D)} {nbr : Neighbor D} {lo hi r : ℕ}
    (h : NeighborPriorityQueue.findIndex fl data nbr fuel lo hi = some r) (hle : lo ≤ hi) :
    r ≤ hi := by
  induction fuel generalizing lo hi with
  | zero =>
    cases h
    exact hle
  | succ fuel ih =>
    rw [NeighborPriorityQueue.findIndex] at h
    split_ifs at h with hlt
    · dsimp only at h
      split at h
      · cases h
        exact hle
      · split_ifs at h
        · exact (ih h (by omega)).trans (by omega)
        · exact ih h (by omega)
    · cases h
      exact hle

theorem insert_cases (q : NeighborPriorityQueue D) (nbr : Neighbor D) :
    q.insert fl nbr = q ∨ ∃ lo ≤ q.data.length,
      q.insert fl nbr = { q with
        data := (q.data.take lo ++ .new nbr.id nbr.distance :: q.data.drop lo).take q.capacity
        cur := if lo < q.cur then lo else q.cur } := by
  unfold NeighborPriorityQueue.insert
  split
  · exact Or.inl rfl
  · split
    · exact Or.inl rfl
    · rename_i lo hlo
      exact Or.inr ⟨lo, findIndex_le hlo (Nat.zero_le _), rfl⟩

theorem QueueOk.insert {ins exp : List ℕ} {q : NeighborPriorityQueue D} (h : QueueOk ins exp q)
    {nbr : Neighbor D} (hins : nbr.id ∉ ins) (hexp : nbr.id ∉ exp) :
    QueueOk (nbr.id :: ins) exp (q.insert fl nbr) := by
  have hold : QueueOk (nbr.id :: ins) exp q :=
    ⟨h.nodup, fun i hi => mem_cons_of_mem _ (h.inserted i hi), h.unmarked, h.cur⟩
  rcases @insert_cases _ fl q nbr with heq | ⟨lo, hlo, heq⟩
  · rw [heq]
    exact hold
  · rw [heq]
    have hmem : ∀ x ∈ (q.data.take lo ++ .new nbr.id nbr.distance :: q.data.drop lo).take q.capacity,
        x = .new nbr.id nbr.distance ∨ x ∈ q.data := by
      intro x hx
      rcases mem_append.mp (mem_of_mem_take hx) with hx | hx
      · exact Or.inr (mem_of_mem_take hx)
      · rcases mem_cons.mp hx with hx | hx
        · exact Or.inl hx
        · exact Or.inr (mem_of_mem_drop hx)
    have hids : ids (q.data.take lo ++ .new nbr.id nbr.distance :: q.data.drop lo) =
        (ids q.data).take lo ++ nbr.id :: (ids q.data).drop lo := by
      simp [Neighbor.new]
    refine ⟨?_, ?_, ?_, ?_⟩
    · show (ids (List.take _ _)).Nodup
      rw [ids, map_take]
      refine Nodup.sublist (take_sublist _ _) ?_
      rw [← ids, hids, nodup_middle, take_append_drop, nodup_cons]
      exact ⟨fun hi => hins (h.inserted _ hi), h.nodup⟩
    · intro i hi
      obtain ⟨x, hx, rfl⟩ := mem_map.mp hi
      rcases hmem x hx with rfl | hx
      · exact mem_cons_self
      · exact hold.inserted _ (mem_map_of_mem hx)
    · intro x hx hf
      rcases hmem x hx with rfl | hx
      · exact hexp
      · exact h.unmarked x hx hf
    · intro x hx
      rw [getElem?_take] at hx
      dsimp only at hx
      split_ifs at hx with h1 h2
      · rw [getElem?_append_right (by simp), List.length_take, Nat.min_eq_left hlo,
          Nat.sub_self] at hx
        cases hx
        rfl
      · by_cases hcur : lo = q.cur
        · rw [getElem?_append_right (by simp [hcur]), List.length_take, Nat.min_eq_left hlo,
            hcur, Nat.sub_self] at hx
          cases hx
          rfl
        · rw [getElem?_append_left (by rw [List.length_take]; omega),
            getElem?_take_of_lt (by omega)] at hx
          exact h.cur x hx

variable {dist : ℕ → D}

theorem QueueOk.foldl_insert {ins exp news : List ℕ} {q : NeighborPriorityQueue D}
    (h : QueueOk ins exp q) (hexp : ∀ i ∈ exp, i ∈ ins) (hnd : news.Nodup)
    (hnew : ∀ i ∈ news, i ∉ ins) : ∃ ins', (∀ i, i ∈ ins' ↔ i ∈ news ∨ i ∈ ins) ∧
      QueueOk ins' exp (news.foldl (fun q id => q.insert fl (.new id (dist id))) q) := by
  induction news generalizing ins q with
  | nil => exact ⟨ins, fun i => by simp, h⟩
  | cons k news ih =>
    obtain ⟨hk, hnd⟩ := nodup_cons.mp hnd
    have hkins := hnew k mem_cons_self
    have h1 : QueueOk (k :: ins) exp (q.insert fl (.new k (dist k))) :=
      @QueueOk.insert _ _ _ _ _ h (.new k (dist k)) hkins fun hke => hkins (hexp k hke)
    have hnew' : ∀ i ∈ news, i ∉ k :: ins := by
      intro i hi hmem
      rcases mem_cons.mp hmem with rfl | hmem
      · exact hk hi
      · exact hnew i (mem_cons_of_mem _ hi) hmem
    obtain ⟨ins', hins', hq⟩ := ih h1 (fun i hi => mem_cons_of_mem _ (hexp i hi)) hnd hnew'
    refine ⟨ins', ?_, hq⟩
    intro i
    rw [hins', mem_cons, mem_cons]
    tauto

theorem QueueOk.congr {ins ins' exp : List ℕ} {q : NeighborPriorityQueue D} (h : QueueOk ins exp q)
    (hins : ∀ i ∈ ins, i ∈ ins') : QueueOk ins' exp q :=
  ⟨h.nodup, fun i hi => hins i (h.inserted i hi), h.unmarked, h.cur⟩

theorem QueueOk.closestUnexpanded {ins exp : List ℕ} {q q' : NeighborPriorityQueue D}
    {nbr : Neighbor D} (h : QueueOk ins exp q) (hc : q.closestUnexpanded = some (nbr, q')) :
    nbr.id ∈ ins ∧ nbr.id ∉ exp ∧ QueueOk ins (exp ++ [nbr.id]) q' := by
  unfold NeighborPriorityQueue.closestUnexpanded at hc
  split at hc
  · cases hc
  · rename_i x hx
    simp only [Option.some.injEq, Prod.mk.injEq] at hc
    obtain ⟨rfl, rfl⟩ := hc
    have hlt : q.cur < q.data.length := (List.getElem?_eq_some_iff.mp hx).1
    have hmem : x ∈ q.data := mem_of_getElem? hx
    have hids : ids (q.data.set q.cur { x with expanded := true }) = ids q.data := by
      obtain ⟨_, rfl⟩ := List.getElem?_eq_some_iff.mp hx
      rw [ids, map_set]
      have hlt' : q.cur < (ids q.data).length := by rwa [length_map]
      have hget : (ids q.data)[q.cur] = q.data[q.cur].id := getElem_map _
      rw [← hget]
      exact set_getElem_self hlt'
    refine ⟨h.inserted _ (mem_map_of_mem hmem), h.unmarked x hmem (h.cur x hx), ?_, ?_, ?_, ?_⟩
    · exact hids ▸ h.nodup
    · exact hids ▸ h.inserted
    · intro y hy hf hye
      obtain ⟨j, hj⟩ := mem_iff_getElem?.mp hy
      by_cases hjc : j = q.cur
      · rw [hjc, getElem?_set_self hlt] at hj
        cases hj
        cases hf
      · rw [getElem?_set_ne (Ne.symm hjc)] at hj
        rcases mem_append.mp hye with hye | hye
        · exact h.unmarked y (mem_of_getElem? hj) hf hye
        · -- `y` and the element taken out are two elements with one id
          have hj' : (ids q.data)[j]? = some x.id := by
            rw [getElem?_map, hj, Option.map_some, mem_singleton.mp hye]
          have hc' : (ids q.data)[q.cur]? = some x.id := by
            rw [getElem?_map, hx]
            rfl
          exact hjc ((getElem?_inj (List.getElem?_eq_some_iff.mp hj').1 h.nodup).mp
            (hj'.trans hc'.symm))
    · intro y hy
      rw [← getElem?_drop] at hy
      exact not_of_getElem?_takeWhile hy

/-- No point is in `expanded_nodes` twice. -/
structure SearchState.Once (st : SearchState D) : Prop where
  queue : QueueOk st.inserted (ids st.expanded) st.bestL
  expanded_inserted : ∀ i ∈ ids st.expanded, i ∈ st.inserted
  nodup : (ids st.expanded).Nodup

variable {st : SearchState D}

theorem SearchState.once_nil {l : ℕ} : SearchState.Once (⟨⟨l, 0, []⟩, [], []⟩ : SearchState D) := by
  refine ⟨⟨nodup_nil, ?_, ?_, ?_⟩, ?_, nodup_nil⟩
  · exact fun i hi => absurd hi not_mem_nil
  · exact fun x hx => absurd hx not_mem_nil
  · exact fun x hx => absurd hx (by simp)
  · exact fun i hi => absurd hi not_mem_nil

theorem SearchState.Once.insertInit {st' : SearchState D} {id : ℕ} (h : st.Once)
    (hi : insertInit cfg dist st id = .ok st') : st'.Once := by
  unfold DiskANNEval.AiSAQ.insertInit at hi
  split_ifs at hi with _ hin
  · cases hi
    exact h
  · cases hi
    refine ⟨?_, fun i hi => mem_cons_of_mem _ (h.expanded_inserted i hi), h.nodup⟩
    exact @QueueOk.insert _ _ _ _ _ h.queue (.new id (dist id)) hin fun he => hin (h.expanded_inserted id he)

theorem SearchState.Once.foldlM_insertInit {initIds : List ℕ} {st' : SearchState D} (h : st.Once)
    (hi : initIds.foldlM (DiskANNEval.AiSAQ.insertInit cfg dist) st = .ok st') : st'.Once := by
  induction initIds generalizing st with
  | nil =>
    cases hi
    exact h
  | cons i initIds ih =>
    rw [foldlM_cons] at hi
    cases h1 : DiskANNEval.AiSAQ.insertInit cfg dist st i with
    | error e =>
      rw [h1] at hi
      cases hi
    | ok s1 =>
      rw [h1] at hi
      exact ih (h.insertInit h1) hi

variable {graph : Graph}

theorem SearchState.Once.expandNode (h : st.Once) {nbr : Neighbor D} {q : NeighborPriorityQueue D}
    (hc : st.bestL.closestUnexpanded = some (nbr, q)) (hnd : (graph nbr.id).Nodup) :
    (expandNode cfg graph dist st nbr q).Once := by
  obtain ⟨hins, hexp, hq⟩ := h.queue.closestUnexpanded hc
  have hids : ids (st.expanded ++ [nbr]) = ids st.expanded ++ [nbr.id] := by simp [ids]
  have hexp' : ∀ i ∈ ids st.expanded ++ [nbr.id], i ∈ st.inserted := by
    intro i hi
    rcases mem_append.mp hi with hi | hi
    · exact h.expanded_inserted i hi
    · rw [mem_singleton.mp hi]
      exact hins
  obtain ⟨ins', hins', hfold⟩ := @QueueOk.foldl_insert _ cfg.fl dist _ _ _ _ hq hexp'
    (hnd.filter _) (fun i hi => of_decide_eq_true (mem_filter.mp hi).2)
  refine ⟨?_, ?_, ?_⟩
  · show QueueOk (_ ++ _) (ids (st.expanded ++ [nbr])) _
    rw [hids]
    apply hfold.congr
    intro i hi
    exact mem_append.mpr ((hins' i).mp hi)
  · intro i hi
    exact mem_append_right _ (hexp' i (hids ▸ hi))
  · show (ids (st.expanded ++ [nbr])).Nodup
    rw [hids]
    exact nodup_append.mpr ⟨h.nodup, nodup_singleton _, fun a ha b hb hab =>
      hexp (mem_singleton.mp hb ▸ hab ▸ ha)⟩

theorem nodup_iterateLoop {S : ℕ → Prop} (hS : Closed S graph) (hnd : ∀ k, S k → (graph k).Nodup)
    (hin : st.In S) (h : st.Once) {pool : List (Neighbor D)}
    (hl : iterateLoop cfg graph dist fuel st = .ok pool) : (ids pool).Nodup := by
  induction fuel generalizing st with
  | zero => cases hl
  | succ fuel ih =>
    rw [iterateLoop] at hl
    split at hl
    · cases hl
      exact h.nodup
    · rename_i nbr q hc
      obtain ⟨hn, hq⟩ := NeighborPriorityQueue.IdsIn.closestUnexpanded hin.1 hc
      exact ih (hin.expandNode hS dist hn hq) (h.expandNode hc (hnd _ hn)) hl

theorem nodup_iterateToFixedPoint {S : ℕ → Prop} (hS : Closed S graph)
    (hnd : ∀ k, S k → (graph k).Nodup) {lSize : ℕ} {initIds : List ℕ} (hinit : ∀ i ∈ initIds, S i)
    {pool : List (Neighbor D)}
    (h : iterateToFixedPoint cfg graph dist lSize initIds fuel = .ok pool) : (ids pool).Nodup := by
  unfold iterateToFixedPoint at h
  cases h1 : initIds.foldlM (insertInit cfg dist)
      (⟨⟨lSize, 0, []⟩, [], []⟩ : SearchState D) with
  | error e =>
    rw [h1] at h
    cases h
  | ok st =>
    rw [h1] at h
    have hin : SearchState.In S (⟨⟨lSize, 0, []⟩, [], []⟩ : SearchState D) :=
      ⟨fun x hx => absurd hx not_mem_nil, fun x hx => absurd hx not_mem_nil⟩
    exact nodup_iterateLoop hS hnd (hin.foldlM_insertInit hinit h1)
      (SearchState.once_nil.foldlM_insertInit h1) h

end Once

/-! ## A pruning pass chooses each point once -/

section Choose

variable {cfg : Config Vec D} {data : DataStore Vec} {location : ℕ} {pool : List (Neighbor D)}

/-- The chosen points are a good list, and their occlude factors are `FLT_MAX`. -/
structure Chosen (cfg : Config Vec D) (location degree : ℕ) (pool : List (Neighbor D))
    (st : List D × List ℕ) : Prop where
  good : GoodList degree location st.2
  marked : ∀ (i : ℕ) (x : Neighbor D), pool[i]? = some x → x.id ∈ st.2 → ∀ f, st.1[i]? = some f → f = cfg.fl.maxValue

variable {alpha curAlpha : D}

theorem occlude_maxValue (hα : cfg.fl.BelowMax alpha) (x y : Neighbor D) :
    occlude cfg data alpha curAlpha x y cfg.fl.maxValue = cfg.fl.maxValue := by
  rw [occlude, if_pos hα.lt_max]

variable {degree fuel : ℕ} {deleted : ℕ → Bool} {st : List D × List ℕ}

theorem Chosen.occludeAt {i : ℕ} (hα : cfg.fl.BelowMax alpha)
    (hcur : cfg.fl.lt curAlpha cfg.fl.maxValue = true) (hnd : (ids pool).Nodup)
    (h : Chosen cfg location degree pool st) : Chosen cfg location degree pool
      (occludeAt cfg data location pool alpha degree deleted curAlpha st i) := by
  unfold DiskANNEval.AiSAQ.occludeAt
  split
  · rename_i x f hx hf
    split
    · rename_i hc
      rw [Bool.and_eq_true, decide_eq_true_eq] at hc
      -- a point that has been chosen is not chosen again
      have hfresh : x.id ∉ st.2 := by
        intro hmem
        rw [h.marked i x hx hmem f hf, hcur] at hc
        exact Bool.noConfusion hc.2
      have hsame : ∀ (j : ℕ) (y : Neighbor D), pool[j]? = some y → y.id = x.id → j = i := by
        intro j y hy hyx
        have hj : (ids pool)[j]? = some x.id := by rw [getElem?_map, hy, Option.map_some, hyx]
        have hi : (ids pool)[i]? = some x.id := by rw [getElem?_map, hx, Option.map_some]
        exact (getElem?_inj (List.getElem?_eq_some_iff.mp hj).1 hnd).mp (hj.trans hi.symm)
      have hfactor : ∀ upd : ℕ → D → D, (∀ t y, pool[t]? = some y → ∀ g,
            upd t g = if i < t then occlude cfg data alpha curAlpha x y g else g) →
          ∀ (j : ℕ) (y : Neighbor D), pool[j]? = some y → (y.id ∈ st.2 ∨ y.id = x.id) → ∀ g,
          ((st.1.set i cfg.fl.maxValue).mapIdx upd)[j]? = some g → g = cfg.fl.maxValue := by
        intro upd hupd j y hy hmem g hg
        rw [getElem?_mapIdx, Option.map_eq_some_iff] at hg
        obtain ⟨g', hg', rfl⟩ := hg
        have hmax : g' = cfg.fl.maxValue := by
          by_cases hji : j = i
          · subst hji
            rw [getElem?_set_self (List.getElem?_eq_some_iff.mp hf).1] at hg'
            exact (Option.some.inj hg').symm
          · rw [getElem?_set_ne (Ne.symm hji)] at hg'
            rcases hmem with hmem | hmem
            · exact h.marked j y hy hmem g' hg'
            · exact absurd (hsame j y hy hmem) hji
        rw [hmax, hupd j y hy]
        split_ifs
        · exact occlude_maxValue hα x y
        · rfl
      show Chosen cfg location degree pool (_, if _ then _ else _)
      split_ifs with hadd
      · rw [Bool.and_eq_true, bne_iff_ne] at hadd
        refine ⟨⟨?_, ?_, ?_⟩, ?_⟩
        · exact nodup_append.mpr ⟨h.good.nodup, nodup_singleton _, fun a ha b hb hab =>
            hfresh (mem_singleton.mp hb ▸ hab ▸ ha)⟩
        · intro hl
          rcases mem_append.mp hl with hl | hl
          · exact h.good.no_self hl
          · exact hadd.2 (mem_singleton.mp hl).symm
        · rw [length_append]
          exact hc.1
        · intro j y hy hmem
          refine hfactor _ (fun t y hy g => by rw [hy]) j y hy ?_
          rcases mem_append.mp hmem with hmem | hmem
          · exact Or.inl hmem
          · exact Or.inr (mem_singleton.mp hmem)
      · exact ⟨h.good, fun j y hy hmem =>
          hfactor _ (fun t y hy g => by rw [hy]) j y hy (Or.inl hmem)⟩
    · exact h
  · exact h

theorem Chosen.foldl_occludeAt {is : List ℕ} (hα : cfg.fl.BelowMax alpha)
    (hcur : cfg.fl.lt curAlpha cfg.fl.maxValue = true) (hnd : (ids pool).Nodup)
    (h : Chosen cfg location degree pool st) : Chosen cfg location degree pool
      (is.foldl (DiskANNEval.AiSAQ.occludeAt cfg data location pool alpha degree deleted curAlpha)
        st) := by
  induction is generalizing st with
  | nil => exact h
  | cons i is ih => exact ih (h.occludeAt hα hcur hnd)

variable {result : List ℕ}

theorem goodList_occludeRounds (hα : cfg.fl.BelowMax alpha) (hnd : (ids pool).Nodup)
    (h : Chosen cfg location degree pool st)
    (hr : occludeRounds cfg data location pool alpha degree deleted fuel curAlpha st = .ok result) :
    GoodList degree location result := by
  induction fuel generalizing curAlpha st with
  | zero => cases hr
  | succ fuel ih =>
    rw [occludeRounds] at hr
    split at hr
    · rename_i hc
      rw [Bool.and_eq_true] at hc
      exact ih (h.foldl_occludeAt hα (hα.lt_max_of_le _ hc.1) hnd) hr
    · cases hr
      exact h.good

theorem goodList_occludeList (hα : cfg.fl.BelowMax alpha) (hnd : (ids pool).Nodup)
    (hr : occludeList cfg data location pool alpha degree deleted fuel = .ok result) :
    GoodList degree location result :=
  goodList_occludeRounds hα hnd
    ⟨goodList_nil _ _, fun _ _ _ hmem => absurd hmem not_mem_nil⟩ hr

theorem GoodList.saturate {range : ℕ} {pruned : List ℕ} (h : GoodList range location pruned) :
    GoodList range location (saturate location pool range pruned) := by
  unfold DiskANNEval.AiSAQ.saturate
  induction pool generalizing pruned with
  | nil => exact h
  | cons x pool ih =>
    rw [foldl_cons]
    apply ih
    split_ifs with hc
    · obtain ⟨hlen, hnew, hself⟩ := hc
      refine ⟨?_, ?_, ?_⟩
      · exact nodup_append.mpr ⟨h.nodup, nodup_singleton _, fun a ha b hb hab =>
          hnew (mem_singleton.mp hb ▸ hab ▸ ha)⟩
      · intro hl
        rcases mem_append.mp hl with hl | hl
        · exact h.no_self hl
        · exact hself (mem_singleton.mp hl).symm
      · rw [length_append]
        exact hlen
    · exact h

theorem ids_sortPool_perm (fl : FloatOps D) (pool : List (Neighbor D)) :
    (ids (sortPool fl pool)).Perm (ids pool) :=
  (perm_insertionSort _ pool).map _

theorem nodup_ids_take_sortPool (fl : FloatOps D) (n : ℕ) (h : (ids pool).Nodup) :
    (ids ((sortPool fl pool).take n)).Nodup := by
  rw [ids, map_take]
  exact ((ids_sortPool_perm fl pool).nodup_iff.mpr h).sublist (take_sublist _ _)

theorem goodList_pruneNeighbors (hα : cfg.fl.BelowMax cfg.indexingAlpha) (hnd : (ids pool).Nodup)
    (hr : pruneNeighbors cfg data location pool fuel = .ok result) :
    GoodList cfg.indexingRange location result := by
  unfold pruneNeighbors at hr
  split at hr
  · cases hr
    exact goodList_nil _ _
  · cases ho : occludeList cfg data location ((sortPool cfg.fl pool).take cfg.indexingMaxC)
        cfg.indexingAlpha cfg.indexingRange (fun _ => false) fuel with
    | error e =>
      simp only [ho] at hr
      cases hr
    | ok pruned =>
      have hgood := goodList_occludeList hα (nodup_ids_take_sortPool cfg.fl _ hnd) ho
      simp only [ho] at hr
      cases hr
      split_ifs
      · exact hgood.saturate
      · exact hgood

end Choose

end DiskANNEval.AiSAQ
