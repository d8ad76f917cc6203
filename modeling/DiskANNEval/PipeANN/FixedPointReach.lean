import DiskANNEval.Lib.Exploration
import DiskANNEval.PipeANN.FixedPoint

/-!
# FixedPointReach — what the array holds when the search has ended

All candidates have been expanded by then, so there are `Lsize` of them, or they are all the points
that can be reached from the entry.  Behind them the array is as `resize` has left it; the last place,
`Lsize`, is taken when a new point pushes a candidate out of the full list (`displaced`).
-/

namespace DiskANNEval.PipeANN.FixedPoint

open Lib List

variable {D : Type} [LinearOrder D] [Zero D] (g : Graph D)

/-! ### What pushes a candidate out -/

/-- A neighbour that is new and nearer than the last candidate of a full list. -/
def displaces (s : State D) (id : ℕ) : Bool :=
  decide (id ∉ s.inserted ∧ s.l = g.Lsize ∧ g.dist id < (s.pool.getD (s.l - 1) default).distance)

def nbrsDisplace : State D × ℕ → List ℕ → Bool
  | _, [] => false
  | x, id :: ids => displaces g x.1 id || nbrsDisplace (pushNbr g x id) ids

/-- The candidate at `k` is expanded. -/
def mark (s : State D) : State D :=
  let nn := { s.pool.getD s.k default with flag := false }
  { s with pool := s.pool.set s.k nn, expanded := s.expanded ++ [nn] }

def stepDisplaces (s : State D) : Bool :=
  let nn := s.pool.getD s.k default
  nn.flag && nbrsDisplace g (mark s, s.l) (g.nbrs nn.id)

def runDisplaces : ℕ → State D → Bool
  | 0, _ => false
  | n + 1, s => decide (s.k < s.l) &&
      (stepDisplaces g s || ((step g s).map (runDisplaces n)).getD false)

/-- Some new neighbour pushes a candidate out of the list. -/
def displaced (maxDist : D) (ep : ℕ) : Bool := runDisplaces g (steps g) (start g maxDist ep)

/-! ### One neighbour -/

variable {g} {s s' : State D} {maxDist : D} {ep m k : ℕ} {pushed : Bool}

/-- A neighbour is not new, or it is not near enough for a full list, or it is put into the array. -/
theorem pushNbr_cases (h : Ok g (· < g.maxPoints) s) (nk id : ℕ) :
    id ∈ s.inserted ∧ pushNbr g (s, nk) id = (s, nk) ∨
    id ∉ s.inserted ∧ s.l = g.Lsize ∧ ¬ g.dist id < (s.pool.getD (s.l - 1) default).distance ∧
      pushNbr g (s, nk) id = ({ s with inserted := insert id s.inserted }, nk) ∨
    id ∉ s.inserted ∧ (s.l < g.Lsize ∨ s.l = g.Lsize ∧
        g.dist id < (s.pool.getD (s.l - 1) default).distance) ∧
      ∃ p ≤ s.l, pushNbr g (s, nk) id =
        ({ s with
            inserted := insert id s.inserted
            pool := putAt s.pool s.l p (.new id (g.dist id) true)
            l := if s.l < g.Lsize then s.l + 1 else s.l }, if p < nk then p else nk) := by
  have hle := h.le
  have hlen := h.length
  rw [pushNbr]
  by_cases hin : id ∈ s.inserted
  · exact .inl ⟨hin, if_pos hin⟩
  refine .inr ?_
  rw [if_neg hin]
  by_cases hfull : (s.pool.getD (s.l - 1) default).distance ≤ g.dist id ∧ s.l = g.Lsize
  · rw [if_pos hfull]
    exact .inl ⟨hin, hfull.2, not_lt.2 hfull.1, rfl⟩
  · have hnew : id ∉ s.cands.map Neighbor.id := by
      intro hmem
      obtain ⟨n, hn, rfl⟩ := mem_map.1 hmem
      exact hin (h.cands n hn).2
    obtain ⟨p, hp, heq⟩ := @insertIntoPool_eq _ _ _ s.pool s.l (.new id (g.dist id) true) h.pos
      (by omega) hnew
    rw [if_neg hfull, heq]
    refine .inr ⟨hin, ?_, p, hp, rfl⟩
    rcases hle.lt_or_eq with hlt | heq
    · exact .inl hlt
    · exact .inr ⟨heq, not_le.1 fun hd => hfull ⟨hd, heq⟩⟩

/-- What `resize` puts into the array. -/
def filler (maxDist : D) : Neighbor D := ⟨0, maxDist, false, false⟩

/-- The array behind the candidates. -/
def Rest (g : Graph D) (maxDist : D) (s : State D) : Bool → Prop
  | false => s.pool.drop s.l = List.replicate (g.Lsize + 1 - s.l) (filler maxDist)
  | true => s.l = g.Lsize ∧ ∃ e, s.pool.drop s.l = [e] ∧ e.id ∈ s.inserted ∧
      e.distance = g.dist e.id ∧ e.id ∉ s.cands.map Neighbor.id

/-- The array between two neighbours: the candidates have their own distances, those that are not
flagged have been expanded, among them the first `m`, and what is not in the list has found no place
in it. -/
structure Held (g : Graph D) (maxDist : D) (m : ℕ) (pushed : Bool) (s : State D) : Prop where
  ok : Ok g (· < g.maxPoints) s
  own : ∀ n ∈ s.cands, n.distance = g.dist n.id
  expanded : ∀ n ∈ s.cands, n.flag = false → n.id ∈ s.expanded.map Neighbor.id
  behind : ∀ n ∈ s.cands.take m, n.flag = false
  room : ∀ id ∈ s.inserted, id ∈ s.cands.map Neighbor.id ∨ g.Lsize ≤ s.l
  rest : Rest g maxDist s pushed

variable {cands : List (Neighbor D)} {nn : Neighbor D}

section

omit [LinearOrder D] [Zero D]

theorem mem_take_put {n : Neighbor D} {p l : ℕ}
    (hn : n ∈ (cands.take p ++ nn :: cands.drop p).take l) : n = nn ∨ n ∈ cands := by
  have hn' := mem_of_mem_take hn
  rw [mem_append, mem_cons] at hn'
  rcases hn' with hn' | rfl | hn'
  · exact .inr (mem_of_mem_take hn')
  · exact .inl rfl
  · exact .inr (mem_of_mem_drop hn')

theorem perm_put (p : ℕ) : (cands.take p ++ nn :: cands.drop p).Perm (nn :: cands) := by
  refine perm_middle.trans ?_
  rw [take_append_drop]

theorem take_put {p m : ℕ} (hp : p ≤ cands.length) (hm : m ≤ p) :
    (cands.take p ++ nn :: cands.drop p).take m = cands.take m := by
  have hlen : (cands.take p).length = p := length_take_of_le hp
  rw [take_append_of_le_length (hm.trans_eq hlen.symm), take_take, Nat.min_eq_left hm]

theorem exists_drop_eq {elems : List (Neighbor D)} {l : ℕ} (hlen : elems.length = l + 1)
    (hnd : (elems.map Neighbor.id).Nodup) :
    ∃ e ∈ elems, elems.drop l = [e] ∧ e.id ∉ (elems.take l).map Neighbor.id := by
  obtain ⟨e, he⟩ : ∃ e, elems.drop l = [e] := by
    rw [← length_eq_one_iff, length_drop]
    omega
  refine ⟨e, mem_of_mem_drop (he ▸ mem_singleton_self e), he, fun hmem => ?_⟩
  rw [← take_append_drop l elems, he, map_append, nodup_append'] at hnd
  exact hnd.2.2 hmem (mem_singleton_self _)

theorem nodup_put (h : Ok g (· < g.maxPoints) s) (hin : nn.id ∉ s.inserted) (p : ℕ) :
    ((s.cands.take p ++ nn :: s.cands.drop p).map Neighbor.id).Nodup := by
  rw [((perm_put p).map _).nodup_iff, map_cons, nodup_cons]
  refine ⟨fun hmem => ?_, h.nodup⟩
  obtain ⟨n, hn, hne⟩ := mem_map.1 hmem
  exact hin (hne ▸ (h.cands n hn).2)

end

theorem Held.put {nk id p : ℕ} (h : Held g maxDist (min nk k) pushed s) (hid : id < g.maxPoints)
    (hin : id ∉ s.inserted) (hp : p ≤ s.l)
    (hpush : pushNbr g (s, nk) id = ({ s with
      inserted := insert id s.inserted
      pool := putAt s.pool s.l p (.new id (g.dist id) true)
      l := if s.l < g.Lsize then s.l + 1 else s.l }, if p < nk then p else nk)) :
    Held g maxDist (min (pushNbr g (s, nk) id).2 k) (pushed || decide (s.l = g.Lsize))
      (pushNbr g (s, nk) id).1 := by
  obtain ⟨hok, hexp⟩ : Ok g (· < g.maxPoints) (pushNbr g (s, nk) id).1 ∧
      (pushNbr g (s, nk) id).1.expanded = s.expanded := h.ok.pushNbr hid
  have hle := h.ok.le
  have hlen := h.ok.length
  rw [hpush] at hok hexp ⊢
  set nn : Neighbor D := .new id (g.dist id) true
  set l' := if s.l < g.Lsize then s.l + 1 else s.l with hl'
  have hl'le : l' ≤ s.l + 1 := by
    rw [hl']
    split_ifs
    all_goals omega
  have hW := @take_putAt _ s.pool s.l p nn hp (by omega)
  rw [← State.cands] at hW
  have hcands : (putAt s.pool s.l p nn).take l' =
      (s.cands.take p ++ nn :: s.cands.drop p).take l' := by
    rw [← hW, take_take, Nat.min_eq_left hl'le]
  refine ⟨hok, fun n hn => ?_, fun n hn hflag => ?_, fun n hn => ?_, fun x hx => ?_, ?_⟩
  · rw [State.cands, hcands] at hn
    rcases mem_take_put hn with rfl | hn
    · rfl
    · exact h.own n hn
  · rw [State.cands, hcands] at hn
    rcases mem_take_put hn with rfl | hn
    · cases hflag
    · exact h.expanded n hn hflag
  · -- the elements before the new one have kept their places
    rw [State.cands, hcands] at hn
    refine h.behind n ?_
    have hmin : min (if p < nk then p else nk) k ≤ p ∧
        min (if p < nk then p else nk) k ≤ min nk k := by
      split_ifs
      all_goals omega
    rw [take_take] at hn
    have hn' := take_subset_take_left _ (Nat.min_le_left _ _) hn
    rw [take_put (hp.trans_eq h.ok.length_cands.symm) hmin.1] at hn'
    exact take_subset_take_left _ hmin.2 hn'
  · show x ∈ ((putAt s.pool s.l p nn).take l').map Neighbor.id ∨ g.Lsize ≤ l'
    by_cases hfull : s.l < g.Lsize
    · refine .inl ?_
      have hl'eq : l' = s.l + 1 := if_pos hfull
      have hmem : x ∈ ((s.cands.take p ++ nn :: s.cands.drop p).map Neighbor.id) := by
        refine ((perm_put p).map _).mem_iff.2 ?_
        rcases Finset.mem_insert.1 hx with rfl | hx
        · exact mem_cons_self
        · exact mem_cons_of_mem _ ((h.room x hx).resolve_right (by omega))
      rwa [hl'eq, hW]
    · refine .inr ?_
      rw [hl', if_neg hfull]
      omega
  · have hrest := h.rest
    by_cases hfull : s.l < g.Lsize
    · -- behind the longer list the array is as it was
      have hl'eq : l' = s.l + 1 := if_pos hfull
      cases pushed with
      | true => exact absurd hrest.1 hfull.ne
      | false =>
        rw [decide_eq_false hfull.ne]
        show (putAt s.pool s.l p nn).drop l' = _
        rw [hl'eq, drop_putAt hp (by omega), ← drop_drop, hrest, drop_replicate]
        rfl
    · -- the list is full: its last element comes to the last place of the array
      have hl : s.l = g.Lsize := by omega
      have hl'eq : l' = g.Lsize := (if_neg hfull).trans hl
      rw [decide_eq_true hl, Bool.or_true]
      set W := s.cands.take p ++ nn :: s.cands.drop p
      have hWlen : W.length = g.Lsize + 1 := by
        rw [(perm_put p).length_eq, length_cons, h.ok.length_cands, hl]
      have hpool : putAt s.pool s.l p nn = W := by
        rw [← hW, take_of_length_le]
        rw [putAt_length hp (by omega)]
        omega
      obtain ⟨e, hmem, he, hnot⟩ := exists_drop_eq hWlen (nodup_put h.ok hin p)
      refine ⟨hl'eq, e, ?_, ?_, ?_, ?_⟩
      · show (putAt s.pool s.l p nn).drop l' = _
        rw [hpool, hl'eq, he]
      · rcases mem_cons.1 ((perm_put p).mem_iff.1 hmem) with rfl | hn
        · exact Finset.mem_insert_self _ _
        · exact Finset.mem_insert_of_mem (h.ok.cands e hn).2
      · rcases mem_cons.1 ((perm_put p).mem_iff.1 hmem) with rfl | hn
        · rfl
        · exact h.own e hn
      · show e.id ∉ ((putAt s.pool s.l p nn).take l').map Neighbor.id
        rwa [hpool, hl'eq]

theorem Held.pushNbr {nk id : ℕ} (h : Held g maxDist (min nk k) pushed s) (hid : id < g.maxPoints) :
    Held g maxDist (min (pushNbr g (s, nk) id).2 k) (pushed || displaces g s id)
      (pushNbr g (s, nk) id).1 ∧ (pushNbr g (s, nk) id).1.inserted = insert id s.inserted := by
  rcases pushNbr_cases h.ok nk id with ⟨hin, heq⟩ | ⟨hin, hl, hfar, heq⟩ | ⟨hin, hnear, p, hp, heq⟩
  · have hdis : displaces g s id = false := decide_eq_false fun hd => hd.1 hin
    rw [heq, hdis, Bool.or_false]
    exact ⟨h, (Finset.insert_eq_of_mem hin).symm⟩
  · have hdis : displaces g s id = false := decide_eq_false fun hd => hfar hd.2.2
    have hok : Ok g (· < g.maxPoints) (FixedPoint.pushNbr g (s, nk) id).1 := (h.ok.pushNbr hid).1
    rw [heq] at hok
    rw [heq, hdis]
    refine ⟨{ h with ok := hok, room := fun x _ => .inr hl.ge, rest := ?_ }, rfl⟩
    have hrest := h.rest
    cases pushed with
    | false => exact hrest
    | true =>
      obtain ⟨hl, e, he, hein, hown, hnot⟩ := hrest
      exact ⟨hl, e, he, Finset.mem_insert_of_mem hein, hown, hnot⟩
  · have hdis : displaces g s id = decide (s.l = g.Lsize) := by
      refine decide_eq_decide.2 ⟨fun hd => hd.2.1, fun hl => ⟨hin, hl, ?_⟩⟩
      exact (hnear.resolve_left fun hlt => hlt.ne hl).2
    rw [hdis]
    refine ⟨h.put hid hin hp heq, ?_⟩
    rw [heq]

theorem Held.foldl_pushNbr {nk : ℕ} (h : Held g maxDist (min nk k) pushed s) {ids : List ℕ}
    (hids : ∀ id ∈ ids, id < g.maxPoints) :
    Held g maxDist (min (ids.foldl (FixedPoint.pushNbr g) (s, nk)).2 k)
      (pushed || nbrsDisplace g (s, nk) ids) (ids.foldl (FixedPoint.pushNbr g) (s, nk)).1 ∧
    ∀ x, x ∈ (ids.foldl (FixedPoint.pushNbr g) (s, nk)).1.inserted ↔ x ∈ s.inserted ∨ x ∈ ids := by
  induction ids generalizing s nk pushed with
  | nil =>
    rw [nbrsDisplace, Bool.or_false]
    exact ⟨h, fun x => (or_iff_left not_mem_nil).symm⟩
  | cons id ids ih =>
    obtain ⟨h1, hins⟩ := h.pushNbr (hids id mem_cons_self)
    obtain ⟨h2, hmem⟩ := ih h1 fun id hid => hids id (mem_cons_of_mem _ hid)
    rw [nbrsDisplace, ← Bool.or_assoc]
    refine ⟨h2, fun x => (hmem x).trans ?_⟩
    rw [hins, Finset.mem_insert, mem_cons, or_comm (a := x = id), or_assoc]

/-! ### The steps -/

/-- The array between two steps. -/
structure Walk (g : Graph D) (maxDist : D) (ep : ℕ) (pushed : Bool) (s : State D) : Prop where
  held : Held g maxDist s.k pushed s
  explored : Explored (fun id n => n ∈ g.nbrs id) ep g.Lsize (· ∈ s.inserted)
    (s.cands.map Neighbor.id) (s.expanded.map Neighbor.id)

omit [LinearOrder D] [Zero D] in
theorem Walk.start (maxDist : D) (hep : ep < g.maxPoints) :
    Walk g maxDist ep false (start g maxDist ep) where
  held :=
    { ok := ok_start maxDist hep
      own := fun n hn => by
        rw [mem_singleton.1 hn]
        rfl
      expanded := fun n hn hflag => by
        rw [mem_singleton.1 hn] at hflag
        cases hflag
      behind := fun n hn => absurd hn not_mem_nil
      room := fun id hid => .inl (by
        rw [Finset.mem_singleton.1 hid]
        exact mem_singleton_self _)
      rest := rfl }
  explored := Explored.start _ _ _ fun _ => Finset.mem_singleton

section

omit [LinearOrder D]

theorem cands_mark (s : State D) :
    (mark s).cands = s.cands.set s.k { s.pool.getD s.k default with flag := false } :=
  take_set

theorem getD_mem_cands (h : s.l ≤ s.pool.length) (hk : s.k < s.l) :
    s.pool.getD s.k default ∈ s.cands :=
  (mem_take_iff_getD h).2 ⟨s.k, hk, rfl⟩

theorem map_id_cands_mark (h : s.l ≤ s.pool.length) (hk : s.k < s.l) :
    (mark s).cands.map Neighbor.id = s.cands.map Neighbor.id := by
  have hk' : s.k < s.cands.length := by
    rw [State.cands, List.length_take]
    omega
  have hk'' : s.k < (s.cands.map Neighbor.id).length := by rwa [length_map]
  have hget : (s.cands.map Neighbor.id)[s.k] = (s.pool.getD s.k default).id := by
    rw [getElem_map, getD_eq_getElem _ _ (by omega)]
    exact congrArg Neighbor.id getElem_take
  rw [cands_mark, map_set]
  exact (congrArg _ hget.symm).trans (set_getElem_self hk'')

theorem Held.mark (h : Held g maxDist s.k pushed s) (hk : s.k < s.l)
    (hflag : (s.pool.getD s.k default).flag = true) :
    Held g maxDist (min s.l (s.k + 1)) pushed (mark s) := by
  have hlen : s.l ≤ s.pool.length := by
    have hle := h.ok.le
    rw [h.ok.length]
    omega
  have hmem := getD_mem_cands hlen hk
  have hids := map_id_cands_mark hlen hk
  have hcases : ∀ n ∈ (FixedPoint.mark s).cands,
      n ∈ s.cands ∨ n = { s.pool.getD s.k default with flag := false } := by
    rw [cands_mark]
    exact fun n hn => mem_or_eq_of_mem_set hn
  refine ⟨(h.ok.mark hk rfl hflag).2, fun n hn => ?_, fun n hn hf => ?_, fun n hn => ?_,
    fun x hx => ?_, ?_⟩
  · rcases hcases n hn with hn | rfl
    · exact h.own n hn
    · exact h.own (s.pool.getD s.k default) hmem
  · show n.id ∈ (s.expanded ++ [_]).map Neighbor.id
    rw [map_append]
    rcases hcases n hn with hn | rfl
    · exact mem_append_left _ (h.expanded n hn hf)
    · exact mem_append_right _ (mem_singleton_self _)
  · have hklen : s.k < s.cands.length := by rwa [h.ok.length_cands]
    rw [cands_mark, set_eq_take_append_cons_drop, if_pos hklen] at hn
    have hn' := take_subset_take_left _ (Nat.min_le_right s.l (s.k + 1)) hn
    have htake : (s.cands.take s.k).length = s.k := length_take_of_le hklen.le
    rw [take_append, htake, take_of_length_le (by omega), Nat.add_sub_cancel_left,
      take_succ_cons, take_zero, mem_append, mem_singleton] at hn'
    rcases hn' with hn' | rfl
    · exact h.behind n hn'
    · rfl
  · rw [hids]
    exact h.room x hx
  · have hrest := h.rest
    have hdrop : (s.pool.set s.k { s.pool.getD s.k default with flag := false }).drop s.l =
        s.pool.drop s.l := drop_set_of_lt hk
    cases pushed with
    | false => exact hdrop.trans hrest
    | true =>
      obtain ⟨hl, e, he, hein, hown, hnot⟩ := hrest
      exact ⟨hl, e, hdrop.trans he, hein, hown, fun hm => hnot (hids ▸ hm)⟩

end

omit [LinearOrder D] [Zero D] in
theorem Held.setK (h : Held g maxDist k pushed s) : Held g maxDist k pushed { s with k } where
  ok := { h.ok with }
  own := h.own
  expanded := h.expanded
  behind := h.behind
  room := h.room
  rest := by
    have hrest := h.rest
    cases pushed
    all_goals exact hrest

theorem Walk.step (h : Walk g maxDist ep pushed s) (hk : s.k < s.l)
    (hg : ∀ id, ∀ n ∈ g.nbrs id, n < g.maxPoints) :
    ∃ s', step g s = some s' ∧ Walk g maxDist ep (pushed || stepDisplaces g s) s' := by
  have hlen : s.l ≤ s.pool.length := by
    have hle := h.held.ok.le
    rw [h.held.ok.length]
    omega
  have hmem := getD_mem_cands hlen hk
  rw [FixedPoint.step, stepDisplaces]
  by_cases hflag : (s.pool.getD s.k default).flag = true
  · rw [if_pos fun n hn => hg _ n hn, hflag]
    have hmark := h.held.mark hk hflag
    obtain ⟨hheld, hins⟩ := hmark.foldl_pushNbr fun n hn => hg (s.pool.getD s.k default).id n hn
    have hexp := (hmark.ok.foldl_pushNbr (fun n hn => hg (s.pool.getD s.k default).id n hn) s.l).2
    set r := (g.nbrs (s.pool.getD s.k default).id).foldl (pushNbr g) (FixedPoint.mark s, s.l) with hr
    refine ⟨{ r.1 with k := if r.2 ≤ s.k then r.2 else s.k + 1 }, rfl, ?_⟩
    have hk' : (if r.2 ≤ s.k then r.2 else s.k + 1) = min r.2 (s.k + 1) := by
      split_ifs
      all_goals omega
    rw [hk']
    refine ⟨hheld.setK, ?_⟩
    show Explored _ ep g.Lsize (· ∈ r.1.inserted) (r.1.cands.map Neighbor.id)
      (r.1.expanded.map Neighbor.id)
    rw [hexp]
    show Explored _ ep g.Lsize (· ∈ r.1.inserted) (r.1.cands.map Neighbor.id)
      ((s.expanded ++ [_]).map Neighbor.id)
    rw [map_append]
    refine h.explored.expand [(s.pool.getD s.k default).id] (fun y => ?_) (fun x hx => ?_)
      (nodup_singleton _) hheld.ok.nodup (fun y hy => ?_) fun y hy => ?_
    · simp only [mem_singleton, exists_eq_left]
      exact hins y
    · rw [mem_singleton.1 hx]
      exact ⟨(h.held.ok.cands _ hmem).2, h.held.ok.flagged _ hmem hflag⟩
    · obtain ⟨n, hn, rfl⟩ := mem_map.1 hy
      exact (hheld.ok.cands n hn).2
    · rw [length_map, hheld.ok.length_cands]
      exact hheld.room y hy
  · rw [Bool.eq_false_iff.2 hflag, Bool.false_and, Bool.or_false]
    refine ⟨_, rfl, ?_, h.explored⟩
    have hbehind : ∀ n ∈ s.cands.take (s.k + 1), n.flag = false := by
      have hk' : s.k < s.cands.length := by rwa [h.held.ok.length_cands]
      have hget : s.cands[s.k] = s.pool.getD s.k default := by
        rw [getD_eq_getElem _ _ (by omega)]
        exact getElem_take
      intro n hn
      rw [take_succ_eq_append_getElem hk', mem_append, mem_singleton] at hn
      rcases hn with hn | rfl
      · exact h.held.behind n hn
      · rw [hget]
        exact Bool.eq_false_iff.2 hflag
    have hheld : Held g maxDist (s.k + 1) pushed s := { h.held with behind := hbehind }
    exact hheld.setK

theorem Walk.of_iterate (hg : ∀ id, ∀ n ∈ g.nbrs id, n < g.maxPoints) {n : ℕ}
    (h : Walk g maxDist ep pushed s) (hs : iterate g n s = some s') :
    Walk g maxDist ep (pushed || runDisplaces g n s) s' ∧ s'.l ≤ s'.k := by
  induction n generalizing s pushed with
  | zero =>
    rw [iterate] at hs
    rw [runDisplaces, Bool.or_false]
    split_ifs at hs with hk
    rw [← Option.some.inj hs]
    exact ⟨h, not_lt.1 hk⟩
  | succ n ih =>
    rw [iterate] at hs
    rw [runDisplaces]
    split_ifs at hs with hk
    · obtain ⟨s1, hs1, hwalk⟩ := h.step hk hg
      rw [hs1] at hs
      rw [hs1, decide_eq_true hk, Bool.true_and, ← Bool.or_assoc]
      exact ih hwalk hs
    · rw [decide_eq_false hk, Bool.false_and, Bool.or_false, ← Option.some.inj hs]
      exact ⟨h, not_lt.1 hk⟩

/-- What the search leaves: every candidate has been expanded. -/
structure Searched (g : Graph D) (maxDist : D) (ep : ℕ) (s : State D) : Prop where
  walk : Walk g maxDist ep (displaced g maxDist ep) s
  expanded : ∀ n ∈ s.cands, n.id ∈ s.expanded.map Neighbor.id

theorem exists_searched (maxDist : D) (hep : ep < g.maxPoints)
    (hg : ∀ id, ∀ n ∈ g.nbrs id, n < g.maxPoints) :
    ∃ s, iterateToFixedPoint g maxDist ep = some s ∧ Searched g maxDist ep s := by
  obtain ⟨s, hs, -⟩ := @exists_iterateToFixedPoint _ _ _ g (· < g.maxPoints) maxDist ep hep
    fun id hid => ⟨hid, fun n hn => hg id n hn⟩
  obtain ⟨hwalk, hk⟩ := (Walk.start maxDist hep).of_iterate hg hs
  refine ⟨s, hs, hwalk, fun n hn => hwalk.held.expanded n hn (hwalk.held.behind n ?_)⟩
  rwa [take_of_length_le]
  rwa [hwalk.held.ok.length_cands]

theorem Searched.le_l_iff (h : Searched g maxDist ep s) {n : ℕ} (hn : n ≤ g.Lsize) :
    n ≤ s.l ↔ Reaches (fun id n => n ∈ g.nbrs id) ep n := by
  have hheld : ∀ x ∈ s.cands.map Neighbor.id, x ∈ s.expanded.map Neighbor.id := by
    intro x hx
    obtain ⟨n, hn, rfl⟩ := mem_map.1 hx
    exact h.expanded n hn
  rw [← h.walk.explored.le_length_held_iff hheld hn, length_map, h.walk.held.ok.length_cands]

theorem Searched.mem_cands_iff (h : Searched g maxDist ep s) (hl : s.l < g.Lsize) {id : ℕ} :
    id ∈ s.cands.map Neighbor.id ↔ Relation.ReflTransGen (fun id n => n ∈ g.nbrs id) ep id := by
  constructor
  · exact fun hid => h.walk.explored.reached id (h.walk.explored.held_put id hid)
  · refine h.walk.explored.mem_held (fun x hx => ?_) ?_
    · obtain ⟨n, hn, rfl⟩ := mem_map.1 hx
      exact h.expanded n hn
    · rwa [length_map, h.walk.held.ok.length_cands]

/-! ### The array at the end -/

/-- The places of the array that have been filled. -/
def filled (g : Graph D) (maxDist : D) (ep : ℕ) (s : State D) : List (Neighbor D) :=
  if displaced g maxDist ep then s.pool else s.cands

/-- `found` are points from filled places, which the search has visited, each once and with its own
distance. -/
structure Found (g : Graph D) (s : State D) (places found : List (Neighbor D)) : Prop where
  sublist : found.Sublist places
  visited : ∀ n ∈ found, n.id ∈ s.inserted ∧ n.distance = g.dist n.id
  nodup : (found.map Neighbor.id).Nodup

theorem Searched.take_pool (h : Searched g maxDist ep s) :
    s.pool.take g.Lsize = s.cands ++ replicate (g.Lsize - s.l) (filler maxDist) := by
  have hle := h.walk.held.ok.le
  have hrest := h.walk.held.rest
  have hsplit : s.pool = s.cands ++ s.pool.drop s.l := (take_append_drop s.l s.pool).symm
  rcases hle.lt_or_eq with hlt | heq
  · cases hdis : displaced g maxDist ep with
    | true =>
      rw [hdis] at hrest
      exact absurd hrest.1 hlt.ne
    | false =>
      rw [hdis] at hrest
      have hdrop : s.pool.drop s.l = replicate (g.Lsize + 1 - s.l) (filler maxDist) := hrest
      rw [hsplit, hdrop, take_append, h.walk.held.ok.length_cands, take_replicate,
        take_of_length_le (by rw [h.walk.held.ok.length_cands]; exact hle)]
      congr 2
      omega
  · rw [heq, Nat.sub_self, replicate_zero, append_nil, State.cands, heq]

theorem Searched.found_take (h : Searched g maxDist ep s) {found : List (Neighbor D)}
    (hsub : found.Sublist s.cands) : Found g s s.cands found where
  sublist := hsub
  visited n hn := ⟨(h.walk.held.ok.cands n (hsub.subset hn)).2, h.walk.held.own n (hsub.subset hn)⟩
  nodup := h.walk.held.ok.nodup.sublist (hsub.map _)

theorem Searched.found_pool (h : Searched g maxDist ep s) (hdis : displaced g maxDist ep = true) :
    Found g s s.pool s.pool := by
  have hrest := h.walk.held.rest
  rw [hdis] at hrest
  obtain ⟨-, e, he, hein, hown, hnot⟩ := hrest
  have hpool : s.pool = s.cands ++ [e] := by
    rw [← he]
    exact (take_append_drop s.l s.pool).symm
  refine ⟨Sublist.refl _, fun n hn => ?_, ?_⟩
  · rw [hpool, mem_append, mem_singleton] at hn
    rcases hn with hn | rfl
    · exact ⟨(h.walk.held.ok.cands n hn).2, h.walk.held.own n hn⟩
    · exact ⟨hein, hown⟩
  · rw [hpool, map_append]
    refine nodup_append'.2 ⟨h.walk.held.ok.nodup, nodup_singleton _, fun id h1 h2 => ?_⟩
    rw [mem_singleton.1 h2] at h1
    exact hnot h1

theorem Searched.pool_lt (h : Searched g maxDist ep s) (hep : ep < g.maxPoints)
    (hg : ∀ id, ∀ n ∈ g.nbrs id, n < g.maxPoints) : ∀ n ∈ s.pool, n.id < g.maxPoints := by
  have hsplit : s.pool = s.cands ++ s.pool.drop s.l := (take_append_drop s.l s.pool).symm
  have hrest := h.walk.held.rest
  intro n hn
  rw [hsplit, mem_append] at hn
  rcases hn with hn | hn
  · exact (h.walk.held.ok.cands n hn).1
  cases hdis : displaced g maxDist ep with
  | false =>
    rw [hdis] at hrest
    have hdrop : s.pool.drop s.l = replicate (g.Lsize + 1 - s.l) (filler maxDist) := hrest
    rw [hdrop] at hn
    rw [eq_of_mem_replicate hn]
    exact Nat.zero_lt_of_lt hep
  | true =>
    rw [hdis] at hrest
    obtain ⟨-, e, he, hein, -, -⟩ := hrest
    rw [he] at hn
    rw [mem_singleton.1 hn]
    rcases Relation.ReflTransGen.cases_tail (h.walk.explored.reached e.id hein) with heq | ⟨id, -, hid⟩
    · rwa [heq]
    · exact hg id _ hid

theorem Searched.l_eq_of_displaced (h : Searched g maxDist ep s)
    (hdis : displaced g maxDist ep = true) : s.l = g.Lsize := by
  have hrest := h.walk.held.rest
  rw [hdis] at hrest
  exact hrest.1

theorem cands_sublist_filled : s.cands.Sublist (filled g maxDist ep s) := by
  rw [filled]
  split_ifs
  · exact take_sublist _ _
  · exact Sublist.refl _

end DiskANNEval.PipeANN.FixedPoint
