import DiskANNEval.PipeANN.PipeCands

/-!
# FixedPoint — `iterate_to_fixed_point`

The pool is an array of `Lsize + 1` elements, the first `l` of which are the candidates, sorted by
distance.  Each step expands the candidate at `k`, or goes on to the next one; a candidate that has
been put before `k` is the next.  What is expanded lies behind the entry (`Ok.iterate`), no node is
expanded twice, and so the search ends (`exists_iterate`).
-/

namespace DiskANNEval.PipeANN.FixedPoint

open List

open PipeSearch (Pushed)

variable {D : Type}

structure State (D : Type) where
  pool : List (Neighbor D)
  l : ℕ
  k : ℕ
  inserted : Finset ℕ
  expanded : List (Neighbor D)

/-- What a search reads: the lists, the distances to the query and `max_points()`. -/
structure Graph (D : Type) where
  nbrs : ℕ → List ℕ
  dist : ℕ → D
  maxPoints : ℕ
  Lsize : ℕ
  Lsize_pos : 0 < Lsize

/-- The candidates. -/
def State.cands (s : State D) : List (Neighbor D) := s.pool.take s.l

variable [LinearOrder D] [Zero D] (g : Graph D)

/-- The body of the loop over the neighbours, with `nk`. -/
def pushNbr (x : State D × ℕ) (id : ℕ) : State D × ℕ :=
  let (s, nk) := x
  if id ∈ s.inserted then (s, nk)
  else
    let s := { s with inserted := insert id s.inserted }
    if (s.pool.getD (s.l - 1) default).distance ≤ g.dist id ∧ s.l = g.Lsize then (s, nk)
    else
      let (pool, r) := insertIntoPool s.pool s.l (.new id (g.dist id) true)
      ({ s with pool, l := if s.l < g.Lsize then s.l + 1 else s.l }, if r < nk then r else nk)

/-- The body of the loop over `k`; `none`: `crash()`. -/
def step (s : State D) : Option (State D) :=
  let nn := s.pool.getD s.k default
  if nn.flag then
    if ∀ id ∈ g.nbrs nn.id, id < g.maxPoints then
      let nn := { nn with flag := false }
      let s' := { s with pool := s.pool.set s.k nn, expanded := s.expanded ++ [nn] }
      let (s', nk) := (g.nbrs nn.id).foldl (pushNbr g) (s', s.l)
      some { s' with k := if nk ≤ s.k then nk else s.k + 1 }
    else none
  else some { s with k := s.k + 1 }

def iterate : ℕ → State D → Option (State D)
  | 0, s => if s.k < s.l then none else some s
  | n + 1, s => if s.k < s.l then (step g s).bind (iterate n) else some s

/-- The search list of one entry point; `maxDist` fills the array. -/
def start (maxDist : D) (ep : ℕ) : State D where
  pool := .new ep (g.dist ep) true :: List.replicate g.Lsize ⟨0, maxDist, false, false⟩
  l := 1
  k := 0
  inserted := {ep}
  expanded := []

/-- As many steps as `exists_iterate` needs. -/
def steps : ℕ := (g.maxPoints + 1) * (g.Lsize + 2)

def iterateToFixedPoint (maxDist : D) (ep : ℕ) : Option (State D) :=
  iterate g (steps g) (start g maxDist ep)

/-! ### The candidates -/

variable {g} {s s' : State D} {P : ℕ → Prop}

/-- The candidates are in the array, their ids and the expanded ones have been inserted and have `P`,
and a flagged candidate has not been expanded. -/
structure Ok (g : Graph D) (P : ℕ → Prop) (s : State D) : Prop where
  pos : 0 < s.l
  le : s.l ≤ g.Lsize
  length : s.pool.length = g.Lsize + 1
  cands : ∀ n ∈ s.cands, P n.id ∧ n.id ∈ s.inserted
  nodup : (s.cands.map Neighbor.id).Nodup
  expanded : ∀ n ∈ s.expanded, P n.id ∧ n.id ∈ s.inserted
  expanded_nodup : (s.expanded.map Neighbor.id).Nodup
  flagged : ∀ n ∈ s.cands, n.flag = true → n.id ∉ s.expanded.map Neighbor.id

omit [LinearOrder D] [Zero D] in
theorem Ok.length_cands (h : Ok g P s) : s.cands.length = s.l := by
  have hle := h.le
  have hlen := h.length
  rw [State.cands, List.length_take]
  omega

theorem Ok.pushNbr (h : Ok g P s) {id nk : ℕ} (hid : P id) :
    Ok g P (pushNbr g (s, nk) id).1 ∧ (pushNbr g (s, nk) id).1.expanded = s.expanded := by
  rw [FixedPoint.pushNbr]
  by_cases hin : id ∈ s.inserted
  · rw [if_pos hin]
    exact ⟨h, rfl⟩
  rw [if_neg hin]
  have hins : Ok g P { s with inserted := insert id s.inserted } :=
    { h with
      cands := fun n hn => ⟨(h.cands n hn).1, Finset.mem_insert_of_mem (h.cands n hn).2⟩
      expanded := fun n hn => ⟨(h.expanded n hn).1, Finset.mem_insert_of_mem (h.expanded n hn).2⟩ }
  by_cases hfull : (s.pool.getD (s.l - 1) default).distance ≤ g.dist id ∧ s.l = g.Lsize
  · rw [if_pos hfull]
    exact ⟨hins, rfl⟩
  rw [if_neg hfull]
  have hnew : id ∉ s.cands.map Neighbor.id := by
    intro hmem
    obtain ⟨n, hn, rfl⟩ := mem_map.1 hmem
    exact hin (h.cands n hn).2
  have hle := h.le
  have hlen := h.length
  have hsize : s.l ≤ s.pool.length := by omega
  obtain ⟨p, hp, heq⟩ := @insertIntoPool_eq _ _ _ s.pool s.l (.new id (g.dist id) true) h.pos hsize hnew
  rw [heq]
  set nn : Neighbor D := .new id (g.dist id) true
  set l' := if s.l < g.Lsize then s.l + 1 else s.l with hl'
  have hl'le : l' ≤ s.l + 1 ∧ s.l ≤ l' ∧ l' ≤ g.Lsize := by
    rw [hl']
    split_ifs
    all_goals omega
  have hpushed : Pushed nn s.cands ((putAt s.pool s.l p nn).take l') := by
    refine ⟨p, l', by rw [h.length_cands]; exact hp, by rw [h.length_cands]; exact hl'le.2.1, ?_⟩
    have htake := @take_putAt _ s.pool s.l p nn hp hsize
    rw [State.cands, ← htake, take_take, Nat.min_eq_left hl'le.1]
  refine ⟨⟨h.pos.trans_le hl'le.2.1, hl'le.2.2, ?_, ?_, ?_, hins.expanded, h.expanded_nodup, ?_⟩, rfl⟩
  · rw [putAt_length hp (by omega), hlen]
  · intro n hn
    obtain rfl | hn := hpushed.mem hn
    · exact ⟨hid, Finset.mem_insert_self _ _⟩
    · exact hins.cands n hn
  · exact (hpushed.map Neighbor.id).nodup h.nodup hnew
  · intro n hn hflag
    obtain rfl | hn := hpushed.mem hn
    · intro hmem
      obtain ⟨e, he, heid⟩ := mem_map.1 hmem
      have hid' : e.id = id := heid
      exact hin (hid' ▸ (h.expanded e he).2)
    · exact h.flagged n hn hflag

theorem Ok.foldl_pushNbr (h : Ok g P s) {ids : List ℕ} (hids : ∀ id ∈ ids, P id) (nk : ℕ) :
    Ok g P (ids.foldl (FixedPoint.pushNbr g) (s, nk)).1 ∧
      (ids.foldl (FixedPoint.pushNbr g) (s, nk)).1.expanded = s.expanded := by
  induction ids generalizing s nk with
  | nil => exact ⟨h, rfl⟩
  | cons id ids ih =>
    obtain ⟨h1, h2⟩ := @Ok.pushNbr _ _ _ _ _ _ h id nk (hids id mem_cons_self)
    obtain ⟨h3, h4⟩ := ih h1 (fun id hid => hids id (mem_cons_of_mem _ hid))
      (FixedPoint.pushNbr g (s, nk) id).2
    exact ⟨h3, h4.trans h2⟩

/-! ### The steps -/

omit [LinearOrder D] in
theorem Ok.split (h : Ok g P s) (hk : s.k < s.l) : ∃ pre post,
    s.cands = pre ++ s.pool.getD s.k default :: post ∧
      ∀ nn, (s.pool.set s.k nn).take s.l = pre ++ nn :: post := by
  have hle := h.le
  have hlen := h.length
  have hk' : s.k < s.pool.length := by omega
  have hkc : s.k < s.cands.length := by rwa [h.length_cands]
  refine ⟨s.cands.take s.k, s.cands.drop (s.k + 1), ?_, fun nn => ?_⟩
  · have hget : s.pool.getD s.k default = s.cands[s.k] := by
      rw [getD_eq_getElem _ _ hk']
      exact getElem_take.symm
    rw [hget, ← drop_eq_getElem_cons hkc, take_append_drop]
  · rw [take_set, ← State.cands, set_eq_take_append_cons_drop, if_pos hkc]

omit [LinearOrder D] in
theorem Ok.mark (h : Ok g P s) (hk : s.k < s.l) {nn : Neighbor D}
    (hnn : nn = s.pool.getD s.k default) (hflag : nn.flag = true) :
    P nn.id ∧ Ok g P { s with
      pool := s.pool.set s.k { nn with flag := false }
      expanded := s.expanded ++ [{ nn with flag := false }] } := by
  obtain ⟨pre, post, hcands, hset⟩ := h.split hk
  rw [← hnn] at hcands
  have hmem : nn ∈ s.cands := by
    rw [hcands]
    exact mem_append_right _ mem_cons_self
  have hnew := h.flagged nn hmem hflag
  have hnodup := h.nodup
  rw [hcands, map_append] at hnodup
  have hother : ∀ n ∈ pre ++ post, n ∈ s.cands ∧ n.id ≠ nn.id := by
    intro n hn
    have hperm : (pre.map Neighbor.id ++ nn.id :: post.map Neighbor.id).Perm
        (nn.id :: (pre ++ post).map Neighbor.id) := by
      rw [map_append]
      exact perm_middle
    have hnot := (nodup_cons.1 (hperm.nodup_iff.1 hnodup)).1
    refine ⟨?_, fun he => hnot (he ▸ mem_map_of_mem hn)⟩
    rw [hcands]
    obtain hn | hn := mem_append.1 hn
    · exact mem_append_left _ hn
    · exact mem_append_right _ (mem_cons_of_mem _ hn)
  have hcases : ∀ n ∈ pre ++ { nn with flag := false } :: post,
      n = { nn with flag := false } ∨ n ∈ pre ++ post := by
    intro n hn
    obtain hn | hn := mem_append.1 hn
    · exact .inr (mem_append_left _ hn)
    · exact (mem_cons.1 hn).imp_right (mem_append_right _)
  refine ⟨(h.cands nn hmem).1, h.pos, h.le, ?_, ?_, ?_, ?_, ?_, ?_⟩
  · rw [length_set, h.length]
  · intro n hn
    rw [State.cands, hset] at hn
    obtain rfl | hn := hcases n hn
    · exact h.cands nn hmem
    · exact h.cands n (hother n hn).1
  · rw [State.cands, hset, map_append]
    exact hnodup
  · intro n hn
    obtain hn | hn := mem_append.1 hn
    · exact h.expanded n hn
    · rw [mem_singleton.1 hn]
      exact h.cands nn hmem
  · rw [map_append]
    refine nodup_append'.2 ⟨h.expanded_nodup, nodup_singleton _, ?_⟩
    intro id h1 h2
    rw [mem_singleton.1 h2] at h1
    exact hnew h1
  · intro n hn hf
    rw [State.cands, hset] at hn
    obtain rfl | hn := hcases n hn
    · cases hf
    · obtain ⟨hn, hne⟩ := hother n hn
      rw [map_append]
      intro hmem'
      obtain hm | hm := mem_append.1 hmem'
      · exact h.flagged n hn hf hm
      · exact hne (mem_singleton.1 hm)

theorem Ok.step (h : Ok g P s) (hk : s.k < s.l)
    (hP : ∀ id, P id → ∀ n ∈ g.nbrs id, P n ∧ n < g.maxPoints) :
    ∃ s', step g s = some s' ∧ Ok g P s' ∧
      (s'.expanded.length = s.expanded.length + 1 ∨ s'.expanded = s.expanded ∧ s'.k = s.k + 1) := by
  rw [FixedPoint.step]
  by_cases hflag : (s.pool.getD s.k default).flag = true
  · obtain ⟨hid, hok⟩ := h.mark hk rfl hflag
    rw [if_pos hflag, if_pos fun n hn => (hP _ hid n hn).2]
    obtain ⟨h1, h2⟩ := hok.foldl_pushNbr (fun n hn => (hP _ hid n hn).1) s.l
    refine ⟨_, rfl, { h1 with }, .inl ((congrArg List.length h2).trans ?_)⟩
    rw [length_append, length_singleton]
  · rw [if_neg hflag]
    exact ⟨_, rfl, { h with }, .inr ⟨rfl, rfl⟩⟩

omit [LinearOrder D] [Zero D] in
theorem ok_start (maxDist : D) {ep : ℕ} (hep : P ep) : Ok g P (start g maxDist ep) where
  pos := Nat.one_pos
  le := g.Lsize_pos
  length := by simp [start]
  cands n hn := by
    have hn' : n = .new ep (g.dist ep) true := mem_singleton.1 hn
    rw [hn']
    exact ⟨hep, Finset.mem_singleton_self ep⟩
  nodup := nodup_singleton _
  expanded _ hn := absurd hn not_mem_nil
  expanded_nodup := nodup_nil
  flagged _ _ _ := not_mem_nil

/-! ### The search ends -/

/-- The expanded nodes are different points, and between two expansions `k` grows. -/
theorem Ok.exists_iterate (hP : ∀ id, P id → id < g.maxPoints ∧ ∀ n ∈ g.nbrs id, P n) {n : ℕ}
    (h : Ok g P s)
    (hn : (g.maxPoints - s.expanded.length) * (g.Lsize + 2) + (g.Lsize + 1 - s.k) ≤ n) :
    ∃ s', iterate g n s = some s' ∧ Ok g P s' ∧ ¬ s'.k < s'.l := by
  induction n generalizing s with
  | zero =>
    have hle := h.le
    rw [iterate]
    have hk : ¬ s.k < s.l := by omega
    rw [if_neg hk]
    exact ⟨s, rfl, h, hk⟩
  | succ n ih =>
    rw [iterate]
    by_cases hk : s.k < s.l
    · rw [if_pos hk]
      obtain ⟨s', hs', hok, hmore⟩ := h.step hk fun id hid n hn =>
        ⟨(hP id hid).2 n hn, (hP n ((hP id hid).2 n hn)).1⟩
      rw [hs']
      refine ih hok ?_
      have hle := h.le
      obtain hlen | ⟨hexp, hk'⟩ := hmore
      · have hfew : s'.expanded.length ≤ g.maxPoints := by
          have hsub : (s'.expanded.map Neighbor.id) ⊆ List.range g.maxPoints := by
            intro id hid
            obtain ⟨e, he, rfl⟩ := mem_map.1 hid
            exact List.mem_range.2 (hP _ (hok.expanded e he).1).1
          have := (hok.expanded_nodup.subperm hsub).length_le
          rwa [length_map, length_range] at this
        obtain ⟨d, hd⟩ := Nat.exists_eq_add_of_le hfew
        have h1 : g.maxPoints - s'.expanded.length = d := by omega
        have h2 : g.maxPoints - s.expanded.length = d + 1 := by omega
        rw [h2, Nat.succ_mul] at hn
        rw [h1]
        omega
      · rw [hexp]
        omega
    · rw [if_neg hk]
      exact ⟨s, rfl, h, hk⟩

/-- A search that starts in a set of points that the lists do not leave returns; its candidates, the
first of which exists, and what it expands are in the set. -/
theorem exists_iterateToFixedPoint (maxDist : D) {ep : ℕ} (hep : P ep)
    (hP : ∀ id, P id → id < g.maxPoints ∧ ∀ n ∈ g.nbrs id, P n) :
    ∃ s, iterateToFixedPoint g maxDist ep = some s ∧ Ok g P s := by
  obtain ⟨s, hs, hok, -⟩ := (ok_start maxDist hep).exists_iterate hP (by
    show (g.maxPoints - 0) * (g.Lsize + 2) + (g.Lsize + 1 - 0) ≤ (g.maxPoints + 1) * (g.Lsize + 2)
    rw [Nat.succ_mul, Nat.sub_zero]
    omega)
  exact ⟨s, hs, hok⟩

/-! ### Searches that return -/

theorem Ok.of_step (h : Ok g P s) (hk : s.k < s.l)
    (hP : ∀ id, P id → ∀ n ∈ g.nbrs id, n < g.maxPoints → P n) (hs : FixedPoint.step g s = some s') :
    Ok g P s' := by
  rw [FixedPoint.step] at hs
  by_cases hflag : (s.pool.getD s.k default).flag = true
  · by_cases hin : ∀ id ∈ g.nbrs (s.pool.getD s.k default).id, id < g.maxPoints
    · rw [if_pos hflag, if_pos hin] at hs
      obtain ⟨hid, hok⟩ := h.mark hk rfl hflag
      obtain ⟨h1, -⟩ := hok.foldl_pushNbr (fun n hn => hP _ hid n hn (hin n hn)) s.l
      injection hs with hs
      subst hs
      exact { h1 with }
    · rw [if_pos hflag, if_neg hin] at hs
      cases hs
  · rw [if_neg hflag] at hs
    injection hs with hs
    subst hs
    exact { h with }

theorem Ok.of_iterate (hP : ∀ id, P id → ∀ n ∈ g.nbrs id, n < g.maxPoints → P n) {n : ℕ}
    (h : Ok g P s) (hs : iterate g n s = some s') : Ok g P s' := by
  induction n generalizing s with
  | zero =>
    rw [iterate] at hs
    split_ifs at hs
    exact Option.some.inj hs ▸ h
  | succ n ih =>
    rw [iterate] at hs
    split_ifs at hs with hk
    · obtain ⟨s1, h1, h2⟩ := Option.bind_eq_some_iff.1 hs
      exact ih (h.of_step hk hP h1) h2
    · exact Option.some.inj hs ▸ h

theorem ok_of_iterateToFixedPoint {maxDist : D} {ep : ℕ} (hep : P ep)
    (hP : ∀ id, P id → ∀ n ∈ g.nbrs id, n < g.maxPoints → P n)
    (hs : iterateToFixedPoint g maxDist ep = some s) : Ok g P s :=
  (ok_start maxDist hep).of_iterate hP hs

end DiskANNEval.PipeANN.FixedPoint
