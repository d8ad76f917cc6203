import DiskANNEval.PipeANN.PipeSearch

/-!
# PipeCands — the list of candidates

Neighbours that have not been seen are put into the list at any place, and the last candidate may
fall out (`Pushed`).  `Listed` is kept, and so is whatever each insertion keeps
(`computeAndPushNbrs_induct`).
-/

namespace DiskANNEval.PipeANN.PipeSearch

open List

section Lists

variable {α β : Type} {nn e : α} {l l' : List α}

/-- `nn` has been put into `l`, and no more than `nn` or one element has fallen out. -/
def Pushed (nn : α) (l l' : List α) : Prop :=
  ∃ p n, p ≤ l.length ∧ l.length ≤ n ∧ l' = (l.take p ++ nn :: l.drop p).take n

namespace Pushed

theorem refl : Pushed nn l l :=
  ⟨l.length, l.length, Nat.le_refl _, Nat.le_refl _, by simp⟩

theorem map (h : Pushed nn l l') (f : α → β) : Pushed (f nn) (l.map f) (l'.map f) := by
  obtain ⟨p, n, hp, hn, rfl⟩ := h
  refine ⟨p, n, (length_map f).symm ▸ hp, (length_map f).symm ▸ hn, ?_⟩
  rw [map_take, map_append, map_cons, map_take, map_drop]

theorem length_le (h : Pushed nn l l') : l.length ≤ l'.length := by
  obtain ⟨p, n, hp, hn, rfl⟩ := h
  simp only [List.length_take, length_append, length_cons, length_drop]
  omega

theorem mem (h : Pushed nn l l') (he : e ∈ l') : e = nn ∨ e ∈ l := by
  obtain ⟨p, n, hp, hn, rfl⟩ := h
  obtain he | he := mem_append.1 (mem_of_mem_take he)
  · exact .inr (mem_of_mem_take he)
  · exact (mem_cons.1 he).imp_right mem_of_mem_drop

theorem mem_or_subset (h : Pushed nn l l') : nn ∈ l' ∨ ∀ e ∈ l, e ∈ l' := by
  obtain ⟨p, n, hp, hn, rfl⟩ := h
  by_cases hpn : p < n
  · refine .inl (mem_take_iff_getElem.2 ⟨p, ?_, ?_⟩)
    · simp only [length_append, length_cons, List.length_take]
      omega
    · rw [getElem_append_right (by simp)]
      simp [Nat.min_eq_left hp]
  · refine .inr fun e he => ?_
    have hpl : p = l.length := by omega
    have hnl : n = l.length := by omega
    subst hpl hnl
    simpa using he

theorem exists_mem {P : α → Prop} (h : Pushed nn l l') (hnn : P nn) (hl : ∃ e ∈ l, P e) :
    ∃ e ∈ l', P e := by
  obtain ⟨e, he, hP⟩ := hl
  obtain hmem | hsub := h.mem_or_subset
  · exact ⟨nn, hmem, hnn⟩
  · exact ⟨e, hsub e he, hP⟩

theorem nodup (h : Pushed nn l l') (hl : l.Nodup) (hnn : nn ∉ l) : l'.Nodup := by
  obtain ⟨p, n, hp, hn, rfl⟩ := h
  refine Nodup.sublist (take_sublist ..) ?_
  have hperm : (l.take p ++ nn :: l.drop p).Perm (nn :: l) :=
    perm_middle.trans (by rw [take_append_drop])
  exact hperm.nodup_iff.2 (nodup_cons.2 ⟨hnn, hl⟩)

end Pushed

end Lists

/-- `P` holds of each candidate, given the number of expanded candidates before it; a candidate is
its id, and whether it has been expanded. -/
def Aged (P : ℕ → ℕ × Bool → Prop) : ℕ → List (ℕ × Bool) → Prop
  | _, [] => True
  | v, m :: l => P v m ∧ Aged P (v + if m.2 then 1 else 0) l

namespace Aged

variable {P P' : ℕ → ℕ × Bool → Prop} {v w : ℕ} {l l' : List (ℕ × Bool)} {nn : ℕ × Bool}

theorem of_forall (h : ∀ u, ∀ m ∈ l, P u m) : Aged P v l := by
  induction l generalizing v with
  | nil => trivial
  | cons m l ih =>
    exact ⟨h v m mem_cons_self, ih fun u m' hm' => h u m' (mem_cons_of_mem m hm')⟩

theorem imp (h : Aged P v l) (himp : ∀ u, ∀ m ∈ l, P u m → P' (u + w) m) : Aged P' (v + w) l := by
  induction l generalizing v with
  | nil => trivial
  | cons m l ih =>
    refine ⟨himp v m mem_cons_self h.1, ?_⟩
    rw [Nat.add_right_comm]
    exact ih h.2 fun u m' hm' => himp u m' (mem_cons_of_mem m hm')

theorem append_iff : Aged P v (l ++ l') ↔ Aged P v l ∧ Aged P (v + l.countP Prod.snd) l' := by
  induction l generalizing v with
  | nil => exact ⟨fun h => ⟨trivial, h⟩, And.right⟩
  | cons m l ih =>
    have hcount : v + (m :: l).countP Prod.snd =
        v + (if m.2 then 1 else 0) + l.countP Prod.snd := by
      rw [countP_cons]
      omega
    rw [cons_append, Aged, Aged, ih, hcount, and_assoc]

theorem take (h : Aged P v l) (n : ℕ) : Aged P v (l.take n) := by
  rw [← take_append_drop n l, append_iff] at h
  exact h.1

theorem pushed (h : Aged P v l) (hp : Pushed nn l l') (hmono : ∀ u w m, P u m → P (u + w) m)
    (hnn : ∀ u, P u nn) : Aged P v l' := by
  obtain ⟨p, n, -, -, rfl⟩ := hp
  rw [← take_append_drop p l, append_iff] at h
  refine Aged.take (append_iff.2 ⟨h.1, ?_⟩) n
  exact ⟨hnn _, h.2.imp fun u m _ hm => hmono u _ m hm⟩

theorem exists_lt (h : Aged P v l) {m : ℕ × Bool} (hm : m ∈ l) : ∃ u < v + l.length, P u m := by
  obtain ⟨pre, post, rfl⟩ := append_of_mem hm
  rw [append_iff] at h
  refine ⟨_, ?_, h.2.1⟩
  have := countP_le_length (p := Prod.snd) (l := pre)
  simp only [length_append, length_cons]
  omega

end Aged

variable {C L D : Type} {q : Query C L D} {c : Cands D} {nn e : Neighbor D}
  {l : List (Neighbor D)}

/-! ### Insertions -/

/-- The list is in its array and not too long, and its ids have been seen. -/
structure Listed (q : Query C L D) (c : Cands D) : Prop where
  size : c.curListSize ≤ c.retset.length
  bound : c.curListSize ≤ max q.lSearch 1
  seen : ∀ e ∈ c.pool, e.id ∈ c.visited

/-- The id of a candidate, and whether it has been expanded. -/
def Neighbor.mark (e : Neighbor D) : ℕ × Bool := (e.id, e.visited)

def Cands.marks (c : Cands D) : List (ℕ × Bool) := c.pool.map Neighbor.mark

theorem Listed.length_pool (h : Listed q c) : c.pool.length = c.curListSize := by
  rw [Cands.pool, List.length_take, Nat.min_eq_left h.size]

theorem Listed.pool_setPool (h : Listed q c) (hlen : l.length = c.pool.length) :
    (c.setPool l).pool = l := by
  have hl := hlen.trans h.length_pool
  rw [Cands.pool, Cands.setPool, ← hl, take_left]

theorem Listed.setPool_of_perm (h : Listed q c)
    (hids : (l.map Neighbor.id).Perm (c.pool.map Neighbor.id)) : Listed q (c.setPool l) := by
  have hlen : l.length = c.pool.length := by
    rw [← length_map, hids.length_eq, length_map]
  refine ⟨?_, h.bound, fun e he => ?_⟩
  · have hl := hlen.trans h.length_pool
    simp only [Cands.setPool, length_append, hl]
    exact Nat.le_add_right ..
  · rw [h.pool_setPool hlen] at he
    have hmem : e.id ∈ c.pool.map Neighbor.id := hids.mem_iff.1 (mem_map_of_mem he)
    obtain ⟨e', he', hid⟩ := mem_map.1 hmem
    rw [← hid]
    exact h.seen e' he'

theorem Listed.setPool (h : Listed q c) (hids : l.map Neighbor.id = c.pool.map Neighbor.id) :
    Listed q (c.setPool l) := h.setPool_of_perm (Perm.of_eq hids)

variable [LinearOrder D] [Zero D]

theorem Listed.pushNbr (h : Listed q c) (hpos : 0 < c.curListSize) {id : ℕ}
    (hnew : id ∉ c.pool.map Neighbor.id) (hseen : id ∈ c.visited) :
    Listed q (c.pushNbr q id) ∧ (c.pushNbr q id).visited = c.visited ∧
      Pushed (.new id (q.computeDist id) true) c.pool (c.pushNbr q id).pool := by
  set nn : Neighbor D := .new id (q.computeDist id) true with hnn
  obtain ⟨p, hp, heq⟩ := @insertIntoPool_eq _ _ _ _ _ nn hpos h.size hnew
  have htake := @take_putAt _ _ _ _ nn hp h.size
  have hmem : ∀ e ∈ c.pool.take p ++ nn :: c.pool.drop p, e.id ∈ c.visited := by
    intro e he
    obtain he | he := mem_append.1 he
    · exact h.seen e (mem_of_mem_take he)
    · obtain rfl | he := mem_cons.1 he
      · exact hseen
      · exact h.seen e (mem_of_mem_drop he)
  have hlen : c.curListSize + 1 ≤ (putAt c.retset c.curListSize p nn).length := by
    have := congrArg List.length htake
    have hsize := h.size
    simp only [List.length_take, length_append, length_cons, length_drop] at this
    omega
  have hpl : p ≤ c.pool.length := h.length_pool ▸ hp
  unfold Cands.pushNbr
  dsimp only
  rw [heq]
  by_cases hfull : c.pool.getLast?.any (fun last => last.distance ≤ q.computeDist id) ∧
      c.curListSize = q.lSearch
  · rw [if_pos hfull]
    exact ⟨h, rfl, .refl⟩
  rw [if_neg hfull]
  by_cases hlt : c.curListSize < q.lSearch
  · rw [if_pos hlt]
    generalize replicate _ (default : Neighbor D) = extra
    have hpool : ({ c with
          retset := putAt c.retset c.curListSize p nn ++ extra
          curListSize := c.curListSize + 1 } : Cands D).pool =
        c.pool.take p ++ nn :: c.pool.drop p := by
      rw [Cands.pool, take_append_of_le_length hlen]
      exact htake
    refine ⟨⟨?_, ?_, fun e he => hmem e (hpool ▸ he)⟩, rfl, p, c.pool.length + 1, hpl, Nat.le_succ _, ?_⟩
    · rw [length_append]
      exact Nat.le_trans hlen (Nat.le_add_right ..)
    · exact Nat.le_trans hlt (Nat.le_max_left ..)
    · have hle : (c.pool.take p ++ nn :: c.pool.drop p).length ≤ c.pool.length + 1 := by
        simp only [length_append, length_cons, List.length_take, length_drop]
        omega
      rw [hpool, take_of_length_le hle]
  · rw [if_neg hlt]
    have hpool : ({ c with retset := putAt c.retset c.curListSize p nn } : Cands D).pool =
        (c.pool.take p ++ nn :: c.pool.drop p).take c.curListSize := by
      rw [Cands.pool, Cands.pool, ← htake, take_take, Nat.min_eq_left (Nat.le_succ _)]
    refine ⟨⟨Nat.le_of_succ_le hlen, h.bound, fun e he => ?_⟩, rfl, p, c.curListSize, hpl,
      Nat.le_of_eq h.length_pool, hpool⟩
    rw [hpool] at he
    exact hmem e (mem_of_mem_take he)

omit [LinearOrder D] [Zero D] in
theorem unseen_spec (nbrs visited : List ℕ) :
    (Cands.unseen nbrs visited).1.Nodup ∧
      (∀ x ∈ (Cands.unseen nbrs visited).1, x ∉ visited ∧ x ∈ (Cands.unseen nbrs visited).2) ∧
      ∀ x ∈ visited, x ∈ (Cands.unseen nbrs visited).2 := by
  induction nbrs generalizing visited with
  | nil => exact ⟨nodup_nil, by simp [Cands.unseen], fun x hx => hx⟩
  | cons nbr nbrs ih =>
    rw [Cands.unseen]
    split_ifs with hmem
    · exact ih visited
    · obtain ⟨h1, h2, h3⟩ := ih (nbr :: visited)
      refine ⟨nodup_cons.2 ⟨fun hx => (h2 nbr hx).1 mem_cons_self, h1⟩, fun x hx => ?_,
        fun x hx => h3 x (mem_cons_of_mem nbr hx)⟩
      obtain rfl | hx := mem_cons.1 hx
      · exact ⟨hmem, h3 x mem_cons_self⟩
      · exact ⟨fun hx' => (h2 x hx).1 (mem_cons_of_mem nbr hx'), (h2 x hx).2⟩

theorem Listed.foldl_pushNbr {I : List (Neighbor D) → Prop} {cand : List ℕ} (h : Listed q c)
    (hpos : 0 < c.curListSize) (hnodup : cand.Nodup)
    (hnew : ∀ x ∈ cand, x ∉ c.pool.map Neighbor.id ∧ x ∈ c.visited) (h0 : I c.pool)
    (hstep : ∀ l l' x, x ∈ cand → x ∉ l.map Neighbor.id →
      Pushed (.new x (q.computeDist x) true) l l' → I l → I l') :
    Listed q (cand.foldl (Cands.pushNbr q) c) ∧ I (cand.foldl (Cands.pushNbr q) c).pool ∧
      (cand.foldl (Cands.pushNbr q) c).visited = c.visited := by
  induction cand generalizing c with
  | nil => exact ⟨h, h0, rfl⟩
  | cons x cand ih =>
    obtain ⟨hx, hrest⟩ := nodup_cons.1 hnodup
    obtain ⟨hnewx, hseen⟩ := hnew x mem_cons_self
    obtain ⟨h', hvis, hpush⟩ := h.pushNbr hpos hnewx hseen
    have hpos' : 0 < (c.pushNbr q x).curListSize := by
      rw [← h'.length_pool]
      exact Nat.lt_of_lt_of_le (h.length_pool ▸ hpos) hpush.length_le
    have hnew' : ∀ y ∈ cand, y ∉ (c.pushNbr q x).pool.map Neighbor.id ∧ y ∈ (c.pushNbr q x).visited := by
      intro y hy
      obtain ⟨hnot, hmem⟩ := hnew y (mem_cons_of_mem x hy)
      refine ⟨fun hy' => ?_, hvis ▸ hmem⟩
      obtain ⟨e, he, rfl⟩ := mem_map.1 hy'
      obtain rfl | he := hpush.mem he
      · exact hx hy
      · exact hnot (mem_map_of_mem he)
    obtain ⟨h1, h2, h3⟩ := ih h' hpos' hrest hnew' (hstep _ _ x mem_cons_self hnewx hpush h0)
      fun l l' y hy => hstep l l' y (mem_cons_of_mem x hy)
    exact ⟨h1, h2, h3.trans hvis⟩

/-- What each insertion of an id that has not been seen, and is not in the list, keeps holds after all
of them. -/
theorem Listed.computeAndPushNbrs_induct {I : List (Neighbor D) → Prop} (h : Listed q c)
    (hpos : 0 < c.curListSize) (node : DiskNode C L) (h0 : I c.pool)
    (hstep : ∀ l l' x, x ∉ c.visited → x ∉ l.map Neighbor.id →
      Pushed (.new x (q.computeDist x) true) l l' → I l → I l') :
    Listed q (c.computeAndPushNbrs q node) ∧ I (c.computeAndPushNbrs q node).pool ∧
      ∀ x ∈ c.visited, x ∈ (c.computeAndPushNbrs q node).visited := by
  obtain ⟨hnodup, hcand, hvis⟩ := unseen_spec node.nbrs c.visited
  have hlisted : Listed q { c with visited := (Cands.unseen node.nbrs c.visited).2 } :=
    ⟨h.size, h.bound, fun e he => hvis _ (h.seen e he)⟩
  have hnew : ∀ x ∈ (Cands.unseen node.nbrs c.visited).1, x ∉ c.pool.map Neighbor.id ∧
      x ∈ (Cands.unseen node.nbrs c.visited).2 := by
    intro x hx
    obtain ⟨hnot, hmem⟩ := hcand x hx
    refine ⟨fun hx' => hnot ?_, hmem⟩
    obtain ⟨e, he, rfl⟩ := mem_map.1 hx'
    exact h.seen e he
  obtain ⟨h1, h2, h3⟩ := hlisted.foldl_pushNbr hpos hnodup hnew h0
    fun l l' x hx => hstep l l' x (hcand x hx).1
  exact ⟨h1, h2, fun x hx => h3 ▸ hvis x hx⟩

end DiskANNEval.PipeANN.PipeSearch
