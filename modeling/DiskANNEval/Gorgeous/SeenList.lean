import DiskANNEval.Gorgeous.SearchList

/-!
# SeenList — the ids in the list of candidates

All ids of the list have been seen, so a node that has not been is never in it already (`Seen`).
-/

namespace DiskANNEval.Gorgeous

open List

open PipeANN (Neighbor insertIntoPool insertIntoPool_eq take_putAt putAt putAt_length)
open PipeANN.PipeSearch (Cands unseen_spec)

variable {D : Type} [LinearOrder D] [Zero D] {ix : DecoIndex} {p : SearchParams D}

/-! ### The list -/

namespace SearchList

variable {lSearch : ℕ} {c : SearchList D}

/-- The list is in its array, with room for one more, and its ids have been seen. -/
structure Seen (lSearch : ℕ) (c : SearchList D) : Prop where
  pos : 0 < c.curListSize
  le : c.curListSize ≤ lSearch
  room : lSearch < c.retset.length
  mem : ∀ e ∈ c.pool, e.id ∈ c.visited

omit [LinearOrder D] [Zero D] in
theorem Seen.see (h : Seen lSearch c) {visited : List ℕ} (hsub : ∀ x ∈ c.visited, x ∈ visited) :
    Seen lSearch ({ c with visited } : SearchList D) :=
  ⟨h.pos, h.le, h.room, fun e he => hsub _ (h.mem e he)⟩

theorem Seen.addToRetset (h : Seen lSearch c) {id : ℕ} (hnew : id ∉ c.pool.map Neighbor.id)
    (hseen : id ∈ c.visited) (dist : D) (flag : Bool) :
    Seen lSearch (c.addToRetset lSearch id dist flag).1 ∧
      (c.addToRetset lSearch id dist flag).1.visited = c.visited ∧
      ∀ e ∈ (c.addToRetset lSearch id dist flag).1.pool, e.id = id ∨ e ∈ c.pool := by
  set nn : Neighbor D := .new id dist flag with hnn
  have hlt : c.curListSize < c.retset.length := Nat.lt_of_le_of_lt h.le h.room
  obtain ⟨p, hp, heq⟩ : ∃ p ≤ c.curListSize, insertIntoPool c.retset c.curListSize nn =
      (putAt c.retset c.curListSize p nn, p) := insertIntoPool_eq h.pos (Nat.le_of_lt hlt) hnew
  have htake : (putAt c.retset c.curListSize p nn).take (c.curListSize + 1) =
      c.pool.take p ++ nn :: c.pool.drop p := take_putAt hp (Nat.le_of_lt hlt)
  have hmem : ∀ n ≤ c.curListSize + 1, ∀ e ∈ (putAt c.retset c.curListSize p nn).take n,
      e.id = id ∨ e ∈ c.pool := by
    intro n hn e he
    have he' : e ∈ c.pool.take p ++ nn :: c.pool.drop p := by
      rw [← htake]
      exact (take_subset_take_left _ hn) he
    obtain he' | he' := mem_append.1 he'
    · exact .inr (mem_of_mem_take he')
    · obtain rfl | he' := mem_cons.1 he'
      · exact .inl rfl
      · exact .inr (mem_of_mem_drop he')
  have hlen : lSearch < (putAt c.retset c.curListSize p nn).length := by
    rw [putAt_length hp hlt]
    exact h.room
  unfold SearchList.addToRetset
  rw [heq]
  split_ifs with hfull hcur
  · exact ⟨h, rfl, fun e he => .inr he⟩
  · refine ⟨⟨Nat.succ_pos _, hcur, hlen, fun e he => ?_⟩, rfl, hmem _ (Nat.le_refl _)⟩
    obtain hid | he := hmem _ (Nat.le_refl _) e he
    · exact hid ▸ hseen
    · exact h.mem e he
  · refine ⟨⟨h.pos, h.le, hlen, fun e he => ?_⟩, rfl, hmem _ (Nat.le_succ _)⟩
    obtain hid | he := hmem _ (Nat.le_succ _) e he
    · exact hid ▸ hseen
    · exact h.mem e he

theorem Seen.foldl_pushNbr {cand : List ℕ} (h : Seen lSearch c) (hnodup : cand.Nodup)
    (hnew : ∀ x ∈ cand, x ∉ c.pool.map Neighbor.id ∧ x ∈ c.visited) (pqDist : ℕ → D) :
    Seen lSearch (cand.foldl (pushNbr lSearch pqDist) c) ∧
      (cand.foldl (pushNbr lSearch pqDist) c).visited = c.visited := by
  induction cand generalizing c with
  | nil => exact ⟨h, rfl⟩
  | cons x cand ih =>
    obtain ⟨hx, hnodup⟩ := nodup_cons.1 hnodup
    obtain ⟨hnewx, hseen⟩ := hnew x mem_cons_self
    obtain ⟨h1, hvis, hmem⟩ := h.addToRetset hnewx hseen (pqDist x) true
    have hnew1 : ∀ y ∈ cand, y ∉ (c.pushNbr lSearch pqDist x).pool.map Neighbor.id ∧
        y ∈ (c.pushNbr lSearch pqDist x).visited := by
      intro y hy
      obtain ⟨hnot, hmemy⟩ := hnew y (mem_cons_of_mem x hy)
      refine ⟨fun hy' => ?_, hvis.symm ▸ hmemy⟩
      obtain ⟨e, he, rfl⟩ := mem_map.1 hy'
      obtain heq | he := hmem e he
      · exact hx (heq ▸ hy)
      · exact hnot (mem_map_of_mem he)
    obtain ⟨h2, hvis2⟩ := ih h1 hnodup hnew1
    exact ⟨h2, hvis2.trans hvis⟩

theorem mem_unseen {nbrs visited : List ℕ} {x : ℕ} (h : x ∈ (Cands.unseen nbrs visited).2) :
    x ∈ visited ∨ x ∈ nbrs := by
  induction nbrs generalizing visited with
  | nil => exact .inl h
  | cons nbr nbrs ih =>
    rw [Cands.unseen] at h
    split_ifs at h with hmem
    · exact (ih h).imp_right (mem_cons_of_mem nbr)
    · obtain h | h := ih h
      · obtain rfl | h := mem_cons.1 h
        · exact .inr mem_cons_self
        · exact .inl h
      · exact .inr (mem_cons_of_mem nbr h)

theorem Seen.computeAndPushNbrs (h : Seen lSearch c) (pqDist : ℕ → D) (nbrs : List ℕ) :
    Seen lSearch (c.computeAndPushNbrs lSearch pqDist nbrs) ∧
      ∀ x ∈ (c.computeAndPushNbrs lSearch pqDist nbrs).visited, x ∈ c.visited ∨ x ∈ nbrs := by
  obtain ⟨hnodup, hcand, hvis⟩ := unseen_spec nbrs c.visited
  obtain ⟨h1, h2⟩ := (h.see hvis).foldl_pushNbr hnodup (fun x hx => by
    obtain ⟨hnot, hmem⟩ := hcand x hx
    refine ⟨fun hx' => ?_, hmem⟩
    obtain ⟨e, he, rfl⟩ := mem_map.1 hx'
    exact hnot (h.mem e he)) pqDist
  refine ⟨h1, fun x hx => ?_⟩
  refine mem_unseen ?_
  rwa [SearchList.computeAndPushNbrs, h2] at hx

theorem seen_enter (q : Query D ix p) : Seen p.lSearch (enter q) := by
  have hlen : q.first.length ≤ p.lSearch := enter_le q
  have hperm := q.first_perm.length_eq
  refine ⟨?_, hlen, ?_, ?_⟩
  · show 0 < q.first.length
    rw [hperm, length_map]
    split_ifs with hnil
    · exact Nat.succ_pos 0
    · rw [List.length_take]
      exact Nat.lt_min.2 ⟨p.lSearch_pos, length_pos_iff.2 hnil⟩
  · show p.lSearch < (q.first ++ replicate _ default).length
    rw [length_append, length_replicate]
    omega
  · intro e he
    have htake : (enter q).pool = q.first := take_left
    rw [htake] at he
    exact mem_map_of_mem he

omit [LinearOrder D] [Zero D] in
theorem Seen.setPool {l : List (Neighbor D)} (h : Seen lSearch c)
    (hids : l.map Neighbor.id = c.pool.map Neighbor.id) : Seen lSearch (c.setPool l) := by
  have hpool : c.pool.length = c.curListSize := by
    rw [pool, List.length_take, Nat.min_eq_left (Nat.le_trans h.le (Nat.le_of_lt h.room))]
  have hlen : l.length = c.curListSize := by
    rw [← hpool, ← length_map, hids, length_map]
  refine ⟨h.pos, h.le, ?_, fun e he => ?_⟩
  · show lSearch < (l ++ c.retset.drop c.curListSize).length
    rw [length_append, length_drop]
    have hroom := h.room
    omega
  · have htake : (c.setPool l).pool = l := by
      rw [pool, SearchList.setPool, ← hlen, take_left]
    rw [htake] at he
    have hmem : e.id ∈ c.pool.map Neighbor.id := hids ▸ mem_map_of_mem he
    obtain ⟨e', he', hid⟩ := mem_map.1 hmem
    rw [← hid]
    exact h.mem e' he'

end SearchList

/-! ### The nodes picked -/

omit [LinearOrder D] [Zero D] in
theorem pick_spec {κ : Type} (choose : ℕ → Choice κ) (num disk : ℕ) (es : List (Neighbor D))
    (pv : List ℕ) :
    (pick choose num disk es pv).pool.map Neighbor.id = es.map Neighbor.id ∧
      (∀ pid, pid ∈ (pick choose num disk es pv).pageVisited ↔
        pid ∈ pv ∨ pid ∈ (pick choose num disk es pv).frontier.map FrontierNode.pid) ∧
      ((pick choose num disk es pv).frontier.map FrontierNode.pid).Nodup ∧
      ∀ pid ∈ (pick choose num disk es pv).frontier.map FrontierNode.pid, pid ∉ pv := by
  induction es generalizing num disk pv with
  | nil => exact ⟨rfl, by simp [pick], nodup_nil, by simp [pick]⟩
  | cons e es ih =>
    rw [pick]
    split_ifs with hzero hflag
    · exact ⟨rfl, by simp, nodup_nil, by simp⟩
    · cases choose e.id with
      | cached item diskSeen =>
        obtain ⟨h1, h2, h3, h4⟩ := ih (if diskSeen then num else num - 1)
          (if diskSeen then disk - 1 else disk) pv
        exact ⟨congrArg (e.id :: ·) h1, h2, h3, h4⟩
      | page pid =>
        dsimp only
        split_ifs with hpv
        · obtain ⟨h1, h2, h3, h4⟩ := ih num disk pv
          exact ⟨congrArg (e.id :: ·) h1, h2, h3, h4⟩
        · obtain ⟨h1, h2, h3, h4⟩ := ih (num - 1) disk (pid :: pv)
          refine ⟨congrArg (e.id :: ·) h1, fun pid' => ?_, ?_, ?_⟩
          · rw [h2, mem_cons, map_cons, mem_cons]
            tauto
          · exact nodup_cons.2 ⟨fun hmem => h4 pid hmem mem_cons_self, h3⟩
          · intro pid' hmem
            obtain rfl | hmem := mem_cons.1 hmem
            · exact hpv
            · exact fun hpv' => h4 pid' hmem (mem_cons_of_mem _ hpv')
    · obtain ⟨h1, h2, h3, h4⟩ := ih num disk pv
      exact ⟨congrArg (e.id :: ·) h1, h2, h3, h4⟩

end DiskANNEval.Gorgeous
