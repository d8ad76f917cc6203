import DiskANNEval.AiSAQ.BeamReach

/-!
# BeamOffers — the candidates that `aisaq_cached_beam_search` takes from a node

The loop over the inline codes does not stop at the last neighbour: a cell behind it is taken for a
neighbour, with the code that stands there.  `create_disk_layout` leaves `0` in such cells.
-/

namespace DiskANNEval.AiSAQ.BeamLoop

open Lib PriorityQueue List

variable {C P D : Type} {fl : FloatOps D} {ix : BeamIndex C P} {q : BeamQuery C P D}
  {pool₀ : List ℕ} {f : BeamFrame D}

/-- The codes of the neighbours are their own, wherever they are kept. -/
structure OwnCodes (ix : BeamIndex C P) (pq : ℕ → P) : Prop where
  inline : ∀ id m, m < ix.inlinePqVectors → m < (ix.node id).nnbrs →
    (ix.node id).inlinePq m = pq ((ix.node id).nbr m)
  cache : ∀ id p, ix.pqCache id = some p → p = pq id
  vector : ∀ id, ix.pqVector id = pq id

/-- The candidates of a node, when `visited` have been visited. -/
def added (ix : BeamIndex C P) (q : BeamQuery C P D) (node : BeamNode C P) (visited : List ℕ) :
    List (ℕ × D) :=
  (offers ix q node { visited, read := [], inline := [] }).candidates ix q

/-- The candidates are the neighbours that have not been visited and pass, each with the distance of
its code. -/
def Exact (q : BeamQuery C P D) (pq : ℕ → P) (node : BeamNode C P) (visited : List ℕ)
    (l : List (ℕ × D)) : Prop :=
  (l.map Prod.fst).Nodup ∧ ∀ id dist, (id, dist) ∈ l ↔
    id ∈ (List.range node.nnbrs).map node.nbr ∧ id ∉ visited ∧ q.passes id = true ∧
      dist = q.pqDist (pq id)

/-- No cell behind the neighbours has an id that would be taken for a new one. -/
def Harmless (ix : BeamIndex C P) (q : BeamQuery C P D) (node : BeamNode C P) (visited : List ℕ) :
    Prop :=
  ∀ m, node.nnbrs ≤ m → m < ix.inlinePqVectors →
    node.nbr m ∈ visited ∨ node.nbr m ∈ (List.range node.nnbrs).map node.nbr ∨
      q.passes (node.nbr m) = false

/-! ### The lists of one node -/

/-- The lists `b` behind those of `a`. -/
def Agg.after (a b : Agg D) : Agg D where
  visited := b.visited
  read := a.read ++ b.read
  inline := a.inline ++ b.inline

theorem offerInline_after (q : BeamQuery C P D) (node : BeamNode C P) (a b : Agg D) (m : ℕ) :
    offerInline q node (a.after b) m = a.after (offerInline q node b m) := by
  rw [offerInline, offerInline]
  by_cases hmem : node.nbr m ∈ b.visited
  · rw [if_pos (show node.nbr m ∈ (a.after b).visited from hmem), if_pos hmem]
  · rw [if_neg (show node.nbr m ∉ (a.after b).visited from hmem), if_neg hmem]
    by_cases hpass : q.passes (node.nbr m) = true
    · rw [if_pos hpass, if_pos hpass, Agg.after, Agg.after, append_assoc]
    · rw [if_neg hpass, if_neg hpass]
      rfl

theorem offerRest_after (ix : BeamIndex C P) (q : BeamQuery C P D) (node : BeamNode C P)
    (a b : Agg D) (m : ℕ) :
    offerRest ix q node (a.after b) m = a.after (offerRest ix q node b m) := by
  rw [offerRest, offerRest]
  by_cases hmem : node.nbr m ∈ b.visited
  · rw [if_pos (show node.nbr m ∈ (a.after b).visited from hmem), if_pos hmem]
  · rw [if_neg (show node.nbr m ∉ (a.after b).visited from hmem), if_neg hmem]
    by_cases hpass : q.passes (node.nbr m) = true
    · rw [if_pos hpass, if_pos hpass]
      rcases ix.pqCache (node.nbr m) with _ | pq
      · dsimp only
        rw [Agg.after, Agg.after, append_assoc]
      · dsimp only
        rw [Agg.after, Agg.after, append_assoc]
    · rw [if_neg hpass, if_neg hpass]
      rfl

theorem offers_eq (ix : BeamIndex C P) (q : BeamQuery C P D) (node : BeamNode C P) (a : Agg D) :
    offers ix q node a =
      a.after (offers ix q node { visited := a.visited, read := [], inline := [] }) := by
  have hstart : a = a.after { visited := a.visited, read := [], inline := [] } := by
    rw [Agg.after, append_nil, append_nil]
  have hinline : ∀ b : Agg D, (List.range ix.inlinePqVectors).foldl (offerInline q node) (a.after b) =
      a.after ((List.range ix.inlinePqVectors).foldl (offerInline q node) b) := fun b =>
    foldl_hom a.after fun x m => offerInline_after q node a x m
  conv_lhs => rw [hstart]
  rw [offers, hinline]
  exact foldl_hom a.after fun x m => offerRest_after ix q node a x m

theorem candidates_offers (ix : BeamIndex C P) (q : BeamQuery C P D) (node : BeamNode C P)
    (a : Agg D) : ((offers ix q node a).candidates ix q).Perm
      (a.candidates ix q ++ added ix q node a.visited) := by
  rw [offers_eq, added]
  rw [Agg.candidates, Agg.candidates, Agg.candidates, Agg.after, map_append]
  simp only [append_assoc]
  refine Perm.append_left _ ?_
  rw [← append_assoc, ← append_assoc]
  exact Perm.append_right _ perm_append_comm

/-! ### The ids -/

theorem offered_added (ix : BeamIndex C P) (q : BeamQuery C P D) (node : BeamNode C P)
    (visited : List ℕ) : Offered q visited (cells ix node)
      (offers ix q node { visited, read := [], inline := [] }) := by
  have hstart : Offered q visited [] ({ visited, read := [], inline := [] } : Agg D) :=
    ⟨nodup_nil, by simp [Agg.ids], by simp⟩
  exact hstart.offers node

variable {node : BeamNode C P}

theorem mem_cells {m : ℕ} (hm : m < node.nnbrs ∨ m < ix.inlinePqVectors) :
    node.nbr m ∈ cells ix node := by
  refine mem_map_of_mem (List.mem_range.2 ?_)
  omega

theorem map_added (ix : BeamIndex C P) (q : BeamQuery C P D) (node : BeamNode C P)
    (visited : List ℕ) : ((added ix q node visited).map Prod.fst).Nodup ∧
      ∀ id, id ∈ (added ix q node visited).map Prod.fst ↔
        id ∈ cells ix node ∧ id ∉ visited ∧ q.passes id = true := by
  have h := offered_added ix q node visited
  rw [added, Agg.map_candidates]
  exact ⟨h.nodup, h.ids⟩

/-! ### The distances -/

/-- Each candidate has the distance of its own code. -/
def Own (ix : BeamIndex C P) (q : BeamQuery C P D) (pq : ℕ → P) (a : Agg D) : Prop :=
  ∀ c ∈ a.candidates ix q, c.2 = q.pqDist (pq c.1)

variable {pq : ℕ → P}

theorem own_iff (ix : BeamIndex C P) (q : BeamQuery C P D) (hvector : ∀ id, ix.pqVector id = pq id)
    (a : Agg D) : Own ix q pq a ↔ ∀ c ∈ a.inline, c.2 = q.pqDist (pq c.1) := by
  constructor
  · exact fun h c hc => h c (mem_append_right _ hc)
  · intro h c hc
    rcases mem_append.1 hc with hc | hc
    · obtain ⟨id, -, rfl⟩ := mem_map.1 hc
      rw [hvector]
    · exact h c hc

theorem Own.offerInline (hvector : ∀ id, ix.pqVector id = pq id) {a : Agg D} (h : Own ix q pq a)
    {m : ℕ}
    (hm : node.nbr m ∈ a.visited ∨ q.passes (node.nbr m) = false ∨ node.inlinePq m = pq (node.nbr m)) :
    Own ix q pq (offerInline q node a m) := by
  rw [own_iff ix q hvector] at h ⊢
  rw [BeamLoop.offerInline]
  by_cases hmem : node.nbr m ∈ a.visited
  · rw [if_pos hmem]
    exact h
  · rw [if_neg hmem]
    by_cases hpass : q.passes (node.nbr m) = true
    · rw [if_pos hpass]
      intro c hc
      rcases mem_append.1 hc with hc | hc
      · exact h c hc
      · rw [mem_singleton.1 hc]
        rcases hm with hm | hm | hm
        · exact absurd hm hmem
        · rw [hpass] at hm
          cases hm
        · exact congrArg q.pqDist hm
    · rw [if_neg hpass]
      exact h

theorem Own.offerRest (hvector : ∀ id, ix.pqVector id = pq id)
    (hcache : ∀ id p, ix.pqCache id = some p → p = pq id) {a : Agg D} (h : Own ix q pq a)
    (node : BeamNode C P) (m : ℕ) : Own ix q pq (offerRest ix q node a m) := by
  rw [own_iff ix q hvector] at h ⊢
  rw [BeamLoop.offerRest]
  split_ifs
  · exact h
  · rcases hpq : ix.pqCache (node.nbr m) with _ | p
    · exact h
    · intro c hc
      rcases mem_append.1 hc with hc | hc
      · exact h c hc
      · rw [mem_singleton.1 hc]
        exact congrArg q.pqDist (hcache _ p hpq)
  · exact h

theorem own_inline (hvector : ∀ id, ix.pqVector id = pq id)
    (hinline : ∀ m, m < ix.inlinePqVectors → m < node.nnbrs → node.inlinePq m = pq (node.nbr m))
    {visited : List ℕ} (hharmless : Harmless ix q node visited) {n : ℕ}
    (hn : n ≤ ix.inlinePqVectors) : Own ix q pq ((List.range n).foldl (BeamLoop.offerInline q node)
      { visited, read := [], inline := [] }) := by
  induction n with
  | zero => exact (own_iff ix q hvector _).2 fun c hc => absurd hc not_mem_nil
  | succ n ih =>
    rw [range_succ, foldl_append]
    refine (ih (by omega)).offerInline hvector ?_
    by_cases hlt : n < node.nnbrs
    · exact Or.inr (Or.inr (hinline n (by omega) hlt))
    · -- the neighbours have been visited by now
      have hstart : Offered q visited [] ({ visited, read := [], inline := [] } : Agg D) :=
        ⟨nodup_nil, by simp [Agg.ids], by simp⟩
      have hvisited := (hstart.foldl_cells (fun _ _ m h => h.offerInline node m)
        (List.range n)).visited
      rcases hharmless n (not_lt.1 hlt) (by omega) with hold | hnbr | hpass
      · exact Or.inl ((hvisited _).2 (Or.inl hold))
      · refine Or.inl ((hvisited _).2 (Or.inr ?_))
        obtain ⟨m, hm, heq⟩ := mem_map.1 hnbr
        rw [← heq]
        rw [List.mem_range] at hm
        exact mem_map_of_mem (List.mem_range.2 (by omega))
      · exact Or.inr (Or.inl hpass)

theorem own_added (hvector : ∀ id, ix.pqVector id = pq id)
    (hcache : ∀ id p, ix.pqCache id = some p → p = pq id)
    (hinline : ∀ m, m < ix.inlinePqVectors → m < node.nnbrs → node.inlinePq m = pq (node.nbr m))
    {visited : List ℕ} (hharmless : Harmless ix q node visited) :
    ∀ c ∈ added ix q node visited, c.2 = q.pqDist (pq c.1) := by
  have hkeep : ∀ (ms : List ℕ) (a : Agg D), Own ix q pq a →
      Own ix q pq (ms.foldl (BeamLoop.offerRest ix q node) a) := by
    intro ms
    induction ms with
    | nil => exact fun a ha => ha
    | cons m ms ih => exact fun a ha => ih _ (ha.offerRest hvector hcache node m)
  exact hkeep _ _ (own_inline hvector hinline hharmless le_rfl)

/-- The candidates of a node are exact if and only if the cells behind its neighbours do no harm. -/
theorem exact_iff_harmless (hvector : ∀ id, ix.pqVector id = pq id)
    (hcache : ∀ id p, ix.pqCache id = some p → p = pq id)
    (hinline : ∀ m, m < ix.inlinePqVectors → m < node.nnbrs → node.inlinePq m = pq (node.nbr m))
    (visited : List ℕ) :
    Exact q pq node visited (added ix q node visited) ↔ Harmless ix q node visited := by
  obtain ⟨hnodup, hids⟩ := map_added ix q node visited
  constructor
  · rintro ⟨-, hmem⟩ m - hm
    by_cases hvisited : node.nbr m ∈ visited
    · exact Or.inl hvisited
    · refine Or.inr (or_iff_not_imp_right.2 fun hpass => ?_)
      have hin := (hids (node.nbr m)).2 ⟨mem_cells (Or.inr hm), hvisited,
        Bool.eq_true_of_not_eq_false hpass⟩
      obtain ⟨c, hc, heq⟩ := mem_map.1 hin
      rw [← heq]
      exact ((hmem c.1 c.2).1 hc).1
  · intro hharmless
    have hown := own_added hvector hcache hinline hharmless
    have hfirst : ∀ id, id ∈ (added ix q node visited).map Prod.fst ↔
        id ∈ (List.range node.nnbrs).map node.nbr ∧ id ∉ visited ∧ q.passes id = true := by
      intro id
      rw [hids]
      refine ⟨fun ⟨hcell, hnew, hpass⟩ => ⟨?_, hnew, hpass⟩, fun ⟨hnbr, h⟩ => ⟨?_, h⟩⟩
      · obtain ⟨m, hm, rfl⟩ := mem_map.1 hcell
        rw [List.mem_range] at hm
        by_cases hlt : m < node.nnbrs
        · exact mem_map_of_mem (List.mem_range.2 hlt)
        · rcases hharmless m (not_lt.1 hlt) (by omega) with hold | hnbr | hfalse
          · exact absurd hold hnew
          · exact hnbr
          · rw [hpass] at hfalse
            cases hfalse
      · obtain ⟨m, hm, rfl⟩ := mem_map.1 hnbr
        exact mem_cells (Or.inl (List.mem_range.1 hm))
    refine ⟨hnodup, fun id dist => ⟨fun hc => ?_, fun ⟨hnbr, hnew, hpass, hdist⟩ => ?_⟩⟩
    · obtain ⟨hnbr, hnew, hpass⟩ := (hfirst id).1 (mem_map_of_mem hc)
      exact ⟨hnbr, hnew, hpass, hown _ hc⟩
    · obtain ⟨c, hc, rfl⟩ := mem_map.1 ((hfirst id).2 ⟨hnbr, hnew, hpass⟩)
      rw [hdist, ← hown c hc]
      exact hc

/-- In every turn of every search, what the expansion of a node adds to the candidates is what its
neighbours give if and only if the cells behind these do no harm. -/
theorem turn_exact_iff (hpool : pool₀.Nodup) {pq : ℕ → P} (hown : OwnCodes ix pq)
    (h : Reach (Init fl q pool₀) (Step fl ix q) f) (hthrew : f.threw = false)
    (hlt : f.retset.hasUnexpandedNode = true) (hsel : (BeamLoop.select fl ix q f).2 = false)
    {l r : List (Placement D)} {p : Placement D}
    (hnp : (BeamLoop.select fl ix q f).1.np = l ++ p :: r) :
    let offer := fun a p =>
      offers ix q (BeamLoop.placed ix (turnMem f (BeamLoop.select fl ix q f).1) p) a
    let before := l.foldl offer { visited := f.visited, read := [], inline := [] }
    turnAgg ix q f (BeamLoop.select fl ix q f).1 = r.foldl offer (offer before p) ∧
      ((offer before p).candidates ix q).Perm
        (before.candidates ix q ++ added ix q (ix.node p.id) before.visited) ∧
      (Exact q pq (ix.node p.id) before.visited (added ix q (ix.node p.id) before.visited) ↔
        Harmless ix q (ix.node p.id) before.visited) := by
  intro offer before
  have hexp := explores_of_reach hpool h hthrew
  have hs := (hexp.toOk.select fl hlt).2 hsel
  have hp : p ∈ (BeamLoop.select fl ix q f).1.np := by
    rw [hnp]
    exact mem_append_right _ mem_cons_self
  refine ⟨?_, ?_, exact_iff_harmless hown.vector hown.cache (hown.inline p.id) before.visited⟩
  · rw [turnAgg, hnp, foldl_append, foldl_cons]
  · change ((offers ix q (BeamLoop.placed ix _ p) before).candidates ix q).Perm _
    rw [placed_eq hpool hexp.mem hs hp]
    exact candidates_offers ix q _ before

/-- Each node has the neighbours `1`, ..., `n`, and there is room for two codes in a record; behind
the neighbours it is filled up with zeros.  The code of `id` is `id + 10`. -/
def paddedIndex (n : ℕ) : BeamIndex ℕ ℕ where
  record _ id := ⟨id, n, fun m => if m < n then m + 1 else 0,
    fun m => if m < n then m + 1 + 10 else 0, id⟩
  cache _ := none
  inlinePqVectors := 2
  pqCache _ := none
  pqVector id := id + 10

/-- The search starts at the point `5`. -/
def fromFive : BeamQuery ℕ ℕ ℕ where
  entry := 5
  entryDist := 15
  beamWidth := 1
  bv := 1
  lSearch := 3
  ioLimit := 100
  pqDist := id
  fullDist := id
  usesPqDist := false
  passes _ := true
  lSearch_pos := threeCands_pos
  lSearch_lt := threeCands_lt
  bv_pos := Nat.one_pos

/-- The frame before the first turn. -/
def fiveStart : BeamFrame ℕ := start natConfig.fl fromFive [0, 1] id

theorem reach_fiveStart (n : ℕ) : Reach (Init natConfig.fl fromFive [0, 1])
    (Step natConfig.fl (paddedIndex n) fromFive) fiveStart :=
  .start ⟨id, rfl⟩

theorem ownCodes_paddedIndex (n : ℕ) : OwnCodes (paddedIndex n) (· + 10) where
  inline id m _ hm := by
    change m < n at hm
    change (if m < n then m + 1 + 10 else 0) = (if m < n then m + 1 else 0) + 10
    rw [if_pos hm, if_pos hm]
  cache id p h := by cases h
  vector _ := rfl

theorem np_fiveStart (n : ℕ) : (BeamLoop.select natConfig.fl (paddedIndex n) fromFive fiveStart).1.np =
    [] ++ ⟨5, some 0, 15⟩ :: [] := rfl

theorem turn_exact_iff_twoNeighbours :
    Exact fromFive (· + 10) ((paddedIndex 2).node 5) [5]
      (added (paddedIndex 2) fromFive ((paddedIndex 2).node 5) [5]) :=
  (turn_exact_iff (by decide) (ownCodes_paddedIndex 2) (reach_fiveStart 2) rfl (by decide +kernel)
    (by decide +kernel) (np_fiveStart 2)).2.2.2 fun m hle hlt => absurd (hle.trans_lt hlt) (by decide)

/-- With one neighbour the expansion of `5` puts `0` into the queue, which is no neighbour, with the
distance of a code that is no code of it. -/
theorem padding_is_added :
    Reach (Init natConfig.fl fromFive [0, 1]) (Step natConfig.fl (paddedIndex 1) fromFive) fiveStart ∧
      0 ∉ (List.range ((paddedIndex 1).node 5).nnbrs).map ((paddedIndex 1).node 5).nbr ∧
      (0, 0) ∈ added (paddedIndex 1) fromFive ((paddedIndex 1).node 5) [5] ∧
      ((BeamLoop.step natConfig.fl (paddedIndex 1) fromFive fiveStart).map (·.retset.ids)) =
        some [0, 1, 5] ∧
      ¬ Exact fromFive (· + 10) ((paddedIndex 1).node 5) [5]
        (added (paddedIndex 1) fromFive ((paddedIndex 1).node 5) [5]) := by
  have hmem : (0, 0) ∈ added (paddedIndex 1) fromFive ((paddedIndex 1).node 5) [5] := by
    decide +kernel
  refine ⟨reach_fiveStart 1, by decide +kernel, hmem, by decide +kernel, ?_⟩
  rintro ⟨-, hexact⟩
  have hnbr := ((hexact 0 0).1 hmem).1
  revert hnbr
  decide +kernel

end DiskANNEval.AiSAQ.BeamLoop
