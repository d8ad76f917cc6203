import DiskANNEval.PageANN.PageRoundTrip

/-!
# PageNeighbors — which neighbours a page gets

A round meets neighbours one after the other; what it does with one is `meet`.  So the lists of a page
are a fold over the neighbours met, and a phase ends when the lists are full or all were met.
-/

namespace DiskANNEval.PageANN

open Lib List Finset

variable {D : Type}

/-- The ids of both lists. -/
def PageLists.all (l : PageLists) : List ℕ := l.cached ++ l.uncached

theorem PageLists.length_all (l : PageLists) : l.all.length = l.size := length_append

namespace PageBuild

variable (b : PageBuild D)

/-- A neighbour that is met; it is marked even where it has no room. -/
def meet (cachedPq : Finset ℕ) (phase : Phase) (l : PageLists) (id : ℕ) : PageLists :=
  if id ∈ l.inserted then l
  else
    let l' := { l with inserted := insert id l.inserted }
    if phase.hasRoom l (b.newId id ∈ cachedPq) then
      if b.newId id ∈ cachedPq then { l' with cached := l.cached ++ [b.newId id] }
      else { l' with uncached := l.uncached ++ [b.newId id] }
    else l'

/-- The neighbours of a page's nodes that are not on the page. -/
def outside (page : List ℕ) : Finset ℕ := (page.flatMap b.merge.nbrs).toFinset \ page.toFinset

/-- The bytes that a neighbour takes. -/
def need (cachedPq : Finset ℕ) (id : ℕ) : ℕ :=
  if b.newId id ∈ cachedPq then 4 else 4 + b.pqSize

/-- The neighbours of a page, with `cached_PQ_nodes` as it is when the page is done. -/
structure Neighbours (page : List ℕ) (cachedPq : Finset ℕ) (l : PageLists) : Prop where
  nodup : l.all.Nodup
  outside : ∀ x ∈ l.all, ∃ id ∈ b.outside page, b.merged.originalToNew id = x
  members : ∀ id ∈ page, b.merged.originalToNew id ∉ l.all
  size : min b.pageGraphDegree (b.outside page).card ≤ l.all.length
  left : ∀ id ∈ b.outside page, b.merged.originalToNew id ∉ l.all →
    sectorLen < b.pageBytes l.cached.length l.uncached.length + b.need cachedPq id

/-! ### Rounds -/

variable {b} {cachedPq : Finset ℕ} {phase : Phase} {l l' : PageLists}

theorem takeNbr_meets {ids ids' : List ℕ}
    (h : b.takeNbr cachedPq phase l ids = some (l', ids')) :
    ∃ seen, ids = seen ++ ids' ∧ l' = seen.foldl (b.meet cachedPq phase) l ∧
      (l.size < l'.size ∨ ids' = [] ∧ l'.cached = l.cached ∧ l'.uncached = l.uncached) := by
  induction ids generalizing l with
  | nil =>
    cases h
    exact ⟨[], rfl, rfl, .inr ⟨rfl, rfl, rfl⟩⟩
  | cons id ids ih =>
    rw [takeNbr] at h
    split_ifs at h with hins hcheck hroom hmem
    · obtain ⟨seen, rfl, rfl, hsize⟩ := ih h
      exact ⟨id :: seen, rfl, by rw [foldl_cons, meet, if_pos hins], hsize⟩
    · cases h
      refine ⟨[id], rfl, ?_, .inl ?_⟩
      · rw [foldl_cons, meet, if_neg hins, if_pos hroom, if_pos hmem]
        rfl
      · show l.size < (l.cached ++ [b.newId id]).length + l.uncached.length
        rw [length_append, PageLists.size, length_singleton]
        omega
    · cases h
      refine ⟨[id], rfl, ?_, .inl ?_⟩
      · rw [foldl_cons, meet, if_neg hins, if_pos hroom, if_neg hmem]
        rfl
      · show l.size < l.cached.length + (l.uncached ++ [b.newId id]).length
        rw [length_append, PageLists.size, length_singleton]
        omega
    · obtain ⟨seen, rfl, rfl, hsize⟩ := ih h
      refine ⟨id :: seen, rfl, ?_, hsize⟩
      rw [foldl_cons, meet, if_neg hins, if_neg hroom]

theorem takeRound_meets {left left' : List (List ℕ)} (hfull : phase.isFull l = false)
    (h : b.takeRound cachedPq phase l left = some (l', left')) :
    ∃ seen : List ℕ, (∀ id, id ∈ left.flatten ↔ id ∈ seen ∨ id ∈ left'.flatten) ∧
      l' = seen.foldl (b.meet cachedPq phase) l ∧
      (l.size < l'.size ∨ left'.flatten = [] ∧ l'.cached = l.cached ∧ l'.uncached = l.uncached) := by
  induction left generalizing l left' with
  | nil =>
    cases h
    exact ⟨[], fun id => by simp, rfl, .inr ⟨rfl, rfl, rfl⟩⟩
  | cons ids left ih =>
    obtain ⟨⟨l₁, ids₁⟩, htake, h⟩ := Option.bind_eq_some_iff.1 h
    obtain ⟨seen₁, rfl, rfl, hsize₁⟩ := takeNbr_meets htake
    dsimp only at h
    split_ifs at h with hfull₁
    · cases h
      refine ⟨seen₁, fun id => ?_, rfl, ?_⟩
      · simp only [flatten_cons, mem_append, or_assoc]
      · -- lists that are the same would not be full
        rcases hsize₁ with hlt | ⟨-, hc, hu⟩
        · exact .inl hlt
        · rw [Phase.isFull, hc, hu, ← Phase.isFull, hfull] at hfull₁
          cases hfull₁
    · obtain ⟨⟨l₂, left₂⟩, hround, h⟩ := Option.bind_eq_some_iff.1 h
      cases h
      obtain ⟨seen₂, hmem, rfl, hsize₂⟩ := ih (by simpa using hfull₁) hround
      refine ⟨seen₁ ++ seen₂, fun id => ?_, (foldl_append ..).symm, ?_⟩
      · simp only [flatten_cons, mem_append, hmem]
        tauto
      · rcases hsize₁ with hlt₁ | ⟨rfl, hc₁, hu₁⟩ <;> rcases hsize₂ with hlt₂ | ⟨hnil, hc₂, hu₂⟩
        · exact .inl (hlt₁.trans hlt₂)
        · exact .inl (hlt₁.trans_eq (by rw [PageLists.size, PageLists.size, hc₂, hu₂]))
        · exact .inl (hlt₂.trans_eq' (by rw [PageLists.size, PageLists.size, hc₁, hu₁]))
        · exact .inr ⟨hnil, hc₂.trans hc₁, hu₂.trans hu₁⟩

variable {fuel : ℕ}

theorem fill_meets {s s' : ListFilling} (hs : s.hasLeftNbrs = false → s.left.flatten = [])
    (h : b.fill cachedPq phase fuel s = some s') :
    ∃ seen : List ℕ, (∀ id, id ∈ s.left.flatten ↔ id ∈ seen ∨ id ∈ s'.left.flatten) ∧
      s'.lists = seen.foldl (b.meet cachedPq phase) s.lists ∧
      (s'.hasLeftNbrs = false → s'.left.flatten = []) ∧
      (phase.isFull s'.lists = true ∨ s'.left.flatten = []) := by
  obtain ⟨⟨seen, hmem, hlists, hleft⟩, hdone⟩ := whileM_keeps
    (P := fun t => ∃ seen : List ℕ, (∀ id, id ∈ s.left.flatten ↔ id ∈ seen ∨ id ∈ t.left.flatten) ∧
      t.lists = seen.foldl (b.meet cachedPq phase) s.lists ∧
      (t.hasLeftNbrs = false → t.left.flatten = []))
    (fun t ⟨seen, hmem, hlists, _⟩ hc t' ht' => by
      rw [Bool.and_eq_true, Bool.not_eq_true'] at hc
      obtain ⟨⟨l₁, left₁⟩, hround, rfl⟩ := Option.map_eq_some_iff.1 ht'
      obtain ⟨seen₁, hmem₁, rfl, hsize⟩ := takeRound_meets hc.1 hround
      refine ⟨seen ++ seen₁, fun id => ?_, ?_, fun hno => ?_⟩
      · rw [hmem, hmem₁, mem_append, or_assoc]
      · rw [hlists, foldl_append]
      · have hsame : (seen₁.foldl (b.meet cachedPq phase) t.lists).size = t.lists.size := by
          simpa using hno
        rcases hsize with hlt | ⟨hnil, -⟩
        · exact absurd hsame hlt.ne'
        · exact hnil) ⟨[], fun id => by simp, rfl, hs⟩ h
  refine ⟨seen, hmem, hlists, hleft, ?_⟩
  cases hfull : phase.isFull s'.lists with
  | true => exact .inl rfl
  | false =>
    rw [hfull] at hdone
    exact .inr (hleft hdone)

/-! ### What meeting a neighbour keeps -/

variable {page : List ℕ}

theorem outside_lt {id : ℕ} (h : id ∈ b.outside page) : id < b.merge.npts := by
  obtain ⟨n, -, hid⟩ := mem_flatMap.1 (mem_toFinset.1 (mem_sdiff.1 h).1)
  exact b.merge.nbrs_lt n id hid

variable (b) in
/-- Kept by a page's filling; `Short` says that a neighbour has no room. -/
structure Met (Short : PageLists → ℕ → Prop) (page : List ℕ) (l : PageLists) : Prop where
  nodup : l.all.Nodup
  inserted : ∀ id ∈ l.inserted, id ∈ page ∨ id ∈ b.outside page ∧ (b.newId id ∈ l.all ∨ Short l id)
  marked : ∀ id ∈ page, id ∈ l.inserted
  outside : ∀ x ∈ l.all, ∃ id ∈ b.outside page, id ∈ l.inserted ∧ b.newId id = x

variable (b cachedPq phase l) in
/-- Either the neighbour was met before, or it is marked, and added where there is room. -/
theorem meet_all (id : ℕ) : id ∈ l.inserted ∧ b.meet cachedPq phase l id = l ∨
    id ∉ l.inserted ∧ (b.meet cachedPq phase l id).inserted = insert id l.inserted ∧
      (phase.hasRoom l (b.newId id ∈ cachedPq) = true ∧
          (b.meet cachedPq phase l id).all.Perm (b.newId id :: l.all) ∨
        phase.hasRoom l (b.newId id ∈ cachedPq) = false ∧
          (b.meet cachedPq phase l id).all = l.all) := by
  unfold meet
  split_ifs with hins hroom hmem
  · exact .inl ⟨hins, rfl⟩
  · refine .inr ⟨hins, rfl, .inl ⟨hroom, ?_⟩⟩
    show ((l.cached ++ [b.newId id]) ++ l.uncached).Perm _
    rw [append_assoc]
    exact perm_middle
  · refine .inr ⟨hins, rfl, .inl ⟨hroom, ?_⟩⟩
    show (l.cached ++ (l.uncached ++ [b.newId id])).Perm _
    rw [← append_assoc]
    exact perm_append_singleton _ _
  · exact .inr ⟨hins, rfl, .inr ⟨by simpa using hroom, rfl⟩⟩

variable (b cachedPq phase l) in
theorem meet_length (id : ℕ) : l.cached.length ≤ (b.meet cachedPq phase l id).cached.length ∧
    l.uncached.length ≤ (b.meet cachedPq phase l id).uncached.length := by
  unfold meet
  split_ifs
  · exact ⟨le_rfl, le_rfl⟩
  · exact ⟨length_append ▸ Nat.le_add_right _ _, le_rfl⟩
  · exact ⟨le_rfl, length_append ▸ Nat.le_add_right _ _⟩
  · exact ⟨le_rfl, le_rfl⟩

variable (b) in
/-- `Short` fits a phase: it says what has no room, and what has none has none later. -/
structure ShortOf (cachedPq : Finset ℕ) (phase : Phase)
    (Short : PageLists → ℕ → Prop) : Prop where
  noRoom : ∀ l id, phase.hasRoom l (b.newId id ∈ cachedPq) = false → Short l id
  mono : ∀ l l' id, l.cached.length ≤ l'.cached.length → l.uncached.length ≤ l'.uncached.length →
    Short l id → Short l' id

variable {Short : PageLists → ℕ → Prop}

theorem Met.meet (h : b.Met Short page l) (hshort : b.ShortOf cachedPq phase Short) {id : ℕ}
    (hid : id ∈ page.flatMap b.merge.nbrs) : b.Met Short page (b.meet cachedPq phase l id) := by
  have hlen := meet_length b cachedPq phase l id
  rcases meet_all b cachedPq phase l id with
    ⟨-, heq⟩ | ⟨hnew, hins, hall⟩
  · rw [heq]
    exact h
  set l' := b.meet cachedPq phase l id
  have hout : id ∈ b.outside page := by
    refine mem_sdiff.2 ⟨mem_toFinset.2 hid, fun hp => hnew ?_⟩
    exact h.marked id (mem_toFinset.1 hp)
  have hsub : ∀ x ∈ l.all, x ∈ l'.all := by
    rcases hall with ⟨-, hperm⟩ | ⟨-, heq⟩
    · exact fun x hx => hperm.mem_iff.2 (mem_cons_of_mem _ hx)
    · exact fun x hx => heq ▸ hx
  refine ⟨?_, fun id' hid' => ?_, fun id' hid' => ?_, fun x hx => ?_⟩
  · rcases hall with ⟨-, hperm⟩ | ⟨-, heq⟩
    · refine hperm.nodup_iff.2 (nodup_cons.2 ⟨fun hmem => ?_, h.nodup⟩)
      obtain ⟨id', hout', hins', hid'⟩ := h.outside _ hmem
      exact hnew (newId_inj (outside_lt hout') (outside_lt hout) hid' ▸ hins')
    · exact heq ▸ h.nodup
  · rw [hins, mem_insert] at hid'
    rcases hid' with rfl | hid'
    · refine .inr ⟨hout, ?_⟩
      rcases hall with ⟨-, hperm⟩ | ⟨hroom, -⟩
      · exact .inl (hperm.mem_iff.2 mem_cons_self)
      · exact .inr (hshort.mono _ _ _ hlen.1 hlen.2 (hshort.noRoom _ _ hroom))
    · rcases h.inserted id' hid' with hp | ⟨hout', hl | hs⟩
      · exact .inl hp
      · exact .inr ⟨hout', .inl (hsub _ hl)⟩
      · exact .inr ⟨hout', .inr (hshort.mono _ _ _ hlen.1 hlen.2 hs)⟩
  · rw [hins]
    exact mem_insert_of_mem (h.marked id' hid')
  · have hold : x ∈ l.all → ∃ id' ∈ b.outside page, id' ∈ l'.inserted ∧ b.newId id' = x := by
      intro hx
      obtain ⟨id', hout', hins', hid'⟩ := h.outside x hx
      exact ⟨id', hout', hins ▸ mem_insert_of_mem hins', hid'⟩
    rcases hall with ⟨-, hperm⟩ | ⟨-, heq⟩
    · rcases mem_cons.1 (hperm.mem_iff.1 hx) with rfl | hx
      · exact ⟨id, hout, hins ▸ mem_insert_self _ _, rfl⟩
      · exact hold hx
    · exact hold (heq ▸ hx)

theorem Met.foldl {seen : List ℕ} (h : b.Met Short page l) (hshort : b.ShortOf cachedPq phase Short)
    (hseen : ∀ id ∈ seen, id ∈ page.flatMap b.merge.nbrs) :
    b.Met Short page (seen.foldl (b.meet cachedPq phase) l) ∧
      l.inserted ⊆ (seen.foldl (b.meet cachedPq phase) l).inserted ∧
      (∀ id ∈ seen, id ∈ (seen.foldl (b.meet cachedPq phase) l).inserted) ∧
      l.all.length ≤ (seen.foldl (b.meet cachedPq phase) l).all.length := by
  induction seen generalizing l with
  | nil => exact ⟨h, subset_rfl, fun id hid => absurd hid not_mem_nil, le_rfl⟩
  | cons id seen ih =>
    obtain ⟨hmet, hsub, hins, hlen⟩ := ih (h.meet hshort (hseen id mem_cons_self))
      fun i hi => hseen i (mem_cons_of_mem _ hi)
    have hone : insert id l.inserted ⊆ (b.meet cachedPq phase l id).inserted := by
      rcases meet_all b cachedPq phase l id with
        ⟨hmem, heq⟩ | ⟨-, heq, -⟩
      · rw [heq, insert_eq_of_mem hmem]
      · exact heq.ge
    have hle := meet_length b cachedPq phase l id
    refine ⟨hmet, ?_, fun i hi => ?_, le_trans ?_ hlen⟩
    · exact ((Finset.subset_insert _ _).trans hone).trans hsub
    · rcases mem_cons.1 hi with rfl | hi
      · exact hsub (hone (mem_insert_self _ _))
      · exact hins i hi
    · rw [PageLists.length_all, PageLists.length_all]
      exact Nat.add_le_add hle.1 hle.2

/-! ### The phases -/

variable (cachedPq) in
theorem short_degree : b.ShortOf cachedPq b.degreePhase fun _ _ => False where
  noRoom _ _ h := absurd h Bool.true_eq_false.mp
  mono _ _ _ _ _ h := h

theorem pageBytes_mono {c c' u u' : ℕ} (hc : c ≤ c') (hu : u ≤ u') :
    b.pageBytes c u ≤ b.pageBytes c' u' := by
  have hmul := Nat.mul_le_mul_right (4 + b.pqSize) hu
  unfold pageBytes
  omega

theorem lt_of_spareSpace {c u n : ℕ} (h : b.spareSpace c u < n) : sectorLen < b.pageBytes c u + n := by
  by_contra hle
  rw [spareSpace_eq (by omega)] at h
  omega

variable (cachedPq) in
theorem short_space : b.ShortOf cachedPq b.spacePhase fun l id =>
    sectorLen < b.pageBytes l.cached.length l.uncached.length + b.need cachedPq id where
  noRoom l id h := by
    refine lt_of_spareSpace (not_le.1 fun hle => ?_)
    have hroom := of_decide_eq_false h
    unfold need at hle
    simp only [decide_eq_true_eq] at hroom
    exact hroom hle
  mono l l' id hc hu h := h.trans_le (Nat.add_le_add_right (pageBytes_mono hc hu) _)

/-! ### A page -/

theorem transfer_all (l : PageLists) : (b.transfer l).all = l.all := by
  show (l.cached ++ l.uncached.take _) ++ l.uncached.drop _ = l.cached ++ l.uncached
  rw [append_assoc, take_append_drop]

theorem Met.transfer (h : b.Met (fun _ _ => False) page l) : b.Met Short page (b.transfer l) := by
  refine ⟨transfer_all l ▸ h.nodup, fun id hid => ?_, h.marked, fun x hx => ?_⟩
  · rw [transfer_all]
    exact (h.inserted id hid).imp_right (And.imp_right fun h => .inl (h.resolve_right not_false))
  · rw [transfer_all] at hx
    exact h.outside x hx

theorem Met.card_le (h : b.Met (fun _ _ => False) page l)
    (hall : ∀ id ∈ page.flatMap b.merge.nbrs, id ∈ l.inserted) :
    (b.outside page).card ≤ l.all.length := by
  have hsub : (b.outside page).image b.newId ⊆ l.all.toFinset := by
    intro x hx
    obtain ⟨id, hid, rfl⟩ := mem_image.1 hx
    obtain ⟨hnbr, hout⟩ := mem_sdiff.1 hid
    rcases h.inserted id (hall id (mem_toFinset.1 hnbr)) with hp | ⟨-, hmem | hf⟩
    · exact absurd (mem_toFinset.2 hp) hout
    · exact mem_toFinset.2 hmem
    · exact hf.elim
  calc (b.outside page).card = ((b.outside page).image b.newId).card :=
        (card_image_of_injOn fun id hid id' hid' heq =>
          newId_inj (outside_lt hid) (outside_lt hid') heq).symm
    _ ≤ l.all.toFinset.card := card_le_card hsub
    _ ≤ l.all.length := toFinset_card_le _

theorem neighbours_of_pageLists {before after : Finset ℕ} (hpage : ∀ id ∈ page, id < b.merge.npts)
    (h : b.pageLists fuel before page = some (l, after)) : b.Neighbours page after l := by
  obtain ⟨s₁, h₁, h⟩ := Option.bind_eq_some_iff.1 h
  obtain ⟨s₂, h₂, h⟩ := Option.bind_eq_some_iff.1 h
  cases h
  obtain ⟨seen₁, hseen₁, hlists₁, hleft₁, hdone₁⟩ := fill_meets
    (fun hno => absurd hno Bool.true_eq_false.mp) h₁
  obtain ⟨seen₂, hseen₂, hlists₂, -, hdone₂⟩ := fill_meets
    (s := { s₁ with lists := b.transfer s₁.lists }) hleft₁ h₂
  have hflat : (page.map b.merge.nbrs).flatten = page.flatMap b.merge.nbrs := rfl
  rw [hflat] at hseen₁
  have hstart : b.Met (fun _ _ => False) page ⟨[], [], page.toFinset⟩ :=
    ⟨nodup_nil, fun id hid => .inl (mem_toFinset.1 hid), fun id => mem_toFinset.2,
      fun x hx => absurd hx not_mem_nil⟩
  obtain ⟨hmet₁, -, hins₁, -⟩ := hstart.foldl (short_degree before)
    fun id hid => (hseen₁ id).2 (.inl hid)
  rw [← hlists₁] at hmet₁ hins₁
  obtain ⟨hmet₂, hsub₂, hins₂, hlen₂⟩ := (hmet₁.transfer).foldl
    (short_space (b.cacheTransfers before s₁.lists))
    fun id hid => (hseen₁ id).2 (.inr ((hseen₂ id).2 (.inl hid)))
  rw [← hlists₂] at hmet₂ hsub₂ hins₂ hlen₂
  rw [transfer_all] at hlen₂
  refine ⟨hmet₂.nodup, fun x hx => ?_, fun id hid hmem => ?_, ?_, fun id hid hno => ?_⟩
  · obtain ⟨id, hid, -, hnew⟩ := hmet₂.outside x hx
    exact ⟨id, hid, (pageOf_spec (outside_lt hid)).2.symm.trans hnew⟩
  · obtain ⟨id', hid', -, hnew⟩ := hmet₂.outside _ hmem
    obtain rfl := newId_inj (outside_lt hid') (hpage id hid)
      (hnew.trans (pageOf_spec (hpage id hid)).2.symm)
    exact (mem_sdiff.1 hid').2 (mem_toFinset.2 hid)
  · refine le_trans ?_ hlen₂
    rcases hdone₁ with hfull | hnil
    · refine (Nat.min_le_left _ _).trans ?_
      rw [PageLists.length_all]
      exact of_decide_eq_true hfull
    · refine (Nat.min_le_right _ _).trans (hmet₁.card_le fun id hid => hins₁ id ?_)
      rw [hseen₁, hnil] at hid
      exact hid.resolve_right not_mem_nil
  · rcases hdone₂ with hfull | hnil
    · -- no neighbour at all has room
      refine (lt_of_spareSpace (of_decide_eq_true hfull)).trans_le (Nat.add_le_add_left ?_ _)
      unfold need
      split_ifs
      · exact le_rfl
      · exact Nat.le_add_right 4 _
    · obtain ⟨hnbr, hout⟩ := mem_sdiff.1 hid
      have hins : id ∈ s₂.lists.inserted := by
        rcases (hseen₁ id).1 (mem_toFinset.1 hnbr) with hmem | hmem
        · exact hsub₂ (hins₁ id hmem)
        · rw [hseen₂, hnil] at hmem
          exact hins₂ id (hmem.resolve_right not_mem_nil)
      rw [← (pageOf_spec (outside_lt hid)).2] at hno
      rcases hmet₂.inserted id hins with hp | ⟨-, hmem | hshort⟩
      · exact absurd (mem_toFinset.2 hp) hout
      · exact absurd hmem hno
      · exact hshort

/-! ### All pages -/

theorem listPages_at {pages : List (List ℕ)} {before after : Finset ℕ} {ls : List PageLists}
    (h : b.listPages fuel pages before = some (ls, after)) {i : ℕ} (hi : pages[i]? = some page) :
    ∃ ls' mid l mid',
    b.listPages fuel (pages.take i) before = some (ls', mid) ∧
      b.pageLists fuel mid page = some (l, mid') ∧ ls[i]? = some l := by
  induction pages generalizing before ls i with
  | nil => cases hi
  | cons first pages ih =>
    obtain ⟨⟨l₁, mid₁⟩, h₁, h⟩ := Option.bind_eq_some_iff.1 h
    obtain ⟨⟨ls₁, after₁⟩, hls, h⟩ := Option.bind_eq_some_iff.1 h
    cases h
    cases i with
    | zero =>
      obtain rfl : first = page := Option.some.inj hi
      exact ⟨[], before, l₁, mid₁, rfl, h₁, rfl⟩
    | succ i =>
      obtain ⟨ls', mid, l, mid', hpre, hl, hget⟩ := ih hls hi
      refine ⟨l₁ :: ls', mid, l, mid', ?_, hl, hget⟩
      rw [take_succ_cons, listPages, h₁]
      show (b.listPages _ _ _).bind _ = _
      rw [hpre]
      rfl

theorem page_lt (hpage : page ∈ b.merged.mergedNodes) : ∀ id ∈ page, id < b.merge.npts := by
  intro id hid
  obtain ⟨pages, last, hmerged, hne, -, hids⟩ := b.ok.once
  rw [hmerged] at hpage
  rcases mem_append.1 hpage with hpage | hpage
  · exact (hids id).1 (mem_append_left _ (mem_flatten.2 ⟨page, hpage, hid⟩))
  · rw [List.mem_singleton.1 hpage] at hid
    refine (hids id).1 (mem_append_right _ ?_)
    rcases mem_append.1 hid with hid | hid
    · exact hid
    · -- the copies are of the first node
      obtain ⟨x, xs, rfl⟩ := exists_cons_of_ne_nil hne
      rw [eq_of_mem_replicate hid]
      exact mem_cons_self

/-- The lists of all pages are made, and each page gets the neighbours it should. -/
theorem neighbours_of_pages (b : PageBuild D) : ∃ fuel ls after,
    b.allLists fuel = some (ls, after) ∧ ls.length = b.merged.mergedNodes.length ∧
      ∀ i page, b.merged.mergedNodes[i]? = some page → ∃ ls' mid l mid',
        b.listPages fuel (b.merged.mergedNodes.take i) ∅ = some (ls', mid) ∧
          b.pageLists fuel mid page = some (l, mid') ∧ ls[i]? = some l ∧
          b.Neighbours page mid' l := by
  obtain ⟨fuel, ls, after, h, hall⟩ := exists_allLists b
  refine ⟨fuel, ls, after, h, hall.length, fun i page hi => ?_⟩
  obtain ⟨ls', mid, l, mid', hpre, hl, hget⟩ := listPages_at h hi
  exact ⟨ls', mid, l, mid', hpre, hl, hget,
    neighbours_of_pageLists (page_lt (mem_of_getElem? hi)) hl⟩

end PageBuild

end DiskANNEval.PageANN
