import DiskANNEval.PipeANN.AllocLoc

/-!
# AllocReads — `page_need_to_read` of `alloc_loc`

An insert writes the pages of its new locations as a whole, so it has to read those of them that
hold records.  `alloc_loc` says which: a hinted page is left out only if all of it is free, the pages
of the queue are free, and new locations begin a new page.  So a page that is not read holds no
record (`page_free_of_not_read`).
-/

namespace DiskANNEval.PipeANN

open List

variable {L : PageLayout} {n : ℕ} {v : List Slot}

/-- Of the locations taken so far each is on a page that is read, or that was free in `v`. -/
structure Covers (L : PageLayout) (v : List Slot) (a : AllocState) : Prop where
  free : ∀ l : ℕ, a.loc2id[l]? = some .invalid → v[l]? = some .invalid
  page : ∀ l ∈ a.ret, L.locSectorNo l ∈ a.needToRead ∨
    ∀ l' ∈ L.pageLocs (L.locSectorNo l), v[l']? = some .invalid

/-- `a'` has more locations of `is`, which were free in `a`, and the same pages to read. -/
structure TakesFrom (is : List ℕ) (a a' : AllocState) : Prop where
  reads_eq : a'.needToRead = a.needToRead
  free : ∀ l : ℕ, a'.loc2id[l]? = some .invalid → a.loc2id[l]? = some .invalid
  ret : ∀ l ∈ a'.ret, l ∈ a.ret ∨ l ∈ is ∧ a.loc2id[l]? = some .invalid

theorem TakesFrom.refl (is : List ℕ) (a : AllocState) : TakesFrom is a a :=
  ⟨rfl, fun _ h => h, fun _ h => .inl h⟩

variable {is : List ℕ}

theorem TakesFrom.mono {is' : List ℕ} {a a' : AllocState} (h : TakesFrom is a a')
    (hsub : is ⊆ is') : TakesFrom is' a a' :=
  ⟨h.reads_eq, h.free, fun l hl => (h.ret l hl).imp_right fun hl => ⟨hsub hl.1, hl.2⟩⟩

theorem TakesFrom.trans {a b c : AllocState} (h : TakesFrom is a b) (h' : TakesFrom is b c) :
    TakesFrom is a c := by
  refine ⟨h'.reads_eq.trans h.reads_eq, fun l hl => h.free l (h'.free l hl), fun l hl => ?_⟩
  obtain hl | ⟨hmem, hfree⟩ := h'.ret l hl
  · exact h.ret l hl
  · exact .inr ⟨hmem, h.free l hfree⟩

theorem takesFrom_take {a : AllocState} {i : ℕ} (h : a.loc2id[i]? = some .invalid) :
    TakesFrom [i] a (a.take i) := by
  have ht := Takes.take h
  refine ⟨rfl, fun l hl => ?_, fun l hl => ?_⟩
  · by_cases hi : l ∈ [i]
    · rw [mem_singleton.1 hi, h]
    · rwa [ht.others l hi] at hl
  · rw [ht.ret_eq, mem_append] at hl
    exact hl.imp_right fun hl => ⟨hl, ht.free l hl⟩

variable {done : Bool}

theorem takesFrom_takeEmpty {a a' : AllocState} (h : takeEmpty n is a = .ok (a', done)) :
    TakesFrom is a a' := by
  induction is generalizing a with
  | nil =>
    cases h
    exact .refl _ _
  | cons i is ih =>
    rw [takeEmpty] at h
    split at h
    · cases h
    · rename_i hfree
      have htake := @TakesFrom.mono _ (i :: is) _ _ (takesFrom_take hfree) (by simp)
      split_ifs at h
      · cases h
        exact htake
      · exact htake.trans ((ih h).mono (subset_cons_self i is))
    · cases h

theorem takesFrom_takeHoles (is : List ℕ) (a : AllocState) :
    TakesFrom is a (takeHoles n is a).1 := by
  induction is generalizing a with
  | nil => exact .refl _ _
  | cons i is ih =>
    rw [takeHoles]
    split_ifs with hfree
    · exact (takesFrom_take hfree).mono (by simp)
    · exact ((takesFrom_take hfree).mono (by simp)).trans
        ((ih _).mono (subset_cons_self i is))
    · exact (ih a).mono (subset_cons_self i is)

variable {p l : ℕ}

theorem Covers.takesFrom {a b a' : AllocState} (h : Covers L v a)
    (hfree : ∀ l : ℕ, b.loc2id[l]? = some .invalid → a.loc2id[l]? = some .invalid)
    (hret : b.ret = a.ret) (hreads : ∀ q ∈ a.needToRead, q ∈ b.needToRead)
    (ht : TakesFrom (L.pageLocs p) b a')
    (hp : ∀ l ∈ L.pageLocs p, b.loc2id[l]? = some .invalid → L.locSectorNo l ∈ b.needToRead ∨ ∀ l' ∈ L.pageLocs (L.locSectorNo l), v[l']? = some .invalid) :
    Covers L v a' := by
  refine ⟨fun l hl => h.free l (hfree l (ht.free l hl)), fun l hl => ?_⟩
  rw [ht.reads_eq]
  obtain hl | ⟨hmem, hl⟩ := ht.ret l hl
  · rw [hret] at hl
    exact (h.page l hl).imp_left (hreads _)
  · exact hp l hmem hl

/-- The pages are those of locations. -/
def SectorsOk (L : PageLayout) (pages : List ℕ) : Prop := ∀ p ∈ pages, ∃ loc, p = L.locSectorNo loc

theorem locSectorNo_of_mem {loc : ℕ} (hp : p = L.locSectorNo loc) (hl : l ∈ L.pageLocs p) :
    L.locSectorNo l = p := by
  subst hp
  exact PageLayout.mem_pageLocs.1 hl

theorem covers_popEmptyPages {pages pages' : List ℕ} {a a' : AllocState} (hs : SectorsOk L pages)
    (hq : ∀ p ∈ pages, ∀ l ∈ L.pageLocs p, v[l]? = some .invalid) (h : Covers L v a)
    (heq : popEmptyPages L n pages a = .ok (a', pages', done)) : Covers L v a' := by
  induction pages generalizing a with
  | nil =>
    cases heq
    exact h
  | cons p ps ih =>
    rw [SectorsOk, forall_mem_cons] at hs
    rw [forall_mem_cons] at hq
    obtain ⟨loc, hp⟩ := hs.1
    simp only [popEmptyPages] at heq
    cases hte : takeEmpty n (L.pageLocs p) a with
    | error f =>
      rw [hte] at heq
      cases heq
    | ok r =>
      obtain ⟨b, d⟩ := r
      rw [hte] at heq
      have hb : Covers L v b := h.takesFrom (fun _ hl => hl) rfl (fun _ hq => hq)
        (takesFrom_takeEmpty hte) fun l hl _ => .inr (locSectorNo_of_mem hp hl ▸ hq.1)
      cases d with
      | true =>
        cases heq
        exact hb
      | false => exact ih hs.2 hq.2 hb heq

theorem free_of_countP {a : AllocState} (hp : L.locSectorNo l = p)
    (hfree : a.loc2id[l]? = some Slot.invalid)
    (hcnt : ¬ (L.pageLocs p).countP (fun i => a.loc2id[i]? = some .invalid) < L.nnodesPerSector) :
    ∀ l' ∈ L.pageLocs p, a.loc2id[l']? = some .invalid := by
  intro l' hl'
  by_cases hn : L.nnodesPerSector = 0
  · have hl : l ∈ L.pageLocs p := hp ▸ L.self_mem_pageLocs l
    rw [PageLayout.pageLocs, if_pos hn, range'_one, mem_singleton] at hl hl'
    rw [hl', ← hl]
    exact hfree
  · have hlen : (L.pageLocs p).length = L.nnodesPerSector := by
      rw [PageLayout.pageLocs, length_range', if_neg hn]
    have hle := countP_le_length (p := fun i => decide (a.loc2id[i]? = some Slot.invalid))
      (l := L.pageLocs p)
    have hall := countP_eq_length.1 (le_antisymm hle (by omega)) l' hl'
    simpa using hall

theorem covers_takeHoles {loc : ℕ} {a : AllocState} {reads : List ℕ} (h : Covers L v a)
    (hp : p = L.locSectorNo loc) (hsub : ∀ q ∈ a.needToRead, q ∈ reads)
    (hread : (L.pageLocs p).countP (fun i => a.loc2id[i]? = some .invalid) < L.nnodesPerSector → p ∈ reads) :
    Covers L v (takeHoles n (L.pageLocs p) { a with needToRead := reads }).1 := by
  refine h.takesFrom (b := { a with needToRead := reads }) (fun _ hl => hl) rfl hsub
    (takesFrom_takeHoles _ _) fun l hl hfree => ?_
  have hsec := locSectorNo_of_mem hp hl
  rw [hsec]
  by_cases hlt : (L.pageLocs p).countP (fun i => a.loc2id[i]? = some .invalid) < L.nnodesPerSector
  · exact .inl (hread hlt)
  · exact .inr fun l' hl' => h.free l' (free_of_countP hsec hfree hlt l' hl')

theorem covers_useHintPages {hintPages : List ℕ} {a a' : AllocState} (hs : SectorsOk L hintPages)
    (h : Covers L v a) (heq : useHintPages L n hintPages a = .ok (a', done)) : Covers L v a' := by
  induction hintPages generalizing a with
  | nil =>
    cases heq
    exact h
  | cons p ps ih =>
    rw [SectorsOk, forall_mem_cons] at hs
    obtain ⟨loc, hp⟩ := hs.1
    -- the holes of the page are taken, and the page is among `reads` unless all of it is free
    have hnext {reads : List ℕ} (hsub : ∀ q ∈ a.needToRead, q ∈ reads)
        (hread : (L.pageLocs p).countP (fun i => a.loc2id[i]? = some .invalid) <
          L.nnodesPerSector → p ∈ reads)
        (hgo : ∀ b full, takeHoles n (L.pageLocs p) { a with needToRead := reads } = (b, full) →
          a' = b ∨ useHintPages L n ps b = .ok (a', done)) : Covers L v a' := by
      have hb := covers_takeHoles (n := n) h hp hsub hread
      obtain rfl | heq := hgo _ _ rfl
      · exact hb
      · exact ih hs.2 hb heq
    rw [useHintPages] at heq
    dsimp only at heq
    split_ifs at heq with hout hthr hlt
    · exact ih hs.2 h heq
    · refine hnext (fun _ => mem_insert_of_mem) (fun _ => mem_insert_self) ?_
      intro b full hb
      rw [hb] at heq
      cases full with
      | false => exact .inr heq
      | true => exact .inl (Prod.mk.inj (Except.ok.inj heq)).1.symm
    · refine hnext (fun _ hq => hq) (fun hlt' => absurd hlt' hlt) ?_
      intro b full hb
      rw [hb] at heq
      cases full with
      | false => exact .inr heq
      | true => exact .inl (Prod.mk.inj (Except.ok.inj heq)).1.symm

theorem page_free_of_not_read {m m' : LocMaps} {hintPages locs reads : List ℕ} (hm : m.Wf L)
    (hs : SectorsOk L hintPages) (heq : allocLoc L n m hintPages = .ok (m', locs, reads))
    (hl : l ∈ locs) (hread : L.locSectorNo l ∉ reads) {l' : ℕ} (hlt : l' < m.curLoc)
    (hpage : L.locSectorNo l' = L.locSectorNo l) : m.loc2id[l']? = some .invalid := by
  have hmem : l' ∈ L.pageLocs (L.locSectorNo l) := PageLayout.mem_pageLocs.2 hpage
  have hstart : Covers L m.loc2id ⟨m.loc2id, [], []⟩ := ⟨fun _ h => h, by simp⟩
  have hpages : SectorsOk L m.emptyPages := fun p hp =>
    (hm.queue.page p hp).imp fun _ h => h.2
  have done_of {a : AllocState} (hc : Covers L m.loc2id a) (hl : l ∈ a.ret)
      (hread : L.locSectorNo l ∉ a.needToRead) : m.loc2id[l']? = some .invalid :=
    ((hc.page l hl).resolve_left hread) l' hmem
  simp only [allocLoc, bind, Except.bind] at heq
  split at heq
  · cases heq
  · rename_i r hpop
    obtain ⟨a1, pages, done⟩ := r
    have hc1 := covers_popEmptyPages hpages hm.queue.free hstart hpop
    split_ifs at heq
    · cases heq
      exact done_of hc1 hl hread
    · split at heq
      · cases heq
      · rename_i r hhint
        have hc2 := covers_useHintPages hs hc1 hhint
        split_ifs at heq
        · cases heq
          exact done_of hc2 hl hread
        · split at heq
          · cases heq
          · split at heq
            · cases heq
            · cases heq
              obtain hl | hl := mem_append.1 hl
              · exact done_of hc2 hl hread
              · -- a new location is on no page that begins below `curLoc`
                rw [mem_range'_1] at hl
                have := PageLayout.pageLocs_locSectorNo_lt hm.aligned hlt
                  (PageLayout.mem_pageLocs.2 hpage.symm)
                omega

end DiskANNEval.PipeANN
