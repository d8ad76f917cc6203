import DiskANNEval.PageANN.PageLists

/-!
# PageFilling — the lists of a page are complete and have room

A neighbour that is added gets a new id, which is the place of a node in the pages.  The rounds end,
the cached neighbours of a page stay in `cached_PQ_nodes`, and where the page degree has room in the
sector, what the phases add has room as well.
-/

namespace DiskANNEval.PageANN

open Lib List

variable {D : Type}

namespace PageBuild

/-! ### New ids -/

variable (b : PageBuild D)

theorem ok : MergedPages.Ok b.merge b.merged := by
  obtain ⟨fuel, h⟩ := b.merges
  exact ok_of_mergeNodesIntoPage h

variable {b}

theorem pageOf_spec {id : ℕ} (hid : id < b.merge.npts) :
    id ∈ b.pageOf id ∧ b.newId id = b.merged.originalToNew id := by
  have hok := b.ok
  obtain ⟨page, slot, hpage, hslot, hnew⟩ := hok.slot id hid
  have hpageOf : b.pageOf id = page := by
    rw [pageOf, hpage]
    rfl
  have hmem : id ∈ page := mem_of_getElem? hslot
  refine ⟨hpageOf ▸ hmem, ?_⟩
  obtain ⟨pages, last, hmerged, hne, hnodup, hids⟩ := hok.once
  have hlen : page.length = b.merge.nnodesPerSector := hok.slots page (mem_of_getElem? hpage)
  have hlt : slot < b.merge.nnodesPerSector := by
    rw [← hlen]
    exact (List.getElem?_eq_some_iff.1 hslot).1
  -- both places are among the first `npts`, where no id comes twice
  have hle : page.idxOf id ≤ slot := by
    by_contra hgt
    have hne := not_of_lt_findIdx (Nat.lt_of_not_le hgt)
    rw [(List.getElem?_eq_some_iff.1 hslot).2] at hne
    exact absurd hne (by simp)
  set p := b.merged.nodeToPage id with hp
  have hlast : (pages.flatten ++ last).length = b.merge.npts := by
    rw [← toFinset_card_of_nodup hnodup, ← Finset.card_range b.merge.npts]
    congr 1
    ext i
    rw [mem_toFinset, hids, Finset.mem_range]
  have hget : ∀ j, j < b.merge.nnodesPerSector → page[j]? = some id →
      p * b.merge.nnodesPerSector + j < b.merge.npts →
      (pages.flatten ++ last)[p * b.merge.nnodesPerSector + j]? = some id := by
    intro j hj hpj hjlt
    have hflat := getElem?_flatten_pages hok.slots hpage hj
    rw [hmerged, flatten_append, flatten_singleton, ← append_assoc,
      getElem?_append_left (by rw [hlast]; exact hjlt)] at hflat
    rw [hflat, hpj]
  have hnewlt : b.merged.originalToNew id < b.merge.npts := by
    rw [← hok.length]
    exact (List.getElem?_eq_some_iff.1 (hok.inverse id hid)).1
  rw [hnew] at hnewlt
  have hidx : page[page.idxOf id]? = some id := getElem?_idxOf hmem
  have heq := hnodup.getElem_inj_iff.1
    (((List.getElem?_eq_some_iff.1 (hget _ (by omega) hidx (by omega))).2).trans
      ((List.getElem?_eq_some_iff.1 (hget slot hlt hslot hnewlt)).2).symm)
  rw [newId, hpageOf, hnew, nnodesPerSector, heq, Nat.mod_eq_of_lt]
  exact hnewlt.trans b.merge.npts_lt

/-! ### Rounds -/

/-- The new ids of the neighbours are in range, which is all that a round needs of them. -/
def Known (b : PageBuild D) (ids : List ℕ) : Prop := ∀ id ∈ ids, id < b.merge.npts

theorem Known.tail {id : ℕ} {ids : List ℕ} (h : b.Known (id :: ids)) : b.Known ids :=
  fun i hi => h i (mem_cons_of_mem id hi)

variable {cachedPq : Finset ℕ} {phase : Phase} {l l' : PageLists}

/-- A neighbour may be added to the lists. -/
inductive Adds (b : PageBuild D) (cachedPq : Finset ℕ) (phase : Phase) (l l' : PageLists) : Prop
  | none (hc : l'.cached = l.cached) (hu : l'.uncached = l.uncached)
  | cached (id : ℕ) (hid : id < b.merge.npts) (hmem : b.newId id ∈ cachedPq)
      (hroom : phase.hasRoom l true = true) (hc : l'.cached = l.cached ++ [b.newId id])
      (hu : l'.uncached = l.uncached)
  | uncached (id : ℕ) (hid : id < b.merge.npts) (hroom : phase.hasRoom l false = true)
      (hc : l'.cached = l.cached) (hu : l'.uncached = l.uncached ++ [b.newId id])

theorem takeNbr_spec (cachedPq : Finset ℕ) (phase : Phase) (l : PageLists) {ids : List ℕ}
    (hids : b.Known ids) :
    ∃ l' ids', b.takeNbr cachedPq phase l ids = some (l', ids') ∧ b.Known ids' ∧
      b.Adds cachedPq phase l l' ∧ l.size ≤ l'.size ∧ l'.size + ids'.length ≤ l.size + ids.length := by
  induction ids generalizing l with
  | nil => exact ⟨l, [], rfl, hids, .none rfl rfl, le_rfl, le_rfl⟩
  | cons id ids ih =>
    have hid : id < b.merge.npts := hids id mem_cons_self
    rw [takeNbr]
    split_ifs with hins hcheck hroom hmem
    · obtain ⟨l', ids', heq, hknown, hadds, hle, hlen⟩ := ih l hids.tail
      refine ⟨l', ids', heq, hknown, hadds, hle, ?_⟩
      rw [length_cons]
      omega
    · rw [Bool.and_eq_true, decide_eq_true_eq] at hcheck
      exact absurd (pageOf_spec hid).1 hcheck.2
    · refine ⟨_, ids, rfl, hids.tail, .cached id hid hmem ?_ rfl rfl, ?_, ?_⟩
      · rwa [decide_eq_true hmem] at hroom
      · show _ ≤ (l.cached ++ [b.newId id]).length + l.uncached.length
        rw [length_append, PageLists.size]
        omega
      · show (l.cached ++ [b.newId id]).length + l.uncached.length + _ ≤ _
        rw [length_append, PageLists.size, length_singleton, length_cons]
        omega
    · refine ⟨_, ids, rfl, hids.tail, .uncached id hid ?_ rfl rfl, ?_, ?_⟩
      · rwa [decide_eq_false hmem] at hroom
      · show _ ≤ l.cached.length + (l.uncached ++ [b.newId id]).length
        rw [length_append, PageLists.size]
        omega
      · show l.cached.length + (l.uncached ++ [b.newId id]).length + _ ≤ _
        rw [length_append, PageLists.size, length_singleton, length_cons]
        omega
    · obtain ⟨l', ids', heq, hknown, hadds, hle, hlen⟩ :=
        ih { l with inserted := insert id l.inserted } hids.tail
      refine ⟨l', ids', heq, hknown, ?_, hle, ?_⟩
      · cases hadds with
        | none hc hu => exact .none hc hu
        | cached id hid hmem hroom hc hu => exact .cached id hid hmem hroom hc hu
        | uncached id hid hroom hc hu => exact .uncached id hid hroom hc hu
      · rw [length_cons]
        exact hlen.trans (Nat.add_le_add_left (Nat.le_succ _) _)

/-- `I` is kept by an addition to lists that are not full. -/
def Phase.Keeps (b : PageBuild D) (cachedPq : Finset ℕ) (phase : Phase) (I : PageLists → Prop) : Prop :=
  ∀ l l', I l → phase.isFull l = false → b.Adds cachedPq phase l l' → I l'

theorem takeRound_spec (cachedPq : Finset ℕ) {left : List (List ℕ)} (hleft : ∀ ids ∈ left, b.Known ids)
    (hfull : phase.isFull l = false) :
    ∃ l' left', b.takeRound cachedPq phase l left = some (l', left') ∧
      (∀ ids ∈ left', b.Known ids) ∧ l.size ≤ l'.size ∧
      l'.size + left'.flatten.length ≤ l.size + left.flatten.length ∧
      ∀ I, Phase.Keeps b cachedPq phase I → I l → I l' := by
  induction left generalizing l with
  | nil => exact ⟨l, [], rfl, hleft, le_rfl, le_rfl, fun I _ h => h⟩
  | cons ids left ih =>
    obtain ⟨l₁, ids₁, heq, hknown, hadds, hle, hlen⟩ :=
      takeNbr_spec cachedPq phase l (hleft ids mem_cons_self)
    rw [takeRound, heq]
    show ∃ l' left', (if phase.isFull l₁ = true then some (l₁, ids₁ :: left) else _) = _ ∧ _
    have hrest : ∀ ids ∈ left, b.Known ids := fun ids hi => hleft ids (mem_cons_of_mem _ hi)
    split_ifs with hfull₁
    · refine ⟨l₁, ids₁ :: left, rfl, fun ids hi => ?_, hle, ?_, fun I hI hl => hI l l₁ hl hfull hadds⟩
      · rcases mem_cons.1 hi with rfl | hi
        · exact hknown
        · exact hrest ids hi
      · rw [flatten_cons, flatten_cons, length_append, length_append]
        omega
    · obtain ⟨l₂, left₂, heq₂, hknown₂, hle₂, hlen₂, hI₂⟩ := ih hrest (by simpa using hfull₁)
      rw [heq₂]
      refine ⟨l₂, ids₁ :: left₂, rfl, fun ids hi => ?_, hle.trans hle₂, ?_,
        fun I hI hl => hI₂ I hI (hI l l₁ hl hfull hadds)⟩
      · rcases mem_cons.1 hi with rfl | hi
        · exact hknown
        · exact hknown₂ ids hi
      · rw [flatten_cons, flatten_cons, length_append, length_append]
        omega

variable {fuel : ℕ}

theorem exists_fill (cachedPq : Finset ℕ) (phase : Phase) {s : ListFilling}
    (hs : ∀ ids ∈ s.left, b.Known ids) (hfuel : s.left.flatten.length + 1 ≤ fuel) :
    ∃ s', b.fill cachedPq phase fuel s = some s' ∧ (∀ ids ∈ s'.left, b.Known ids) ∧
      s'.left.flatten.length ≤ s.left.flatten.length ∧
      ∀ I, Phase.Keeps b cachedPq phase I → I s.lists → I s'.lists := by
  obtain ⟨s', heq, ⟨h₁, h₂, h₃⟩, -⟩ := exists_whileM
    (fun s => !phase.isFull s.lists && s.hasLeftNbrs) (b.fillPass cachedPq phase)
    (fun s' => (∀ ids ∈ s'.left, b.Known ids) ∧ s'.left.flatten.length ≤ s.left.flatten.length ∧
      ∀ I, Phase.Keeps b cachedPq phase I → I s.lists → I s'.lists)
    (fun s => s.left.flatten.length + if s.hasLeftNbrs then 1 else 0)
    (fun s₁ hs₁ hc => by
      rw [Bool.and_eq_true, Bool.not_eq_true'] at hc
      obtain ⟨l', left', htake, hknown, hle, hlen, hI⟩ :=
        takeRound_spec cachedPq hs₁.1 hc.1
      refine ⟨_, by rw [fillPass, htake]; rfl, ⟨hknown, ?_, fun I hk hs => hI I hk (hs₁.2.2 I hk hs)⟩, ?_⟩
      · have hlen₁ := hs₁.2.1
        show left'.flatten.length ≤ _
        omega
      · show left'.flatten.length + (if decide (l'.size ≠ s₁.lists.size) = true then 1 else 0) < _
        rw [hc.2, if_pos rfl]
        split_ifs with hne
        · rw [decide_eq_true_eq] at hne
          omega
        · omega)
    ⟨hs, le_rfl, fun I _ h => h⟩ (by split_ifs <;> omega)
  exact ⟨s', heq, h₁, h₂, h₃⟩

/-! ### The lists of a page -/

theorem sub64_eq {x y : ℕ} (h : y ≤ x) (hx : x < 2 ^ 64) : sub64 x y = x - y := by
  unfold sub64
  rw [Nat.mod_eq_of_lt hx, Nat.mod_eq_of_lt (h.trans_lt hx), Nat.add_comm, Nat.add_sub_assoc h,
    Nat.add_mod_left, Nat.mod_eq_of_lt (by omega)]

variable (b) in
/-- The bytes of a page with that many neighbours. -/
def pageBytes (c u : ℕ) : ℕ :=
  b.nnodesPerSector * b.nodeLen + 2 * 2 + c * 4 + u * (4 + b.pqSize)

theorem spareSpace_eq {c u : ℕ} (h : b.pageBytes c u ≤ sectorLen) :
    b.spareSpace c u = sectorLen - b.pageBytes c u := by
  have hlen : sectorLen < 2 ^ 64 := by norm_num [sectorLen]
  unfold pageBytes at h ⊢
  unfold spareSpace spaceForNbrs
  rw [sub64_eq (by omega) hlen, sub64_eq (y := 2 * 2) (by omega)
    (by omega), sub64_eq (y := c * 4) (by omega) (by omega), sub64_eq (by omega) (by omega)]
  omega

variable (b) in
/-- The place of a node. -/
def IsNew (x : ℕ) : Prop := ∃ id < b.merge.npts, b.newId id = x

variable (b) in
/-- The lists of a page that was filled when `cached_PQ_nodes` was `cachedPq` or less. -/
structure Listed (cachedPq : Finset ℕ) (l : PageLists) : Prop where
  cached : ∀ x ∈ l.cached, x ∈ cachedPq ∧ b.IsNew x
  uncached : ∀ x ∈ l.uncached, b.IsNew x

theorem Listed.mono {cachedPq' : Finset ℕ} (h : b.Listed cachedPq l) (hsub : cachedPq ⊆ cachedPq') :
    b.Listed cachedPq' l :=
  ⟨fun x hx => ⟨hsub (h.cached x hx).1, (h.cached x hx).2⟩, h.uncached⟩

theorem listed_keeps : Phase.Keeps b cachedPq phase (b.Listed cachedPq) := by
  intro l l' h _ hadds
  cases hadds with
  | none hc hu => exact ⟨hc ▸ h.cached, hu ▸ h.uncached⟩
  | cached id hid hmem _ hc hu =>
    refine ⟨fun x hx => ?_, hu ▸ h.uncached⟩
    rw [hc] at hx
    rcases mem_append.1 hx with hx | hx
    · exact h.cached x hx
    · rw [mem_singleton.1 hx]
      exact ⟨hmem, id, hid, rfl⟩
  | uncached id hid _ hc hu =>
    refine ⟨hc ▸ h.cached, fun x hx => ?_⟩
    rw [hu] at hx
    rcases mem_append.1 hx with hx | hx
    · exact h.uncached x hx
    · exact ⟨id, hid, (mem_singleton.1 hx).symm⟩

theorem Adds.size_le (h : b.Adds cachedPq phase l l') : l'.size ≤ l.size + 1 := by
  unfold PageLists.size
  cases h with
  | none hc hu => rw [hc, hu]; omega
  | cached _ _ _ _ hc hu => rw [hc, hu, length_append, length_singleton]; omega
  | uncached _ _ _ hc hu => rw [hc, hu, length_append, length_singleton]; omega

theorem size_keeps :
    Phase.Keeps b cachedPq b.degreePhase fun l => l.size ≤ b.pageGraphDegree := by
  intro l l' _ hfull hadds
  have hlt : ¬ b.pageGraphDegree ≤ l.cached.length + l.uncached.length := of_decide_eq_false hfull
  have hle := hadds.size_le
  unfold PageLists.size at hle ⊢
  omega

theorem room_keeps : Phase.Keeps b cachedPq b.spacePhase
    fun l => b.pageBytes l.cached.length l.uncached.length ≤ sectorLen := by
  intro l l' h _ hadds
  have hspare := spareSpace_eq h
  cases hadds with
  | none hc hu => rwa [hc, hu]
  | cached _ _ _ hroom hc hu =>
    have hle : 4 ≤ b.spareSpace l.cached.length l.uncached.length := of_decide_eq_true hroom
    rw [hc, hu, length_append, length_singleton]
    unfold pageBytes at h hspare ⊢
    omega
  | uncached _ _ hroom hc hu =>
    have hle : 4 + b.pqSize ≤ b.spareSpace l.cached.length l.uncached.length :=
      of_decide_eq_true hroom
    rw [hc, hu, length_append, length_singleton]
    unfold pageBytes at h hspare ⊢
    rw [Nat.add_mul l.uncached.length 1]
    omega

theorem numTransfers_le : b.numTransfers l ≤ l.uncached.length := Nat.min_le_right _ _

theorem transfer_room (hfits : b.Fits b.pageGraphDegree b.nnodesPerSector)
    (h : l.size ≤ b.pageGraphDegree) :
    b.pageBytes (b.transfer l).cached.length (b.transfer l).uncached.length ≤ sectorLen := by
  have hroom := hfits.room
  have hc : (b.transfer l).cached.length = l.cached.length + b.numTransfers l := by
    show (l.cached ++ l.uncached.take _).length = _
    rw [length_append, List.length_take,
      Nat.min_eq_left numTransfers_le]
  have hu : (b.transfer l).uncached.length = l.uncached.length - b.numTransfers l :=
    length_drop
  have hsize : (b.transfer l).cached.length + (b.transfer l).uncached.length ≤ b.pageGraphDegree := by
    unfold numTransfers PageLists.size at *
    omega
  have huncached : (b.transfer l).uncached.length ≤ b.pageGraphDegree - b.targetCached := by
    unfold numTransfers PageLists.size targetCached at *
    omega
  have hpq := Nat.mul_le_mul_right b.pqSize huncached
  unfold PageBudget.overhead at hroom
  unfold pageBytes
  rw [Nat.add_mul] at hroom
  rw [Nat.mul_add]
  unfold targetCached at hpq
  rw [Nat.mul_comm (b.pageGraphDegree - _)] at hpq
  omega

theorem Listed.transfer (h : b.Listed cachedPq l) :
    b.Listed (b.cacheTransfers cachedPq l) (b.transfer l) := by
  refine ⟨fun x hx => ?_, fun x hx => h.uncached x (mem_of_mem_drop hx)⟩
  rcases mem_append.1 hx with hx | hx
  · exact ⟨Finset.mem_union_left _ (h.cached x hx).1, (h.cached x hx).2⟩
  · exact ⟨Finset.mem_union_right _ (mem_toFinset.2 hx), h.uncached x (mem_of_mem_take hx)⟩

variable (b) in
/-- What is known of a page that was filled, and of `cached_PQ_nodes` before and after it. -/
structure Filled (before after : Finset ℕ) (l : PageLists) : Prop where
  sub : before ⊆ after
  new : ∀ x ∈ after, x ∈ before ∨ b.IsNew x
  listed : b.Listed after l
  room : b.Fits b.pageGraphDegree b.nnodesPerSector →
    b.pageBytes l.cached.length l.uncached.length ≤ sectorLen

theorem exists_pageLists (before : Finset ℕ) {page : List ℕ}
    (hfuel : (page.flatMap b.merge.nbrs).length + 1 ≤ fuel) :
    ∃ l after, b.pageLists fuel before page = some (l, after) ∧ b.Filled before after l := by
  have hknown : ∀ ids ∈ page.map b.merge.nbrs, b.Known ids := by
    intro ids hids
    obtain ⟨id, -, rfl⟩ := mem_map.1 hids
    exact b.merge.nbrs_lt id
  have hempty : b.Listed before ⟨[], [], page.toFinset⟩ :=
    ⟨fun x hx => absurd hx not_mem_nil, fun x hx => absurd hx not_mem_nil⟩
  obtain ⟨s₁, h₁, hknown₁, hlen₁, hI₁⟩ := exists_fill before b.degreePhase
    (s := ⟨⟨[], [], page.toFinset⟩, page.map b.merge.nbrs, true⟩) hknown hfuel
  have hlisted₁ := hI₁ _ listed_keeps hempty
  have hsize₁ := hI₁ _ size_keeps (Nat.zero_le _)
  obtain ⟨s₂, h₂, -, -, hI₂⟩ := exists_fill (b.cacheTransfers before s₁.lists) b.spacePhase
    (s := { s₁ with lists := b.transfer s₁.lists }) hknown₁
    ((Nat.succ_le_succ hlen₁).trans hfuel)
  refine ⟨s₂.lists, b.cacheTransfers before s₁.lists, ?_, ?_⟩
  · rw [pageLists, h₁]
    show (b.fill _ _ _ _).bind _ = _
    rw [h₂]
    rfl
  · refine ⟨Finset.subset_union_left, fun x hx => ?_, hI₂ _ listed_keeps hlisted₁.transfer,
      fun hfits => hI₂ _ room_keeps (transfer_room hfits hsize₁)⟩
    rcases Finset.mem_union.1 hx with hx | hx
    · exact Or.inl hx
    · exact Or.inr (hlisted₁.uncached x (mem_of_mem_take (mem_toFinset.1 hx)))

/-! ### All pages -/

variable (b) in
/-- What is known of the lists of all pages. -/
structure AllFilled (pages : List (List ℕ)) (before after : Finset ℕ) (ls : List PageLists) :
    Prop where
  length : ls.length = pages.length
  sub : before ⊆ after
  new : ∀ x ∈ after, x ∈ before ∨ b.IsNew x
  listed : ∀ l ∈ ls, b.Listed after l
  room : b.Fits b.pageGraphDegree b.nnodesPerSector →
    ∀ l ∈ ls, b.pageBytes l.cached.length l.uncached.length ≤ sectorLen

theorem exists_listPages (before : Finset ℕ) {pages : List (List ℕ)}
    (hfuel : (pages.flatten.flatMap b.merge.nbrs).length + 1 ≤ fuel) :
    ∃ ls after, b.listPages fuel pages before = some (ls, after) ∧
      b.AllFilled pages before after ls := by
  induction pages generalizing before with
  | nil =>
    exact ⟨[], before, rfl, rfl, subset_rfl, fun x hx => Or.inl hx,
      fun l hl => absurd hl not_mem_nil, fun _ l hl => absurd hl not_mem_nil⟩
  | cons page pages ih =>
    rw [flatten_cons, flatMap_append, length_append] at hfuel
    obtain ⟨l, mid, hl, hfilled⟩ := exists_pageLists before
      (by omega : (page.flatMap b.merge.nbrs).length + 1 ≤ fuel)
    obtain ⟨ls, after, hls, hall⟩ := ih mid (by omega)
    refine ⟨l :: ls, after, ?_, ?_⟩
    · rw [listPages, hl]
      show (b.listPages _ _ _).bind _ = _
      rw [hls]
      rfl
    · refine ⟨?_, hfilled.sub.trans hall.sub, fun x hx => ?_, fun l' hl' => ?_, fun hfits l' hl' => ?_⟩
      · rw [length_cons, length_cons, hall.length]
      · rcases hall.new x hx with hx | hx
        · exact hfilled.new x hx
        · exact Or.inr hx
      · rcases mem_cons.1 hl' with rfl | hl'
        · exact hfilled.listed.mono hall.sub
        · exact hall.listed l' hl'
      · rcases mem_cons.1 hl' with rfl | hl'
        · exact hfilled.room hfits
        · exact hall.room hfits l' hl'

theorem pageLists_mono {fuel' : ℕ} (hle : fuel ≤ fuel') {before : Finset ℕ} {page : List ℕ}
    {x : PageLists × Finset ℕ} (h : b.pageLists fuel before page = some x) :
    b.pageLists fuel' before page = some x := by
  obtain ⟨s₁, h₁, h⟩ := Option.bind_eq_some_iff.1 h
  obtain ⟨s₂, h₂, h⟩ := Option.bind_eq_some_iff.1 h
  exact Option.bind_eq_some_iff.2 ⟨s₁, whileM_mono hle h₁,
    Option.bind_eq_some_iff.2 ⟨s₂, whileM_mono hle h₂, h⟩⟩

theorem listPages_mono {fuel' : ℕ} (hle : fuel ≤ fuel') {before : Finset ℕ} {pages : List (List ℕ)}
    {x : List PageLists × Finset ℕ} (h : b.listPages fuel pages before = some x) :
    b.listPages fuel' pages before = some x := by
  induction pages generalizing before x with
  | nil => exact h
  | cons page pages ih =>
    obtain ⟨y, hy, h⟩ := Option.bind_eq_some_iff.1 h
    obtain ⟨z, hz, h⟩ := Option.bind_eq_some_iff.1 h
    exact Option.bind_eq_some_iff.2 ⟨y, pageLists_mono hle hy,
      Option.bind_eq_some_iff.2 ⟨z, ih hz, h⟩⟩

theorem exists_allLists (b : PageBuild D) : ∃ fuel ls after, b.allLists fuel = some (ls, after) ∧
    b.AllFilled b.merged.mergedNodes ∅ after ls :=
  ⟨_, exists_listPages ∅ le_rfl⟩

theorem allFilled_of_allLists {ls : List PageLists} {after : Finset ℕ}
    (h : b.allLists fuel = some (ls, after)) : b.AllFilled b.merged.mergedNodes ∅ after ls := by
  obtain ⟨fuel', ls', after', h', hall⟩ := exists_allLists b
  have heq := (listPages_mono (Nat.le_max_left fuel fuel') h).symm.trans
    (listPages_mono (Nat.le_max_right fuel fuel') h')
  cases heq
  exact hall

end PageBuild

end DiskANNEval.PageANN
