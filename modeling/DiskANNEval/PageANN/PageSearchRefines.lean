import DiskANNEval.AiSAQ.PriorityQueueRuns
import DiskANNEval.PageANN.PageSearch

/-!
# PageSearchRefines — `linux_page_search` refines `page_search`

The exact distances of a page are only read after the search, so the two loops run in step: in front
of a pass `linux_page_search` lacks the distances of the pages that it still holds, and has everything
else (`Lags`).  When the loops end it catches up.
-/

namespace DiskANNEval.PageANN

open AiSAQ Lib List Option

variable {D : Type}

/-! ### Sorting -/

theorem insertionSort_eq_of_perm {α : Type*} {r : α → α → Prop} [DecidableRel r] {S : α → Prop}
    (htotal : ∀ a b, S a → S b → r a b ∨ r b a)
    (htrans : ∀ a b c, S a → S b → S c → r a b → r b c → r a c)
    (hanti : ∀ a b, S a → S b → r a b → r b a → a = b) {l l' : List α} (hS : ∀ x ∈ l, S x)
    (h : l.Perm l') : l.insertionSort r = l'.insertionSort r := by
  let r' : {x // S x} → {x // S x} → Prop := fun a b => r a b
  have : Std.Total r' := ⟨fun a b => htotal a b a.2 b.2⟩
  have : IsTrans _ r' := ⟨fun a b c => htrans a b c a.2 b.2 c.2⟩
  have hpair : ∀ l : List α, (∀ x ∈ l, S x) → (l.insertionSort r).Pairwise r := by
    intro l hl
    have hmap : (l.attachWith S hl).map Subtype.val = l := attachWith_map_subtype_val hl
    rw [← hmap, ← map_insertionSort r' r Subtype.val _ fun _ _ _ _ => Iff.rfl,
      pairwise_map]
    exact pairwise_insertionSort r' _
  have hS' : ∀ x ∈ l', S x := fun x hx => hS x (h.mem_iff.2 hx)
  refine Perm.eq_of_pairwise (fun a b ha hb => ?_) (hpair l hS) (hpair l' hS') ?_
  · exact hanti a b (hS a ((mem_insertionSort r).1 ha)) (hS' b ((mem_insertionSort r).1 hb))
  · exact (perm_insertionSort r l).trans (h.trans (perm_insertionSort r l').symm)

/-- The distances in `S` are ordered, and those that are `==` are the same. -/
structure LinearOn (fl : FloatOps D) (S : D → Prop) : Prop extends fl.OrderedOn S where
  eq_of_eq : ∀ a b, S a → S b → fl.eq a b = true → a = b

theorem sortPool_map_eq {fl : FloatOps D} {S : D → Prop} (hfl : LinearOn fl S)
    {l l' : List (Neighbor D)} (hS : ∀ nbr ∈ l, S nbr.distance) (h : l.Perm l') :
    (sortPool fl l).map (fun nbr => (nbr.id, nbr.distance)) =
      (sortPool fl l').map fun nbr => (nbr.id, nbr.distance) := by
  let r : ℕ × D → ℕ × D → Prop := fun a b =>
    (fl.lt b.2 a.2 || (fl.eq b.2 a.2 && decide (b.1 < a.1))) = false
  have hr : ∀ l : List (Neighbor D), (sortPool fl l).map (fun nbr => (nbr.id, nbr.distance)) =
      (l.map fun nbr => (nbr.id, nbr.distance)).insertionSort r := by
    intro l
    exact map_insertionSort (fun a b : Neighbor D => b.lt fl a = false) r _ l
      fun _ _ _ _ => Iff.rfl
  have hiff : ∀ a b : ℕ × D, S a.2 → S b.2 →
      (r a b ↔ fl.lt b.2 a.2 = false ∧ (fl.lt a.2 b.2 = false → a.1 ≤ b.1)) := by
    intro a b ha hb
    show (_ || _) = false ↔ _
    rw [Bool.or_eq_false_iff, Bool.and_eq_false_iff, decide_eq_false_iff_not, Nat.not_lt]
    refine and_congr_right fun hlt => ?_
    constructor
    · rintro (heq | hle) hlt'
      · rw [(hfl.eq_iff _ _ hb ha).2 ⟨hlt, hlt'⟩] at heq
        cases heq
      · exact hle
    · intro hle
      cases hlt' : fl.lt a.2 b.2 with
      | false => exact Or.inr (hle hlt')
      | true =>
        refine Or.inl ?_
        by_contra heq
        rw [((hfl.eq_iff _ _ hb ha).1 (by simpa using heq)).2] at hlt'
        cases hlt'
  rw [hr, hr]
  refine insertionSort_eq_of_perm (S := fun x => S x.2) (fun a b ha hb => ?_)
    (fun a b c ha hb hc => ?_) (fun a b ha hb => ?_) (fun x hx => ?_) (h.map _)
  · rw [hiff a b ha hb, hiff b a hb ha]
    cases h₁ : fl.lt a.2 b.2 with
    | true => exact Or.inl ⟨hfl.asymm _ _ ha hb h₁, fun h => by cases h⟩
    | false =>
      cases h₂ : fl.lt b.2 a.2 with
      | true => exact Or.inr ⟨rfl, fun h => by cases h⟩
      | false =>
        obtain hle | hle := Nat.le_total a.1 b.1
        · exact Or.inl ⟨rfl, fun _ => hle⟩
        · exact Or.inr ⟨rfl, fun _ => hle⟩
  · rw [hiff a b ha hb, hiff b c hb hc, hiff a c ha hc]
    rintro ⟨h₁, h₁'⟩ ⟨h₂, h₂'⟩
    refine ⟨?_, fun h₃ => ?_⟩
    · by_contra h₃
      obtain h | h := hfl.connected _ _ _ hc hb ha (by simpa using h₃)
      · rw [h] at h₂
        cases h₂
      · rw [h] at h₁
        cases h₁
    · refine (h₁' ?_).trans (h₂' ?_)
      · by_contra h
        obtain h | h := hfl.connected _ _ _ ha hc hb (by simpa using h)
        · rw [h] at h₃
          cases h₃
        · rw [h] at h₂
          cases h₂
      · by_contra h
        obtain h | h := hfl.connected _ _ _ hb ha hc (by simpa using h)
        · rw [h] at h₁
          cases h₁
        · rw [h] at h₃
          cases h₃
  · rw [hiff a b ha hb, hiff b a hb ha]
    rintro ⟨h₁, h₁'⟩ ⟨h₂, h₂'⟩
    refine Prod.ext (Nat.le_antisymm (h₁' h₂) (h₂' h₁)) ?_
    exact hfl.eq_of_eq _ _ ha hb ((hfl.eq_iff _ _ ha hb).2 ⟨h₂, h₁⟩)
  · obtain ⟨nbr, hnbr, rfl⟩ := mem_map.1 hx
    exact hS nbr hnbr

/-! ### The pages that are held back -/

namespace PageIndex

variable (ix : PageIndex) (fl : FloatOps D) (q : PageQuery D)

/-- The exact distances of pages, one after the other. -/
def evalPages (pages : List (ℕ × List UInt8)) : Option (List (Neighbor D)) :=
  (pages.mapM fun page => ix.evalNodes q page.1 page.2).map List.flatten

theorem evalPages_cons (page : ℕ × List UInt8) (pages : List (ℕ × List UInt8)) :
    ix.evalPages q (page :: pages) =
      (ix.evalNodes q page.1 page.2).bind fun evals =>
        (ix.evalPages q pages).map fun rest => evals ++ rest := by
  unfold evalPages
  rw [mapM_cons]
  cases ix.evalNodes q page.1 page.2 with
  | none => rfl
  | some evals =>
    show Option.map _ (Option.bind _ _) = Option.map _ _
    cases pages.mapM fun page => ix.evalNodes q page.1 page.2 with
    | none => rfl
    | some rest => rfl

/-- The evaluations do not touch anything but `full_retset`. -/
def pushAll (s : Searching D) (evals : List (Neighbor D)) : Searching D :=
  { s with fullRetset := s.fullRetset ++ evals }

theorem pushAll_append (s : Searching D) (evals rest : List (Neighbor D)) :
    pushAll s (evals ++ rest) = pushAll (pushAll s evals) rest := by
  unfold pushAll
  rw [append_assoc]

theorem pushAll_nil (s : Searching D) : pushAll s [] = s := by
  unfold pushAll
  rw [append_nil]

theorem evaluateLast_eq (s : LinuxSearching D) :
    ix.evaluateLast q s = (ix.evalPages q s.lastPages).map (pushAll s.toSearching) := by
  obtain ⟨s, pages⟩ := s
  show pages.foldlM _ s = (ix.evalPages q pages).map (pushAll s)
  induction pages generalizing s with
  | nil => exact congrArg some (pushAll_nil s).symm
  | cons page pages ih =>
    rw [foldlM_cons, evalPages_cons, evaluate]
    cases ix.evalNodes q page.1 page.2 with
    | none => rfl
    | some evals =>
      show List.foldlM _ (pushAll s evals) pages = Option.map _ (Option.map _ _)
      rw [ih (pushAll s evals), Option.map_map]
      congr 1
      funext rest
      exact (pushAll_append s evals rest).symm

theorem foldlM_expandPage (s : Searching D) (frontier : List ℕ) :
    frontier.foldlM (ix.expandPage fl q) s =
      (ix.evalPages q (frontier.map fun pageID => (pageID, ix.sector pageID))).map
        (pushAll (frontier.foldl (ix.insertNbrs fl q) s)) := by
  induction frontier generalizing s with
  | nil => exact congrArg some (pushAll_nil s).symm
  | cons pageID frontier ih =>
    rw [foldlM_cons, map_cons, evalPages_cons, expandPage, evaluate, foldl_cons]
    cases ix.evalNodes q pageID (ix.sector pageID) with
    | none => rfl
    | some evals =>
      show List.foldlM _ (pushAll (ix.insertNbrs fl q s pageID) evals) frontier =
        Option.map _ (Option.map _ _)
      rw [ih, Option.map_map]
      congr 1
      funext rest
      show pushAll (frontier.foldl _ _) rest = pushAll _ (evals ++ rest)
      rw [pushAll_append]
      congr 1
      exact foldl_hom (fun s => pushAll s evals) fun s pageID => rfl

theorem foldl_keepPage (s : LinuxSearching D) (frontier : List ℕ) :
    frontier.foldl (ix.keepPage fl q) s =
      ⟨frontier.foldl (ix.insertNbrs fl q) s.toSearching,
        s.lastPages ++ frontier.map fun pageID =>
          (pageID, slice (ix.sector pageID) 0 ix.allFullVectorSpace)⟩ := by
  induction frontier generalizing s with
  | nil => rw [map_nil, append_nil]; rfl
  | cons pageID frontier ih =>
    rw [foldl_cons, ih, foldl_cons, map_cons, append_cons]
    rfl

theorem numNodes_le (pageID : ℕ) : ix.numNodes pageID ≤ ix.nnodesPerSector := by
  have hlt := Nat.mod_lt ix.numPoints ix.nnodes_pos
  unfold PageParams.numNodes
  split_ifs
  · exact le_rfl
  · exact hlt.le
  · exact le_rfl

theorem evalNodes_slice (pageID : ℕ) (page : List UInt8) :
    ix.evalNodes q pageID (slice page 0 ix.allFullVectorSpace) = ix.evalNodes q pageID page := by
  have hmap : ∀ k ∈ List.range (ix.numNodes pageID),
      ix.nodeCoords (slice page 0 ix.allFullVectorSpace) k = ix.nodeCoords page k := by
    intro k hk
    have hlt : k + 1 ≤ ix.nnodesPerSector := (List.mem_range.1 hk).trans_le (ix.numNodes_le pageID)
    have hmul := Nat.mul_le_mul_right ix.maxNodeLen hlt
    have hle : ix.diskBytesPerPoint ≤ ix.maxNodeLen := ix.bytes_le
    rw [Nat.succ_mul] at hmul
    rw [PageParams.nodeCoords, slice_slice, Nat.zero_add]
    · rfl
    · exact (Nat.add_le_add_left hle _).trans hmul
  unfold evalNodes PageParams.vectors
  rw [map_congr_left hmap]

theorem evalPages_slice (frontier : List ℕ) :
    ix.evalPages q (frontier.map fun pageID =>
      (pageID, slice (ix.sector pageID) 0 ix.allFullVectorSpace)) =
      ix.evalPages q (frontier.map fun pageID => (pageID, ix.sector pageID)) := by
  induction frontier with
  | nil => rfl
  | cons pageID frontier ih =>
    rw [map_cons, map_cons, evalPages_cons, evalPages_cons, ih, evalNodes_slice]

/-! ### A pass of the two loops -/

/-- The states differ in the order of `full_retset`. -/
structure Alike (s s' : Searching D) : Prop where
  retset : s'.retset = s.retset
  expandedPages : s'.expandedPages = s.expandedPages
  numIos : s'.numIos = s.numIos
  fullRetset : s'.fullRetset.Perm s.fullRetset

variable {ix fl q} {s s' : Searching D}

theorem Alike.pushAll (h : Alike s s') (evals : List (Neighbor D)) :
    Alike (PageIndex.pushAll s evals) (PageIndex.pushAll s' evals) where
  retset := h.retset
  expandedPages := h.expandedPages
  numIos := h.numIos
  fullRetset := h.fullRetset.append_right evals

theorem Alike.foldl_expandCached (h : Alike s s') (nhoods : List (ℕ × ℕ)) :
    Alike (nhoods.foldl (ix.expandCached fl q) s) (nhoods.foldl (ix.expandCached fl q) s') := by
  refine foldl_rel h fun nhood _ s s' h => ?_
  refine ⟨?_, h.expandedPages, h.numIos, h.fullRetset.append_right _⟩
  show insertAll fl q s'.retset (ix.cachedCandidates s'.expandedPages nhood.2) = _
  rw [h.retset, h.expandedPages]
  rfl

theorem Alike.foldl_insertNbrs (h : Alike s s') (frontier : List ℕ) :
    Alike (frontier.foldl (ix.insertNbrs fl q) s) (frontier.foldl (ix.insertNbrs fl q) s') := by
  refine foldl_rel h fun pageID _ s s' h => ?_
  refine ⟨?_, h.expandedPages, h.numIos, h.fullRetset⟩
  show insertAll fl q s'.retset (ix.pageCandidates s'.expandedPages (ix.sector pageID)) = _
  rw [h.retset, h.expandedPages]
  rfl

theorem Alike.beam (h : Alike s s') : ix.beam q s' = ix.beam q s := by
  unfold PageIndex.beam
  rw [h.retset, h.expandedPages]

theorem Alike.selected (h : Alike s s') : Alike (ix.selected q s) (ix.selected q s') := by
  unfold PageIndex.selected
  rw [h.beam, h.numIos]
  exact ⟨rfl, rfl, rfl, h.fullRetset⟩

theorem Alike.goesOn (h : Alike s s') (ioLimit : ℕ) :
    PageIndex.goesOn ioLimit s = PageIndex.goesOn ioLimit s' := by
  unfold PageIndex.goesOn
  rw [h.retset, h.numIos]

variable (ix q) in
/-- With the distances of the pages that it holds, the second search has what the first has. -/
def Lags (s : Searching D) (t : LinuxSearching D) : Prop :=
  ∃ evals, ix.evalPages q t.lastPages = some evals ∧
    Alike s (PageIndex.pushAll t.toSearching evals)

variable {t t' : LinuxSearching D}

theorem Lags.goesOn (h : Lags ix q s t) (ioLimit : ℕ) :
    PageIndex.goesOn ioLimit s = PageIndex.goesOn ioLimit t.toSearching := by
  obtain ⟨evals, -, h⟩ := h
  exact h.goesOn ioLimit

variable (ix fl q) in
/-- A pass, apart from the evaluation of the pages that were read. -/
def expandBeam (s : Searching D) (b : Beam D) : Searching D :=
  b.frontier.foldl (ix.insertNbrs fl q) (b.cachedNhoods.foldl (ix.expandCached fl q) s)

theorem Alike.expandBeam (h : Alike s s') (b : Beam D) :
    Alike (ix.expandBeam fl q s b) (ix.expandBeam fl q s' b) :=
  (h.foldl_expandCached _).foldl_insertNbrs _

variable (ix) in
/-- The pages of a beam that are read. -/
def readPages (b : Beam D) : List (ℕ × List UInt8) :=
  b.frontier.map fun pageID => (pageID, ix.sector pageID)

variable (ix fl q) in
theorem round_eq (s : Searching D) :
    ix.round fl q s = (ix.evalPages q (ix.readPages (ix.beam q s))).map
      (PageIndex.pushAll (ix.expandBeam fl q (ix.selected q s) (ix.beam q s))) := by
  unfold round
  rw [foldlM_expandPage]
  rfl

variable (ix fl q) in
theorem linuxRound_eq (t : LinuxSearching D) :
    ix.linuxRound fl q t = (ix.evalPages q t.lastPages).map fun evals =>
      ⟨ix.expandBeam fl q (PageIndex.pushAll (ix.selected q t.toSearching) evals)
          (ix.beam q t.toSearching),
        (ix.beam q t.toSearching).frontier.map fun pageID =>
          (pageID, slice (ix.sector pageID) 0 ix.allFullVectorSpace)⟩ := by
  unfold linuxRound
  rw [evaluateLast_eq, Option.map_map]
  congr 1
  funext evals
  exact foldl_keepPage ix fl q _ _

theorem Lags.rounds (h : Lags ix q s t) : ∃ s₁ t₁, Alike s₁ t₁.toSearching ∧
    ix.linuxRound fl q t = some t₁ ∧
    ix.round fl q s = (ix.evalPages q t₁.lastPages).map (PageIndex.pushAll s₁) := by
  obtain ⟨evals, hevals, h⟩ := h
  have hbeam : ix.beam q t.toSearching = ix.beam q s := h.beam
  have hlinux := linuxRound_eq ix fl q t
  rw [hevals] at hlinux
  refine ⟨ix.expandBeam fl q (ix.selected q s) (ix.beam q s), _, ?_, hlinux, ?_⟩
  · rw [hbeam]
    exact h.selected.expandBeam _
  · rw [round_eq, hbeam, evalPages_slice]
    rfl

theorem Lags.round (h : Lags ix q s t) {s₁ : Searching D} (hs : ix.round fl q s = some s₁) :
    ∃ t₁, ix.linuxRound fl q t = some t₁ ∧ Lags ix q s₁ t₁ := by
  obtain ⟨s₂, t₁, halike, ht, heq⟩ := h.rounds
  rw [heq] at hs
  obtain ⟨evals, hevals, rfl⟩ := map_eq_some_iff.1 hs
  exact ⟨t₁, ht, evals, hevals, halike.pushAll evals⟩

theorem Lags.round_eq_none (h : Lags ix q s t) (hs : ix.round fl q s = none) {t₁ : LinuxSearching D}
    (ht : ix.linuxRound fl q t = some t₁) : ix.evalPages q t₁.lastPages = none := by
  obtain ⟨s₂, t₂, -, ht₂, heq⟩ := h.rounds
  rw [ht] at ht₂
  cases ht₂
  rw [heq] at hs
  exact map_eq_none_iff.1 hs

theorem linuxRound_eq_none (h : ix.evalPages q t.lastPages = none) : ix.linuxRound fl q t = none := by
  show Option.map _ (ix.evaluateLast q _) = none
  rw [evaluateLast_eq, h]
  rfl

/-! ### Every page once -/

variable (ix q) in
/-- The exact distances of the nodes of a page, from the cache or from the disk. -/
def pageEvals (pageID : ℕ) : List (Neighbor D) :=
  match ix.cachedPageIdx pageID with
  | some idx => ix.evalCached q pageID idx
  | none => (ix.evalNodes q pageID (ix.sector pageID)).getD []

variable (ix) in
/-- A beam has the pages that were inserted since `seen`. -/
structure Selects (seen : List ℕ) (b : Beam D) : Prop where
  nodup : b.expandedPages.Nodup
  perm : b.expandedPages.Perm (seen ++ (b.cachedNhoods.map Prod.fst ++ b.frontier))
  cached : ∀ nhood ∈ b.cachedNhoods, ix.cachedPageIdx nhood.1 = some nhood.2
  frontier : ∀ pageID ∈ b.frontier, ix.cachedPageIdx pageID = none

variable {seen : List ℕ} {b : Beam D}

theorem Selects.seePage (h : Selects ix seen b) (pageID : ℕ) :
    Selects ix seen (ix.seePage b pageID) := by
  unfold PageIndex.seePage
  split_ifs with hmem
  · exact h
  · have hnodup : (b.expandedPages ++ [pageID]).Nodup :=
      nodup_append'.2 ⟨h.nodup, nodup_singleton _, disjoint_singleton.2 hmem⟩
    have hperm := h.perm.append_right [pageID]
    cases hidx : ix.cachedPageIdx pageID with
    | some idx =>
      refine ⟨hnodup, ?_, fun nhood hn => ?_, h.frontier⟩
      · show (b.expandedPages ++ [pageID]).Perm
          (seen ++ ((b.cachedNhoods ++ [(pageID, idx)]).map Prod.fst ++ b.frontier))
        refine hperm.trans ?_
        rw [map_append, append_assoc, append_assoc, append_assoc]
        exact (perm_append_comm.append_left _).append_left _
      · obtain hn | hn := mem_append.1 hn
        · exact h.cached nhood hn
        · rw [mem_singleton.1 hn]
          exact hidx
    | none =>
      refine ⟨hnodup, ?_, h.cached, fun p hp => ?_⟩
      · show (b.expandedPages ++ [pageID]).Perm
          (seen ++ (b.cachedNhoods.map Prod.fst ++ (b.frontier ++ [pageID])))
        rw [← append_assoc, ← append_assoc, append_assoc seen]
        exact hperm
      · obtain hp | hp := mem_append.1 hp
        · exact h.frontier p hp
        · rw [mem_singleton.1 hp]
          exact hidx

theorem Selects.selectBeam (h : Selects ix seen b) (fuel : ℕ) :
    Selects ix seen (ix.selectBeam q fuel b) := by
  induction fuel generalizing b with
  | zero => exact h
  | succ fuel ih =>
    rw [PageIndex.selectBeam]
    split_ifs
    · cases b.retset.closestUnexpanded with
      | none => exact h
      | some x =>
        have hx : Selects ix seen { b with retset := x.2 } :=
          ⟨h.nodup, h.perm, h.cached, h.frontier⟩
        exact ih (hx.seePage _)
    · exact h

theorem selects_beam (hs : s.expandedPages.Nodup) : Selects ix s.expandedPages (ix.beam q s) := by
  refine Selects.selectBeam ⟨hs, ?_, fun nhood hn => ?_, fun p hp => ?_⟩ _
  · show s.expandedPages.Perm (s.expandedPages ++ [])
    rw [append_nil]
  · cases hn
  · cases hp

theorem Selects.flatMap_pageEvals (h : Selects ix seen b) {evals : List (Neighbor D)}
    (hevals : ix.evalPages q (ix.readPages b) = some evals) :
    (b.expandedPages.flatMap (ix.pageEvals q)).Perm
      (seen.flatMap (ix.pageEvals q) ++
        (b.cachedNhoods.flatMap (fun nhood => ix.evalCached q nhood.1 nhood.2) ++ evals)) := by
  have hcached : (b.cachedNhoods.map Prod.fst).flatMap (ix.pageEvals q) =
      b.cachedNhoods.flatMap fun nhood => ix.evalCached q nhood.1 nhood.2 := by
    rw [flatMap_map]
    refine flatMap_congr fun nhood hn => ?_
    rw [pageEvals, h.cached nhood hn]
  have hfrontier : b.frontier.flatMap (ix.pageEvals q) = evals := by
    have hnone := h.frontier
    unfold readPages at hevals
    generalize b.frontier = frontier at hevals hnone
    induction frontier generalizing evals with
    | nil => exact Option.some.inj hevals
    | cons pageID frontier ih =>
      rw [map_cons, evalPages_cons] at hevals
      obtain ⟨first, hfirst, htail⟩ := bind_eq_some_iff.1 hevals
      obtain ⟨rest, hrest, rfl⟩ := map_eq_some_iff.1 htail
      rw [flatMap_cons, ih hrest fun p hp => hnone p (mem_cons_of_mem _ hp), pageEvals,
        hnone pageID mem_cons_self, hfirst]
      rfl
  refine (h.perm.flatMap_right _).trans ?_
  rw [flatMap_append, flatMap_append, hcached, hfrontier]

variable (ix fl q) in
theorem foldl_insertNbrs_eq (s : Searching D) (frontier : List ℕ) :
    (frontier.foldl (ix.insertNbrs fl q) s).fullRetset = s.fullRetset ∧
      (frontier.foldl (ix.insertNbrs fl q) s).expandedPages = s.expandedPages := by
  induction frontier generalizing s with
  | nil => exact ⟨rfl, rfl⟩
  | cons pageID frontier ih => exact ih _

variable (ix fl q) in
theorem foldl_expandCached_eq (s : Searching D) (nhoods : List (ℕ × ℕ)) :
    (nhoods.foldl (ix.expandCached fl q) s).fullRetset =
        s.fullRetset ++ nhoods.flatMap (fun nhood => ix.evalCached q nhood.1 nhood.2) ∧
      (nhoods.foldl (ix.expandCached fl q) s).expandedPages = s.expandedPages := by
  induction nhoods generalizing s with
  | nil => exact ⟨(append_nil _).symm, rfl⟩
  | cons nhood nhoods ih =>
    obtain ⟨hfull, hpages⟩ := ih (ix.expandCached fl q s nhood)
    refine ⟨?_, hpages⟩
    rw [foldl_cons, hfull, flatMap_cons, ← append_assoc]
    rfl

variable (ix q) in
/-- What was evaluated: `entry`, and the nodes of each expanded page once. -/
structure EvaluatesOnce (entry : List (Neighbor D)) (s : Searching D) : Prop where
  nodup : s.expandedPages.Nodup
  perm : s.fullRetset.Perm (entry ++ s.expandedPages.flatMap (ix.pageEvals q))

variable {entry : List (Neighbor D)}

theorem EvaluatesOnce.round (h : EvaluatesOnce ix q entry s) (hs : ix.round fl q s = some s') :
    EvaluatesOnce ix q entry s' := by
  rw [round_eq] at hs
  obtain ⟨evals, hevals, rfl⟩ := map_eq_some_iff.1 hs
  have hsel : Selects ix s.expandedPages (ix.beam q s) := selects_beam h.nodup
  obtain ⟨hfull, hpages⟩ := foldl_insertNbrs_eq ix fl q
    ((ix.beam q s).cachedNhoods.foldl (ix.expandCached fl q) (ix.selected q s)) (ix.beam q s).frontier
  obtain ⟨hfull', hpages'⟩ := foldl_expandCached_eq ix fl q (ix.selected q s)
    (ix.beam q s).cachedNhoods
  have hpages : (ix.expandBeam fl q (ix.selected q s) (ix.beam q s)).expandedPages =
      (ix.beam q s).expandedPages := hpages.trans hpages'
  refine ⟨?_, ?_⟩
  · show (ix.expandBeam fl q _ _).expandedPages.Nodup
    rw [hpages]
    exact hsel.nodup
  · show ((ix.expandBeam fl q _ _).fullRetset ++ evals).Perm
      (entry ++ (ix.expandBeam fl q _ _).expandedPages.flatMap _)
    rw [hpages]
    refine Perm.trans ?_ ((hsel.flatMap_pageEvals hevals).symm.append_left _)
    rw [expandBeam, hfull, hfull', ← append_assoc, ← append_assoc]
    exact (h.perm.append_right _).append_right _

end PageIndex

/-! ### The two searches -/

/-- The same pages are expanded and the same distances evaluated.  `std::sort` needs distances that are
ordered. -/
structure PageAnswer.Same (fl : FloatOps D) (a a' : PageAnswer D) : Prop where
  expandedPages : a'.expandedPages = a.expandedPages
  evaluated : a'.evaluated.Perm a.evaluated
  results : ∀ S, LinearOn fl S → (∀ nbr ∈ a.evaluated, S nbr.distance) → a'.results = a.results

theorem PageIndex.Alike.answer {fl : FloatOps D} {q : PageQuery D} {s s' : Searching D} (h : Alike s s') :
    (PageIndex.answer fl q s).Same fl (PageIndex.answer fl q s') where
  expandedPages := h.expandedPages
  evaluated := h.fullRetset
  results S hfl hS := by
    show ((sortPool fl s'.fullRetset).take q.k).map _ = ((sortPool fl s.fullRetset).take q.k).map _
    have hsort := sortPool_map_eq hfl (l := s.fullRetset) hS h.fullRetset.symm
    rw [map_take, map_take, hsort]

namespace PageIndex

variable {ix : PageIndex} {fl : FloatOps D} {q : PageQuery D}

theorem EvaluatesOnce.whileM {entry : List (Neighbor D)} {s s' : Searching D} {ioLimit fuel : ℕ}
    (h : EvaluatesOnce ix q entry s)
    (hs : Lib.whileM (goesOn ioLimit) (ix.round fl q) fuel s = some s') :
    EvaluatesOnce ix q entry s' :=
  (whileM_keeps (fun _ h _ _ hs => EvaluatesOnce.round h hs) h hs).1

theorem enter_expandedPages {s : Searching D} (hs : ix.enter fl q = some s) :
    s.expandedPages = [] := by
  have hmedoids : ∀ s s' : Searching D, ix.enterMedoids fl q s = some s' →
      s'.expandedPages = s.expandedPages := by
    intro s s' hs
    unfold enterMedoids at hs
    split_ifs at hs
    cases hs
    rfl
  unfold enter at hs
  split at hs
  · exact hmedoids _ _ hs
  · dsimp only at hs
    split_ifs at hs
    · exact hmedoids _ _ hs
    · cases hs
      rfl

theorem linuxPageSearch_loop (ix : PageIndex) (fl : FloatOps D) (q : PageQuery D) (fuel : ℕ) (s : Searching D) :
    Option.Rel (PageAnswer.Same fl)
      ((whileM (goesOn (2 ^ 32 - 1)) (ix.round fl q) fuel s).map (answer fl q))
      ((whileM (fun t : LinuxSearching D => goesOn (2 ^ 32 - 1) t.toSearching) (ix.linuxRound fl q)
        fuel ⟨s, []⟩).bind fun t => (ix.evaluateLast q t).map (answer fl q)) := by
  have hstart : Lags ix q s ⟨s, []⟩ := by
    refine ⟨[], rfl, ?_⟩
    rw [pushAll_nil]
    exact ⟨rfl, rfl, rfl, Perm.refl _⟩
  rw [map_eq_bind]
  refine whileM_bind_rel (fun t => ix.evalPages q t.lastPages = none)
    (fun s t h => h.goesOn _) (fun s t h s₁ hs => h.round hs)
    (fun s t h hs t₁ ht => h.round_eq_none hs ht) (fun t ht => ⟨linuxRound_eq_none ht, ?_⟩)
    (fun s t h => ?_) fuel hstart
  · rw [evaluateLast_eq, ht]
    rfl
  · obtain ⟨evals, hevals, h⟩ := h
    rw [evaluateLast_eq, hevals]
    exact Rel.some h.answer

/-- The two searches return together, with the same pages expanded in the same order, the same
distances evaluated, each page once, and the same results. -/
theorem linuxPageSearch_refines (ix : PageIndex) (fl : FloatOps D) (q : PageQuery D) (fuel : ℕ) :
    Option.Rel (PageAnswer.Same fl) (ix.pageSearch fl q (2 ^ 32 - 1) fuel)
        (ix.linuxPageSearch fl q fuel) ∧
      ∀ s a, ix.enter fl q = some s → ix.linuxPageSearch fl q fuel = some a →
        a.expandedPages.Nodup ∧
          a.evaluated.Perm (s.fullRetset ++ a.expandedPages.flatMap (ix.pageEvals q)) := by
  constructor
  · unfold pageSearch linuxPageSearch
    cases ix.enter fl q with
    | none => exact Rel.none
    | some s => exact linuxPageSearch_loop ix fl q fuel s
  · intro s a hs ha
    have hloop := linuxPageSearch_loop ix fl q fuel s
    rw [linuxPageSearch, hs, bind_some] at ha
    rw [ha] at hloop
    obtain ⟨a₀, ha₀, hsame⟩ : ∃ a₀, (whileM (goesOn (2 ^ 32 - 1)) (ix.round fl q) fuel s).map
        (answer fl q) = some a₀ ∧ a₀.Same fl a := by
      generalize (whileM (goesOn (2 ^ 32 - 1)) (ix.round fl q) fuel s).map (answer fl q) = r at hloop
      cases hloop with
      | some h => exact ⟨_, rfl, h⟩
    obtain ⟨s', hs', rfl⟩ := map_eq_some_iff.1 ha₀
    have hpages := enter_expandedPages hs
    have honce : EvaluatesOnce ix q s.fullRetset s' := by
      refine EvaluatesOnce.whileM ⟨?_, ?_⟩ hs'
      · rw [hpages]
        exact List.nodup_nil
      · rw [hpages, List.flatMap_nil, List.append_nil]
    rw [hsame.expandedPages]
    exact ⟨honce.nodup, hsame.evaluated.trans honce.perm⟩

end PageIndex

end DiskANNEval.PageANN
