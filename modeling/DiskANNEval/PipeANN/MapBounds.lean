import DiskANNEval.PipeANN.NodeBytes

/-!
# MapBounds — the bounds and divisors of the mapping operations

Each operation alone, with every access of an array and every division checked.  `1.5 * i` is not
more than `i` for the first two numbers, `loc2id` lets the end of its array pass, `erase_loc2id` does
not check its location and goes through the whole page, and then takes the location modulo
`nnodes_per_sector`.  Inside these limits the operations are those of `AllocLoc`.
-/

namespace DiskANNEval.PipeANN

open Lib List

/-- `crash`: what an operation checks does not hold. -/
inductive MapFault
  | crash
  | outOfBounds
  | divByZero
  deriving DecidableEq

structure MappedIndex where
  meta_ : SSDIndexMetadata
  id2loc_ : List ℕ
  loc2id_ : List Slot
  emptyPages : List ℕ

namespace MappedIndex

section Access

variable {α : Type}

def readAt (v : List α) (i : ℕ) : Except MapFault α :=
  match v[i]? with
  | some x => .ok x
  | none => .error .outOfBounds

def writeAt (v : List α) (i : ℕ) (x : α) : Except MapFault (List α) :=
  if i < v.length then .ok (v.set i x) else .error .outOfBounds

def divBy (a b : ℕ) : Except MapFault ℕ := if b = 0 then .error .divByZero else .ok (a / b)

def modBy (a b : ℕ) : Except MapFault ℕ := if b = 0 then .error .divByZero else .ok (a % b)

/-- `v.resize(1.5 * i)` if `i` is not an index of `v`. -/
def resizeFor (d : α) (v : List α) (i : ℕ) : List α :=
  if v.length ≤ i then grow v (3 * i / 2) d else v

end Access

variable (s : MappedIndex)

def locSectorNo (loc : ℕ) : Except MapFault ℕ := do
  let n ←
    if 0 < s.meta_.nnodesPerSector then divBy loc s.meta_.nnodesPerSector
    else pure (loc * divRoundUp s.meta_.maxNodeLen sectorLen)
  return 1 + n

def sectorToLoc (sectorNo sectorOff : ℕ) : Except MapFault ℕ :=
  if s.meta_.nnodesPerSector = 0 then
    divBy (sectorNo - 1) (divRoundUp s.meta_.maxNodeLen sectorLen)
  else return (sectorNo - 1) * s.meta_.nnodesPerSector + sectorOff

def id2loc (id : ℕ) : Except MapFault ℕ :=
  if s.id2loc_.length ≤ id then .error .crash else readAt s.id2loc_ id

def setId2loc (id loc : ℕ) : Except MapFault MappedIndex := do
  return { s with id2loc_ := ← writeAt (resizeFor 0 s.id2loc_ id) id loc }

def loc2id (loc : ℕ) : Except MapFault Slot :=
  if s.loc2id_.length < loc then .error .crash else readAt s.loc2id_ loc

def setLoc2id (loc : ℕ) (x : Slot) : Except MapFault MappedIndex := do
  return { s with loc2id_ := ← writeAt (resizeFor (.id 0) s.loc2id_ loc) loc x }

/-- The loop of `erase_loc2id` over the page. -/
def pageEmpty (loc2id_ : List Slot) : List ℕ → Except MapFault Bool
  | [] => return true
  | i :: is => do
    if (← readAt loc2id_ i) ≠ .invalid then return false
    pageEmpty loc2id_ is

def eraseLoc2id (loc : ℕ) : Except MapFault MappedIndex := do
  let loc2id_ ← writeAt s.loc2id_ loc .invalid
  let st ← s.sectorToLoc (← s.locSectorNo loc) 0
  let empty ← pageEmpty loc2id_ (List.range' st s.meta_.nnodesPerSector)
  let emptyPages ←
    if empty then (s.locSectorNo loc).map fun page => s.emptyPages ++ [page]
    else pure s.emptyPages
  let _page ← s.locSectorNo loc
  let _offset ← modBy loc s.meta_.nnodesPerSector
  return { s with loc2id_, emptyPages }

/-- No access is past the end of an array, and no divisor is zero. -/
def Safe {α : Type} (r : Except MapFault α) : Prop :=
  r ≠ .error .outOfBounds ∧ r ≠ .error .divByZero

/-! ### Accesses -/

section Access

variable {α : Type} {v : List α} {i : ℕ} {x : α}

theorem ok_bind {β : Type} (x : α) (f : α → Except MapFault β) : (Except.ok x >>= f) = f x := rfl

theorem readAt_of_lt (h : i < v.length) : readAt v i = .ok v[i] := by
  rw [readAt, getElem?_eq_getElem h]

theorem readAt_of_le (h : v.length ≤ i) : readAt v i = .error .outOfBounds := by
  rw [readAt, getElem?_eq_none h]

theorem safe_ok (x : α) : Safe (.ok x) := ⟨nofun, nofun⟩

theorem safe_readAt : Safe (readAt v i) ↔ i < v.length := by
  rcases Nat.lt_or_ge i v.length with h | h
  · simp [Safe, readAt_of_lt h, h]
  · simp [Safe, readAt_of_le h, Nat.not_lt.2 h]

theorem lt_length_resizeFor (d : α) : i < (resizeFor d v i).length ↔ i < v.length ∨ 2 ≤ i := by
  rw [resizeFor]
  split_ifs with h
  · rw [length_grow]
    omega
  · omega

end Access

theorem divRoundUp_maxNodeLen_pos : 0 < divRoundUp s.meta_.maxNodeLen sectorLen :=
  s.meta_.layout.sectorsPerNode_pos

theorem locSectorNo_eq (loc : ℕ) : s.locSectorNo loc = .ok (s.meta_.sectorNo loc) := by
  rw [locSectorNo]
  by_cases h : 0 < s.meta_.nnodesPerSector
  · rw [if_pos h, divBy, if_neg h.ne']
    show Except.ok (1 + loc / _) = Except.ok (1 + if 0 < s.meta_.nnodesPerSector then _ else _)
    rw [if_pos h]
    rfl
  · rw [if_neg h]
    show Except.ok (1 + loc * _) = Except.ok (1 + if 0 < s.meta_.nnodesPerSector then _ else _)
    rw [if_neg h]
    rfl

theorem sectorToLoc_eq (sectorNo : ℕ) :
    s.sectorToLoc sectorNo 0 = .ok (s.meta_.layout.sectorToLoc sectorNo) := by
  rw [sectorToLoc, PageLayout.sectorToLoc]
  by_cases h : s.meta_.nnodesPerSector = 0
  · rw [if_pos h, if_pos (by exact h), divBy, if_neg s.divRoundUp_maxNodeLen_pos.ne']
    rfl
  · rw [if_neg h, if_neg (by exact h)]
    rfl

/-! ### The page -/

variable {s} {v : List Slot} {st n loc : ℕ}

theorem pageEmpty_cons_of_lt {i : ℕ} (is : List ℕ) (h : i < v.length) :
    pageEmpty v (i :: is) = if v[i] ≠ .invalid then .ok false else pageEmpty v is := by
  rw [pageEmpty, readAt_of_lt h]
  all_goals rfl

theorem pageEmpty_cons_of_le {i : ℕ} (is : List ℕ) (h : v.length ≤ i) :
    pageEmpty v (i :: is) = .error .outOfBounds := by
  rw [pageEmpty, readAt_of_le h]
  rfl

/-- The loop ends at a cell that is not invalid, or at the end of the page; if these are past the end
of the array, it gets there. -/
theorem pageEmpty_range (v : List Slot) (st n : ℕ) :
    (∃ b, pageEmpty v (range' st n) = .ok b) ∧
      (n = 0 ∨ st + n ≤ v.length ∨ ∃ i, st ≤ i ∧ i < v.length ∧ v[i]? ≠ some .invalid) ∨
    pageEmpty v (range' st n) = .error .outOfBounds ∧
      ¬ (n = 0 ∨ st + n ≤ v.length ∨ ∃ i, st ≤ i ∧ i < v.length ∧ v[i]? ≠ some .invalid) := by
  induction n generalizing st with
  | zero => exact .inl ⟨⟨true, rfl⟩, .inl rfl⟩
  | succ n ih =>
    rw [range'_succ]
    rcases Nat.lt_or_ge st v.length with hst | hst
    · rw [pageEmpty_cons_of_lt _ hst]
      by_cases hcell : v[st] ≠ .invalid
      · rw [if_pos hcell]
        refine .inl ⟨⟨false, rfl⟩, .inr (.inr ⟨st, le_refl st, hst, fun h => hcell ?_⟩)⟩
        rwa [getElem?_eq_getElem hst, Option.some_inj] at h
      · have hinv : v[st]? = some .invalid := by
          rw [getElem?_eq_getElem hst, not_not.1 hcell]
        have hiff : (n + 1 = 0 ∨ st + (n + 1) ≤ v.length ∨
              ∃ i, st ≤ i ∧ i < v.length ∧ v[i]? ≠ some .invalid) ↔
            n = 0 ∨ st + 1 + n ≤ v.length ∨
              ∃ i, st + 1 ≤ i ∧ i < v.length ∧ v[i]? ≠ some .invalid := by
          constructor
          · rintro (h | h | ⟨i, hi, hlt, hne⟩)
            · omega
            · exact .inr (.inl (by omega))
            · refine .inr (.inr ⟨i, Nat.lt_of_le_of_ne hi ?_, hlt, hne⟩)
              rintro rfl
              exact hne hinv
          · rintro (h | h | ⟨i, hi, hlt, hne⟩)
            · exact .inr (.inl (by omega))
            · exact .inr (.inl (by omega))
            · exact .inr (.inr ⟨i, by omega, hlt, hne⟩)
        rw [if_neg hcell, hiff]
        exact ih (st + 1)
    · rw [pageEmpty_cons_of_le _ hst]
      refine .inr ⟨rfl, ?_⟩
      all_goals omega

/-- The cells of the page that `erase_loc2id` gets to are in the array. -/
def PageInside (s : MappedIndex) (loc : ℕ) : Prop :=
  let st := s.meta_.layout.sectorToLoc (s.meta_.sectorNo loc)
  st + s.meta_.nnodesPerSector ≤ s.loc2id_.length ∨
    ∃ i, st ≤ i ∧ i < s.loc2id_.length ∧ i ≠ loc ∧ s.loc2id_[i]? ≠ some .invalid

theorem safe_eraseLoc2id_iff : Safe (s.eraseLoc2id loc) ↔
    loc < s.loc2id_.length ∧ s.meta_.nnodesPerSector ≠ 0 ∧ s.PageInside loc := by
  rw [eraseLoc2id]
  rcases Nat.lt_or_ge loc s.loc2id_.length with hloc | hloc
  · rw [writeAt, if_pos hloc]
    simp only [ok_bind, locSectorNo_eq, sectorToLoc_eq]
    have hcells : (∃ i, s.meta_.layout.sectorToLoc (s.meta_.sectorNo loc) ≤ i ∧
          i < s.loc2id_.length ∧ (s.loc2id_.set loc .invalid)[i]? ≠ some .invalid) ↔
        ∃ i, s.meta_.layout.sectorToLoc (s.meta_.sectorNo loc) ≤ i ∧ i < s.loc2id_.length ∧ i ≠ loc ∧
          s.loc2id_[i]? ≠ some .invalid := by
      refine exists_congr fun i => and_congr_right fun _ => and_congr_right fun _ => ?_
      by_cases he : loc = i
      · subst he
        simp [hloc]
      · simp [he, Ne.symm he]
    rcases pageEmpty_range (s.loc2id_.set loc .invalid)
      (s.meta_.layout.sectorToLoc (s.meta_.sectorNo loc)) s.meta_.nnodesPerSector with
      ⟨⟨b, hb⟩, hcond⟩ | ⟨hb, hcond⟩
    · rw [length_set, hcells] at hcond
      rw [hb]
      by_cases h0 : s.meta_.nnodesPerSector = 0
      · rw [modBy, if_pos h0]
        refine iff_of_false (fun h => h.2 ?_) fun h => h.2.1 h0
        cases b
        all_goals rfl
      · rw [modBy, if_neg h0]
        refine iff_of_true ?_ ⟨hloc, h0, hcond.resolve_left h0⟩
        cases b
        all_goals exact safe_ok _
    · rw [length_set, hcells] at hcond
      rw [hb]
      exact iff_of_false (fun h => h.1 rfl) fun h => hcond (.inr h.2.2)
  · rw [writeAt, if_neg (Nat.not_lt.2 hloc)]
    exact iff_of_false (fun h => h.1 rfl) fun h => absurd h.1 (Nat.not_lt.2 hloc)

theorem safe_setId2loc_iff (id loc : ℕ) : Safe (s.setId2loc id loc) ↔ id < s.id2loc_.length ∨ 2 ≤ id := by
  rw [← lt_length_resizeFor 0, setId2loc, writeAt]
  split_ifs with h
  · exact iff_of_true (safe_ok _) h
  · exact iff_of_false (fun hs => hs.1 rfl) h

theorem safe_setLoc2id_iff (loc : ℕ) (x : Slot) :
    Safe (s.setLoc2id loc x) ↔ loc < s.loc2id_.length ∨ 2 ≤ loc := by
  rw [← lt_length_resizeFor (.id 0), setLoc2id, writeAt]
  split_ifs with h
  · exact iff_of_true (safe_ok _) h
  · exact iff_of_false (fun hs => hs.1 rfl) h

theorem safe_crash {α : Type} : Safe (.error .crash : Except MapFault α) := ⟨nofun, nofun⟩

theorem safe_id2loc (id : ℕ) : Safe (s.id2loc id) := by
  rw [id2loc]
  split_ifs with h
  · exact safe_crash
  · exact safe_readAt.2 (not_le.1 h)

theorem safe_loc2id_iff (loc : ℕ) : Safe (s.loc2id loc) ↔ loc ≠ s.loc2id_.length := by
  rw [loc2id]
  split_ifs with h
  · exact iff_of_true safe_crash h.ne'
  · rw [safe_readAt]
    omega

/-- The mapping operations stay in their arrays and have no divisor that is zero exactly when:
`set_id2loc` and `set_loc2id` get an index of the array, or one from 2 on; `loc2id` does not get the
length of the array; and `erase_loc2id` gets a location of the array, there are nodes that share a
sector, and the array has all the page, or a cell of it that is not free. -/
theorem safe_iff (s : MappedIndex) (id loc : ℕ) (x : Slot) :
    (Safe (s.setId2loc id loc) ↔ id < s.id2loc_.length ∨ 2 ≤ id) ∧
    Safe (s.id2loc id) ∧
    (Safe (s.setLoc2id loc x) ↔ loc < s.loc2id_.length ∨ 2 ≤ loc) ∧
    (Safe (s.loc2id loc) ↔ loc ≠ s.loc2id_.length) ∧
    (Safe (s.eraseLoc2id loc) ↔
      loc < s.loc2id_.length ∧ s.meta_.nnodesPerSector ≠ 0 ∧ s.PageInside loc) :=
  ⟨safe_setId2loc_iff id loc, safe_id2loc id, safe_setLoc2id_iff loc x, safe_loc2id_iff loc,
    safe_eraseLoc2id_iff⟩

theorem floats_fit_sector : 1 * 4 + 0 + 4 ≤ 2048 := by decide

theorem two_nodes_fit : 2 * 2048 ≤ sectorLen := by decide

theorem floats_fit_sectors : 1100 * 4 + 0 + 4 ≤ 4408 := by decide

theorem zero_nodes_fit : 0 * 4408 ≤ sectorLen := by decide

/-- The maps of an index of one point, with two nodes in a sector. -/
def onePointMaps : MappedIndex where
  meta_ := ⟨1, 4, 2048, 2, 0, floats_fit_sector, two_nodes_fit⟩
  id2loc_ := [0]
  loc2id_ := [.id 0, .invalid]
  emptyPages := []

/-- The maps of an index of one point, with a node in two sectors. -/
def largePointMaps : MappedIndex where
  meta_ := ⟨1100, 4, 4408, 0, 0, floats_fit_sectors, zero_nodes_fit⟩
  id2loc_ := [0]
  loc2id_ := [.id 0]
  emptyPages := []

/-- The id of the second point, the first location behind the array, and a location of which the node
takes two sectors. -/
theorem not_safe_examples : ¬ Safe (onePointMaps.setId2loc 1 2) ∧ ¬ Safe (onePointMaps.loc2id 2) ∧
    ¬ Safe (onePointMaps.eraseLoc2id 2) ∧ ¬ Safe (largePointMaps.setLoc2id 1 (.id 1)) ∧
    ¬ Safe (largePointMaps.eraseLoc2id 0) := by
  rw [safe_setId2loc_iff, safe_loc2id_iff, safe_eraseLoc2id_iff, safe_setLoc2id_iff,
    safe_eraseLoc2id_iff]
  exact ⟨by decide, fun h => h rfl, fun h => absurd h.1 (by decide), by decide, fun h => h.2.1 rfl⟩

/-! ### The operations of the runs -/

/-- The maps as an insert has them. -/
def maps (s : MappedIndex) (curLoc : ℕ) : LocMaps :=
  ⟨s.id2loc_, s.loc2id_, s.emptyPages, curLoc⟩

theorem writeAt_of_resizeSet {α : Type} {d x : α} {v w : List α} {i : ℕ}
    (h : resizeSet d v i x = .ok w) : writeAt (resizeFor d v i) i x = .ok w := by
  rw [writeAt, resizeFor]
  rw [resizeSet] at h
  split_ifs at h ⊢
  all_goals
    rw [← Except.ok.inj h]

theorem setLoc2id_eq_ok {x : Slot} (h : PipeANN.setLoc2id s.loc2id_ loc x = .ok v) :
    s.setLoc2id loc x = .ok { s with loc2id_ := v } := by
  rw [setLoc2id, writeAt_of_resizeSet h]
  rfl

theorem pageEmpty_of_lt {is : List ℕ} (h : ∀ i ∈ is, i < v.length) :
    pageEmpty v is = .ok (decide (∀ i ∈ is, v[i]? = some .invalid)) := by
  induction is with
  | nil => rfl
  | cons i is ih =>
    have hi := h i mem_cons_self
    rw [pageEmpty_cons_of_lt is hi, ih fun j hj => h j (mem_cons_of_mem i hj)]
    by_cases hcell : v[i] = .invalid
    · rw [if_neg (not_not.2 hcell)]
      simp [hi, hcell]
    · rw [if_pos hcell]
      simp [hi, hcell]

theorem eraseLoc2id_eq_ok {curLoc : ℕ} {m : LocMaps} (h0 : s.meta_.nnodesPerSector ≠ 0)
    (h : PipeANN.eraseLoc2id s.meta_.layout (s.maps curLoc) loc = .ok m) :
    s.eraseLoc2id loc = .ok { s with loc2id_ := m.loc2id, emptyPages := m.emptyPages } := by
  rw [PipeANN.eraseLoc2id] at h
  have hin : loc < s.loc2id_.length ∧
      s.meta_.layout.sectorToLoc (s.meta_.sectorNo loc) + s.meta_.nnodesPerSector ≤
        s.loc2id_.length := by
    by_contra hin
    rw [if_neg (by exact hin)] at h
    cases h
  rw [if_pos (by exact hin)] at h
  have hpage := @pageEmpty_of_lt (s.loc2id_.set loc .invalid)
    (range' (s.meta_.layout.sectorToLoc (s.meta_.sectorNo loc)) s.meta_.nnodesPerSector)
    fun i hi => by
      rw [mem_range'_1] at hi
      rw [length_set]
      omega
  rw [eraseLoc2id, writeAt, if_pos hin.1]
  simp only [ok_bind, locSectorNo_eq, sectorToLoc_eq]
  rw [hpage, modBy, if_neg h0]
  by_cases hempty : ∀ i ∈ range' (s.meta_.layout.sectorToLoc (s.meta_.sectorNo loc))
      s.meta_.nnodesPerSector, (s.loc2id_.set loc .invalid)[i]? = some .invalid
  · rw [if_pos (by exact hempty)] at h
    rw [decide_eq_true hempty, ← Except.ok.inj h]
    rfl
  · rw [if_neg (by exact hempty)] at h
    rw [decide_eq_false hempty, ← Except.ok.inj h]
    rfl

end MappedIndex

end DiskANNEval.PipeANN
