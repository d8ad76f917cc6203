import DiskANNEval.Lib.Grow
import Mathlib

/-!
# AllocLoc — `alloc_loc` and `erase_and_set_loc`

`loc2id` says of each location below `curLoc` whether it is free, handed out to an insert that has
not committed, or holds the record of an id; `emptyPages` is the queue of pages that became free
as a whole.  `alloc_loc` takes locations from the queue, then holes of the hinted pages, then new
ones, and `erase_and_set_loc` turns the locations of an insert live and frees the old ones.

Both run under `alloc_lock`, so each is one function here.  `allocLoc_spec` and
`eraseAndSetLoc_spec` say everything that they do to a well-formed pair of maps.
-/

namespace DiskANNEval.PipeANN

open Lib List

/-- `nnodes_per_sector`, which is 0 if a node takes `DIV_ROUND_UP(max_node_len, SECTOR_LEN)` sectors. -/
structure PageLayout where
  nnodesPerSector : ℕ
  sectorsPerNode : ℕ
  sectorsPerNode_pos : 0 < sectorsPerNode

/-- A cell of `loc2id_`: `kInvalidID`, `kAllocatedID` or an id. -/
inductive Slot
  | invalid
  | allocated
  | id (n : ℕ)
  deriving DecidableEq

/-- `notEmpty`: `alloc_loc` crashes with "Page is not empty".  `trap`: a lock table does. -/
inductive LocFault
  | notEmpty
  | outOfBounds
  | trap
  deriving DecidableEq

structure LocMaps where
  id2loc : List ℕ
  loc2id : List Slot
  emptyPages : List ℕ
  curLoc : ℕ

namespace PageLayout

variable (L : PageLayout)

def locSectorNo (loc : ℕ) : ℕ :=
  1 + if 0 < L.nnodesPerSector then loc / L.nnodesPerSector else loc * L.sectorsPerNode

/-- `sector_to_loc(sector_no, 0)` -/
def sectorToLoc (sectorNo : ℕ) : ℕ :=
  if L.nnodesPerSector = 0 then (sectorNo - 1) / L.sectorsPerNode
  else (sectorNo - 1) * L.nnodesPerSector

/-- The locations from `st` to `ed` of a page. -/
def pageLocs (page : ℕ) : List ℕ :=
  List.range' (L.sectorToLoc page) (if L.nnodesPerSector = 0 then 1 else L.nnodesPerSector)

/-- `(nnodes_per_sector + INDEX_SIZE_FACTOR - 1) / INDEX_SIZE_FACTOR` -/
def threshold : ℕ := (L.nnodesPerSector + 2 - 1) / 2

/-- `loc` up to the next page. -/
def alignUp (loc : ℕ) : ℕ :=
  if L.nnodesPerSector = 0 then loc
  else (loc + L.nnodesPerSector - 1) / L.nnodesPerSector * L.nnodesPerSector

end PageLayout

/-- `v[i] = x` after `v.resize(1.5 * i)` where `i` is not an index of `v`. -/
def resizeSet {α : Type} (d : α) (v : List α) (i : ℕ) (x : α) : Except LocFault (List α) :=
  let v := if v.length ≤ i then grow v (3 * i / 2) d else v
  if i < v.length then .ok (v.set i x) else .error .outOfBounds

def setId2loc (m : LocMaps) (id loc : ℕ) : Except LocFault LocMaps := do
  return { m with id2loc := ← resizeSet 0 m.id2loc id loc }

def setLoc2id (loc2id : List Slot) (loc : ℕ) (x : Slot) : Except LocFault (List Slot) :=
  resizeSet (.id 0) loc2id loc x

/-- `loc2id_` while `alloc_loc` runs, its result and `page_need_to_read`. -/
structure AllocState where
  loc2id : List Slot
  ret : List ℕ
  needToRead : List ℕ

def AllocState.take (a : AllocState) (i : ℕ) : AllocState :=
  { a with loc2id := a.loc2id.set i .allocated, ret := a.ret ++ [i] }

section

variable (L : PageLayout) (n : ℕ)

/-- The locations of an empty page; the flag says that `alloc_loc` returns. -/
def takeEmpty : List ℕ → AllocState → Except LocFault (AllocState × Bool)
  | [], a => .ok (a, false)
  | i :: is, a =>
    match a.loc2id[i]? with
    | none => .error .outOfBounds
    | some .invalid =>
      if (a.take i).ret.length = n then .ok (a.take i, true) else takeEmpty is (a.take i)
    | some _ => .error .notEmpty

/-- "1. Use empty pages": the queue is emptied until there are enough locations. -/
def popEmptyPages : List ℕ → AllocState → Except LocFault (AllocState × List ℕ × Bool)
  | [], a => .ok (a, [], false)
  | page :: pages, a => do
    match ← takeEmpty n (L.pageLocs page) a with
    | (a, true) => .ok (a, pages, true)
    | (a, false) => popEmptyPages pages a

/-- The holes of a page. -/
def takeHoles : List ℕ → AllocState → AllocState × Bool
  | [], a => (a, false)
  | i :: is, a =>
    if a.loc2id[i]? = some .invalid then
      if (a.take i).ret.length = n then (a.take i, true) else takeHoles is (a.take i)
    else takeHoles is a

/-- "2. Use hint pages": those with enough holes. -/
def useHintPages : List ℕ → AllocState → Except LocFault (AllocState × Bool)
  | [], a => .ok (a, false)
  | p :: ps, a =>
    if (L.pageLocs p).any fun i => a.loc2id.length ≤ i then .error .outOfBounds
    else
      let cnt := (L.pageLocs p).countP fun i => a.loc2id[i]? = some .invalid
      if cnt < L.threshold then useHintPages ps a
      else
        let needToRead := if cnt < L.nnodesPerSector then a.needToRead.insert p else a.needToRead
        match takeHoles n (L.pageLocs p) { a with needToRead } with
        | (a, true) => .ok (a, true)
        | (a, false) => useHintPages ps a

/-- Set the cells from `st` on. -/
def setLocs (v : List Slot) (st len : ℕ) (x : Slot) : Except LocFault (List Slot) :=
  (List.range' st len).foldlM (fun v i => setLoc2id v i x) v

/-- The maps afterwards, the locations and `page_need_to_read`. -/
def allocLoc (m : LocMaps) (hintPages : List ℕ) : Except LocFault (LocMaps × List ℕ × List ℕ) := do
  let (a, pages, done) ← popEmptyPages L n m.emptyPages ⟨m.loc2id, [], []⟩
  if done then
    return ({ m with loc2id := a.loc2id, emptyPages := pages }, a.ret, a.needToRead)
  let (a, done) ← useHintPages L n hintPages a
  if done then
    return ({ m with loc2id := a.loc2id, emptyPages := pages }, a.ret, a.needToRead)
  -- 3. Use new pages; the rest of the last one stays free
  let remaining := n - a.ret.length
  let loc2id ← setLocs a.loc2id m.curLoc remaining .allocated
  let curLoc := L.alignUp (m.curLoc + remaining)
  let loc2id ← setLocs loc2id (m.curLoc + remaining) (curLoc - (m.curLoc + remaining)) .invalid
  return ({ m with loc2id, emptyPages := pages, curLoc },
    a.ret ++ List.range' m.curLoc remaining, a.needToRead)

/-- `erase_loc2id`; a page that is not all in `loc2id_` is a fault. -/
def eraseLoc2id (m : LocMaps) (loc : ℕ) : Except LocFault LocMaps :=
  let st := L.sectorToLoc (L.locSectorNo loc)
  if loc < m.loc2id.length ∧ st + L.nnodesPerSector ≤ m.loc2id.length then
    let loc2id := m.loc2id.set loc .invalid
    if ∀ i ∈ List.range' st L.nnodesPerSector, loc2id[i]? = some .invalid then
      .ok { m with loc2id, emptyPages := m.emptyPages ++ [L.locSectorNo loc] }
    else .ok { m with loc2id }
  else .error .outOfBounds

def eraseAndSetLoc (m : LocMaps) (oldLocs newLocs newIds : List ℕ) : Except LocFault LocMaps := do
  let loc2id ← (newLocs.zip newIds).foldlM (fun v p => setLoc2id v p.1 (.id p.2)) m.loc2id
  oldLocs.foldlM (eraseLoc2id L) { m with loc2id }

end

/-! ### Pages -/

namespace PageLayout

variable {L : PageLayout}

/-- Whole pages end at `curLoc`. -/
def Aligned (L : PageLayout) (curLoc : ℕ) : Prop :=
  L.nnodesPerSector ≠ 0 → L.nnodesPerSector ∣ curLoc

theorem nodup_pageLocs (page : ℕ) : (L.pageLocs page).Nodup := nodup_range' ..

variable {l : ℕ}

theorem div_eq_iff_mem {q n : ℕ} (hn : 0 < n) : l / n = q ↔ q * n ≤ l ∧ l < q * n + n := by
  constructor
  · rintro rfl
    exact ⟨Nat.div_mul_le_self .., Nat.lt_div_mul_add hn⟩
  · rintro ⟨h1, h2⟩
    exact Nat.div_eq_of_lt_le h1 (by rwa [Nat.succ_mul])

theorem mem_pageLocs {loc : ℕ} :
    l ∈ L.pageLocs (L.locSectorNo loc) ↔ L.locSectorNo l = L.locSectorNo loc := by
  unfold pageLocs sectorToLoc locSectorNo
  rw [mem_range'_1]
  by_cases hn : L.nnodesPerSector = 0
  · have hk := L.sectorsPerNode_pos
    simp only [hn, if_true, Nat.lt_irrefl, if_false, Nat.add_sub_cancel_left,
      Nat.mul_div_cancel _ hk]
    constructor
    · intro h
      rw [show l = loc by omega]
    · intro h
      rw [Nat.mul_right_cancel hk (Nat.add_left_cancel h)]
      omega
  · have hpos : 0 < L.nnodesPerSector := Nat.pos_of_ne_zero hn
    simp only [hn, if_false, hpos, if_true, Nat.add_sub_cancel_left]
    rw [← div_eq_iff_mem hpos]
    omega

theorem self_mem_pageLocs (loc : ℕ) : loc ∈ L.pageLocs (L.locSectorNo loc) := mem_pageLocs.2 rfl

theorem pageLocs_lt {page curLoc : ℕ} (ha : L.Aligned curLoc) (h : L.sectorToLoc page < curLoc)
    (hl : l ∈ L.pageLocs page) : l < curLoc := by
  rw [pageLocs, mem_range'_1] at hl
  unfold sectorToLoc at *
  by_cases hn : L.nnodesPerSector = 0
  · simp only [hn, if_true] at *
    omega
  · obtain ⟨c, rfl⟩ := ha hn
    simp only [hn, if_false] at *
    have hlt : page - 1 < c := by
      rw [Nat.mul_comm] at h
      exact Nat.lt_of_mul_lt_mul_left h
    have hle : (page - 1 + 1) * L.nnodesPerSector ≤ c * L.nnodesPerSector :=
      Nat.mul_le_mul_right _ hlt
    rw [Nat.succ_mul, Nat.mul_comm c] at hle
    omega

theorem sectorToLoc_le (loc : ℕ) : L.sectorToLoc (L.locSectorNo loc) ≤ loc := by
  have h := L.self_mem_pageLocs loc
  rw [pageLocs, mem_range'_1] at h
  exact h.1

theorem pageLocs_locSectorNo_lt {loc curLoc : ℕ} (ha : L.Aligned curLoc) (h : loc < curLoc)
    (hl : l ∈ L.pageLocs (L.locSectorNo loc)) : l < curLoc :=
  pageLocs_lt ha ((sectorToLoc_le loc).trans_lt h) hl

theorem le_alignUp (loc : ℕ) : loc ≤ L.alignUp loc := by
  unfold alignUp
  split_ifs with hn
  · exact le_rfl
  · have h := Nat.lt_div_mul_add (Nat.pos_of_ne_zero hn) (a := loc + L.nnodesPerSector - 1)
    omega

theorem aligned_alignUp (loc : ℕ) : L.Aligned (L.alignUp loc) := by
  intro hn
  rw [alignUp, if_neg hn]
  exact Nat.dvd_mul_left ..

end PageLayout

/-! ### Vectors -/

theorem resizeSet_spec {α : Type} {d : α} {v : List α} (hv : 2 ≤ v.length) (i : ℕ) (x : α) :
    ∃ v', resizeSet d v i x = .ok v' ∧ v.length ≤ v'.length ∧ i < v'.length ∧
      v'[i]? = some x ∧ ∀ k < v.length, k ≠ i → v'[k]? = v[k]? := by
  unfold resizeSet
  by_cases h : v.length ≤ i
  · have hlen : i < (grow v (3 * i / 2) d).length := by
      rw [length_grow]
      omega
    simp only [h, if_true, hlen]
    refine ⟨_, rfl, ?_, ?_, ?_, fun k hk hne => ?_⟩
    · rw [length_set]
      omega
    · rwa [length_set]
    · rw [getElem?_set_self hlen]
    · rw [getElem?_set_ne (Ne.symm hne), getElem?_grow_of_lt hk]
  · have hlen : i < v.length := by omega
    simp only [h, if_false, hlen, if_true]
    refine ⟨_, rfl, ?_, ?_, ?_, fun k hk hne => ?_⟩
    · rw [length_set]
    · rwa [length_set]
    · rw [getElem?_set_self hlen]
    · rw [getElem?_set_ne (Ne.symm hne)]

variable {i n : ℕ}

theorem resizeSet_of_lt {α : Type} {d : α} {v : List α} (h : i < v.length) (x : α) :
    resizeSet d v i x = .ok (v.set i x) := by
  simp [resizeSet, Nat.not_le.2 h]

theorem setLocs_spec {v : List Slot} {c : ℕ} (hv : 2 ≤ v.length) (hc : c ≤ v.length) (k : ℕ)
    (x : Slot) : ∃ v', setLocs v c k x = .ok v' ∧ v.length ≤ v'.length ∧ c + k ≤ v'.length ∧
      (∀ l < c, v'[l]? = v[l]?) ∧ ∀ l, c ≤ l → l < c + k → v'[l]? = some x := by
  induction k with
  | zero => exact ⟨v, rfl, le_rfl, hc, fun _ _ => rfl, fun l h1 h2 => by omega⟩
  | succ k ih =>
    obtain ⟨v1, h1, hlen, hlen1, hlow, hnew⟩ := ih
    obtain ⟨v2, h2, hlen2, hi, hset, hkeep⟩ := resizeSet_spec
      (hv.trans hlen) (c + k) x
    refine ⟨v2, ?_, hlen.trans hlen2, by omega, fun l hl => ?_, fun l hl1 hl2 => ?_⟩
    · rw [setLocs] at h1
      rw [setLocs, range'_concat, foldlM_append, h1, Nat.one_mul]
      exact congrArg (· >>= pure) h2
    · rw [hkeep l (by omega) (by omega), hlow l hl]
    · by_cases he : l = c + k
      · rw [he, hset]
      · rw [hkeep l (by omega) he, hnew l hl1 (by omega)]

/-! ### `alloc_loc` -/

/-- From `a` to `a'` exactly the free locations `ls` are taken. -/
structure Takes (a a' : AllocState) (ls : List ℕ) : Prop where
  ret_eq : a'.ret = a.ret ++ ls
  length_eq : a'.loc2id.length = a.loc2id.length
  nodup : ls.Nodup
  free : ∀ l ∈ ls, a.loc2id[l]? = some .invalid
  taken : ∀ l ∈ ls, a'.loc2id[l]? = some .allocated
  others : ∀ l, l ∉ ls → a'.loc2id[l]? = a.loc2id[l]?

theorem Takes.nil (a : AllocState) : Takes a a [] := by
  constructor <;> simp

theorem Takes.take {a : AllocState} (h : a.loc2id[i]? = some .invalid) :
    Takes a (a.take i) [i] := by
  have hlt : i < a.loc2id.length := (List.getElem?_eq_some_iff.1 h).1
  refine ⟨rfl, length_set, nodup_singleton i, ?_, ?_, ?_⟩
  · simpa using h
  · simp [AllocState.take, hlt]
  · intro l hl
    rw [mem_singleton] at hl
    exact getElem?_set_ne (Ne.symm hl)

theorem Takes.trans {a b c : AllocState} {ls ls' : List ℕ} (h : Takes a b ls)
    (h' : Takes b c ls') : Takes a c (ls ++ ls') := by
  -- what is taken later is free after the first takes, so it is not among them
  have hdisj : ∀ l ∈ ls', l ∉ ls := by
    intro l hl hl'
    have := (h.taken l hl').symm.trans (h'.free l hl)
    simp at this
  refine ⟨?_, h'.length_eq.trans h.length_eq, ?_, fun l hl => ?_, fun l hl => ?_, fun l hl => ?_⟩
  · rw [h'.ret_eq, h.ret_eq, append_assoc]
  · exact nodup_append.2 ⟨h.nodup, h'.nodup, fun l hl l' hl' he => hdisj l' hl' (he ▸ hl)⟩
  · obtain hl | hl := mem_append.1 hl
    · exact h.free l hl
    · rw [← h.others l (hdisj l hl)]
      exact h'.free l hl
  · by_cases hl' : l ∈ ls'
    · exact h'.taken l hl'
    · rw [h'.others l hl']
      exact h.taken l ((mem_append.1 hl).resolve_right hl')
  · rw [mem_append, not_or] at hl
    rw [h'.others l hl.2, h.others l hl.1]

/-- Whether there are enough locations now. -/
def Enough (n : ℕ) (a : AllocState) (done : Bool) : Prop :=
  if done then a.ret.length = n else a.ret.length < n

theorem Enough.take {a : AllocState} (h : Enough n a false) (hne : (a.take i).ret.length ≠ n) :
    Enough n (a.take i) false := by
  have h' : a.ret.length < n := h
  have hlen : (a.take i).ret.length = a.ret.length + 1 := length_append
  rw [Enough, if_neg Bool.false_ne_true]
  omega

theorem takeEmpty_spec {is : List ℕ} {a : AllocState} (hnd : is.Nodup)
    (hfree : ∀ i ∈ is, a.loc2id[i]? = some .invalid) (hn : Enough n a false) :
    ∃ a' done ls, takeEmpty n is a = .ok (a', done) ∧ Takes a a' ls ∧ ls ⊆ is ∧
      Enough n a' done := by
  induction is generalizing a with
  | nil => exact ⟨a, false, [], rfl, .nil a, by simp, hn⟩
  | cons i is ih =>
    rw [forall_mem_cons] at hfree
    rw [nodup_cons] at hnd
    have htake := Takes.take hfree.1
    simp only [takeEmpty, hfree.1]
    split_ifs with hdone
    · exact ⟨_, true, [i], rfl, htake, by simp, hdone⟩
    · have hfree' : ∀ j ∈ is, (a.take i).loc2id[j]? = some .invalid := by
        intro j hj
        have hne : j ∉ [i] := by
          rintro h
          exact hnd.1 (mem_singleton.1 h ▸ hj)
        rw [htake.others j hne, hfree.2 j hj]
      obtain ⟨a', done, ls, heq, ht, hsub, hen⟩ := ih hnd.2 hfree' (hn.take hdone)
      exact ⟨a', done, i :: ls, heq, htake.trans ht, cons_subset_cons i hsub, hen⟩

theorem takeHoles_spec {is : List ℕ} {a : AllocState} (hn : Enough n a false) :
    ∃ a' done ls, takeHoles n is a = (a', done) ∧ Takes a a' ls ∧ ls ⊆ is ∧
      Enough n a' done := by
  induction is generalizing a with
  | nil => exact ⟨a, false, [], rfl, .nil a, by simp, hn⟩
  | cons i is ih =>
    rw [takeHoles]
    split_ifs with hfree hdone
    · exact ⟨_, true, [i], rfl, .take hfree, by simp, hdone⟩
    · obtain ⟨a', done, ls, heq, ht, hsub, hen⟩ := ih (hn.take hdone)
      exact ⟨a', done, i :: ls, heq, (Takes.take hfree).trans ht, cons_subset_cons i hsub, hen⟩
    · obtain ⟨a', done, ls, heq, ht, hsub, hen⟩ := ih hn
      exact ⟨a', done, ls, heq, ht, fun l hl => mem_cons_of_mem i (hsub hl), hen⟩

/-- The queue has no page twice, and the pages in it are free. -/
structure QueueOk (L : PageLayout) (curLoc : ℕ) (loc2id : List Slot) (pages : List ℕ) : Prop where
  nodup : pages.Nodup
  page : ∀ p ∈ pages, ∃ loc < curLoc, p = L.locSectorNo loc
  free : ∀ p ∈ pages, ∀ l ∈ L.pageLocs p, loc2id[l]? = some .invalid

variable {L : PageLayout} {curLoc : ℕ}

variable {ps : List ℕ}

theorem QueueOk.tail {v : List Slot} {p : ℕ} (h : QueueOk L curLoc v (p :: ps)) :
    QueueOk L curLoc v ps :=
  ⟨(nodup_cons.1 h.nodup).2, fun q hq => h.page q (mem_cons_of_mem _ hq),
    fun q hq => h.free q (mem_cons_of_mem _ hq)⟩

theorem QueueOk.congr {v v' : List Slot} (h : QueueOk L curLoc v ps)
    (hv : ∀ p ∈ ps, ∀ l ∈ L.pageLocs p, v'[l]? = v[l]?) : QueueOk L curLoc v' ps :=
  ⟨h.nodup, h.page, fun p hp l hl => (hv p hp l hl).trans (h.free p hp l hl)⟩

theorem QueueOk.disjoint {v : List Slot} {p q l : ℕ} (h : QueueOk L curLoc v ps) (hp : p ∈ ps)
    (hq : q ∈ ps) (hlp : l ∈ L.pageLocs p) (hlq : l ∈ L.pageLocs q) : p = q := by
  obtain ⟨loc, -, rfl⟩ := h.page p hp
  obtain ⟨loc', -, rfl⟩ := h.page q hq
  exact (PageLayout.mem_pageLocs.1 hlp).symm.trans (PageLayout.mem_pageLocs.1 hlq)

theorem popEmptyPages_spec {pages : List ℕ} {a : AllocState} (ha : L.Aligned curLoc)
    (hq : QueueOk L curLoc a.loc2id pages) (hn : Enough n a false) :
    ∃ a' pages' done ls, popEmptyPages L n pages a = .ok (a', pages', done) ∧ Takes a a' ls ∧
      (∀ l ∈ ls, l < curLoc) ∧ QueueOk L curLoc a'.loc2id pages' ∧ Enough n a' done ∧
      (done = false → pages' = []) := by
  induction pages generalizing a with
  | nil => exact ⟨a, [], false, [], rfl, .nil a, by simp, hq, hn, fun _ => rfl⟩
  | cons p ps ih =>
    have hp : p ∈ p :: ps := mem_cons_self
    obtain ⟨a1, done, ls, heq, ht, hsub, hen⟩ :=
      takeEmpty_spec (L.nodup_pageLocs p) (hq.free p hp) hn
    have hlt : ∀ l ∈ ls, l < curLoc := by
      intro l hl
      obtain ⟨loc, hloc, rfl⟩ := hq.page p hp
      exact PageLayout.pageLocs_locSectorNo_lt ha hloc (hsub hl)
    have hq1 : QueueOk L curLoc a1.loc2id ps := by
      refine hq.tail.congr fun q hqm l hl => ht.others l fun hl' => ?_
      have he := hq.disjoint hp (mem_cons_of_mem _ hqm) (hsub hl') hl
      exact (nodup_cons.1 hq.nodup).1 (he ▸ hqm)
    cases done with
    | true =>
      refine ⟨a1, ps, true, ls, ?_, ht, hlt, hq1, hen, by simp⟩
      simp only [popEmptyPages, heq, bind, Except.bind]
    | false =>
      obtain ⟨a2, pages', done, ls', heq', ht', hlt', hq', hen', hnil⟩ := ih hq1 hen
      refine ⟨a2, pages', done, ls ++ ls', ?_, ht.trans ht', fun l hl => ?_, hq', hen', hnil⟩
      · simp only [popEmptyPages, heq]
        exact heq'
      · obtain hl | hl := mem_append.1 hl
        · exact hlt l hl
        · exact hlt' l hl

/-- The hinted pages have been read by a search, so they start below `curLoc`. -/
def HintsOk (L : PageLayout) (curLoc : ℕ) (hintPages : List ℕ) : Prop :=
  ∀ p ∈ hintPages, L.sectorToLoc p < curLoc

theorem useHintPages_spec {hintPages : List ℕ} {a : AllocState} (ha : L.Aligned curLoc)
    (hlen : curLoc ≤ a.loc2id.length) (hh : HintsOk L curLoc hintPages) (hn : Enough n a false) :
    ∃ a' done ls, useHintPages L n hintPages a = .ok (a', done) ∧ Takes a a' ls ∧
      (∀ l ∈ ls, l < curLoc) ∧ Enough n a' done := by
  induction hintPages generalizing a with
  | nil => exact ⟨a, false, [], rfl, .nil a, by simp, hn⟩
  | cons p ps ih =>
    rw [HintsOk, forall_mem_cons] at hh
    have hlt : ∀ l ∈ L.pageLocs p, l < curLoc := fun l hl => PageLayout.pageLocs_lt ha hh.1 hl
    have hin : (L.pageLocs p).any (fun i => a.loc2id.length ≤ i) = false := by
      rw [any_eq_false]
      intro l hl
      have := hlt l hl
      simp only [decide_eq_true_eq]
      omega
    rw [useHintPages, hin, if_neg Bool.false_ne_true]
    dsimp only
    -- `page_need_to_read` has no part in this
    generalize (if _ < L.nnodesPerSector then a.needToRead.insert p else a.needToRead) = reads
    split_ifs with hcnt
    · exact ih hlen hh.2 hn
    · obtain ⟨a1, done, ls, heq, ht, hsub, hen⟩ :=
        @takeHoles_spec _ (L.pageLocs p) { a with needToRead := reads } hn
      rw [heq]
      have ht : Takes a a1 ls := ⟨ht.1, ht.2, ht.3, ht.4, ht.5, ht.6⟩
      cases done with
      | true => exact ⟨a1, true, ls, rfl, ht, fun l hl => hlt l (hsub hl), hen⟩
      | false =>
        obtain ⟨a2, done, ls', heq', ht', hlt', hen'⟩ := ih (ht.length_eq ▸ hlen) hh.2 hen
        refine ⟨a2, done, ls ++ ls', heq', ht.trans ht', fun l hl => ?_, hen'⟩
        obtain hl | hl := mem_append.1 hl
        · exact hlt l (hsub hl)
        · exact hlt' l hl

/-- What the functions under `alloc_lock` rely on. -/
structure LocMaps.Wf (L : PageLayout) (m : LocMaps) : Prop where
  two_le : 2 ≤ m.loc2id.length
  curLoc_le : m.curLoc ≤ m.loc2id.length
  aligned : L.Aligned m.curLoc
  queue : QueueOk L m.curLoc m.loc2id m.emptyPages

/-- All that `alloc_loc(n)` does. -/
structure Allocated (L : PageLayout) (n : ℕ) (m m' : LocMaps) (locs : List ℕ) : Prop where
  wf : m'.Wf L
  id2loc_eq : m'.id2loc = m.id2loc
  curLoc_le : m.curLoc ≤ m'.curLoc
  length_eq : locs.length = n
  nodup : locs.Nodup
  lt : ∀ l ∈ locs, l < m'.curLoc
  free : ∀ l ∈ locs, l < m.curLoc → m.loc2id[l]? = some .invalid
  allocated : ∀ l ∈ locs, m'.loc2id[l]? = some .allocated
  others : ∀ l < m.curLoc, l ∉ locs → m'.loc2id[l]? = m.loc2id[l]?
  rest : ∀ l, m.curLoc ≤ l → l < m'.curLoc → l ∉ locs → m'.loc2id[l]? = some .invalid

variable {m : LocMaps}

theorem Allocated.live_iff {m' : LocMaps} {locs : List ℕ} (h : Allocated L n m m' locs)
    {loc id : ℕ} : loc < m'.curLoc ∧ m'.loc2id[loc]? = some (.id id) ↔
      loc < m.curLoc ∧ m.loc2id[loc]? = some (.id id) := by
  constructor
  · rintro ⟨hlt, hcell⟩
    have hnot : loc ∉ locs := by
      intro hmem
      rw [h.allocated loc hmem] at hcell
      simp at hcell
    by_cases hold : loc < m.curLoc
    · exact ⟨hold, h.others loc hold hnot ▸ hcell⟩
    · rw [h.rest loc (Nat.not_lt.1 hold) hlt hnot] at hcell
      simp at hcell
  · rintro ⟨hlt, hcell⟩
    have hnot : loc ∉ locs := by
      intro hmem
      rw [h.free loc hmem hlt] at hcell
      simp at hcell
    exact ⟨hlt.trans_le h.curLoc_le, (h.others loc hlt hnot).trans hcell⟩

theorem Takes.allocated {a : AllocState} {pages ls : List ℕ} (hm : m.Wf L)
    (h : Takes ⟨m.loc2id, [], []⟩ a ls) (hlt : ∀ l ∈ ls, l < m.curLoc)
    (hq : QueueOk L m.curLoc a.loc2id pages) (hn : a.ret.length = n) :
    Allocated L n m { m with loc2id := a.loc2id, emptyPages := pages } a.ret := by
  have hret : a.ret = ls := h.ret_eq
  rw [hret] at hn ⊢
  exact {
    wf := ⟨h.length_eq ▸ hm.two_le, h.length_eq ▸ hm.curLoc_le, hm.aligned, hq⟩
    id2loc_eq := rfl
    curLoc_le := le_rfl
    length_eq := hn
    nodup := h.nodup
    lt := hlt
    free := fun l hl _ => h.free l hl
    allocated := h.taken
    others := fun l _ hl => h.others l hl
    rest := fun l h1 h2 => absurd h2 (by exact Nat.not_lt.2 h1) }

theorem allocLoc_spec {hintPages : List ℕ} (hm : m.Wf L) (hn : 0 < n)
    (hh : HintsOk L m.curLoc hintPages) :
    ∃ m' locs reads, allocLoc L n m hintPages = .ok (m', locs, reads) ∧
      Allocated L n m m' locs := by
  obtain ⟨a1, pages, done1, ls1, heq1, ht1, hlt1, hq1, hen1, hnil⟩ :=
    popEmptyPages_spec (a := ⟨m.loc2id, [], []⟩) hm.aligned hm.queue hn
  cases done1 with
  | true =>
    refine ⟨_, a1.ret, a1.needToRead, ?_, ht1.allocated hm hlt1 hq1 hen1⟩
    simp only [allocLoc, heq1]
    rfl
  | false =>
    obtain rfl := hnil rfl
    obtain ⟨a2, done2, ls2, heq2, ht2, hlt2, hen2⟩ := useHintPages_spec hm.aligned
      (ht1.length_eq ▸ hm.curLoc_le) hh hen1
    have ht := ht1.trans ht2
    have hlt : ∀ l ∈ ls1 ++ ls2, l < m.curLoc := by
      intro l hl
      obtain hl | hl := mem_append.1 hl
      · exact hlt1 l hl
      · exact hlt2 l hl
    have hq : ∀ v, QueueOk L m.curLoc v [] := fun v => ⟨nodup_nil, by simp, by simp⟩
    cases done2 with
    | true =>
      refine ⟨_, a2.ret, a2.needToRead, ?_, ht.allocated hm hlt (hq _) hen2⟩
      simp only [allocLoc, heq1, heq2, bind, Except.bind]
      rfl
    | false =>
      have hret : a2.ret = ls1 ++ ls2 := ht.ret_eq
      have hlen : a2.loc2id.length = m.loc2id.length := ht.length_eq
      have hrem : a2.ret.length < n := hen2
      -- the new locations, and the rest of the last page
      obtain ⟨v1, h1, hlen1, hend1, hlow1, hnew1⟩ := setLocs_spec
        (hlen ▸ hm.two_le) (hlen ▸ hm.curLoc_le) (n - a2.ret.length) .allocated
      have hle := L.le_alignUp (m.curLoc + (n - a2.ret.length))
      obtain ⟨v2, h2, hlen2, hend2, hlow2, hnew2⟩ := setLocs_spec
        (by have := hm.two_le; omega) hend1
        (L.alignUp (m.curLoc + (n - a2.ret.length)) - (m.curLoc + (n - a2.ret.length))) .invalid
      have hmem : ∀ l, l ∈ a2.ret ++ range' m.curLoc (n - a2.ret.length) ↔
          l ∈ ls1 ++ ls2 ∨ m.curLoc ≤ l ∧ l < m.curLoc + (n - a2.ret.length) := by
        intro l
        rw [mem_append, hret, mem_range'_1]
      have htwo := hm.two_le
      refine ⟨⟨m.id2loc, v2, [], L.alignUp (m.curLoc + (n - a2.ret.length))⟩,
        a2.ret ++ range' m.curLoc (n - a2.ret.length), a2.needToRead, ?_, ?_⟩
      · simp only [allocLoc, heq1, heq2, bind, Except.bind, h1, h2]
        rfl
      · exact {
          wf := ⟨by dsimp only; omega, by dsimp only; omega, L.aligned_alignUp _,
            nodup_nil, by simp, by simp⟩
          id2loc_eq := rfl
          curLoc_le := by dsimp only; omega
          length_eq := by rw [length_append, length_range']; omega
          nodup := by
            rw [hret]
            refine nodup_append.2 ⟨ht.nodup, nodup_range' .., fun l hl l' hl' he => ?_⟩
            have := hlt l hl
            have := (mem_range'_1.1 hl').1
            omega
          lt := by
            intro l hl
            obtain hl | hl := (hmem l).1 hl
            · have := hlt l hl
              dsimp only
              omega
            · dsimp only
              omega
          free := by
            intro l hl hlt'
            obtain hl | hl := (hmem l).1 hl
            · exact ht.free l hl
            · omega
          allocated := by
            intro l hl
            obtain hl | hl := (hmem l).1 hl
            · have := hlt l hl
              rw [hlow2 l (by omega), hlow1 l this]
              exact ht.taken l hl
            · rw [hlow2 l hl.2]
              exact hnew1 l hl.1 hl.2
          others := by
            intro l hl hnot
            rw [hmem, not_or] at hnot
            rw [hlow2 l (by omega), hlow1 l hl]
            exact ht.others l hnot.1
          rest := by
            intro l h1 h2 hnot
            rw [hmem] at hnot
            exact hnew2 l (by omega) (by dsimp only at h2; omega) }

/-! ### `erase_and_set_loc` -/

theorem setAll_spec {ps : List (ℕ × ℕ)} {v : List Slot} (hnd : (ps.map Prod.fst).Nodup)
    (hlt : ∀ p ∈ ps, p.1 < v.length) :
    ∃ v', ps.foldlM (fun v p => setLoc2id v p.1 (.id p.2)) v = .ok v' ∧ v'.length = v.length ∧
      (∀ p ∈ ps, v'[p.1]? = some (.id p.2)) ∧ ∀ l, l ∉ ps.map Prod.fst → v'[l]? = v[l]? := by
  induction ps generalizing v with
  | nil => exact ⟨v, rfl, rfl, by simp, fun _ _ => rfl⟩
  | cons p ps ih =>
    rw [map_cons, nodup_cons] at hnd
    rw [forall_mem_cons] at hlt
    have hset : setLoc2id v p.1 (.id p.2) = .ok (v.set p.1 (.id p.2)) := resizeSet_of_lt hlt.1 _
    obtain ⟨v', heq, hlen, hin, hout⟩ := ih (v := v.set p.1 (.id p.2)) hnd.2
      (by simpa only [length_set] using hlt.2)
    refine ⟨v', ?_, by rw [hlen, length_set], ?_, fun l hl => ?_⟩
    · rw [foldlM_cons, hset]
      exact heq
    · rw [forall_mem_cons]
      refine ⟨?_, hin⟩
      rw [hout _ hnd.1, getElem?_set_self hlt.1]
    · rw [map_cons, mem_cons, not_or] at hl
      rw [hout l hl.2, getElem?_set_ne (Ne.symm hl.1)]

theorem eraseLoc2id_spec {loc : ℕ} (hm : m.Wf L) (hlt : loc < m.curLoc)
    (hid : m.loc2id[loc]? = some (.id n)) :
    ∃ m', eraseLoc2id L m loc = .ok m' ∧ m'.Wf L ∧ m'.id2loc = m.id2loc ∧ m'.curLoc = m.curLoc ∧
      m'.loc2id = m.loc2id.set loc .invalid := by
  have hloc : loc < m.loc2id.length := hlt.trans_le hm.curLoc_le
  have hst := L.sectorToLoc_le loc
  have hpage : ∀ l ∈ L.pageLocs (L.locSectorNo loc), l < m.loc2id.length := fun l hl =>
    (PageLayout.pageLocs_locSectorNo_lt hm.aligned hlt hl).trans_le hm.curLoc_le
  have hed : L.sectorToLoc (L.locSectorNo loc) + L.nnodesPerSector ≤ m.loc2id.length := by
    by_cases hn : L.nnodesPerSector = 0
    · omega
    · have := hpage (L.sectorToLoc (L.locSectorNo loc) + (L.nnodesPerSector - 1))
        (by rw [PageLayout.pageLocs, if_neg hn, mem_range'_1]; omega)
      omega
  have hlen : (m.loc2id.set loc Slot.invalid).length = m.loc2id.length := length_set
  -- the page of `loc` is not in the queue, so the queue does not see the change
  have hnot : ∀ p ∈ m.emptyPages, loc ∉ L.pageLocs p := by
    intro p hp hl
    rw [hm.queue.free p hp loc hl] at hid
    simp at hid
  have hq : QueueOk L m.curLoc (m.loc2id.set loc .invalid) m.emptyPages := by
    refine hm.queue.congr fun p hp l hl => getElem?_set_ne ?_
    rintro rfl
    exact hnot p hp hl
  rw [eraseLoc2id, if_pos ⟨hloc, hed⟩]
  dsimp only
  split_ifs with hempty
  · refine ⟨_, rfl, ⟨hlen ▸ hm.two_le, hlen ▸ hm.curLoc_le, hm.aligned, ?_, ?_, ?_⟩, rfl, rfl, rfl⟩
    · refine nodup_append.2 ⟨hq.nodup, nodup_singleton _, fun p hp p' hp' he => ?_⟩
      rw [mem_singleton] at hp'
      exact hnot p hp (he ▸ hp' ▸ L.self_mem_pageLocs loc)
    · intro p hp
      obtain hp | hp := mem_append.1 hp
      · exact hq.page p hp
      · exact ⟨loc, hlt, mem_singleton.1 hp⟩
    · intro p hp l hl
      obtain hp | hp := mem_append.1 hp
      · exact hq.free p hp l hl
      · rw [mem_singleton.1 hp] at hl
        by_cases hn : L.nnodesPerSector = 0
        · obtain rfl : l = loc := by
            have h := L.self_mem_pageLocs loc
            rw [PageLayout.pageLocs, if_pos hn, mem_range'_1] at h hl
            omega
          rw [getElem?_set_self hloc]
        · rw [PageLayout.pageLocs, if_neg hn] at hl
          exact hempty l hl
  · exact ⟨_, rfl, ⟨hlen ▸ hm.two_le, hlen ▸ hm.curLoc_le, hm.aligned, hq⟩, rfl, rfl, rfl⟩

theorem eraseAll_spec {olds : List ℕ} (hm : m.Wf L) (hnd : olds.Nodup)
    (hold : ∀ o ∈ olds, o < m.curLoc ∧ ∃ n, m.loc2id[o]? = some (.id n)) :
    ∃ m', olds.foldlM (eraseLoc2id L) m = .ok m' ∧ m'.Wf L ∧ m'.id2loc = m.id2loc ∧
      m'.curLoc = m.curLoc ∧ (∀ o ∈ olds, m'.loc2id[o]? = some .invalid) ∧
      ∀ l, l ∉ olds → m'.loc2id[l]? = m.loc2id[l]? := by
  induction olds generalizing m with
  | nil => exact ⟨m, rfl, hm, rfl, rfl, by simp, fun _ _ => rfl⟩
  | cons o os ih =>
    rw [nodup_cons] at hnd
    rw [forall_mem_cons] at hold
    obtain ⟨⟨hlt, n, hid⟩, hold⟩ := hold
    obtain ⟨m1, heq1, hm1, hi1, hc1, hv1⟩ := eraseLoc2id_spec hm hlt hid
    obtain ⟨m2, heq2, hm2, hi2, hc2, hin, hout⟩ := ih hm1 hnd.2 fun o' ho' => by
      rw [hc1, hv1, getElem?_set_ne (by rintro rfl; exact hnd.1 ho')]
      exact hold o' ho'
    refine ⟨m2, ?_, hm2, hi2.trans hi1, hc2.trans hc1, ?_, fun l hl => ?_⟩
    · rw [foldlM_cons, heq1]
      exact heq2
    · rw [forall_mem_cons]
      refine ⟨?_, hin⟩
      rw [hout o hnd.1, hv1, getElem?_set_self (hlt.trans_le hm.curLoc_le)]
    · rw [mem_cons, not_or] at hl
      rw [hout l hl.2, hv1, getElem?_set_ne (Ne.symm hl.1)]

/-- All that `erase_and_set_loc` does. -/
structure Committed (L : PageLayout) (m m' : LocMaps) (olds news ids : List ℕ) : Prop where
  wf : m'.Wf L
  id2loc_eq : m'.id2loc = m.id2loc
  curLoc_eq : m'.curLoc = m.curLoc
  news_eq : ∀ p ∈ news.zip ids, m'.loc2id[p.1]? = some (.id p.2)
  olds_eq : ∀ o ∈ olds, m'.loc2id[o]? = some .invalid
  others : ∀ l, l ∉ news → l ∉ olds → m'.loc2id[l]? = m.loc2id[l]?

theorem eraseAndSetLoc_spec {olds news ids : List ℕ} (hm : m.Wf L) (hlen : news.length = ids.length)
    (hnew : news.Nodup) (hnd : olds.Nodup)
    (halloc : ∀ l ∈ news, l < m.curLoc ∧ m.loc2id[l]? = some .allocated)
    (hold : ∀ o ∈ olds, o < m.curLoc ∧ ∃ n, m.loc2id[o]? = some (.id n)) :
    ∃ m', eraseAndSetLoc L m olds news ids = .ok m' ∧ Committed L m m' olds news ids := by
  have hfst : (news.zip ids).map Prod.fst = news := map_fst_zip hlen.le
  obtain ⟨v, heq, hvlen, hin, hout⟩ := @setAll_spec (news.zip ids) m.loc2id
    (by rwa [hfst]) fun p hp => (halloc p.1 (of_mem_zip hp).1).1.trans_le hm.curLoc_le
  rw [hfst] at hout
  have hdisj : ∀ l ∈ news, l ∉ olds := by
    intro l hl hl'
    obtain ⟨-, n, hn⟩ := hold l hl'
    rw [(halloc l hl).2] at hn
    simp at hn
  -- the cells of the queue are free, so none of them is set
  have hq : QueueOk L m.curLoc v m.emptyPages := by
    refine hm.queue.congr fun p hp l hl => hout l fun hl' => ?_
    have h := (halloc l hl').2
    rw [hm.queue.free p hp l hl] at h
    simp at h
  have hm1 : LocMaps.Wf L { m with loc2id := v } :=
    ⟨hvlen ▸ hm.two_le, hvlen ▸ hm.curLoc_le, hm.aligned, hq⟩
  obtain ⟨m', heq', hwf, hi, hc, hold', hkeep⟩ := eraseAll_spec hm1 hnd fun o ho => by
    rw [hout o fun h => hdisj o h ho]
    exact hold o ho
  refine ⟨m', ?_, hwf, hi, hc, fun p hp => ?_, hold', fun l hl hl' => ?_⟩
  · rw [eraseAndSetLoc, heq]
    exact heq'
  · rw [hkeep _ (hdisj p.1 (of_mem_zip hp).1)]
    exact hin p hp
  · rw [hkeep l hl', hout l hl]

end DiskANNEval.PipeANN
