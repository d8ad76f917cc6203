import DiskANNEval.Gorgeous.GraphPagesRead

/-!
# GraphPagesAgree — when the pages agree with the index

In the replica layout the search takes page `id + 1` for node `id`: its vector and its first list are
those of the node where the partition starts with it, and the comparison reads on into the number of
nodes.  `load_mem_graph` reads as many pages as the nodes would need if all were full.
-/

namespace DiskANNEval.Gorgeous

open Lib List Option Function Nat

namespace GraphPages

variable {x : GraphPages} {g : VamanaGraph x} {tool : RelayoutTool} {layouts : List (List ℕ)}
  {file : List UInt8}

/-! ### The vector -/

theorem take_leBytes {k w : ℕ} (h : k ≤ w) (n : ℕ) : (leBytes w n).take k = leBytes k n := by
  induction k generalizing w n with
  | zero => rfl
  | succ k ih =>
    obtain ⟨w, rfl⟩ : ∃ w', w = w' + 1 := ⟨w - 1, by omega⟩
    rw [leBytes, leBytes, take_succ_cons, ih (le_of_succ_le_succ h)]

theorem leNat_replicate_zero (k : ℕ) : leNat (replicate k 0) = 0 := by
  induction k with
  | zero => rfl
  | succ k ih =>
    rw [replicate_succ, leNat, ih]
    rfl

theorem leBytes_eq_zero {k n : ℕ} : leBytes k n = replicate k 0 ↔ 256 ^ k ∣ n := by
  constructor
  · intro h
    have hmod := leNat_leBytes k n
    rw [h, leNat_replicate_zero] at hmod
    exact dvd_of_mod_eq_zero hmod.symm
  · intro h
    induction k generalizing n with
    | zero => rfl
    | succ k ih =>
      rw [pow_succ] at h
      obtain ⟨c, rfl⟩ := h
      have hdiv : 256 ^ k * 256 * c / 256 = 256 ^ k * c := by
        rw [mul_right_comm, Nat.mul_div_cancel _ (by norm_num)]
      have hzero : UInt8.ofNat (256 ^ k * 256 * c) = 0 := by
        simp
      rw [leBytes, hdiv, ih (dvd_mul_right _ _), hzero]
      rfl

variable (x) in
/-- How many bytes of a page the comparison reads behind the vector. -/
def padding : ℕ := x.alignedDim * x.sizeT - x.embNodeLen

theorem alignedDim_mul : x.alignedDim * x.sizeT = x.embNodeLen + x.padding := by
  have hle : x.embNodeLen ≤ x.alignedDim * x.sizeT := by
    apply Nat.mul_le_mul_right
    unfold alignedDim
    omega
  unfold padding
  omega

theorem comparedCoords_eq_iff {page vector : List UInt8} {n : ℕ} (hvec : vector.length = x.embNodeLen)
    (hlen : x.embNodeLen ≤ page.length) (hcount : slice page x.embNodeLen 4 = leBytes 4 n)
    (hn : 0 < n) (hn' : n < 2 ^ 32) :
    x.comparedCoords page = x.alignedVector vector ↔
      slice page 0 x.embNodeLen = vector ∧ 256 ^ x.padding ∣ n := by
  have hzero : slice page x.embNodeLen x.padding = replicate x.padding 0 ↔
      256 ^ x.padding ∣ n := by
    rcases lt_or_ge 4 x.padding with hlt | hle
    · constructor
      · intro h
        have hfour := congrArg (List.take 4) h
        rw [slice, take_take, take_replicate,
          min_eq_left hlt.le] at hfour
        have hdvd := leBytes_eq_zero.1 (hcount.symm.trans hfour)
        exact absurd (le_of_dvd hn hdvd) (not_le.2 hn')
      · intro h
        have hpow : 256 ^ 4 ∣ 256 ^ x.padding := pow_dvd_pow 256 hlt.le
        exact absurd (le_of_dvd hn (hpow.trans h)) (not_le.2 hn')
    · have htake : slice page x.embNodeLen x.padding = leBytes x.padding n := by
        rw [← take_leBytes hle, ← hcount, slice, slice, take_take, min_eq_left hle]
      rw [htake, leBytes_eq_zero]
  have hfirst : (slice page 0 x.embNodeLen).length = vector.length := by
    rw [length_slice (by omega), hvec]
  unfold comparedCoords alignedVector
  rw [alignedDim_mul, slice_add, zero_add, Nat.add_sub_cancel_left, ← hzero]
  constructor
  · exact fun h => append_inj h hfirst
  · rintro ⟨h₁, h₂⟩
    rw [h₁, h₂]

/-! ### The replica layout -/

variable (g tool) in
/-- The page of a node is that of a partition that starts with it, or with one of the same vector and
list, and the bytes that the comparison reads behind the vector are zero. -/
def ReplicaOwn (layouts : List (List ℕ)) : Prop :=
  ∀ id < g.numPoints, ∃ l, layouts[id]? = some l ∧
    (∃ v, vectorNode tool id l = some v ∧ g.vector v = g.vector id) ∧
    (∃ first, l.head? = some first ∧ g.nbrs first = g.nbrs id) ∧ 256 ^ x.padding ∣ l.length

theorem length_lt_of_capacity {mode : GraphMode} {l : List ℕ} (hfit : x.pageLen mode ≤ x.outputSectorLen)
    (hcap : l.length ≤ x.capacity mode) : l.length < 2 ^ 32 := by
  have hlt := x.output_lt
  unfold pageLen listsOff at hfit
  omega

theorem replicaAgrees_iff (hfit : x.pageLen .graphReplica ≤ x.outputSectorLen)
    (ha : Accepted (x := x) .graphReplica layouts)
    (h : relayout g tool .graphReplica layouts = some file) :
    ReplicaAgrees g file ↔ ReplicaOwn g tool layouts := by
  apply forall₂_congr
  intro id hid
  obtain ⟨hsome, hnone⟩ := readPage_relayout hfit h id
  cases hl : layouts[id]? with
  | none =>
    rw [hnone hl]
    constructor
    · rintro ⟨page, hpage, -⟩
      exact nomatch hpage
    · rintro ⟨l, hl', -⟩
      exact nomatch hl'
  | some l =>
    obtain ⟨page, hread, hwrite⟩ := hsome l hl
    obtain ⟨hcap, -, hholds⟩ := holds_of_writePage hfit hwrite
    obtain ⟨-, hne, hids⟩ := ha l (mem_of_getElem? hl)
    obtain ⟨first, rest, rfl⟩ := exists_cons_of_ne_nil (hne rfl)
    obtain ⟨v, hv, hvec⟩ := hholds.vector rfl
    have hlt := length_lt_of_capacity hfit hcap
    have hemb : x.embNodeLen ≤ page.length := by
      have hlists : x.listsOff .graphReplica = x.embNodeLen + 4 + x.capacity .graphReplica * 4 := rfl
      rw [hholds.length]
      unfold pageLen at hfit
      omega
    have hcompared : x.comparedCoords page = x.alignedVector (g.vector id) ↔
        slice page 0 x.embNodeLen = g.vector id ∧ 256 ^ x.padding ∣ (first :: rest).length :=
      comparedCoords_eq_iff (g.vector_length id) hemb hholds.count (succ_pos _) hlt
    have hfirst : nodeNbrs page (x.listsOff .graphReplica) = g.nbrs first := by
      have hzero : nodeNbrs page (x.listsOff .graphReplica + 0 * x.graphNodeLen) = g.nbrs first :=
        hholds.nodeNbrs_eq rfl
      rwa [zero_mul, add_zero] at hzero
    have hrest : ∀ node ∈ (x.pageNodes .graphReplica page).drop 1, node.2 = g.nbrs node.1 := by
      rw [hholds.pageNodes_eq hlt hids]
      intro node hnode
      obtain ⟨n, -, rfl⟩ := mem_map.1 (mem_of_mem_drop hnode)
      rfl
    constructor
    · rintro ⟨page', hread', hcoords, hlist, -⟩
      obtain rfl := Option.some.inj (hread.symm.trans hread')
      obtain ⟨hv', hpad⟩ := hcompared.1 hcoords
      exact ⟨_, rfl, ⟨v, hv, hvec.symm.trans hv'⟩, ⟨first, rfl, hfirst.symm.trans hlist⟩, hpad⟩
    · rintro ⟨l', hl', ⟨v', hv', hvec'⟩, ⟨first', hfirst', hnbrs⟩, hpad⟩
      cases hl'
      obtain rfl := Option.some.inj (hv.symm.trans hv')
      cases hfirst'
      exact ⟨page, hread, hcompared.2 ⟨hvec.trans hvec', hpad⟩, hfirst.trans hnbrs, hrest⟩

/-! ### `load_mem_graph` -/

section Store

variable (a : MemGraphArgs) (numPoints : ℕ) (nbrs : ℕ → List ℕ)

/-- What is stored after some nodes were read. -/
structure Stored (read : List ℕ) (m : MemGraph) : Prop where
  length : m.lists.length = a.size numPoints
  next : m.curPopularSid = a.maxCachedId numPoints + read.countP (a.isPopular numPoints)
  next_le : m.curPopularSid ≤ a.size numPoints
  cached : ∀ id < a.maxCachedId numPoints, m.lists[id]? = some (if id ∈ read then nbrs id else [])
  popular : ∀ id sid, m.cachedPopular id = some sid →
    a.maxCachedId numPoints ≤ sid ∧ sid < m.curPopularSid ∧ m.lists[sid]? = some (nbrs id)

variable {a numPoints nbrs} {read : List ℕ} {m : MemGraph} {id : ℕ}

theorem maxCachedId_le : a.maxCachedId numPoints ≤ a.size numPoints := sub_le _ _

theorem Stored.start : Stored a numPoints nbrs []
    ⟨replicate (a.size numPoints) [], fun _ => none, a.maxCachedId numPoints⟩ := by
  refine ⟨length_replicate, rfl, maxCachedId_le, fun id hid => ?_, fun id sid h => nomatch h⟩
  rw [if_neg not_mem_nil, getElem?_replicate, if_pos (hid.trans_le maxCachedId_le)]

theorem countP_append_of_not (h : a.isPopular numPoints id = false) :
    (read ++ [id]).countP (a.isPopular numPoints) = read.countP (a.isPopular numPoints) := by
  rw [countP_append, countP_singleton, h]
  rfl

theorem not_popular_of_lt (h : id < a.maxCachedId numPoints) : a.isPopular numPoints id = false := by
  exact decide_eq_false fun hpop => absurd hpop.2 (not_le.2 h)

theorem le_of_popular (h : a.isPopular numPoints id = true) : a.maxCachedId numPoints ≤ id :=
  (of_decide_eq_true h).2

theorem mem_append_iff_of_ne {i : ℕ} (h : i ≠ id) : i ∈ read ++ [id] ↔ i ∈ read := by
  rw [mem_append, mem_singleton, or_iff_left h]

theorem Stored.set_cached (h : Stored a numPoints nbrs read m) (hid : id < a.maxCachedId numPoints) :
    Stored a numPoints nbrs (read ++ [id]) { m with lists := m.lists.set id (nbrs id) } := by
  have hlt : id < m.lists.length := by
    rw [h.length]
    exact hid.trans_le maxCachedId_le
  refine ⟨(length_set ..).trans h.length, ?_, h.next_le, fun i hi => ?_, fun i sid hsid => ?_⟩
  · rw [countP_append_of_not (not_popular_of_lt hid)]
    exact h.next
  · show (m.lists.set id (nbrs id))[i]? = _
    by_cases heq : i = id
    · rw [heq, getElem?_set_self hlt, if_pos (mem_append_right _ mem_cons_self)]
    · rw [getElem?_set_ne (Ne.symm heq), h.cached i hi]
      simp only [mem_append_iff_of_ne heq]
  · obtain ⟨hle, hnext, hget⟩ := h.popular i sid hsid
    refine ⟨hle, hnext, ?_⟩
    show (m.lists.set id (nbrs id))[sid]? = _
    rw [getElem?_set_ne (by omega), hget]

theorem Stored.set_popular (h : Stored a numPoints nbrs read m) (hid : a.isPopular numPoints id = true)
    (hlt : m.curPopularSid < m.lists.length) : Stored a numPoints nbrs (read ++ [id])
      { lists := m.lists.set m.curPopularSid (nbrs id)
        cachedPopular := Function.update m.cachedPopular id (some m.curPopularSid)
        curPopularSid := m.curPopularSid + 1 } := by
  have hmax : a.maxCachedId numPoints ≤ m.curPopularSid := by
    rw [h.next]
    exact le_add_right _ _
  refine ⟨(length_set ..).trans h.length, ?_, ?_, fun i hi => ?_, fun i sid hsid => ?_⟩
  · show m.curPopularSid + 1 = _
    rw [countP_append, countP_singleton, hid, h.next]
    rfl
  · rw [h.length] at hlt
    exact hlt
  · show (m.lists.set m.curPopularSid (nbrs id))[i]? = _
    have heq : i ≠ id := by
      have hle := le_of_popular hid
      omega
    rw [getElem?_set_ne (by omega), h.cached i hi]
    simp only [mem_append_iff_of_ne heq]
  · show a.maxCachedId numPoints ≤ sid ∧ sid < m.curPopularSid + 1 ∧
      (m.lists.set m.curPopularSid (nbrs id))[sid]? = _
    by_cases heq : i = id
    · have hsid' : Function.update m.cachedPopular id (some m.curPopularSid) i = some sid := hsid
      rw [heq, update_self] at hsid'
      cases hsid'
      exact ⟨hmax, lt_succ_self _, by rw [heq, getElem?_set_self hlt]⟩
    · have hsid' : Function.update m.cachedPopular id (some m.curPopularSid) i = some sid := hsid
      rw [update_of_ne heq] at hsid'
      obtain ⟨hle, hnext, hget⟩ := h.popular i sid hsid'
      exact ⟨hle, by omega, by rw [getElem?_set_ne (by omega), hget]⟩

theorem Stored.skip (h : Stored a numPoints nbrs read m) (hid : ¬ id < a.maxCachedId numPoints)
    (hpop : a.isPopular numPoints id = false) : Stored a numPoints nbrs (read ++ [id]) m := by
  refine ⟨h.length, ?_, h.next_le, fun i hi => ?_, h.popular⟩
  · rw [countP_append_of_not hpop]
    exact h.next
  · have heq : i ≠ id := fun heq => hid (heq ▸ hi)
    rw [h.cached i hi]
    simp only [mem_append_iff_of_ne heq]

theorem foldlM_store (h : Stored a numPoints nbrs read m) (ids : List ℕ) :
    (∃ m', (ids.map fun id => (id, nbrs id)).foldlM (a.store numPoints) m = some m' ∧
      Stored a numPoints nbrs (read ++ ids) m') ∨
    ((ids.map fun id => (id, nbrs id)).foldlM (a.store numPoints) m = none ∧
      a.size numPoints <
        a.maxCachedId numPoints + (read ++ ids).countP (a.isPopular numPoints)) := by
  induction ids generalizing read m with
  | nil =>
    rw [append_nil]
    exact Or.inl ⟨m, rfl, h⟩
  | cons id ids ih =>
    rw [map_cons, foldlM_cons, append_cons]
    unfold MemGraphArgs.store
    split_ifs with hid hpop hlt
    · exact ih (h.set_cached hid)
    · exact ih (h.set_popular hpop hlt)
    · refine Or.inr ⟨rfl, ?_⟩
      have hnext := h.next
      rw [h.length] at hlt
      rw [countP_append, countP_append, countP_singleton, if_pos hpop]
      omega
    · exact ih (h.skip hid (by simpa using hpop))

/-- Which popular nodes have places, and each has its own. -/
structure Placed (a : MemGraphArgs) (numPoints : ℕ) (read : List ℕ) (m : MemGraph) : Prop where
  lt : ∀ id sid, m.cachedPopular id = some sid → sid < m.curPopularSid
  inj : ∀ id id' sid, m.cachedPopular id = some sid → m.cachedPopular id' = some sid → id = id'
  mapped : ∀ id, (∃ sid, m.cachedPopular id = some sid) ↔
    a.isPopular numPoints id = true ∧ id ∈ read

theorem Placed.start {lists : List (List ℕ)} {sid : ℕ} :
    Placed a numPoints [] ⟨lists, fun _ => none, sid⟩ :=
  ⟨fun _ _ h => (nomatch h), fun _ _ _ h => (nomatch h), fun _ => by simp⟩

theorem popular_mem_append_iff (h : a.isPopular numPoints id = false) (i : ℕ) :
    a.isPopular numPoints i = true ∧ i ∈ read ++ [id] ↔ a.isPopular numPoints i = true ∧ i ∈ read := by
  refine and_congr_right fun hi => mem_append_iff_of_ne fun heq => ?_
  rw [heq, h] at hi
  cases hi

theorem Placed.store {list : List ℕ} {m' : MemGraph} (h : Placed a numPoints read m)
    (hs : a.store numPoints m (id, list) = some m') : Placed a numPoints (read ++ [id]) m' := by
  unfold MemGraphArgs.store at hs
  split_ifs at hs with hid hpop hlt
  · cases hs
    exact ⟨h.lt, h.inj, fun i => (h.mapped i).trans
      (popular_mem_append_iff (not_popular_of_lt hid) i).symm⟩
  · cases hs
    have hother : ∀ i, i ≠ id → Function.update m.cachedPopular id (some m.curPopularSid) i =
        m.cachedPopular i := fun i hi => update_of_ne hi _ _
    have hself : Function.update m.cachedPopular id (some m.curPopularSid) id =
        some m.curPopularSid := update_self _ _ _
    -- the place is above those given before
    have hnew : ∀ i sid, Function.update m.cachedPopular id (some m.curPopularSid) i = some sid →
        i = id ∧ sid = m.curPopularSid ∨
          i ≠ id ∧ m.cachedPopular i = some sid ∧ sid < m.curPopularSid := by
      intro i sid hi
      by_cases heq : i = id
      · rw [heq, hself] at hi
        exact .inl ⟨heq, (Option.some.inj hi).symm⟩
      · rw [hother i heq] at hi
        exact .inr ⟨heq, hi, h.lt i sid hi⟩
    refine ⟨fun i sid hi => ?_, fun i i' sid hi hi' => ?_, fun i => ?_⟩
    · show sid < m.curPopularSid + 1
      rcases hnew i sid hi with ⟨-, rfl⟩ | ⟨-, -, hsid⟩ <;> omega
    · rcases hnew i sid hi with ⟨rfl, rfl⟩ | ⟨-, hi, hsid⟩
      · rcases hnew i' _ hi' with ⟨rfl, -⟩ | ⟨-, -, hsid'⟩
        · rfl
        · exact absurd hsid' (lt_irrefl _)
      · rcases hnew i' sid hi' with ⟨-, rfl⟩ | ⟨-, hi', -⟩
        · exact absurd hsid (lt_irrefl _)
        · exact h.inj i i' sid hi hi'
    · show (∃ sid, Function.update m.cachedPopular id (some m.curPopularSid) i = some sid) ↔ _
      by_cases heq : i = id
      · rw [heq, hself]
        exact iff_of_true ⟨_, rfl⟩ ⟨hpop, mem_append_right _ mem_cons_self⟩
      · rw [hother i heq, h.mapped i, mem_append_iff_of_ne heq]
  · cases hs
    have hno : a.isPopular numPoints id = false := by simpa using hpop
    exact ⟨h.lt, h.inj, fun i => (h.mapped i).trans (popular_mem_append_iff hno i).symm⟩

theorem Placed.foldlM {m' : MemGraph} (h : Placed a numPoints read m) (ids : List ℕ)
    (hs : (ids.map fun id => (id, nbrs id)).foldlM (a.store numPoints) m = some m') :
    Placed a numPoints (read ++ ids) m' := by
  induction ids generalizing read m with
  | nil =>
    cases hs
    rwa [append_nil]
  | cons id ids ih =>
    obtain ⟨m₁, h₁, hs⟩ := bind_eq_some_iff.1 hs
    rw [append_cons]
    exact ih (h.store h₁) hs

end Store

/-! ### The layout without vectors -/

/-- The nodes of some pages. -/
def nodesOf (layouts : List (List ℕ)) (pids : List ℕ) : List ℕ :=
  pids.flatMap fun pid => layouts[pid]?.getD []

theorem nodesOf_range (layouts : List (List ℕ)) (n : ℕ) :
    nodesOf layouts (List.range n) = (layouts.take n).flatten := by
  induction n with
  | zero => rfl
  | succ n ih =>
    rw [range_succ, nodesOf, flatMap_append, ← nodesOf, ih, take_add_one]
    cases hn : layouts[n]? with
    | none => simp [hn]
    | some l => simp [hn]

theorem perm_nodesOf {pids pids' : List ℕ} (h : pids.Perm pids') :
    (nodesOf layouts pids).Perm (nodesOf layouts pids') := h.flatMap_right _

variable (g) in
/-- The pages that `load_mem_graph` reads are there, their popular nodes have places, and every other
node that is kept is on one of them, or has no neighbours. -/
def GraphOnlyOwn (a : MemGraphArgs) (layouts : List (List ℕ)) : Prop :=
  x.numGraphPages g.numPoints ≤ layouts.length ∧
  a.maxCachedId g.numPoints + ((layouts.take (x.numGraphPages g.numPoints)).flatten.countP
    (a.isPopular g.numPoints)) ≤ a.size g.numPoints ∧
  ∀ id < g.numPoints, id < a.maxCachedId g.numPoints →
    g.nbrs id = [] ∨ id ∈ (layouts.take (x.numGraphPages g.numPoints)).flatten

variable (g) in
/-- A file of pages of 4096 bytes, with the nodes of each partition and their lists. -/
def IsGraphFile (layouts : List (List ℕ)) (file : List UInt8) : Prop :=
  ∀ pid, (readPage 4096 file pid).map (x.pageNodes .graphOnly) =
    layouts[pid]?.map fun l => l.map fun id => (id, g.nbrs id)

theorem isGraphFile_relayout (hfit : x.pageLen .graphOnly ≤ x.outputSectorLen)
    (ha : Accepted (x := x) .graphOnly layouts) (h : relayout g tool .graphOnly layouts = some file)
    (hlen : x.outputSectorLen = 4096) : IsGraphFile g layouts file := by
  intro pid
  rw [← hlen]
  cases hl : layouts[pid]? with
  | none =>
    rw [(readPage_relayout hfit h pid).2 hl]
    rfl
  | some l =>
    obtain ⟨page, hread, hwrite⟩ := (readPage_relayout hfit h pid).1 l hl
    obtain ⟨hcap, -, hholds⟩ := holds_of_writePage hfit hwrite
    obtain ⟨-, -, hids⟩ := ha l (mem_of_getElem? hl)
    rw [hread, map_some, hholds.pageNodes_eq (length_lt_of_capacity hfit hcap) hids,
      map_some]

theorem IsGraphFile.mapM (h : IsGraphFile g layouts file) (pids : List ℕ) :
    (∀ pid ∈ pids, pid < layouts.length) ∧ (∃ pages, pids.mapM (readPage 4096 file) = some pages ∧
      pages.flatMap (x.pageNodes .graphOnly) =
        (nodesOf layouts pids).map fun id => (id, g.nbrs id)) ∨
    ¬ (∀ pid ∈ pids, pid < layouts.length) ∧ pids.mapM (readPage 4096 file) = none := by
  induction pids with
  | nil => exact .inl ⟨fun _ h => absurd h not_mem_nil, [], rfl, rfl⟩
  | cons pid pids ih =>
    rw [forall_mem_cons, mapM_cons]
    have hpid := h pid
    rcases lt_or_ge pid layouts.length with hlt | hge
    · have hl : layouts[pid]? = some layouts[pid] := getElem?_eq_getElem hlt
      rw [hl] at hpid
      obtain ⟨page, hread, hpage⟩ := map_eq_some_iff.1 hpid
      rw [hread]
      rcases ih with ⟨hlts, pages, hpages, hnodes⟩ | ⟨hno, hnone⟩
      · refine .inl ⟨⟨hlt, hlts⟩, page :: pages, by rw [hpages]; rfl, ?_⟩
        rw [flatMap_cons, hnodes, hpage, nodesOf, nodesOf, flatMap_cons, hl,
          map_append]
        rfl
      · exact .inr ⟨fun hall => hno hall.2, by rw [hnone]; rfl⟩
    · rw [getElem?_eq_none hge] at hpid
      rw [map_eq_none_iff.1 hpid]
      exact .inr ⟨fun hall => absurd hall.1 (not_lt.2 hge), rfl⟩

/-- The nodes of the pages that are read. -/
def nodesRead (x : GraphPages) (numPoints : ℕ) (layouts : List (List ℕ)) : List ℕ :=
  (layouts.take (x.numGraphPages numPoints)).flatten

theorem IsGraphFile.load (h : IsGraphFile g layouts file) (a : MemGraphArgs) :
    x.numGraphPages g.numPoints ≤ layouts.length ∧
      a.maxCachedId g.numPoints +
        (x.nodesRead g.numPoints layouts).countP (a.isPopular g.numPoints) ≤ a.size g.numPoints ∧
      (∃ m read, (∀ id, id ∈ read ↔ id ∈ x.nodesRead g.numPoints layouts) ∧
        x.loadMemGraph a g.numPoints file = some m ∧ Stored a g.numPoints g.nbrs read m ∧
        Placed a g.numPoints read m) ∨
    ¬ (x.numGraphPages g.numPoints ≤ layouts.length ∧ a.maxCachedId g.numPoints +
        (x.nodesRead g.numPoints layouts).countP (a.isPopular g.numPoints) ≤ a.size g.numPoints) ∧
      x.loadMemGraph a g.numPoints file = none := by
  have hperm := a.readOrder_perm (x.numGraphPages g.numPoints)
  have hnodes : (nodesOf layouts (a.readOrder (x.numGraphPages g.numPoints))).Perm
      (x.nodesRead g.numPoints layouts) := by
    rw [nodesRead, ← nodesOf_range]
    exact perm_nodesOf hperm
  have hpids : (∀ pid ∈ a.readOrder (x.numGraphPages g.numPoints), pid < layouts.length) ↔
      x.numGraphPages g.numPoints ≤ layouts.length := by
    simp only [hperm.mem_iff, List.mem_range]
    exact ⟨fun hall => not_lt.1 fun hlt => lt_irrefl _ (hall _ hlt), fun hle _ h => h.trans_le hle⟩
  rw [← hpids]
  rcases h.mapM (a.readOrder (x.numGraphPages g.numPoints)) with
    ⟨hlt, pages, hpages, hflat⟩ | ⟨hno, hnone⟩
  · rw [loadMemGraph, hpages, bind_eq_bind, bind_some, hflat]
    have hstart : Stored a g.numPoints g.nbrs [] _ := .start
    rcases foldlM_store hstart (nodesOf layouts (a.readOrder (x.numGraphPages g.numPoints))) with
      ⟨m, hm, hstored⟩ | ⟨hm, hmore⟩
    · rw [nil_append] at hstored
      refine .inl ⟨hlt, ?_, m, _, fun id => hnodes.mem_iff, hm, hstored, Placed.start.foldlM _ hm⟩
      rw [← hnodes.countP_eq, ← hstored.next]
      exact hstored.next_le
    · rw [nil_append, hnodes.countP_eq] at hmore
      exact .inr ⟨fun hall => absurd hall.2 (not_le.2 hmore), hm⟩
  · exact .inr ⟨fun hall => hno hall.1, by rw [loadMemGraph, hnone]; rfl⟩

theorem IsGraphFile.agrees_iff (h : IsGraphFile g layouts file) (a : MemGraphArgs) :
    GraphOnlyAgrees g a file ↔ GraphOnlyOwn g a layouts := by
  rcases h.load a with ⟨hpages, hplaces, m, read, hmem, hm, hstored, -⟩ | ⟨hno, hnone⟩
  · constructor
    · rintro ⟨m', hm', hagree⟩
      obtain rfl := Option.some.inj (hm.symm.trans hm')
      refine ⟨hpages, hplaces, fun id hid hcached => ?_⟩
      have hget := hagree id hid id (if_pos hcached)
      rw [hstored.cached id hcached] at hget
      split_ifs at hget with hin
      · exact .inr ((hmem id).1 hin)
      · exact .inl (Option.some.inj hget).symm
    · rintro ⟨-, -, hown⟩
      refine ⟨m, hm, fun id hid pos hpos => ?_⟩
      unfold MemGraphArgs.nodeInMemPos at hpos
      split_ifs at hpos with hcached
      · cases hpos
        rw [hstored.cached id hcached]
        rcases hown id hid hcached with hnil | hin
        · rw [hnil, ite_self]
        · rw [if_pos ((hmem id).2 hin)]
      · exact (hstored.popular id pos hpos).2.2
  · constructor
    · rintro ⟨m, hm, -⟩
      rw [hnone] at hm
      cases hm
    · exact fun hown => absurd ⟨hown.1, hown.2.1⟩ hno

/-! ### The positions -/

/-- Each id that is mapped has a position of its own with its list, and the ids below `max_cached_id`
and the hot ids that were chosen are mapped. -/
structure PositionsOk (g : VamanaGraph x) (a : MemGraphArgs) (m : MemGraph) : Prop where
  injective : ∀ id id' pos, a.nodeInMemPos g.numPoints m id = some pos →
    a.nodeInMemPos g.numPoints m id' = some pos → id = id'
  below : ∀ id pos, a.nodeInMemPos g.numPoints m id = some pos → pos < m.lists.length
  list : ∀ id < g.numPoints, ∀ pos, a.nodeInMemPos g.numPoints m id = some pos →
    m.lists[pos]? = some (g.nbrs id)
  cached : ∀ id < a.maxCachedId g.numPoints, ∃ pos, a.nodeInMemPos g.numPoints m id = some pos
  chosen : ∀ id < g.numPoints, id ∈ a.tags.take (a.nCachePopularId) →
    ∃ pos, a.nodeInMemPos g.numPoints m id = some pos

variable (g) in
/-- The same as for the lists, and every hot id that was chosen is on a page that is read. -/
def PositionsOwn (a : MemGraphArgs) (layouts : List (List ℕ)) : Prop :=
  GraphOnlyOwn g a layouts ∧
    ∀ id < g.numPoints, a.isPopular g.numPoints id = true → id ∈ x.nodesRead g.numPoints layouts

/-- For every graph file, list of hot ids and order of completion. -/
theorem positionsOk_iff (h : IsGraphFile g layouts file) (a : MemGraphArgs) :
    (∃ m, x.loadMemGraph a g.numPoints file = some m ∧ PositionsOk g a m) ↔
      PositionsOwn g a layouts := by
  constructor
  · rintro ⟨m, hm, hok⟩
    refine ⟨(h.agrees_iff a).1 ⟨m, hm, hok.list⟩, fun id hid hpop => ?_⟩
    rcases h.load a with ⟨-, -, m', read, hmem, hm', -, hplaced⟩ | ⟨-, hnone⟩
    · obtain rfl := Option.some.inj (hm.symm.trans hm')
      have hpos := hok.chosen id hid (of_decide_eq_true hpop).1
      rw [MemGraphArgs.nodeInMemPos, if_neg (not_lt.2 (le_of_popular hpop)), hplaced.mapped] at hpos
      exact (hmem id).1 hpos.2
    · rw [hnone] at hm
      cases hm
  · rintro ⟨hown, hchosen⟩
    obtain ⟨m, hm, hlist⟩ := (h.agrees_iff a).2 hown
    rcases h.load a with ⟨-, -, m', read, hmem, hm', hstored, hplaced⟩ | ⟨-, hnone⟩
    · obtain rfl := Option.some.inj (hm.symm.trans hm')
      have hpos : ∀ id pos, a.nodeInMemPos g.numPoints m id = some pos →
          id < a.maxCachedId g.numPoints ∧ pos = id ∨
            a.maxCachedId g.numPoints ≤ pos ∧ m.cachedPopular id = some pos := by
        intro id pos hid
        unfold MemGraphArgs.nodeInMemPos at hid
        split_ifs at hid with hlt
        · exact .inl ⟨hlt, (Option.some.inj hid).symm⟩
        · exact .inr ⟨(hstored.popular id pos hid).1, hid⟩
      refine ⟨m, hm, fun id id' pos hid hid' => ?_, fun id pos hid => ?_, hlist,
        fun id hid => ⟨id, if_pos hid⟩, fun id hid htag => ?_⟩
      · rcases hpos id pos hid with ⟨hlt, rfl⟩ | ⟨hge, hid⟩
        · rcases hpos id' pos hid' with ⟨-, heq⟩ | ⟨hge, -⟩
          · exact heq
          · exact absurd hlt (not_lt.2 hge)
        · rcases hpos id' pos hid' with ⟨hlt, rfl⟩ | ⟨-, hid'⟩
          · exact absurd hlt (not_lt.2 hge)
          · exact hplaced.inj id id' pos hid hid'
      · rw [hstored.length]
        rcases hpos id pos hid with ⟨hlt, rfl⟩ | ⟨-, hid⟩
        · exact hlt.trans_le maxCachedId_le
        · exact (hplaced.lt id pos hid).trans_le hstored.next_le
      · unfold MemGraphArgs.nodeInMemPos
        split_ifs with hlt
        · exact ⟨id, rfl⟩
        · have hpop : a.isPopular g.numPoints id = true := decide_eq_true ⟨htag, not_lt.1 hlt⟩
          exact (hplaced.mapped id).2 ⟨hpop, (hmem id).2 (hchosen id hid hpop)⟩
    · rw [hnone] at hm
      cases hm

/-! ### The pages as a whole -/

/-- The page of the replica layout has room in a sector, and with the partitions of the file the tool
writes pages that agree with the index. -/
def ReplicaCorrect (g : VamanaGraph x) (tool : RelayoutTool) (layouts : List (List ℕ)) : Prop :=
  x.pageLen .graphReplica ≤ x.outputSectorLen ∧
    ∃ file, relayout g tool .graphReplica layouts = some file ∧ ReplicaAgrees g file

/-- The same for the pages without vectors. -/
def GraphOnlyCorrect (g : VamanaGraph x) (tool : RelayoutTool) (a : MemGraphArgs)
    (layouts : List (List ℕ)) : Prop :=
  x.pageLen .graphOnly ≤ x.outputSectorLen ∧
    ∃ file, relayout g tool .graphOnly layouts = some file ∧ GraphOnlyAgrees g a file

variable (x) in
/-- The division of the capacity leaves what the number of nodes takes, also where `BS` counts more
than the one sector, and `sector_buf` has a whole sector. -/
def HasRoom (mode : GraphMode) : Prop :=
  x.embLen mode ≤ x.outputSectorLen * x.bs ∧
    x.outputSectorLen * (x.bs - 1) + 4 ≤
      (x.outputSectorLen * x.bs - x.embLen mode) % (x.graphNodeLen + 4) ∧
    x.outputSectorLen ≤ x.diskannSectorLen

theorem graphOnlyAgrees_iff (hfit : x.pageLen .graphOnly ≤ x.outputSectorLen)
    (ha : Accepted (x := x) .graphOnly layouts) (h : relayout g tool .graphOnly layouts = some file)
    (hlen : x.outputSectorLen = 4096) (a : MemGraphArgs) :
    GraphOnlyAgrees g a file ↔ GraphOnlyOwn g a layouts :=
  (isGraphFile_relayout hfit ha h hlen).agrees_iff a

theorem output_le_of_relayout {mode : GraphMode} (hfit : x.pageLen mode ≤ x.outputSectorLen)
    (h : relayout g tool mode layouts = some file) (hpos : 0 < layouts.length) :
    x.outputSectorLen ≤ x.diskannSectorLen := by
  obtain ⟨page, -, hwrite⟩ := (readPage_relayout hfit h 0).1 _ (getElem?_eq_getElem hpos)
  exact (holds_of_writePage hfit hwrite).2.1

theorem numGraphPages_pos (hcap : 0 < x.capacity .graphOnly) (g : VamanaGraph x) :
    0 < x.numGraphPages g.numPoints := by
  have hpos := g.numPoints_pos
  apply div_pos _ hcap
  omega

theorem one_sub_lt (id : ℕ) : ∀ n ∈ [1 - id], n < 2 ^ 32 := by
  intro n hn
  rw [mem_singleton.1 hn]
  omega

/-- Two nodes with zero vectors, each the neighbour of the other. -/
def twoNodes (x : GraphPages) (hpos : 0 < x.maxDegree) (hlt : x.maxDegree < 2 ^ 32) :
    VamanaGraph x where
  numPoints := 2
  numPoints_pos := Nat.two_pos
  vector _ := List.replicate (x.dim * x.sizeT) 0
  vector_length _ := List.length_replicate
  nbrs id := [1 - id]
  nbrs_length _ := hpos
  degree_lt := hlt
  nbrs_lt := one_sub_lt
  unused _ := List.replicate ((x.maxDegree - 1) * 4) 0
  unused_length _ := List.length_replicate
  header := List.replicate x.outputSectorLen 0
  header_length := List.length_replicate

/-- All nodes are kept, the reads complete in order. -/
def keepAll : MemGraphArgs := ⟨true, 0, [], List.range, fun _ => List.Perm.refl _⟩

theorem sector_lt : 4096 < 2 ^ 32 := by norm_num

theorem one_lt_block : 1 < 2 ^ 31 := by norm_num

theorem eight_pos : 0 < 8 := succ_pos 7

theorem four_pos : 0 < 4 := succ_pos 3

/-- `float` vectors of dimension 8 and one sector, with a degree. -/
def sized (maxDegree : ℕ) : GraphPages where
  dim := 8
  dim_pos := eight_pos
  sizeT := 4
  sizeT_pos := four_pos
  maxDegree
  diskannSectorLen := 4096
  outputSectorLen := 4096
  output_lt := sector_lt
  bs := 1
  bs_pos := Nat.one_pos
  bs_lt := one_lt_block

theorem one_lt_degree : 1 < 2 ^ 32 := by norm_num

theorem thirty_lt_degree : 30 < 2 ^ 32 := by norm_num

/-- With degree 1 the division leaves room. -/
def roomyGraph : VamanaGraph (sized 1) := twoNodes (sized 1) Nat.one_pos one_lt_degree

/-- With degree 30 a list takes 128 bytes with its id, and nothing is left. -/
def tightGraph : VamanaGraph (sized 30) := twoNodes (sized 30) (Nat.succ_pos _) thirty_lt_degree

theorem accepted_pair (maxDegree : ℕ) (mode : GraphMode) (hcap : 2 ≤ (sized maxDegree).capacity mode)
    {layouts : List (List ℕ)} (h : ∀ l ∈ layouts, l = [0, 1] ∨ l = [1, 0]) :
    Accepted (x := sized maxDegree) mode layouts := by
  intro l hl
  rcases h l hl with rfl | rfl
  · exact ⟨hcap, fun _ => cons_ne_nil _ _, by simp⟩
  · exact ⟨hcap, fun _ => cons_ne_nil _ _, by simp⟩

theorem exists_graphFile {d : ℕ} (g : VamanaGraph (sized d)) (layouts : List (List ℕ))
    (hfit : (sized d).pageLen .graphOnly ≤ 4096)
    (ha : Accepted (x := sized d) .graphOnly layouts) :
    ∃ file, relayout g .freeMem .graphOnly layouts = some file ∧ IsGraphFile g layouts file := by
  obtain ⟨file, hfile⟩ : ∃ file, relayout g .freeMem .graphOnly layouts = some file :=
    exists_relayout hfit le_rfl ha
  exact ⟨file, hfile, isGraphFile_relayout hfit ha hfile rfl⟩

/-- One node is kept, and it is a hot one. -/
def keepHot (tags : List ℕ) : MemGraphArgs := ⟨false, 1, tags, List.range, fun _ => List.Perm.refl _⟩

theorem roomy_positions : ∃ file m, (sized 1).loadMemGraph (keepHot [1, 1]) 2 file = some m ∧
    PositionsOk roomyGraph (keepHot [1, 1]) m := by
  obtain ⟨file, -, hfile⟩ := exists_graphFile roomyGraph [[0, 1]]
    (by decide) (accepted_pair 1 _ (by decide) (by simp))
  refine ⟨file, (positionsOk_iff hfile (keepHot [1, 1])).2
    ⟨⟨by decide, by decide, fun id _ hlt => absurd hlt (not_lt_zero id)⟩, fun id _ hpop => ?_⟩⟩
  have hmem := (of_decide_eq_true hpop).1
  rw [mem_singleton.1 hmem]
  decide

theorem replica_lt_degree : 300 < 2 ^ 32 := by norm_num

/-- Three nodes on a page. -/
def replicaGraph : VamanaGraph (sized 300) :=
  twoNodes (sized 300) (Nat.succ_pos _) replica_lt_degree

/-- Two copies of a hot node on a page take two places, where there is one. -/
theorem replica_not_positions : ∃ file,
    relayout replicaGraph .freeMem .graphOnly [[0, 1, 0], [1, 0, 1]] = some file ∧
      IsGraphFile replicaGraph [[0, 1, 0], [1, 0, 1]] file ∧
      ¬ ∃ m, (sized 300).loadMemGraph (keepHot [0]) 2 file = some m ∧
        PositionsOk replicaGraph (keepHot [0]) m := by
  obtain ⟨file, hrelayout, hfile⟩ := exists_graphFile replicaGraph [[0, 1, 0], [1, 0, 1]]
    (by decide) (by unfold Accepted; decide)
  refine ⟨file, hrelayout, hfile, ?_⟩
  rintro ⟨m, hm, -⟩
  rcases hfile.load (keepHot [0]) with ⟨-, hplaces, -⟩ | ⟨-, hnone⟩
  · exact absurd hplaces (by decide)
  · exact nomatch hnone.symm.trans hm

end GraphPages

end DiskANNEval.Gorgeous
