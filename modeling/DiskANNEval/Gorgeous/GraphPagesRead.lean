import DiskANNEval.Gorgeous.GraphPages

/-!
# GraphPagesRead — what the searches read from a graph page

Where a page with `C` nodes has room in a sector, it is written, and its nodes are read with their
lists (`Holds`).
-/

namespace DiskANNEval.Gorgeous

open Lib List Option

namespace GraphPages

variable {x : GraphPages} {g : VamanaGraph x} {tool : RelayoutTool} {mode : GraphMode}

/-! ### Room -/

theorem embLen_le (h : x.pageLen mode ≤ x.outputSectorLen) :
    x.embLen mode ≤ x.outputSectorLen * x.bs := by
  have hle := Nat.le_mul_of_pos_right x.outputSectorLen x.bs_pos
  unfold pageLen listsOff at h
  omega

theorem capacity_eq (h : x.embLen mode ≤ x.outputSectorLen * x.bs) :
    x.capacity mode = (x.outputSectorLen * x.bs - x.embLen mode) / (x.graphNodeLen + 4) := by
  cases mode with
  | graphOnly => rfl
  | graphReplica =>
    have hlt : x.outputSectorLen * x.bs < 2 ^ 32 * 2 ^ 31 :=
      Nat.mul_lt_mul_of_lt_of_lt x.output_lt x.bs_lt
    have hemb : x.embLen .graphReplica = x.embNodeLen := rfl
    rw [hemb] at h ⊢
    unfold capacity
    rw [Nat.mod_eq_of_lt (by omega : x.embNodeLen < 2 ^ 64), ← Nat.add_sub_assoc (by omega),
      Nat.add_comm (x.outputSectorLen * x.bs), Nat.add_sub_assoc h, Nat.add_mod_left,
      Nat.mod_eq_of_lt (by omega)]

/-- Nothing is reserved for the number of nodes: it has room where the division leaves 4 bytes. -/
theorem pageLen_le_iff : x.pageLen mode ≤ x.outputSectorLen ↔
    x.embLen mode ≤ x.outputSectorLen * x.bs ∧
      x.outputSectorLen * (x.bs - 1) + 4 ≤
        (x.outputSectorLen * x.bs - x.embLen mode) % (x.graphNodeLen + 4) := by
  have hbs : x.outputSectorLen * x.bs = x.outputSectorLen * (x.bs - 1) + x.outputSectorLen := by
    rw [← Nat.mul_succ, Nat.succ_eq_add_one, Nat.sub_add_cancel x.bs_pos]
  have hlen : x.pageLen mode = x.embLen mode + 4 + x.capacity mode * (x.graphNodeLen + 4) := by
    unfold pageLen listsOff
    ring
  constructor
  · intro h
    have hemb := embLen_le h
    have hdiv := Nat.div_add_mod' (x.outputSectorLen * x.bs - x.embLen mode) (x.graphNodeLen + 4)
    rw [hlen, capacity_eq hemb] at h
    exact ⟨hemb, by omega⟩
  · rintro ⟨hemb, h⟩
    have hdiv := Nat.div_add_mod' (x.outputSectorLen * x.bs - x.embLen mode) (x.graphNodeLen + 4)
    rw [hlen, capacity_eq hemb]
    omega

/-! ### Writing -/

theorem length_graphNode_le (id : ℕ) : (graphNode g tool id).length ≤ x.graphNodeLen := by
  have hdeg := g.nbrs_length id
  have hunused := g.unused_length id
  cases tool <;>
  · simp only [graphNode, length_append, length_leBytes, length_leList, length_nil]
    unfold graphNodeLen
    omega

theorem take_graphNode (id : ℕ) : (graphNode g tool id).take (4 + (g.nbrs id).length * 4) =
    leBytes 4 (g.nbrs id).length ++ leList 4 (g.nbrs id) := by
  have hlen : (leBytes 4 (g.nbrs id).length ++ leList 4 (g.nbrs id)).length =
      4 + (g.nbrs id).length * 4 := by
    rw [length_append, length_leBytes, length_leList]
  unfold graphNode
  rw [← hlen, take_left]

theorem le_length_graphNode (id : ℕ) :
    4 + (g.nbrs id).length * 4 ≤ (graphNode g tool id).length := by
  unfold graphNode
  rw [length_append, length_append, length_leBytes, length_leList]
  omega

variable (g tool mode) in
/-- What a page holds. -/
structure Holds (i : ℕ) (layout : List ℕ) (page : List UInt8) : Prop where
  length : page.length = x.outputSectorLen
  vector : mode = .graphReplica → ∃ id, vectorNode tool i layout = some id ∧
    slice page 0 x.embNodeLen = g.vector id
  count : slice page (x.embLen mode) 4 = leBytes 4 layout.length
  ids : slice page (x.embLen mode + 4) (layout.length * 4) = leList 4 layout
  lists : ∀ j id, layout[j]? = some id →
    slice page (x.listsOff mode + j * x.graphNodeLen) (4 + (g.nbrs id).length * 4) =
      leBytes 4 (g.nbrs id).length ++ leList 4 (g.nbrs id)

variable {i : ℕ} {layout : List ℕ} {page : List UInt8}

theorem startPage_spec {buf : List UInt8} (h : startPage g tool mode i layout = some buf) :
    x.outputSectorLen ≤ x.diskannSectorLen ∧ buf.length = x.diskannSectorLen ∧
      (mode = .graphReplica → ∃ id, vectorNode tool i layout = some id ∧
        slice buf 0 x.embNodeLen = g.vector id) := by
  unfold startPage at h
  split_ifs at h with hlt
  cases mode with
  | graphOnly =>
    cases h
    exact ⟨not_lt.1 hlt, length_replicate, fun hmode => nomatch hmode⟩
  | graphReplica =>
    obtain ⟨id, hid, h⟩ := bind_eq_some_iff.1 h
    refine ⟨not_lt.1 hlt, (length_write h).trans length_replicate, fun _ => ⟨id, hid, ?_⟩⟩
    have hsame := slice_write_same h
    rwa [g.vector_length] at hsame

theorem slot_le {j n w : ℕ} (h : j < n) : j * w + w ≤ n * w := by
  rw [← Nat.succ_mul]
  exact Nat.mul_le_mul_right w h

theorem holds_of_writePage (hfit : x.pageLen mode ≤ x.outputSectorLen)
    (h : writePage g tool mode i layout = some page) :
    layout.length ≤ x.capacity mode ∧ x.outputSectorLen ≤ x.diskannSectorLen ∧
      Holds g tool mode i layout page := by
  obtain ⟨buf₁, h₁, h⟩ := bind_eq_some_iff.1 h
  obtain ⟨buf₂, h₂, h⟩ := bind_eq_some_iff.1 h
  obtain ⟨buf₃, h₃, h⟩ := bind_eq_some_iff.1 h
  obtain ⟨buf₄, h₄, h⟩ := bind_eq_some_iff.1 h
  cases h
  unfold writeLists at h₄
  split_ifs at h₄ with hcap
  obtain ⟨hle, hlen₁, hvec⟩ := startPage_spec h₁
  obtain ⟨hlen₄, hbefore, heach⟩ := writeEach_spec h₄
  have hlists : x.listsOff mode = x.embLen mode + 4 + x.capacity mode * 4 := rfl
  have hpage : x.pageLen mode = x.listsOff mode + x.capacity mode * x.graphNodeLen := rfl
  have hlen : buf₄.length = x.diskannSectorLen := by
    rw [hlen₄, length_write h₃, length_write h₂, hlen₁]
  refine ⟨not_lt.1 hcap, hle, ?_, fun hmode => ?_, ?_, ?_, fun j id hj => ?_⟩
  · rw [List.length_take, hlen, Nat.min_eq_left hle]
  · obtain ⟨id, hid, hslice⟩ := hvec hmode
    have hemb : x.embLen mode = x.embNodeLen := by rw [hmode]; rfl
    refine ⟨id, hid, ?_⟩
    rw [slice_take (by omega), hbefore _ _ (by omega), slice_write_before h₃ (by omega),
      slice_write_before h₂ (by omega), hslice]
  · rw [slice_take (by omega), hbefore _ _ (by omega), slice_write_before h₃ le_rfl]
    have hsame := slice_write_same h₂
    rwa [length_leBytes] at hsame
  · rw [slice_take (by omega), hbefore _ _ (by omega)]
    have hsame := slice_write_same h₃
    rwa [length_leList] at hsame
  · have hlt := (List.getElem?_eq_some_iff.1 hj).1
    have hslot := slot_le (w := x.graphNodeLen) (hlt.trans_le (not_lt.1 hcap))
    have hnode : 4 + (g.nbrs id).length * 4 ≤ x.graphNodeLen := by
      have hdeg := g.nbrs_length id
      unfold graphNodeLen
      omega
    obtain ⟨-, hslice⟩ := heach j (graphNode g tool id) (by rw [getElem?_map, hj]; rfl)
    rw [slice_take (by omega), hslice _ hnode (le_length_graphNode id), take_graphNode]

theorem exists_writePage (hfit : x.pageLen mode ≤ x.outputSectorLen)
    (hle : x.outputSectorLen ≤ x.diskannSectorLen) (hcap : layout.length ≤ x.capacity mode)
    (hne : mode = .graphReplica → layout ≠ []) :
    ∃ page, writePage g tool mode i layout = some page := by
  have hlists : x.listsOff mode = x.embLen mode + 4 + x.capacity mode * 4 := rfl
  have hpage : x.pageLen mode = x.listsOff mode + x.capacity mode * x.graphNodeLen := rfl
  have hlen : (replicate x.diskannSectorLen (0 : UInt8)).length = x.diskannSectorLen :=
    length_replicate
  obtain ⟨buf₁, h₁⟩ : ∃ buf₁, startPage g tool mode i layout = some buf₁ := by
    unfold startPage
    rw [if_neg (not_lt.2 hle)]
    cases mode with
    | graphOnly => exact ⟨_, rfl⟩
    | graphReplica =>
      obtain ⟨id, hid⟩ : ∃ id, vectorNode tool i layout = some id := by
        cases tool with
        | relayout => exact ⟨_, head?_eq_some_head (hne rfl)⟩
        | freeMem => exact ⟨i, rfl⟩
      have hemb : x.embLen .graphReplica = x.embNodeLen := rfl
      obtain ⟨buf, hbuf⟩ : ∃ buf, write (replicate x.diskannSectorLen 0) 0 (g.vector id) =
          some buf := by
        apply write_isSome
        rw [g.vector_length]
        unfold embNodeLen at hemb
        omega
      exact ⟨buf, bind_eq_some_iff.2 ⟨id, hid, hbuf⟩⟩
  have hlen₁ := (startPage_spec h₁).2.1
  obtain ⟨buf₂, h₂⟩ : ∃ buf₂, write buf₁ (x.embLen mode) (leBytes 4 layout.length) = some buf₂ :=
    write_isSome (by rw [length_leBytes]; omega)
  have hlen₂ := length_write h₂
  obtain ⟨buf₃, h₃⟩ : ∃ buf₃, write buf₂ (x.embLen mode + 4) (leList 4 layout) = some buf₃ :=
    write_isSome (by rw [length_leList]; omega)
  have hlen₃ := length_write h₃
  obtain ⟨buf₄, h₄⟩ : ∃ buf₄, writeEach x.graphNodeLen buf₃ (x.listsOff mode)
      (layout.map (graphNode g tool)) = some buf₄ := by
    apply exists_writeEach
    intro j p hp
    rw [getElem?_map] at hp
    obtain ⟨id, hid, rfl⟩ := map_eq_some_iff.1 hp
    have hslot := slot_le (w := x.graphNodeLen)
      ((List.getElem?_eq_some_iff.1 hid).1.trans_le hcap)
    have hnode : (graphNode g tool id).length ≤ x.graphNodeLen := length_graphNode_le id
    omega
  refine ⟨_, bind_eq_some_iff.2 ⟨buf₁, h₁, bind_eq_some_iff.2 ⟨buf₂, h₂,
    bind_eq_some_iff.2 ⟨buf₃, h₃, bind_eq_some_iff.2 ⟨buf₄, ?_, rfl⟩⟩⟩⟩⟩
  rw [writeLists, if_neg (not_lt.2 hcap), h₄]

/-! ### Reading -/

theorem leNat_four {n : ℕ} (h : n < 2 ^ 32) : leNat (leBytes 4 n) = n := by
  rw [leNat_leBytes]
  exact Nat.mod_eq_of_lt h

theorem nodeNbrs_eq {off : ℕ} {ns : List ℕ}
    (h : slice page off (4 + ns.length * 4) = leBytes 4 ns.length ++ leList 4 ns)
    (hlen : ns.length < 2 ^ 32) (hns : ∀ n ∈ ns, n < 2 ^ 32) : nodeNbrs page off = ns := by
  have hcount : slice page off 4 = leBytes 4 ns.length := by
    have hslice : slice (slice page off (4 + ns.length * 4)) 0 4 = slice page (off + 0) 4 :=
      slice_slice (by omega)
    rw [h, Nat.add_zero] at hslice
    rw [← hslice]
    exact (slice_zero_length (leBytes 4 ns.length)).symm ▸ rfl
  have hlist : slice page (off + 4) (ns.length * 4) = leList 4 ns := by
    have hslice : slice (slice page off (4 + ns.length * 4)) 4 (ns.length * 4) =
        slice page (off + 4) (ns.length * 4) := slice_slice le_rfl
    rw [h] at hslice
    rw [← hslice, ← length_leList]
    exact slice_zero_length _
  unfold nodeNbrs
  rw [hcount, leNat_four hlen]
  exact map_leNat_eq hlist hns

theorem nbrs_length_lt (g : VamanaGraph x) (id : ℕ) : (g.nbrs id).length < 2 ^ 32 :=
  (g.nbrs_length id).trans_lt g.degree_lt

theorem Holds.nodeNbrs_eq (h : Holds g tool mode i layout page) {j id : ℕ}
    (hj : layout[j]? = some id) :
    nodeNbrs page (x.listsOff mode + j * x.graphNodeLen) = g.nbrs id :=
  GraphPages.nodeNbrs_eq (h.lists j id hj) (nbrs_length_lt g id) (g.nbrs_lt id)

theorem Holds.pageNodes_eq (h : Holds g tool mode i layout page) (hlen : layout.length < 2 ^ 32)
    (hids : ∀ id ∈ layout, id < 2 ^ 32) :
    x.pageNodes mode page = layout.map fun id => (id, g.nbrs id) := by
  have hids' := map_leNat_eq h.ids hids
  unfold pageNodes
  rw [h.count, leNat_four hlen]
  have hlen' : layout.length = (layout.map fun id => (id, g.nbrs id)).length := (length_map _).symm
  rw [hlen']
  refine map_range_eq fun j node hj => ?_
  rw [getElem?_map] at hj
  obtain ⟨id, hid, rfl⟩ := map_eq_some_iff.1 hj
  have hid' : leNat (slice page (x.embLen mode + 4 + j * 4) 4) = id := by
    have hget : _ = layout[j]? := congrArg (fun l : List ℕ => l[j]?) hids'
    rw [hid, getElem?_map, getElem?_range (List.getElem?_eq_some_iff.1 hid).1] at hget
    exact Option.some.inj hget
  rw [hid', h.nodeNbrs_eq hid]

/-! ### The file -/

theorem readPage_flatten {len : ℕ} (hpos : 0 < len) {head : List UInt8} {pages : List (List UInt8)}
    (hhead : head.length = len) (hpages : ∀ p ∈ pages, p.length = len) (pid : ℕ) :
    readPage len (head ++ pages.flatten) pid = pages[pid]? := by
  have hlen : (head ++ pages.flatten).length = (pages.length + 1) * len := by
    rw [length_append, hhead, length_flatten_of_length hpages, Nat.succ_mul, Nat.add_comm]
  unfold readPage
  rcases Nat.lt_or_ge pid pages.length with hlt | hge
  · rw [getElem?_eq_getElem hlt, readSlice_eq_some, hlen]
    refine ⟨slot_le (Nat.succ_lt_succ hlt), ?_⟩
    rw [Nat.succ_mul, slice_append_right (by omega), hhead, Nat.add_sub_cancel,
      slice_flatten hpages hlt]
  · have hmul := Nat.mul_le_mul_right len (Nat.succ_le_succ hge)
    rw [getElem?_eq_none hge, readSlice, if_neg]
    show ¬ (pid + 1) * len + len ≤ _
    have hmul' : (pages.length + 1) * len ≤ (pid + 1) * len := hmul
    omega

variable {layouts : List (List ℕ)} {file : List UInt8}

theorem readPage_relayout (hfit : x.pageLen mode ≤ x.outputSectorLen)
    (h : relayout g tool mode layouts = some file) (pid : ℕ) :
    (∀ l, layouts[pid]? = some l → ∃ page, readPage x.outputSectorLen file pid = some page ∧
      writePage g tool mode pid l = some page) ∧
    (layouts[pid]? = none → readPage x.outputSectorLen file pid = none) := by
  obtain ⟨pages, hpages, rfl⟩ := map_eq_some_iff.1 h
  have hlen : ∀ p ∈ pages, p.length = x.outputSectorLen := by
    intro p hp
    obtain ⟨⟨l, i⟩, -, hwrite⟩ := exists_of_mem_mapM hpages hp
    exact (holds_of_writePage hfit hwrite).2.2.length
  have hpos : 0 < x.outputSectorLen := by
    unfold pageLen listsOff at hfit
    omega
  rw [readPage_flatten hpos g.header_length hlen]
  constructor
  · intro l hl
    obtain ⟨page, hget, hwrite⟩ := getElem?_of_mapM hpages
      (by rw [getElem?_zipIdx, hl]; rfl : layouts.zipIdx[pid]? = some (l, 0 + pid))
    rw [Nat.zero_add] at hwrite
    exact ⟨page, hget, hwrite⟩
  · intro hnone
    have hcount := (forall₂_of_mapM hpages).length_eq
    rw [length_zipIdx] at hcount
    rw [getElem?_eq_none_iff, ← hcount]
    exact getElem?_eq_none_iff.1 hnone

theorem exists_relayout (hfit : x.pageLen mode ≤ x.outputSectorLen)
    (hle : x.outputSectorLen ≤ x.diskannSectorLen) (ha : Accepted (x := x) mode layouts) :
    ∃ file, relayout g tool mode layouts = some file := by
  obtain ⟨pages, hpages⟩ := exists_mapM (f := fun p : List ℕ × ℕ => writePage g tool mode p.2 p.1)
    (by
      rintro ⟨l, i⟩ hmem
      obtain ⟨hcap, hne, -⟩ := ha l (fst_mem_of_mem_zipIdx hmem)
      exact exists_writePage hfit hle hcap hne)
  exact ⟨_, map_eq_some_iff.2 ⟨pages, hpages, rfl⟩⟩

end GraphPages

end DiskANNEval.Gorgeous
