import DiskANNEval.PageANN.MergeNodes

/-!
# MergedPages — what `mergeNodesIntoPage` makes

While a page is filled each node is merged or unmerged, and the merged ones are on the pages and on
the new one, each once (`Filling`).  There is always an unmerged node to go on with, since a full page
is made only when more nodes are left than it takes.  So the loop over the pages ends with the last
page (`Finished`), and the maps of the ids number the slots.

The only loop that can fail to end is the one that sets the number of hops: it multiplies by `R`
until there are 500 nodes, and with `R = 1`, or where the powers of `R` are `0` in a `uint32_t`, it
goes on for ever (`exists_numHops_iff`).
-/

namespace DiskANNEval.PageANN

open Lib List Function

variable {D : Type} {m : MergeNodes D}

/-! ### Filling a page -/

/-- The merged nodes are those of the pages and of the new one. -/
structure Filling (m : MergeNodes D) (pages : List (List ℕ)) (g : Grouping) : Prop where
  nodup : (pages.flatten ++ g.grouped).Nodup
  mem : ∀ i, i ∈ pages.flatten ++ g.grouped ↔ i < m.npts ∧ g.unmerged.bitmap i = false
  lt : ∀ i, g.unmerged.bitmap i = true → i < m.npts
  count : g.unmerged.count + (pages.flatten ++ g.grouped).length = m.npts
  before : ∀ i < g.unmerged.lastMin, g.unmerged.bitmap i = false
  min : g.unmerged.lastMin < m.npts → g.unmerged.bitmap g.unmerged.lastMin = true
  page : ∀ p page, pages[p]? = some page → ∀ i ∈ page, g.nodeToPage i = p
  grouped : ∀ i ∈ g.grouped, g.nodeToPage i = pages.length

variable {pages : List (List ℕ)} {g : Grouping}

theorem Filling.bitmap_lastMin (h : Filling m pages g) (hcount : 0 < g.unmerged.count) :
    g.unmerged.bitmap g.unmerged.lastMin = true := by
  apply h.min
  by_contra hge
  have hsub : List.range m.npts ⊆ pages.flatten ++ g.grouped := by
    intro i hi
    have hlt := List.mem_range.1 hi
    exact (h.mem i).2 ⟨hlt, h.before i (by omega)⟩
  have hlen := (nodup_range.subperm hsub).length_le
  have hc := h.count
  rw [length_range] at hlen
  omega

theorem find?_range'_spec (p : ℕ → Bool) {l n : ℕ} (hl : l ≤ n) :
    (∀ i, l ≤ i → i < ((range' l (n - l)).find? fun i => p i).getD n → p i = false) ∧
      (((range' l (n - l)).find? fun i => p i).getD n < n →
        p (((range' l (n - l)).find? fun i => p i).getD n) = true) := by
  obtain ⟨k, rfl⟩ := Nat.exists_eq_add_of_le hl
  rw [Nat.add_sub_cancel_left]
  clear hl
  induction k generalizing l with
  | zero =>
    refine ⟨fun i hi hlt => ?_, fun hlt => ?_⟩
    · have hlt' : i < l + 0 := hlt
      omega
    · have hlt' : l + 0 < l + 0 := hlt
      omega
  | succ k ih =>
    rw [range'_succ, find?_cons]
    cases hp : p l with
    | true =>
      refine ⟨fun i hi hlt => ?_, fun _ => hp⟩
      have hlt' : i < l := hlt
      omega
    | false =>
      have hsum : l + (k + 1) = l + 1 + k := by omega
      rw [hsum]
      obtain ⟨h₁, h₂⟩ := @ih (l + 1)
      refine ⟨fun i hi hlt => ?_, h₂⟩
      by_cases hil : i = l
      · rw [hil]
        exact hp
      · exact h₁ i (by omega) hlt

variable {id fuel : ℕ}

theorem Filling.not_mem (h : Filling m pages g) (hid : g.unmerged.bitmap id = true) :
    id ∉ pages.flatten ++ g.grouped := by
  intro hmem
  have hf := ((h.mem id).1 hmem).2
  rw [hid] at hf
  cases hf

theorem Filling.nodup_snoc (h : Filling m pages g) (hid : g.unmerged.bitmap id = true) :
    ((pages.flatten ++ g.grouped) ++ [id]).Nodup := by
  rw [nodup_append']
  refine ⟨h.nodup, nodup_singleton id, fun i hi hi' => ?_⟩
  rw [mem_singleton] at hi'
  exact h.not_mem hid (hi' ▸ hi)

theorem Filling.count_pos (h : Filling m pages g) (hid : g.unmerged.bitmap id = true) :
    0 < g.unmerged.count := by
  have hsub : (pages.flatten ++ g.grouped) ++ [id] ⊆ List.range m.npts := by
    intro i hi
    obtain hi | hi := mem_append.1 hi
    · exact List.mem_range.2 ((h.mem i).1 hi).1
    · rw [mem_singleton.1 hi]
      exact List.mem_range.2 (h.lt id hid)
  have hlen := ((h.nodup_snoc hid).subperm hsub).length_le
  have hcount := h.count
  rw [length_append, length_singleton, length_range] at hlen
  omega

theorem Filling.addNode (h : Filling m pages g) (hid : g.unmerged.bitmap id = true) :
    Filling m pages (m.addNode pages.length g id) := by
  have hlt := h.lt id hid
  have happ : pages.flatten ++ (g.grouped ++ [id]) = (pages.flatten ++ g.grouped) ++ [id] :=
    (append_assoc _ _ _).symm
  have hpos := h.count_pos hid
  have hcount := h.count
  rw [MergeNodes.addNode, MergeNodes.markMerged, if_pos hid]
  constructor
  · show (pages.flatten ++ (g.grouped ++ [id])).Nodup
    rw [happ]
    exact h.nodup_snoc hid
  · intro i
    show i ∈ pages.flatten ++ (g.grouped ++ [id]) ↔
      i < m.npts ∧ Function.update g.unmerged.bitmap id false i = false
    rw [happ, mem_append, h.mem i]
    by_cases hi : i = id
    · subst hi
      simp [hlt]
    · simp [hi]
  · intro i hi
    have hi' : Function.update g.unmerged.bitmap id false i = true := hi
    by_cases heq : i = id
    · rw [heq]
      exact hlt
    · rw [update_of_ne heq] at hi'
      exact h.lt i hi'
  · show g.unmerged.count - 1 + (pages.flatten ++ (g.grouped ++ [id])).length = m.npts
    rw [happ, length_append, length_singleton]
    omega
  · intro i hi
    show Function.update g.unmerged.bitmap id false i = false
    have hi' : i < if id = g.unmerged.lastMin then _ else g.unmerged.lastMin := hi
    by_cases heq : i = id
    · rw [heq, update_self]
    · split_ifs at hi' with hmin
      · by_cases hlow : i < g.unmerged.lastMin
        · rw [update_of_ne heq]
          exact h.before i hlow
        · exact (find?_range'_spec (Function.update g.unmerged.bitmap id false)
            (by omega)).1 i (by omega) hi'
      · rw [update_of_ne heq]
        exact h.before i hi'
  · intro hmin
    have hmin' : (if id = g.unmerged.lastMin then _ else g.unmerged.lastMin) < m.npts := hmin
    show Function.update g.unmerged.bitmap id false
      (if id = g.unmerged.lastMin then _ else g.unmerged.lastMin) = true
    split_ifs at hmin' ⊢ with heq
    · exact (find?_range'_spec (Function.update g.unmerged.bitmap id false)
        (by omega)).2 hmin'
    · rw [update_of_ne fun h' => heq h'.symm]
      exact h.min hmin'
  · intro p page hp i hi
    show Function.update g.nodeToPage id pages.length i = p
    have hne : i ≠ id := by
      rintro rfl
      refine h.not_mem hid (mem_append_left _ (mem_flatten.2 ⟨page, ?_, hi⟩))
      exact mem_of_getElem? hp
    rw [update_of_ne hne]
    exact h.page p page hp i hi
  · intro i hi
    show Function.update g.nodeToPage id pages.length i = pages.length
    by_cases heq : i = id
    · rw [heq, update_self]
    · rw [update_of_ne heq]
      obtain hi | hi := mem_append.1 hi
      · exact h.grouped i hi
      · exact absurd (mem_singleton.1 hi) heq

@[simp] theorem addNode_grouped (pageCount : ℕ) (g : Grouping) (id : ℕ) :
    (m.addNode pageCount g id).grouped = g.grouped ++ [id] := rfl

theorem bitmap_addNode_of_ne (pageCount : ℕ) (g : Grouping) {i : ℕ} (hi : i ≠ id) :
    (m.addNode pageCount g id).unmerged.bitmap i = g.unmerged.bitmap i := by
  show (m.markMerged g.unmerged id).bitmap i = _
  rw [MergeNodes.markMerged]
  by_cases hid : g.unmerged.bitmap id
  · rw [if_pos hid]
    exact update_of_ne hi _ _
  · rw [if_neg hid]

/-! ### Candidates -/

theorem nodup_candidates (hops currNode : ℕ) : (m.candidates hops currNode).Nodup := by
  have hnbr : ∀ (y : List ℕ × List ℕ) (nbr : ℕ), y.1.Nodup →
      (if nbr ∈ y.1 then y else (y.1 ++ [nbr], y.2 ++ [nbr])).1.Nodup := by
    intro y nbr hy
    split_ifs with hin
    · exact hy
    · refine nodup_append'.2 ⟨hy, nodup_singleton nbr, fun i hi hi' => ?_⟩
      rw [mem_singleton] at hi'
      exact hin (hi' ▸ hi)
  have hhop : ∀ x : List ℕ × List ℕ, x.1.Nodup → (m.hop x).1.Nodup := by
    intro x hx
    refine foldlRecOn (motive := fun y : List ℕ × List ℕ => y.1.Nodup) x.2 _ hx ?_
    intro y hy v _
    refine foldlRecOn (motive := fun y : List ℕ × List ℕ => y.1.Nodup) (m.nbrs v) _ hy ?_
    intro y hy nbr _
    exact hnbr y nbr hy
  have hall : ∀ (k : ℕ) (x : List ℕ × List ℕ), x.1.Nodup → ((m.hop)^[k] x).1.Nodup := by
    intro k
    induction k with
    | zero => exact fun x hx => hx
    | succ k ih => exact fun x hx => ih (m.hop x) (hhop x hx)
  exact hall hops _ nodup_nil

theorem nearest_perm (hops currNode : ℕ) (u : Unmerged) :
    (m.nearest hops currNode u).Perm
      ((m.setOrder (m.candidates hops currNode)).filter fun n => u.bitmap n) := by
  refine ((m.sort_perm _).map Prod.fst).trans ?_
  rw [map_map]
  exact Perm.of_eq (map_id _)

theorem nodup_nearest (hops currNode : ℕ) (u : Unmerged) : (m.nearest hops currNode u).Nodup := by
  rw [(nearest_perm hops currNode u).nodup_iff]
  apply Nodup.filter
  rw [(m.setOrder_perm _).nodup_iff]
  exact nodup_candidates hops currNode

theorem bitmap_of_mem_nearest {hops currNode : ℕ} {u : Unmerged}
    (h : id ∈ m.nearest hops currNode u) : u.bitmap id = true :=
  (mem_filter.1 ((nearest_perm hops currNode u).mem_iff.1 h)).2

theorem takeCandidates_spec {ids : List ℕ} (hids : ids.Nodup)
    (hun : ∀ id ∈ ids, g.unmerged.bitmap id = true) (h : Filling m pages g)
    (hlen : g.grouped.length ≤ m.nnodesPerSector) :
    Filling m pages (m.takeCandidates pages.length ids g).1 ∧
      (m.takeCandidates pages.length ids g).1.grouped.length ≤ m.nnodesPerSector ∧
      g.grouped.length ≤ (m.takeCandidates pages.length ids g).1.grouped.length ∧
      ∀ id, (m.takeCandidates pages.length ids g).2 = some id →
        (m.takeCandidates pages.length ids g).1.unmerged.bitmap id = true ∧
        (m.takeCandidates pages.length ids g).1.grouped.length = m.nnodesPerSector := by
  induction ids generalizing g with
  | nil => exact ⟨h, hlen, le_rfl, fun id hid => nomatch hid⟩
  | cons id ids ih =>
    obtain ⟨hnot, hids⟩ := nodup_cons.1 hids
    rw [MergeNodes.takeCandidates]
    split_ifs with hfull
    · refine ⟨h, hlen, le_rfl, fun id' hid' => ?_⟩
      cases hid'
      exact ⟨hun _ mem_cons_self, hfull⟩
    · have hun' : ∀ id' ∈ ids, (m.addNode pages.length g id).unmerged.bitmap id' = true := by
        intro id' hid'
        rw [bitmap_addNode_of_ne _ _ fun he => hnot (by rw [← he]; exact hid')]
        exact hun id' (mem_cons_of_mem _ hid')
      have hlen' : (m.addNode pages.length g id).grouped.length = g.grouped.length + 1 := by
        rw [addNode_grouped, length_append, length_singleton]
      obtain ⟨h₁, h₂, h₃, h₄⟩ := ih hids hun' (h.addNode (hun id mem_cons_self))
        (by rw [hlen']; omega)
      exact ⟨h₁, h₂, by omega, h₄⟩

/-! ### The pages -/

/-- Between two pages. -/
structure Between (m : MergeNodes D) (s : Merging) : Prop where
  filling : Filling m s.mergedNodes ⟨s.unmerged, [], s.nodeToPage⟩
  full : ∀ page ∈ s.mergedNodes, page.length = m.nnodesPerSector
  curr : s.unmerged.bitmap s.currNode = true

/-- After the last page, which holds the nodes of `grouped` and copies of the first of them. -/
structure Finished (m : MergeNodes D) (s : Merging) (pages : List (List ℕ)) (grouped : List ℕ) :
    Prop where
  filling : Filling m pages ⟨s.unmerged, grouped, s.nodeToPage⟩
  full : ∀ page ∈ pages, page.length = m.nnodesPerSector
  count : s.unmerged.count = 0
  pos : 0 < grouped.length
  le : grouped.length ≤ m.nnodesPerSector
  pages : s.mergedNodes = pages ++
    [grouped ++ List.replicate (m.nnodesPerSector - grouped.length) (grouped.headD 0)]

theorem Filling.addNext (h : Filling m pages g) (hcount : 0 < g.unmerged.count) :
    Filling m pages (m.addNext pages.length g) ∧
      (m.addNext pages.length g).grouped.length = g.grouped.length + 1 := by
  refine ⟨h.addNode (h.bitmap_lastMin hcount), ?_⟩
  rw [MergeNodes.addNext, addNode_grouped, length_append, length_singleton]

theorem Filling.close (h : Filling m pages g) :
    Filling m (pages ++ [g.grouped]) ⟨g.unmerged, [], g.nodeToPage⟩ := by
  have hflat : (pages ++ [g.grouped]).flatten ++ [] = pages.flatten ++ g.grouped := by
    rw [flatten_append, flatten_singleton, append_nil]
  refine ⟨hflat ▸ h.nodup, fun i => hflat ▸ h.mem i, h.lt, hflat ▸ h.count, h.before, h.min, ?_,
    fun i hi => absurd hi not_mem_nil⟩
  intro p page hp i hi
  by_cases hlt : p < pages.length
  · rw [getElem?_append_left hlt] at hp
    exact h.page p page hp i hi
  · obtain ⟨hlen, -⟩ := List.getElem?_eq_some_iff.1 hp
    rw [length_append, length_singleton] at hlen
    obtain rfl : p = pages.length := by omega
    rw [getElem?_concat_length] at hp
    cases hp
    exact h.grouped i hi

theorem Between.fullPage {s : Merging} (h : Between m s) (hops : ℕ)
    (hcount : m.nnodesPerSector < s.unmerged.count) (hfuel : m.nnodesPerSector ≤ fuel) :
    ∃ s', m.fullPage hops fuel s = some s' ∧ Between m s' ∧
      s'.unmerged.count < s.unmerged.count := by
  have hpos := m.nnodes_pos
  set first := m.addNode s.mergedNodes.length ⟨s.unmerged, [], s.nodeToPage⟩ s.currNode with hfirst
  have hf : Filling m s.mergedNodes first := h.filling.addNode h.curr
  have hlen : first.grouped.length = 1 := rfl
  obtain ⟨h₁, h₂, -, h₄⟩ := takeCandidates_spec (nodup_nearest hops s.currNode first.unmerged)
    (fun _ => bitmap_of_mem_nearest) hf (by omega)
  set t := m.takeCandidates s.mergedNodes.length (m.nearest hops s.currNode first.unmerged) first
  have hbase : s.unmerged.count + s.mergedNodes.flatten.length = m.npts := by
    have := h.filling.count
    rwa [append_nil] at this
  -- the least unmerged nodes fill the page up
  obtain ⟨g, hg, ⟨hfill, hle, hnext⟩, hdone⟩ := exists_whileM
    (fun g : Grouping => g.grouped.length < m.nnodesPerSector)
    (fun g => some (m.addNext s.mergedNodes.length g))
    (fun g : Grouping => Filling m s.mergedNodes g ∧ g.grouped.length ≤ m.nnodesPerSector ∧
      ∀ id, t.2 = some id → g.unmerged.bitmap id = true ∧ g.grouped.length = m.nnodesPerSector)
    (fun g => m.nnodesPerSector - g.grouped.length)
    (fun g ⟨hg, hle, hnext⟩ hc => by
      have hlt : g.grouped.length < m.nnodesPerSector := of_decide_eq_true hc
      have hgc := hg.count
      rw [length_append] at hgc
      obtain ⟨hadd, hlen'⟩ := hg.addNext (by omega)
      refine ⟨_, rfl, ⟨hadd, by omega, fun id hid => ?_⟩, by omega⟩
      have := (hnext id hid).2
      omega)
    (n := fuel) ⟨h₁, h₂, h₄⟩ (by omega)
  have hfull : g.grouped.length = m.nnodesPerSector := by
    have := of_decide_eq_false hdone
    omega
  have hgc := hfill.count
  rw [length_append] at hgc
  refine ⟨_, by rw [MergeNodes.fullPage]; exact congrArg (Option.bind · _) hg, ?_, ?_⟩
  · refine ⟨hfill.close, fun page hp => ?_, ?_⟩
    · obtain hp | hp := mem_append.1 hp
      · exact h.full page hp
      · rw [mem_singleton.1 hp]
        exact hfull
    · show g.unmerged.bitmap (t.2.getD g.unmerged.lastMin) = true
      cases ht : t.2 with
      | none => exact hfill.bitmap_lastMin (by omega)
      | some id => exact (hnext id ht).1
  · show g.unmerged.count < s.unmerged.count
    omega

theorem Between.lastPage {s : Merging} (h : Between m s) (hpos : 0 < s.unmerged.count)
    (hcount : s.unmerged.count ≤ m.nnodesPerSector) (hfuel : m.nnodesPerSector ≤ fuel) :
    ∃ s' grouped, m.lastPage fuel s = some s' ∧ Finished m s' s.mergedNodes grouped := by
  have hbase : s.unmerged.count + s.mergedNodes.flatten.length = m.npts := by
    have := h.filling.count
    rwa [append_nil] at this
  -- the nodes that are left go on the page, the least one first
  obtain ⟨g, hg, hfill, hdone⟩ := exists_whileM
    (fun g : Grouping => 0 < g.unmerged.count)
    (fun g => some (m.addNext s.mergedNodes.length g))
    (Filling m s.mergedNodes) (fun g => g.unmerged.count)
    (fun g hg hc => by
      have hlt : 0 < g.unmerged.count := of_decide_eq_true hc
      obtain ⟨hadd, hlen⟩ := hg.addNext hlt
      have h₁ := hg.count
      have h₂ := hadd.count
      rw [length_append] at h₁ h₂
      exact ⟨_, rfl, hadd, by omega⟩)
    h.filling (hcount.trans hfuel)
  have hzero : g.unmerged.count = 0 := by
    have := of_decide_eq_false hdone
    omega
  have hgc := hfill.count
  rw [length_append] at hgc
  refine ⟨_, g.grouped, by rw [MergeNodes.lastPage]; exact congrArg (Option.bind · _) hg, ?_⟩
  exact ⟨hfill, h.full, hzero, by omega, by omega, rfl⟩

theorem between_start : Between m m.start := by
  have hpos := m.npts_pos
  refine ⟨⟨nodup_nil, fun i => ?_, fun i hi => of_decide_eq_true hi, ?_, ?_, ?_, ?_, ?_⟩,
    ?_, ?_⟩
  · show i ∈ [] ↔ i < m.npts ∧ decide (i < m.npts) = false
    rw [decide_eq_false_iff_not]
    exact ⟨fun hi => absurd hi not_mem_nil, fun hi => absurd hi.1 hi.2⟩
  · exact Nat.add_zero _
  · exact fun i hi => absurd hi (Nat.not_lt_zero i)
  · exact fun hlt => decide_eq_true hlt
  · exact fun p page hp => nomatch hp
  · exact fun i hi => absurd hi not_mem_nil
  · exact fun page hp => absurd hp not_mem_nil
  · exact decide_eq_true hpos

theorem exists_mergePages (m : MergeNodes D) (hops : ℕ)
    (hfuel : m.npts + m.nnodesPerSector ≤ fuel) :
    ∃ s pages grouped, whileM (fun s : Merging => 0 < s.unmerged.count) (m.mergePage hops fuel) fuel
      m.start = some s ∧ Finished m s pages grouped := by
  obtain ⟨s, hs, hs', hdone⟩ := exists_whileM
    (fun s : Merging => 0 < s.unmerged.count) (m.mergePage hops fuel)
    (fun s => Between m s ∨ ∃ pages grouped, Finished m s pages grouped)
    (fun s => s.unmerged.count)
    (fun s hs hc => by
      have hpos : 0 < s.unmerged.count := of_decide_eq_true hc
      obtain hs | ⟨pages, grouped, hs⟩ := hs
      · rw [MergeNodes.mergePage]
        split_ifs with hle
        · obtain ⟨s', grouped, h₁, h₂⟩ := hs.lastPage hpos hle (by omega : m.nnodesPerSector ≤ fuel)
          have hzero := h₂.count
          exact ⟨s', h₁, Or.inr ⟨_, grouped, h₂⟩, by omega⟩
        · obtain ⟨s', h₁, h₂, h₃⟩ := hs.fullPage hops (by omega) (by omega : m.nnodesPerSector ≤ fuel)
          exact ⟨s', h₁, Or.inl h₂, h₃⟩
      · have hzero := hs.count
        omega)
    (Or.inl between_start) (by show m.npts ≤ fuel; omega)
  obtain hs' | ⟨pages, grouped, hs'⟩ := hs'
  · have hpos : 0 < s.unmerged.count := hs'.filling.count_pos hs'.curr
    rw [decide_eq_true hpos] at hdone
    cases hdone
  · exact ⟨s, pages, grouped, hs, hs'⟩

end DiskANNEval.PageANN
