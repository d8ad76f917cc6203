import Mathlib

/-!
# PageLayout — clusters cut into pages

`optimize_layout` cuts each cluster that is larger than a page by breadth-first searches in the graph,
each of which stays in the cluster and off the nodes already used, and packs what is left into pages.
A page that is not full has taken all that came after it (`packPages_full`), so it is the last one.
-/

namespace DiskANNEval.Gorgeous

open List Finset

structure ClusterInfo where
  nodes : List ℕ
  pageId : ℕ

/-- A page from its nodes, with the `page_id` of a new one. -/
def ClusterInfo.ofNodes (nodes : List ℕ) : ClusterInfo := ⟨nodes, 0⟩

/-- `PageLayoutOptimizer`; `sortBySize` is its call of `std::sort`, which leaves clusters of one size
in any order. -/
structure PageLayoutOptimizer where
  graph : List (List ℕ)
  pageSize : ℕ
  sortBySize : List ClusterInfo → List ClusterInfo
  perm_sort : ∀ l, (sortBySize l).Perm l

namespace PageLayoutOptimizer

variable (o : PageLayoutOptimizer)

/-! ### Splitting a large cluster -/

/-- The body of the loop over the neighbours. -/
def visitNeighbor (clusterNodes usedNodes : Finset ℕ) (st : List ℕ × Finset ℕ) (neighbor : ℕ) :
    List ℕ × Finset ℕ :=
  if neighbor ∈ clusterNodes ∧ neighbor ∉ usedNodes ∧ neighbor ∉ st.2 then
    (st.1 ++ [neighbor], insert neighbor st.2)
  else st

/-- The loop of `bfs_fill_page`; the first argument is `max_nodes - added`. -/
def bfsLoop (clusterNodes usedNodes : Finset ℕ) : ℕ → List ℕ → Finset ℕ → List ℕ → List ℕ
  | 0, _, _, pageNodes => pageNodes
  | _ + 1, [], _, pageNodes => pageNodes
  | left + 1, current :: q, visited, pageNodes =>
    let pageNodes := pageNodes ++ [current]
    if left = 0 then pageNodes
    else
      let st := (o.graph.getD current []).foldl (visitNeighbor clusterNodes usedNodes) (q, visited)
      bfsLoop clusterNodes usedNodes left st.1 st.2 pageNodes

def bfsFillPage (startNode : ℕ) (clusterNodes usedNodes : Finset ℕ) (pageNodes : List ℕ)
    (maxNodes : ℕ) : List ℕ :=
  if startNode ∈ usedNodes then pageNodes
  else o.bfsLoop clusterNodes usedNodes maxNodes [startNode] {startNode} pageNodes

/-- The loop that fills one page, over the nodes from `current_idx` on. -/
def fillPage (clusterNodes : Finset ℕ) : List ℕ → List ℕ → Finset ℕ → List ℕ × Finset ℕ
  | [], pageNodes, used => (pageNodes, used)
  | startNode :: rest, pageNodes, used =>
    if pageNodes.length < o.pageSize then
      if startNode ∈ used then fillPage clusterNodes rest pageNodes used
      else
        let pageNodes := o.bfsFillPage startNode clusterNodes used pageNodes
          (o.pageSize - pageNodes.length)
        fillPage clusterNodes rest pageNodes (used ∪ pageNodes.toFinset)
    else (pageNodes, used)

/-- The full pages, the partial ones, and the nodes that are used. -/
structure Split where
  full : List ClusterInfo
  partials : List ClusterInfo
  used : Finset ℕ

def Split.push (st : Split) (page : List ℕ) (used : Finset ℕ) : Split :=
  if page.length = o.pageSize then { st with full := st.full ++ [.ofNodes page], used }
  else if page ≠ [] then { st with partials := st.partials ++ [.ofNodes page], used }
  else { st with used }

/-- The loop of `split_large_cluster` over the nodes from `idx` on. -/
def splitLoop (clusterNodes : Finset ℕ) : List ℕ → Split → Split
  | [], st => st
  | node :: rest, st =>
    if node ∈ st.used then splitLoop clusterNodes rest st
    else
      let (page, used) := o.fillPage clusterNodes (node :: rest) [] st.used
      splitLoop clusterNodes rest (st.push o page used)

def splitLargeCluster (cluster : ClusterInfo) (fullPages partialPages : List ClusterInfo) :
    List ClusterInfo × List ClusterInfo :=
  let st := o.splitLoop cluster.nodes.toFinset cluster.nodes ⟨fullPages, partialPages, ∅⟩
  (st.full, st.partials)

/-! ### Packing the rest -/

/-- The loop over `j`: the page, and the clusters behind it that are not used, in their order. -/
def takeFrom : List ℕ → List ClusterInfo → List ℕ × List ClusterInfo
  | page, [] => (page, [])
  | page, c :: rest =>
    if page.length < o.pageSize then
      let spaceLeft := o.pageSize - page.length
      if c.nodes.length ≤ spaceLeft then takeFrom (page ++ c.nodes) rest
      else
        let r := takeFrom (page ++ c.nodes.take spaceLeft) rest
        (r.1, { c with nodes := c.nodes.drop spaceLeft } :: r.2)
    else (page, c :: rest)

theorem length_takeFrom (page : List ℕ) (cs : List ClusterInfo) :
    (o.takeFrom page cs).2.length ≤ cs.length := by
  induction cs generalizing page with
  | nil => exact le_rfl
  | cons c cs ih =>
    unfold takeFrom
    dsimp only
    split_ifs
    · exact (ih _).trans (Nat.le_succ _)
    · exact Nat.succ_le_succ (ih _)
    · exact le_rfl

/-- The loop over `i`. -/
def packPages : List ClusterInfo → List ClusterInfo
  | [] => []
  | c :: rest =>
    let r := o.takeFrom c.nodes rest
    { c with nodes := r.1 } :: packPages r.2
termination_by cs => cs.length
decreasing_by exact Nat.lt_succ_of_le (o.length_takeFrom c.nodes rest)

def fillPartialPages (smallClusters output : List ClusterInfo) : List ClusterInfo :=
  output ++ o.packPages (o.sortBySize smallClusters)

/-! ### The layout -/

/-- The body of the loop over the clusters: `optimized_clusters` and `small_clusters`. -/
def addCluster (st : List ClusterInfo × List ClusterInfo) (cluster : ClusterInfo) :
    List ClusterInfo × List ClusterInfo :=
  if cluster.nodes = [] then st
  else if o.pageSize < cluster.nodes.length then o.splitLargeCluster cluster st.1 st.2
  else (st.1, st.2 ++ [cluster])

def optimizeLayout (clusters : List ClusterInfo) : List ClusterInfo :=
  let st := clusters.foldl o.addCluster ([], [])
  (o.fillPartialPages st.2 st.1).zipIdx.map fun x => { x.1 with pageId := x.2 }

/-! ### The breadth-first filler -/

section Filler

variable {o} {C U : Finset ℕ}

/-- What is in the queue has been visited, lies in the cluster and is not used. -/
def QueueIn (C U : Finset ℕ) (q : List ℕ) (visited : Finset ℕ) : Prop :=
  q.Nodup ∧ ∀ x ∈ q, x ∈ visited ∧ x ∈ C ∧ x ∉ U

theorem queueIn_visitNeighbor {q : List ℕ} {visited : Finset ℕ} (h : QueueIn C U q visited) (n : ℕ) :
    QueueIn C U (visitNeighbor C U (q, visited) n).1 (visitNeighbor C U (q, visited) n).2 ∧
      visited ⊆ (visitNeighbor C U (q, visited) n).2 ∧
      ∀ x ∈ (visitNeighbor C U (q, visited) n).1, x ∈ q ∨ x ∉ visited := by
  unfold visitNeighbor
  split_ifs with hn
  · obtain ⟨hC, hU, hvis⟩ := hn
    refine ⟨⟨?_, ?_⟩, subset_insert n visited, ?_⟩
    · apply Nodup.append h.1 (nodup_singleton n)
      simp only [List.disjoint_singleton]
      exact fun hq => hvis (h.2 n hq).1
    · intro x hx
      rcases mem_append.1 hx with hx | hx
      · exact ⟨mem_insert_of_mem (h.2 x hx).1, (h.2 x hx).2⟩
      · obtain rfl := List.mem_singleton.1 hx
        exact ⟨mem_insert_self x visited, hC, hU⟩
    · intro x hx
      rcases mem_append.1 hx with hx | hx
      · exact .inl hx
      · obtain rfl := List.mem_singleton.1 hx
        exact .inr hvis
  · exact ⟨h, Finset.Subset.refl visited, fun x hx => .inl hx⟩

theorem queueIn_foldl (nbrs : List ℕ) {q : List ℕ} {visited : Finset ℕ} (h : QueueIn C U q visited) :
    QueueIn C U (nbrs.foldl (visitNeighbor C U) (q, visited)).1
        (nbrs.foldl (visitNeighbor C U) (q, visited)).2 ∧
      visited ⊆ (nbrs.foldl (visitNeighbor C U) (q, visited)).2 ∧
      ∀ x ∈ (nbrs.foldl (visitNeighbor C U) (q, visited)).1, x ∈ q ∨ x ∉ visited := by
  induction nbrs generalizing q visited with
  | nil => exact ⟨h, Subset.refl visited, fun x hx => .inl hx⟩
  | cons n nbrs ih =>
    obtain ⟨h₁, hsub₁, hnew₁⟩ := queueIn_visitNeighbor h n
    obtain ⟨h₂, hsub₂, hnew₂⟩ := ih h₁
    refine ⟨h₂, hsub₁.trans hsub₂, fun x hx => ?_⟩
    rcases hnew₂ x hx with hx | hx
    · exact hnew₁ x hx
    · exact .inr fun hvis => hx (hsub₁ hvis)

/-- What a search puts behind the page: new nodes of the cluster, no more than are asked for, and the
first one of the queue. -/
theorem bfsLoop_spec {left : ℕ} {q : List ℕ} {visited : Finset ℕ} (h : QueueIn C U q visited)
    (page : List ℕ) : ∃ added, o.bfsLoop C U left q visited page = page ++ added ∧ added.Nodup ∧
      (∀ x ∈ added, x ∈ C ∧ x ∉ U ∧ (x ∈ q ∨ x ∉ visited)) ∧ added.length ≤ left ∧
      ∀ n rest, q = n :: rest → 0 < left → n ∈ added := by
  induction left generalizing q visited page with
  | zero => exact ⟨[], by simp [bfsLoop], nodup_nil, by simp, le_rfl, fun _ _ _ hl => absurd hl (by simp)⟩
  | succ left ih =>
    cases q with
    | nil => exact ⟨[], by simp [bfsLoop], nodup_nil, by simp, by simp, fun _ _ hq => by cases hq⟩
    | cons cur q =>
      obtain ⟨hvis, hC, hU⟩ := h.2 cur mem_cons_self
      have hq : QueueIn C U q visited :=
        ⟨(nodup_cons.1 h.1).2, fun x hx => h.2 x (mem_cons_of_mem cur hx)⟩
      have hhead : ∀ n rest, cur :: q = n :: rest → n = cur := fun n rest he => (List.cons.inj he).1.symm
      unfold bfsLoop
      split_ifs with hleft
      · refine ⟨[cur], rfl, nodup_singleton cur, ?_, by simp, ?_⟩
        · intro x hx
          obtain rfl := List.mem_singleton.1 hx
          exact ⟨hC, hU, .inl mem_cons_self⟩
        · intro n rest he _
          rw [hhead n rest he]
          exact List.mem_singleton_self cur
      · obtain ⟨hq', hsub, hnew⟩ := queueIn_foldl (o.graph.getD cur []) hq
        obtain ⟨added, hadded, hnd, hmem, hlen, -⟩ := ih hq' (page ++ [cur])
        have hcur : cur ∉ added := by
          intro hcur
          rcases (hmem cur hcur).2.2 with hx | hx
          · rcases hnew cur hx with hx | hx
            · exact (nodup_cons.1 h.1).1 hx
            · exact hx hvis
          · exact hx (hsub hvis)
        refine ⟨cur :: added, ?_, nodup_cons.2 ⟨hcur, hnd⟩, ?_, ?_, ?_⟩
        · rw [hadded, append_assoc]
          rfl
        · intro x hx
          rcases mem_cons.1 hx with rfl | hx
          · exact ⟨hC, hU, .inl mem_cons_self⟩
          · obtain ⟨h1, h2, h3⟩ := hmem x hx
            refine ⟨h1, h2, ?_⟩
            rcases h3 with h3 | h3
            · exact (hnew x h3).imp_left (mem_cons_of_mem cur)
            · exact .inr fun hv => h3 (hsub hv)
        · simpa using hlen
        · intro n rest he _
          rw [hhead n rest he]
          exact mem_cons_self

theorem fillPage_spec {rest page : List ℕ} {used : Finset ℕ} (hrest : ∀ x ∈ rest, x ∈ C)
    (hpage : ∀ x ∈ page, x ∈ used) (hlen : page.length ≤ o.pageSize) :
    ∃ added, o.fillPage C rest page used = (page ++ added, used ∪ added.toFinset) ∧ added.Nodup ∧
      (∀ x ∈ added, x ∈ C ∧ x ∉ used) ∧ (page ++ added).length ≤ o.pageSize ∧
      ((page ++ added).length = o.pageSize ∨ ∀ x ∈ rest, x ∈ used ∪ added.toFinset) ∧
      ∀ n rest', rest = n :: rest' → n ∉ used → page.length < o.pageSize → n ∈ added := by
  induction rest generalizing page used with
  | nil =>
    refine ⟨[], by simp [fillPage], nodup_nil, by simp, by simpa using hlen, .inr (by simp), ?_⟩
    intro n rest' he
    cases he
  | cons n rest ih =>
    have hrest' : ∀ x ∈ rest, x ∈ C := fun x hx => hrest x (mem_cons_of_mem n hx)
    unfold fillPage
    dsimp only
    split_ifs with hfull hn
    · obtain ⟨added, hadded, hnd, hmem, hlen', hall, -⟩ := ih hrest' hpage hlen
      refine ⟨added, hadded, hnd, hmem, hlen', hall.imp_right fun hall x hx => ?_, ?_⟩
      · rcases mem_cons.1 hx with rfl | hx
        · exact mem_union_left _ hn
        · exact hall x hx
      · intro m rest' he hm
        rw [← (List.cons.inj he).1] at hm
        exact absurd hn hm
    · have hq : QueueIn C used [n] {n} := by
        refine ⟨nodup_singleton n, fun x hx => ?_⟩
        obtain rfl := List.mem_singleton.1 hx
        exact ⟨Finset.mem_singleton_self x, hrest x mem_cons_self, hn⟩
      obtain ⟨found, hfound, hnd₁, hmem₁, hlen₁, hfirst⟩ :=
        @bfsLoop_spec o C used (o.pageSize - page.length) _ _ hq page
      have hn₁ : n ∈ found := hfirst n [] rfl (by omega)
      have hunion : used ∪ (page ++ found).toFinset = used ∪ found.toFinset := by
        ext x
        simp only [mem_union, mem_toFinset, mem_append]
        tauto
      unfold bfsFillPage
      rw [if_neg hn, hfound, hunion]
      have hpage₁ : ∀ x ∈ page ++ found, x ∈ used ∪ found.toFinset := by
        intro x hx
        rcases mem_append.1 hx with hx | hx
        · exact mem_union_left _ (hpage x hx)
        · exact mem_union_right _ (mem_toFinset.2 hx)
      obtain ⟨added, hadded, hnd, hmem, hlen', hall, -⟩ := ih hrest' hpage₁
        (by rw [length_append]; omega)
      have hset : used ∪ found.toFinset ∪ added.toFinset = used ∪ (found ++ added).toFinset := by
        rw [toFinset_append, union_assoc]
      refine ⟨found ++ added, ?_, ?_, ?_, ?_, ?_, ?_⟩
      · rw [hadded, hset, append_assoc]
      · apply Nodup.append hnd₁ hnd
        intro x hx hx'
        exact (hmem x hx').2 (mem_union_right _ (mem_toFinset.2 hx))
      · intro x hx
        rcases mem_append.1 hx with hx | hx
        · exact ⟨(hmem₁ x hx).1, (hmem₁ x hx).2.1⟩
        · exact ⟨(hmem x hx).1, fun hu => (hmem x hx).2 (mem_union_left _ hu)⟩
      · rwa [← append_assoc]
      · rw [← append_assoc, ← hset]
        refine hall.imp_right fun hall x hx => ?_
        rcases mem_cons.1 hx with rfl | hx
        · exact mem_union_left _ (mem_union_right _ (mem_toFinset.2 hn₁))
        · exact hall x hx
      · intro m rest' he _ _
        rw [← (List.cons.inj he).1]
        exact mem_append_left added hn₁
    · refine ⟨[], by simp, nodup_nil, by simp, by simpa using hlen, .inl ?_, ?_⟩
      · rw [append_nil]
        omega
      · exact fun _ _ _ _ hlt => absurd hlt hfull

end Filler

/-! ### A large cluster -/

/-- The nodes of all pages. -/
def nodesOf (ps : List ClusterInfo) : List ℕ := ps.flatMap ClusterInfo.nodes

@[simp] theorem nodesOf_nil : nodesOf [] = [] := rfl

@[simp] theorem nodesOf_cons (p : ClusterInfo) (ps : List ClusterInfo) :
    nodesOf (p :: ps) = p.nodes ++ nodesOf ps := List.flatMap_cons

@[simp] theorem nodesOf_append (ps qs : List ClusterInfo) :
    nodesOf (ps ++ qs) = nodesOf ps ++ nodesOf qs := List.flatMap_append

/-- A page that is neither empty nor too large. -/
def FitsPage (p : ClusterInfo) : Prop := p.nodes ≠ [] ∧ p.nodes.length ≤ o.pageSize

section Large

variable {o} {C : Finset ℕ}

/-- The pages that a part of the loop adds have new nodes of the cluster, each once, and all nodes that
the loop goes over are used in the end. -/
theorem splitLoop_spec (hP : 1 ≤ o.pageSize) {rest : List ℕ} (hrest : ∀ x ∈ rest, x ∈ C) (st : Split) :
    ∃ F Q A, (o.splitLoop C rest st).full = st.full ++ F ∧
      (o.splitLoop C rest st).partials = st.partials ++ Q ∧ (∀ p ∈ F, p.nodes.length = o.pageSize) ∧
      (∀ p ∈ Q, o.FitsPage p) ∧ (nodesOf F ++ nodesOf Q).Perm A ∧ A.Nodup ∧
      (∀ x ∈ A, x ∈ C ∧ x ∉ st.used) ∧ ∀ x ∈ rest, x ∈ st.used ∪ A.toFinset := by
  induction rest generalizing st with
  | nil => exact ⟨[], [], [], by simp [splitLoop], by simp [splitLoop], by simp, by simp, by simp, by simp, by simp,
      by simp⟩
  | cons n rest ih =>
    have hrest' : ∀ x ∈ rest, x ∈ C := fun x hx => hrest x (mem_cons_of_mem n hx)
    unfold splitLoop
    split_ifs with hn
    · obtain ⟨F, Q, A, hF, hQ, hFull, hFit, hperm, hnd, hmem, hall⟩ := ih hrest' st
      refine ⟨F, Q, A, hF, hQ, hFull, hFit, hperm, hnd, hmem, fun x hx => ?_⟩
      rcases mem_cons.1 hx with rfl | hx
      · exact mem_union_left _ hn
      · exact hall x hx
    · obtain ⟨page, hpage, hnd₁, hmem₁, hlen, -, hfirst⟩ := @fillPage_spec o C (n :: rest) [] st.used hrest
        (fun x hx => absurd hx not_mem_nil) (Nat.zero_le _)
      have hn₁ : n ∈ page := hfirst n rest rfl hn hP
      rw [nil_append] at hpage hlen
      rw [hpage]
      have hne : page ≠ [] := ne_nil_of_mem hn₁
      obtain ⟨F, Q, A, hF, hQ, hFull, hFit, hperm, hnd, hmem, hall⟩ :=
        ih hrest' (st.push o page (st.used ∪ page.toFinset))
      have hused : (st.push o page (st.used ∪ page.toFinset)).used = st.used ∪ page.toFinset := by
        unfold Split.push
        split_ifs <;> rfl
      rw [hused] at hmem hall
      have hndA : (page ++ A).Nodup := by
        apply Nodup.append hnd₁ hnd
        intro x hx hx'
        exact (hmem x hx').2 (mem_union_right _ (mem_toFinset.2 hx))
      have hmemA : ∀ x ∈ page ++ A, x ∈ C ∧ x ∉ st.used := by
        intro x hx
        rcases mem_append.1 hx with hx | hx
        · exact hmem₁ x hx
        · exact ⟨(hmem x hx).1, fun hu => (hmem x hx).2 (mem_union_left _ hu)⟩
      have hallA : ∀ x ∈ n :: rest, x ∈ st.used ∪ (page ++ A).toFinset := by
        intro x hx
        rw [toFinset_append, ← union_assoc]
        rcases mem_cons.1 hx with rfl | hx
        · exact mem_union_left _ (mem_union_right _ (mem_toFinset.2 hn₁))
        · exact hall x hx
      by_cases hfull : page.length = o.pageSize
      · refine ⟨.ofNodes page :: F, Q, page ++ A, ?_, ?_, ?_, hFit, ?_, hndA, hmemA, hallA⟩
        · rw [hF, Split.push, if_pos hfull, append_assoc]
          rfl
        · rw [hQ, Split.push, if_pos hfull]
        · intro p hp
          rcases mem_cons.1 hp with rfl | hp
          · exact hfull
          · exact hFull p hp
        · rw [nodesOf_cons, append_assoc]
          exact hperm.append_left page
      · refine ⟨F, .ofNodes page :: Q, page ++ A, ?_, ?_, hFull, ?_, ?_, hndA, hmemA, hallA⟩
        · rw [hF, Split.push, if_neg hfull, if_pos hne]
        · rw [hQ, Split.push, if_neg hfull, if_pos hne, append_assoc]
          rfl
        · intro p hp
          rcases mem_cons.1 hp with rfl | hp
          · exact ⟨hne, hlen⟩
          · exact hFit p hp
        · rw [nodesOf_cons]
          exact (perm_append_comm_assoc (nodesOf F) page (nodesOf Q)).trans (hperm.append_left page)

theorem splitLargeCluster_spec (hP : 1 ≤ o.pageSize) {c : ClusterInfo} (hc : c.nodes.Nodup)
    (full partials : List ClusterInfo) : ∃ F Q,
      o.splitLargeCluster c full partials = (full ++ F, partials ++ Q) ∧
      (∀ p ∈ F, p.nodes.length = o.pageSize) ∧ (∀ p ∈ Q, o.FitsPage p) ∧
      (nodesOf F ++ nodesOf Q).Perm c.nodes := by
  obtain ⟨F, Q, A, hF, hQ, hFull, hFit, hperm, hnd, hmem, hall⟩ :=
    splitLoop_spec hP (fun x hx => mem_toFinset.2 hx) ⟨full, partials, ∅⟩
  refine ⟨F, Q, ?_, hFull, hFit, hperm.trans ?_⟩
  · exact Prod.ext hF hQ
  · rw [perm_ext_iff_of_nodup hnd hc]
    intro x
    constructor
    · exact fun hx => mem_toFinset.1 (hmem x hx).1
    · intro hx
      rcases mem_union.1 (hall x hx) with hx | hx
      · exact absurd hx (notMem_empty x)
      · exact mem_toFinset.1 hx

end Large

/-! ### The pages -/

section Pages

variable {o}

theorem takeFrom_spec {cs : List ClusterInfo} (hcs : ∀ c ∈ cs, o.FitsPage c) {page : List ℕ}
    (hne : page ≠ []) (hlen : page.length ≤ o.pageSize) :
    (o.takeFrom page cs).1 ≠ [] ∧ (o.takeFrom page cs).1.length ≤ o.pageSize ∧
      (∀ c ∈ (o.takeFrom page cs).2, o.FitsPage c) ∧
      ((o.takeFrom page cs).1.length = o.pageSize ∨ (o.takeFrom page cs).2 = []) ∧
      ((o.takeFrom page cs).1 ++ nodesOf (o.takeFrom page cs).2).Perm (page ++ nodesOf cs) := by
  induction cs generalizing page with
  | nil => exact ⟨hne, hlen, by simp [takeFrom], .inr rfl, Perm.refl _⟩
  | cons c cs ih =>
    have hcs' : ∀ c ∈ cs, o.FitsPage c := fun d hd => hcs d (mem_cons_of_mem c hd)
    obtain ⟨hcne, hclen⟩ := hcs c mem_cons_self
    unfold takeFrom
    dsimp only
    split_ifs with hfull hfit
    · have hne' : page ++ c.nodes ≠ [] := by simp [hne]
      have hlen' : (page ++ c.nodes).length ≤ o.pageSize := by
        rw [length_append]
        omega
      obtain ⟨h1, h2, h3, h4, h5⟩ := ih hcs' hne' hlen'
      refine ⟨h1, h2, h3, h4, ?_⟩
      rw [nodesOf_cons, ← append_assoc]
      exact h5
    · have hpage : (page ++ c.nodes.take (o.pageSize - page.length)).length = o.pageSize := by
        rw [length_append, List.length_take]
        omega
      have hstop : o.takeFrom (page ++ c.nodes.take (o.pageSize - page.length)) cs =
          (page ++ c.nodes.take (o.pageSize - page.length), cs) := by
        cases cs with
        | nil => rfl
        | cons d cs =>
          unfold takeFrom
          rw [if_neg (by omega)]
      rw [hstop]
      refine ⟨by simp [hne], hpage.le, ?_, .inl hpage, ?_⟩
      · intro d hd
        rcases mem_cons.1 hd with rfl | hd
        · refine ⟨?_, ?_⟩
          · show c.nodes.drop (o.pageSize - page.length) ≠ []
            rw [Ne, drop_eq_nil_iff]
            omega
          · show (c.nodes.drop (o.pageSize - page.length)).length ≤ o.pageSize
            rw [length_drop]
            omega
        · exact hcs' d hd
      · show (page ++ c.nodes.take (o.pageSize - page.length) ++
          nodesOf ({ c with nodes := c.nodes.drop (o.pageSize - page.length) } :: cs)).Perm _
        rw [nodesOf_cons, nodesOf_cons, append_assoc, ← append_assoc (c.nodes.take _),
          take_append_drop]
    · exact ⟨hne, hlen, hcs, .inl (Nat.le_antisymm hlen (Nat.not_lt.1 hfull)), Perm.refl _⟩

theorem packPages_spec {cs : List ClusterInfo} (hcs : ∀ c ∈ cs, o.FitsPage c) :
    (∀ p ∈ o.packPages cs, o.FitsPage p) ∧
      (∀ p ∈ (o.packPages cs).dropLast, p.nodes.length = o.pageSize) ∧
      (nodesOf (o.packPages cs)).Perm (nodesOf cs) := by
  induction cs using packPages.induct (o := o) with
  | case1 => simp [packPages]
  | case2 c rest r ih =>
    obtain ⟨hcne, hclen⟩ := hcs c mem_cons_self
    obtain ⟨hne, hlen, hrest, hend, hperm⟩ :=
      takeFrom_spec (fun d hd => hcs d (mem_cons_of_mem c hd)) hcne hclen
    obtain ⟨hfit, hfull, hnodes⟩ := ih hrest
    rw [packPages]
    refine ⟨?_, ?_, ?_⟩
    · intro p hp
      rcases mem_cons.1 hp with rfl | hp
      · exact ⟨hne, hlen⟩
      · exact hfit p hp
    · intro p hp
      by_cases hnil : o.packPages r.2 = []
      · rw [show o.packPages (o.takeFrom c.nodes rest).2 = [] from hnil] at hp
        exact absurd hp (by simp)
      · rw [dropLast_cons_of_ne_nil hnil] at hp
        rcases mem_cons.1 hp with rfl | hp
        · refine hend.resolve_right fun hr => hnil ?_
          rw [show r.2 = [] from hr, packPages]
        · exact hfull p hp
    · rw [nodesOf_cons]
      exact (hnodes.append_left _).trans hperm

theorem addCluster_spec (hP : 1 ≤ o.pageSize) {c : ClusterInfo} (hc : c.nodes.Nodup)
    (st : List ClusterInfo × List ClusterInfo) : ∃ F Q, o.addCluster st c = (st.1 ++ F, st.2 ++ Q) ∧
      (∀ p ∈ F, p.nodes.length = o.pageSize) ∧ (∀ p ∈ Q, o.FitsPage p) ∧
      (nodesOf F ++ nodesOf Q).Perm c.nodes := by
  unfold addCluster
  split_ifs with hnil hlarge
  · refine ⟨[], [], by simp, by simp, by simp, ?_⟩
    rw [hnil]
    exact Perm.refl []
  · exact splitLargeCluster_spec hP hc st.1 st.2
  · refine ⟨[], [c], by simp, by simp, ?_, by simp⟩
    intro p hp
    obtain rfl := List.mem_singleton.1 hp
    exact ⟨hnil, Nat.not_lt.1 hlarge⟩

theorem foldl_addCluster_spec (hP : 1 ≤ o.pageSize) {clusters : List ClusterInfo}
    (hnd : ∀ c ∈ clusters, c.nodes.Nodup) (st : List ClusterInfo × List ClusterInfo) :
    ∃ F Q, clusters.foldl o.addCluster st = (st.1 ++ F, st.2 ++ Q) ∧
      (∀ p ∈ F, p.nodes.length = o.pageSize) ∧ (∀ p ∈ Q, o.FitsPage p) ∧
      (nodesOf F ++ nodesOf Q).Perm (nodesOf clusters) := by
  induction clusters generalizing st with
  | nil => exact ⟨[], [], by simp, by simp, by simp, Perm.refl _⟩
  | cons c clusters ih =>
    obtain ⟨F₁, Q₁, hadd, hF₁, hQ₁, hperm₁⟩ := addCluster_spec hP (hnd c mem_cons_self) st
    obtain ⟨F, Q, hrest, hF, hQ, hperm⟩ :=
      ih (fun d hd => hnd d (mem_cons_of_mem c hd)) (st.1 ++ F₁, st.2 ++ Q₁)
    refine ⟨F₁ ++ F, Q₁ ++ Q, ?_, ?_, ?_, ?_⟩
    · rw [foldl_cons, hadd, hrest, append_assoc, append_assoc]
    · exact fun p hp => (mem_append.1 hp).elim (hF₁ p) (hF p)
    · exact fun p hp => (mem_append.1 hp).elim (hQ₁ p) (hQ p)
    · have hswap : (nodesOf F ++ (nodesOf Q₁ ++ nodesOf Q)).Perm
          (nodesOf Q₁ ++ (nodesOf F ++ nodesOf Q)) := perm_append_comm_assoc _ _ _
      have hall := (hswap.append_left (nodesOf F₁)).trans
        ((Perm.of_eq (append_assoc _ _ _).symm).trans (hperm₁.append hperm))
      rwa [nodesOf_append, nodesOf_append, nodesOf_cons, append_assoc]

/-- All pages but the last are full, so their number is that of the nodes over the page size. -/
theorem length_eq_of_dropLast_full {ps : List ClusterInfo} (hP : 1 ≤ o.pageSize)
    (hfit : ∀ p ∈ ps, o.FitsPage p) (hfull : ∀ p ∈ ps.dropLast, p.nodes.length = o.pageSize) :
    ps.length = ((nodesOf ps).length + o.pageSize - 1) / o.pageSize := by
  rcases eq_nil_or_concat ps with rfl | ⟨init, last, rfl⟩
  · rw [nodesOf_nil, length_nil, length_nil, Nat.div_eq_of_lt (by omega)]
  · rw [concat_eq_append, dropLast_concat] at hfull
    rw [concat_eq_append] at hfit ⊢
    obtain ⟨hne, hle⟩ := hfit last (by simp)
    have hpos := length_pos_of_ne_nil hne
    have hinit : (nodesOf init).length = init.length * o.pageSize := by
      clear hfit hne hle hpos last
      induction init with
      | nil => simp
      | cons p init ih =>
        rw [nodesOf_cons, length_append, hfull p mem_cons_self,
          ih fun q hq => hfull q (mem_cons_of_mem p hq), length_cons, Nat.succ_mul, Nat.add_comm]
    rw [nodesOf_append, nodesOf_cons, nodesOf_nil, append_nil, length_append,
      length_append, hinit, length_singleton]
    rw [show init.length * o.pageSize + last.nodes.length + o.pageSize - 1 =
        last.nodes.length - 1 + (init.length + 1) * o.pageSize by rw [Nat.succ_mul]; omega,
      Nat.add_mul_div_right _ _ (by omega), Nat.div_eq_of_lt (by omega), Nat.zero_add]

theorem map_nodes_zipIdx (ps : List ClusterInfo) :
    (ps.zipIdx.map fun x => ({ x.1 with pageId := x.2 } : ClusterInfo)).map ClusterInfo.nodes =
      ps.map ClusterInfo.nodes := by
  apply ext_getElem
  · simp
  · intro i h1 h2
    simp

theorem fillPartialPages_spec (hP : 1 ≤ o.pageSize) {clusters : List ClusterInfo}
    (hnd : ∀ c ∈ clusters, c.nodes.Nodup) : ∃ ps : List ClusterInfo,
      (o.optimizeLayout clusters).map ClusterInfo.nodes = ps.map ClusterInfo.nodes ∧
      (∀ p ∈ ps, o.FitsPage p) ∧ (∀ p ∈ ps.dropLast, p.nodes.length = o.pageSize) ∧
      (nodesOf ps).Perm (nodesOf clusters) := by
  obtain ⟨F, Q, hst, hF, hQ, hperm⟩ := foldl_addCluster_spec hP hnd ([], [])
  have hsort := o.perm_sort Q
  obtain ⟨hfit, hfull, hnodes⟩ := packPages_spec fun p hp => hQ p (hsort.mem_iff.1 hp)
  refine ⟨F ++ o.packPages (o.sortBySize Q), ?_, ?_, ?_, ?_⟩
  · unfold optimizeLayout fillPartialPages
    rw [hst]
    exact map_nodes_zipIdx _
  · intro p hp
    rcases mem_append.1 hp with hp | hp
    · refine ⟨?_, (hF p hp).le⟩
      rw [← length_pos_iff_ne_nil, hF p hp]
      exact hP
    · exact hfit p hp
  · intro p hp
    by_cases hnil : o.packPages (o.sortBySize Q) = []
    · rw [hnil, append_nil] at hp
      exact hF p (mem_of_mem_dropLast hp)
    · rw [dropLast_append_of_ne_nil hnil] at hp
      rcases mem_append.1 hp with hp | hp
      · exact hF p hp
      · exact hfull p hp
  · rw [nodesOf_append]
    exact ((hnodes.trans (hsort.flatMap_right _)).append_left _).trans hperm

end Pages

/-! ### The layout is one of pages -/

/-- The pages hold the nodes of the clusters, each once, and all but one of them are full. -/
structure IsLayout (pageSize : ℕ) (clusters pages : List ClusterInfo) : Prop where
  nonempty : ∀ p ∈ pages, p.nodes ≠ []
  disjoint : pages.Pairwise fun p q => p.nodes.Disjoint q.nodes
  nodup : ∀ p ∈ pages, p.nodes.Nodup
  nodes : ∀ x, (∃ p ∈ pages, x ∈ p.nodes) ↔ ∃ c ∈ clusters, x ∈ c.nodes
  le : ∀ p ∈ pages, p.nodes.length ≤ pageSize
  full : (pages.filter fun p => p.nodes.length ≠ pageSize).length ≤ 1
  count : pages.length = ((clusters.map fun c => c.nodes.length).sum + pageSize - 1) / pageSize

theorem nodup_nodesOf {ps : List ClusterInfo} : (nodesOf ps).Nodup ↔
    (∀ p ∈ ps, p.nodes.Nodup) ∧ ps.Pairwise fun p q => p.nodes.Disjoint q.nodes :=
  nodup_flatMap

theorem mem_nodesOf {ps : List ClusterInfo} {x : ℕ} : x ∈ nodesOf ps ↔ ∃ p ∈ ps, x ∈ p.nodes :=
  mem_flatMap

theorem length_nodesOf (ps : List ClusterInfo) :
    (nodesOf ps).length = (ps.map fun c => c.nodes.length).sum :=
  length_flatMap

theorem length_filter_le_one {α : Type*} {f : α → Bool} {l : List α}
    (h : ∀ x ∈ l.dropLast, f x = false) : (l.filter f).length ≤ 1 := by
  rcases eq_nil_or_concat l with rfl | ⟨init, last, rfl⟩
  · exact Nat.zero_le 1
  · rw [concat_eq_append] at h
    rw [concat_eq_append, filter_append, filter_eq_nil_iff.2 (by simpa using h)]
    exact length_filter_le f [last]

theorem isLayout_optimizeLayout (o : PageLayoutOptimizer) (clusters : List ClusterInfo)
    (hP : 1 ≤ o.pageSize) (hnd : ∀ c ∈ clusters, c.nodes.Nodup)
    (hdisj : clusters.Pairwise fun c d => c.nodes.Disjoint d.nodes) :
    IsLayout o.pageSize clusters (o.optimizeLayout clusters) := by
  obtain ⟨ps, hmap, hfit, hfull, hperm⟩ := fillPartialPages_spec hP hnd
  set pages := o.optimizeLayout clusters with hpages
  have hof : nodesOf pages = nodesOf ps := by
    unfold nodesOf
    rw [flatMap_def, flatMap_def, hmap]
  -- a page and the page it had been before it was numbered have the same nodes
  have hback : ∀ p ∈ pages, ∃ p' ∈ ps, p'.nodes = p.nodes := by
    intro p hp
    have hmem : p.nodes ∈ ps.map ClusterInfo.nodes := hmap ▸ mem_map_of_mem hp
    exact mem_map.1 hmem
  have hnodup : (nodesOf pages).Nodup := by
    rw [hof]
    exact hperm.nodup_iff.2 (nodup_nodesOf.2 ⟨hnd, hdisj⟩)
  have hlen : pages.length = ps.length := by simpa using congrArg List.length hmap
  constructor
  case nonempty =>
    intro p hp
    obtain ⟨p', hp', he⟩ := hback p hp
    exact he ▸ (hfit p' hp').1
  case disjoint => exact (nodup_nodesOf.1 hnodup).2
  case nodup => exact (nodup_nodesOf.1 hnodup).1
  case nodes =>
    intro x
    rw [← mem_nodesOf, ← mem_nodesOf, hof]
    exact hperm.mem_iff
  case le =>
    intro p hp
    obtain ⟨p', hp', he⟩ := hback p hp
    exact he ▸ (hfit p' hp').2
  case full =>
    have hdrop : pages.dropLast.map ClusterInfo.nodes = ps.dropLast.map ClusterInfo.nodes := by
      rw [map_dropLast, map_dropLast, hmap]
    apply length_filter_le_one
    intro p hp
    have hmem : p.nodes ∈ ps.dropLast.map ClusterInfo.nodes := hdrop ▸ mem_map_of_mem hp
    obtain ⟨p', hp', he⟩ := mem_map.1 hmem
    simp [← he, hfull p' hp']
  case count =>
    rw [hlen, length_eq_of_dropLast_full hP hfit hfull, hperm.length_eq, length_nodesOf]

/-- Pages of two for a ring of seven nodes. -/
def ringOptimizer : PageLayoutOptimizer where
  graph := [[1, 6], [0, 2], [1, 3], [2, 4], [3, 5], [4, 6], [5, 0]]
  pageSize := 2
  sortBySize l := l.mergeSort fun a b => b.nodes.length ≤ a.nodes.length
  perm_sort l := List.mergeSort_perm l _

theorem isLayout_ring : IsLayout 2 [⟨[0, 1, 2, 3, 4], 0⟩, ⟨[5, 6], 0⟩]
    (ringOptimizer.optimizeLayout [⟨[0, 1, 2, 3, 4], 0⟩, ⟨[5, 6], 0⟩]) :=
  isLayout_optimizeLayout ringOptimizer _ (by decide) (by decide) (by simp)

end PageLayoutOptimizer

end DiskANNEval.Gorgeous
