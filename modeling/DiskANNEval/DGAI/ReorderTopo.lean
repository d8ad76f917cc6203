import DiskANNEval.DGAI.SplitIndex
import DiskANNEval.Lib.KeySet
import DiskANNEval.Lib.Positions
import DiskANNEval.Lib.SortedGroups

/-!
# ReorderTopo — the lists of a disk index, those of near points in one sector

The tool goes through the edges, the heavy ones first, and puts their ends into one sector, as long
as there is room; what is left fills the sectors up.  Then the points are sorted by their sectors,
and the lists are written in that order.  Nothing is left out for a sector that is not full, so all
behind it moves.  `reordersRight_iff` says which inputs are reordered as they should.
-/

namespace DiskANNEval.DGAI

open Lib List Option Function Finset Nat
open Lib.ByteFile (bytes put)
open PageGeometry SplitIndex

namespace ReorderTopo

/-- The ids are of 32 bits.  `firstUnused` is the first sector of the unordered set, before an edge;
`sortBy` is `std::sort`. -/
structure ReorderInput where
  npts : ℕ
  ndims : ℕ
  edges : List (ℕ × ℕ)
  npts_le : npts ≤ 2 ^ 32
  edges_lt : ∀ e ∈ edges, e.1 < npts ∧ e.2 < npts
  firstUnused : ℕ → Finset ℕ → ℕ
  firstUnused_mem : ∀ i s, s.Nonempty → firstUnused i s ∈ s
  sortBy : (ℕ → ℤ) → List ℕ → List ℕ
  sort_perm : ∀ key l, (sortBy key l).Perm l
  sort_sorted : ∀ key l, (sortBy key l).Pairwise fun a b => key a ≤ key b

/-- `sector_id`, `sector_node_id`, `unused_sector` and `used_node_idx` -/
structure Groups where
  sectorId : ℕ → Option ℕ
  sectorNodeId : ℕ → List ℕ
  unusedSector : Finset ℕ
  usedNodeIdx : ℕ

/-- The sectors while they are filled; the next one of `unassigned_node_id` comes first. -/
structure Filling where
  groups : Groups
  unassignedNodeId : List ℕ
  emptyCnt : ℕ

/-- `cur_node_id` and the new file -/
structure Written where
  curNodeId : ℕ
  file : ByteFile

/-- The sectors, `inv_indices` and the new file. -/
structure Reordered where
  sectorId : ℕ → Option ℕ
  invIndices : ℕ → ℕ
  file : ByteFile

/-- The value in the vector: `-1` where there is no sector. -/
def sectorIdValue : Option ℕ → ℤ
  | none => -1
  | some s => s

namespace Groups

variable (g : Groups)

/-- A node gets a place in a sector. -/
def assign (node sector : ℕ) : Groups :=
  { g with
    sectorId := Function.update g.sectorId node (some sector)
    sectorNodeId := Function.update g.sectorNodeId sector (g.sectorNodeId sector ++ [node])
    usedNodeIdx := g.usedNodeIdx + 1 }

/-- Both ends of an edge get an unused sector. -/
def openSector (sector : ℕ) (e : ℕ × ℕ) : Groups :=
  ({ g with unusedSector := g.unusedSector.erase sector }.assign e.1 sector).assign e.2 sector

/-- The nodes of `vid` go to `uid`. -/
def mergeSectors (uid vid : ℕ) : Groups :=
  { g with
    sectorId := fun node => if node ∈ g.sectorNodeId vid then some uid else g.sectorId node
    sectorNodeId := Function.update
      (Function.update g.sectorNodeId uid (g.sectorNodeId uid ++ g.sectorNodeId vid)) vid []
    unusedSector := insert vid g.unusedSector }

end Groups

namespace ReorderInput

variable (t : ReorderInput) (topo : ByteFile)

/-! ### The sectors -/

/-- `nbytes_per_vector`, of 32 bits. -/
def nbytesPerVector : ℕ := (t.ndims + 1) * 4 % 2 ^ 32

def nvectorsPerSector : ℕ := sectorLen / t.nbytesPerVector

def nSectors : ℕ := (t.npts + t.nvectorsPerSector - 1) / t.nvectorsPerSector

def start : Groups := ⟨fun _ => none, fun _ => [], Finset.range t.nSectors, 0⟩

/-- A node joins a sector, if there is room. -/
def join (node sector : ℕ) (g : Groups) : Groups :=
  if (g.sectorNodeId sector).length < t.nvectorsPerSector then g.assign node sector else g

/-- The body of the loop over the edges; `none` is `continue`. -/
def edgeBody (i : ℕ) (e : ℕ × ℕ) (g : Groups) : Option Groups :=
  if e.1 = e.2 then none
  else
    match g.sectorId e.1, g.sectorId e.2 with
    | none, none =>
      some (if g.unusedSector.Nonempty ∧ 1 < t.nvectorsPerSector then
        g.openSector (t.firstUnused i g.unusedSector) e else g)
    | none, some vid => some (t.join e.1 vid g)
    | some uid, none => some (t.join e.2 uid g)
    | some uid, some vid =>
      if uid = vid then none
      else if (g.sectorNodeId uid).length + (g.sectorNodeId vid).length ≤ t.nvectorsPerSector then
        some (g.mergeSectors uid vid)
      else none

/-- The loop over the edges, from the `i`th on; `none` is a division by zero. -/
def edgeLoop : ℕ → List (ℕ × ℕ) → Groups → Option Groups
  | _, [], g => some g
  | i, e :: es, g =>
    match t.edgeBody i e g with
    | none => edgeLoop (i + 1) es g
    | some g =>
      if t.edges.length / 1000 = 0 then none
      else if t.npts < g.usedNodeIdx then some g
      else edgeLoop (i + 1) es g

/-! ### The nodes that are left -/

def unassigned (g : Groups) : List ℕ := (List.range t.npts).filter fun i => g.sectorId i = none

/-- The loop that fills a sector. -/
def fillWhile (sector : ℕ) : List ℕ → Groups → List ℕ × Groups
  | [], g => ([], g)
  | node :: left, g =>
    if (g.sectorNodeId sector).length < t.nvectorsPerSector then
      fillWhile sector left (g.assign node sector)
    else (node :: left, g)

def fillSector (f : Filling) (sector : ℕ) : Filling :=
  let r := t.fillWhile sector f.unassignedNodeId f.groups
  ⟨r.2, r.1, f.emptyCnt + (t.nvectorsPerSector - (r.2.sectorNodeId sector).length)⟩

def fillSectors (g : Groups) : Filling :=
  (List.range t.nSectors).foldl t.fillSector ⟨g, (t.unassigned g).reverse, 0⟩

/-- The checks; `none` is `exit(1)`. -/
def checked (f : Filling) : Option Groups :=
  if (0 < f.emptyCnt ∧ f.emptyCnt ≠ t.nvectorsPerSector * t.nSectors - t.npts) ∨
      0 < f.unassignedNodeId.length ∨ f.groups.usedNodeIdx ≠ t.npts then none
  else some f.groups

/-! ### The new order -/

def indices (g : Groups) : List ℕ :=
  t.sortBy (fun i => sectorIdValue (g.sectorId i)) (List.range t.npts)

/-- `inv_indices`; the sectors stay in their order. -/
def invIndices (g : Groups) (oldId : ℕ) : ℕ :=
  let newId := (positionArray t.npts 0 (t.indices g)).getD oldId 0
  newId / t.nvectorsPerSector * t.nvectorsPerSector + newId % t.nvectorsPerSector

def newOffset (newId : ℕ) : ℕ :=
  newId / t.nvectorsPerSector * sectorLen + newId % t.nvectorsPerSector * t.nbytesPerVector

/-- The node at `k` of a sector of the old file is written. -/
def writeNode (g : Groups) (sector : ℕ) (st : Written) (k : ℕ) : Written :=
  if st.curNodeId < t.npts then
    ⟨st.curNodeId + 1, st.file.put (t.newOffset (t.invIndices g st.curNodeId))
      (topo.bytes (sector * sectorLen + k * t.nbytesPerVector) t.nbytesPerVector)⟩
  else st

/-- A sector of the old file; `none` is a division by zero. -/
def writeSector (g : Groups) (st : Written) (sector : ℕ) : Option Written :=
  let st := (List.range t.nvectorsPerSector).foldl (t.writeNode topo g sector) st
  if t.nSectors / 1000 = 0 then none else some st

/-- The old file has all sectors, the new one is empty. -/
def writeLoop (g : Groups) : Option Written :=
  (List.range t.nSectors).foldlM (t.writeSector topo g) ⟨0, fun _ => 0⟩

/-- `none`: a division by zero, or `exit(1)`. -/
def reorder : Option Reordered :=
  if t.nvectorsPerSector = 0 then none
  else
    (t.edgeLoop 0 t.edges t.start).bind fun g =>
      (t.checked (t.fillSectors g)).bind fun g =>
        (t.writeLoop topo g).map fun st => ⟨g.sectorId, t.invIndices g, st.file⟩

end ReorderInput

/-! ### The reader -/

/-- A reader of lists of at most `ndims` neighbours: its `topo_len` and `ntopo_per_sector`. -/
structure ReorderInput.ReadBy (t : ReorderInput) (g : Geometry) : Prop where
  topoLen : g.topoLen = (t.ndims + 1) * 4 % 2 ^ 32
  ntopoPerSector : g.ntopoPerSector = sectorLen / g.topoLen

/-- The record at a location. -/
def foundTopo (g : Geometry) (file : ByteFile) (loc : ℕ) : Except Fault (List UInt8) :=
  (g.locSectorNoTopo loc).map fun s =>
    file.bytes (s * sectorLen + g.offsetToLocTopo loc) g.topoLen

namespace ReorderInput

variable (t : ReorderInput) (topo : ByteFile)

/-- The ids are permuted, each record is at the new id of its node, and the nodes of a sector are in
one sector for the reader. -/
structure Right (o : Reordered) : Prop where
  perm : ((List.range t.npts).map o.invIndices).Perm (List.range t.npts)
  records : ∀ g, t.ReadBy g → ∀ i < t.npts, ∃ r,
    foundTopo g topo i = .ok r ∧ foundTopo g o.file (o.invIndices i) = .ok r
  together : ∀ g, t.ReadBy g → ∀ i < t.npts, ∀ j < t.npts, o.sectorId i = o.sectorId j →
    ∃ s, g.locSectorNoTopo (o.invIndices i) = .ok s ∧ g.locSectorNoTopo (o.invIndices j) = .ok s

def ReordersRight : Prop := ∃ o, t.reorder topo = some o ∧ t.Right topo o

/-- A sector has room for a record, there are as many edges and sectors as the progress is divided
by, unless no edge and no sector counts, and the edges put no more nodes into the last sector than
there are for it. -/
structure Reorderable : Prop where
  room : 0 < t.nvectorsPerSector
  edges : 1000 ≤ t.edges.length ∨ ∀ e ∈ t.edges, e.1 = e.2
  sectors : 1000 ≤ t.nSectors ∨ t.npts = 0
  last : ∀ g, t.edgeLoop 0 t.edges t.start = some g →
    (g.sectorNodeId (t.nSectors - 1)).length ≤
      t.npts - t.nvectorsPerSector * (t.nSectors - 1)

variable {t : ReorderInput} {g g' : Groups} {node sector : ℕ}

/-! ### The nodes of the sectors -/

variable {uid vid i j : ℕ}

@[simp] theorem sectorId_assign :
    (g.assign node sector).sectorId = Function.update g.sectorId node (some sector) := rfl

@[simp] theorem sectorNodeId_assign : (g.assign node sector).sectorNodeId =
    Function.update g.sectorNodeId sector (g.sectorNodeId sector ++ [node]) := rfl

theorem sectorNodeId_mergeSectors (s : ℕ) : (g.mergeSectors uid vid).sectorNodeId s =
      if s = vid then [] else if s = uid then g.sectorNodeId uid ++ g.sectorNodeId vid
        else g.sectorNodeId s := by
  rw [← update_apply g.sectorNodeId, ← update_apply]
  rfl

/-- The two tables agree, and no sector has more nodes than there is room for. -/
structure Grouped (t : ReorderInput) (g : Groups) : Prop where
  mem : ∀ i s, g.sectorId i = some s ↔ i ∈ g.sectorNodeId s
  nodup : ∀ s, (g.sectorNodeId s).Nodup
  length : ∀ s, (g.sectorNodeId s).length ≤ t.nvectorsPerSector
  lt : ∀ s, ∀ i ∈ g.sectorNodeId s, i < t.npts ∧ s < t.nSectors
  used : g.usedNodeIdx + (t.unassigned g).length = t.npts

theorem mem_unassigned : i ∈ t.unassigned g ↔ i < t.npts ∧ g.sectorId i = none := by
  rw [unassigned, mem_filter, List.mem_range, decide_eq_true_eq]

theorem nodup_unassigned : (t.unassigned g).Nodup := nodup_range.filter _

theorem unassigned_assign (hnode : node < t.npts) (hnone : g.sectorId node = none) :
    (t.unassigned g).Perm (node :: t.unassigned (g.assign node sector)) := by
  have hnot : node ∉ t.unassigned (g.assign node sector) := by
    rw [mem_unassigned, sectorId_assign, update_self]
    rintro ⟨-, h⟩
    cases h
  refine (perm_ext_iff_of_nodup nodup_unassigned
    (nodup_cons.2 ⟨hnot, nodup_unassigned⟩)).2 fun i => ?_
  rw [List.mem_cons, mem_unassigned, mem_unassigned, sectorId_assign]
  by_cases hi : i = node
  · subst hi
    exact iff_of_true ⟨hnode, hnone⟩ (.inl rfl)
  · rw [update_of_ne hi, or_iff_right hi]

theorem Grouped.assign (h : Grouped t g) (hnode : node < t.npts) (hnone : g.sectorId node = none)
    (hsector : sector < t.nSectors)
    (hroom : (g.sectorNodeId sector).length < t.nvectorsPerSector) :
    Grouped t (g.assign node sector) := by
  have hnot : ∀ s, node ∉ g.sectorNodeId s := fun s hs => by
    rw [(h.mem node s).2 hs] at hnone
    cases hnone
  refine ⟨fun i s => ?_, fun s => ?_, fun s => ?_, fun s i hi => ?_, ?_⟩
  · rw [sectorId_assign, sectorNodeId_assign]
    by_cases hs : s = sector
    · subst hs
      rw [update_self, mem_append, List.mem_singleton]
      by_cases hi : i = node
      · subst hi
        rw [update_self]
        exact iff_of_true rfl (.inr rfl)
      · rw [update_of_ne hi, or_iff_left hi]
        exact h.mem i s
    · rw [update_of_ne hs]
      by_cases hi : i = node
      · subst hi
        rw [update_self, Option.some.injEq]
        exact iff_of_false (Ne.symm hs) (hnot s)
      · rw [update_of_ne hi]
        exact h.mem i s
  · rw [sectorNodeId_assign]
    by_cases hs : s = sector
    · subst hs
      rw [update_self, ← concat_eq_append, nodup_concat]
      exact ⟨hnot s, h.nodup s⟩
    · rw [update_of_ne hs]
      exact h.nodup s
  · rw [sectorNodeId_assign]
    by_cases hs : s = sector
    · subst hs
      rw [update_self, length_append]
      exact hroom
    · rw [update_of_ne hs]
      exact h.length s
  · rw [sectorNodeId_assign] at hi
    by_cases hs : s = sector
    · subst hs
      rw [update_self, mem_append, List.mem_singleton] at hi
      obtain hi | rfl := hi
      · exact h.lt s i hi
      · exact ⟨hnode, hsector⟩
    · rw [update_of_ne hs] at hi
      exact h.lt s i hi
  · have hused := h.used
    have hperm : (t.unassigned g).Perm (node :: t.unassigned (g.assign node sector)) :=
      unassigned_assign hnode hnone
    rw [hperm.length_eq, length_cons] at hused
    show g.usedNodeIdx + 1 + _ = _
    omega

theorem Grouped.mergeSectors (h : Grouped t g) (hne : uid ≠ vid) (huid : uid < t.nSectors)
    (hroom : (g.sectorNodeId uid).length + (g.sectorNodeId vid).length ≤ t.nvectorsPerSector) :
    Grouped t (g.mergeSectors uid vid) := by
  have hid : ∀ i, (g.mergeSectors uid vid).sectorId i =
      if i ∈ g.sectorNodeId vid then some uid else g.sectorId i := fun _ => rfl
  refine ⟨fun i s => ?_, fun s => ?_, fun s => ?_, fun s i hi => ?_, ?_⟩
  · rw [sectorNodeId_mergeSectors, hid]
    split_ifs with hi hs hs' hs hs'
    · subst hs
      exact iff_of_false (fun he => hne (Option.some.inj he)) not_mem_nil
    · subst hs'
      exact iff_of_true rfl (mem_append_right _ hi)
    · rw [Option.some.injEq, ← h.mem, (h.mem i vid).2 hi, Option.some.injEq]
      exact iff_of_false (Ne.symm hs') (Ne.symm hs)
    · subst hs
      rw [h.mem]
      exact iff_of_false hi not_mem_nil
    · subst hs'
      rw [h.mem, mem_append, or_iff_left hi]
    · exact h.mem i s
  · rw [sectorNodeId_mergeSectors]
    split_ifs with hs hs'
    · exact nodup_nil
    · refine nodup_append.2 ⟨h.nodup uid, h.nodup vid, fun a ha b hb hab => ?_⟩
      subst hab
      exact hne (Option.some.inj (((h.mem a uid).2 ha).symm.trans ((h.mem a vid).2 hb)))
    · exact h.nodup s
  · rw [sectorNodeId_mergeSectors]
    split_ifs
    · exact zero_le _
    · rw [length_append]
      exact hroom
    · exact h.length s
  · rw [sectorNodeId_mergeSectors] at hi
    split_ifs at hi with hs hs'
    · exact absurd hi not_mem_nil
    · subst hs'
      obtain hi | hi := mem_append.1 hi
      · exact h.lt s i hi
      · exact ⟨(h.lt vid i hi).1, huid⟩
    · exact h.lt s i hi
  · have hsame : t.unassigned (g.mergeSectors uid vid) = t.unassigned g := by
      refine filter_congr fun i _ => ?_
      rw [hid, decide_eq_decide]
      by_cases hi : i ∈ g.sectorNodeId vid
      · rw [if_pos hi, (h.mem i vid).2 hi]
        exact iff_of_false (some_ne_none _) (some_ne_none _)
      · rw [if_neg hi]
    rw [hsame]
    exact h.used

/-! ### The loop over the edges -/

/-- The unused sectors are empty. -/
structure Forming (t : ReorderInput) (g : Groups) : Prop extends Grouped t g where
  unused : ∀ s ∈ g.unusedSector, s < t.nSectors ∧ g.sectorNodeId s = []

theorem forming_start : Forming t t.start where
  mem := fun _ _ => iff_of_false (some_ne_none _).symm not_mem_nil
  nodup := fun _ => nodup_nil
  length := fun _ => zero_le _
  lt := fun _ _ hi => absurd hi not_mem_nil
  used := by
    have hall : t.unassigned t.start = List.range t.npts :=
      filter_eq_self.2 fun _ _ => rfl
    rw [hall, length_range]
    exact zero_add _
  unused := fun _ hs => ⟨Finset.mem_range.1 hs, rfl⟩

theorem Forming.assign (h : Forming t g) (hnode : node < t.npts)
    (hnone : g.sectorId node = none) (hsector : sector < t.nSectors)
    (hunused : sector ∉ g.unusedSector)
    (hroom : (g.sectorNodeId sector).length < t.nvectorsPerSector) :
    Forming t (g.assign node sector) where
  toGrouped := h.toGrouped.assign hnode hnone hsector hroom
  unused := fun s hs => by
    have hne : s ≠ sector := fun he => hunused (he ▸ hs)
    rw [sectorNodeId_assign, update_of_ne hne]
    exact h.unused s hs

theorem Forming.openSector (h : Forming t g) {e : ℕ × ℕ} (he : e.1 < t.npts ∧ e.2 < t.npts)
    (hne : e.1 ≠ e.2) (h₁ : g.sectorId e.1 = none) (h₂ : g.sectorId e.2 = none)
    (hsector : sector ∈ g.unusedSector) (htwo : 1 < t.nvectorsPerSector) :
    Forming t (g.openSector sector e) := by
  obtain ⟨hlt, hempty⟩ := h.unused sector hsector
  have herase : Forming t { g with unusedSector := g.unusedSector.erase sector } :=
    ⟨⟨h.mem, h.nodup, h.length, h.lt, h.used⟩, fun s hs => h.unused s (mem_of_mem_erase hs)⟩
  have hnot : sector ∉ g.unusedSector.erase sector := notMem_erase _ _
  have hfirst := herase.assign he.1 h₁ hlt hnot (by
    rw [hempty]
    exact zero_lt_of_lt htwo)
  refine hfirst.assign he.2 ?_ hlt hnot ?_
  · rw [sectorId_assign, update_of_ne hne.symm]
    exact h₂
  · rw [sectorNodeId_assign, update_self, hempty]
    exact htwo

theorem Forming.join (h : Forming t g) (hnode : node < t.npts) (hnone : g.sectorId node = none)
    (hi : g.sectorId i = some sector) : Forming t (t.join node sector g) := by
  rw [ReorderInput.join]
  split_ifs with hroom
  · have hmem := (h.mem i sector).1 hi
    refine h.assign hnode hnone (h.lt sector i hmem).2 (fun hs => ?_) hroom
    rw [(h.unused sector hs).2] at hmem
    exact absurd hmem not_mem_nil
  · exact h

theorem Forming.mergeSectors (h : Forming t g) (hi : g.sectorId i = some uid)
    (hj : g.sectorId j = some vid) (hne : uid ≠ vid)
    (hroom : (g.sectorNodeId uid).length + (g.sectorNodeId vid).length ≤ t.nvectorsPerSector) :
    Forming t (g.mergeSectors uid vid) := by
  have hmem_i := (h.mem i uid).1 hi
  have hlt := (h.lt uid i hmem_i).2
  refine ⟨h.toGrouped.mergeSectors hne hlt hroom, fun s hs => ?_⟩
  have hs' : s ∈ insert vid g.unusedSector := hs
  rw [sectorNodeId_mergeSectors]
  by_cases hv : s = vid
  · subst hv
    exact ⟨(h.lt s j ((h.mem j s).1 hj)).2, if_pos rfl⟩
  · obtain ⟨hlt_s, hempty⟩ := h.unused s ((mem_insert.1 hs').resolve_left hv)
    have hu : s ≠ uid := fun he => by
      rw [← he, hempty] at hmem_i
      exact absurd hmem_i not_mem_nil
    rw [if_neg hv, if_neg hu]
    exact ⟨hlt_s, hempty⟩

theorem Forming.edgeBody (h : Forming t g) {e : ℕ × ℕ} (he : e.1 < t.npts ∧ e.2 < t.npts)
    (hg : t.edgeBody i e g = some g') : Forming t g' := by
  rw [ReorderInput.edgeBody] at hg
  by_cases hne : e.1 = e.2
  · rw [if_pos hne] at hg
    cases hg
  rw [if_neg hne] at hg
  cases h₁ : g.sectorId e.1 with
  | none =>
    cases h₂ : g.sectorId e.2 with
    | none =>
      rw [h₁, h₂] at hg
      cases hg
      split_ifs with hopen
      · exact h.openSector he hne h₁ h₂ (t.firstUnused_mem i _ hopen.1) hopen.2
      · exact h
    | some vid =>
      rw [h₁, h₂] at hg
      cases hg
      exact h.join he.1 h₁ h₂
  | some uid =>
    cases h₂ : g.sectorId e.2 with
    | none =>
      rw [h₁, h₂] at hg
      cases hg
      exact h.join he.2 h₂ h₁
    | some vid =>
      rw [h₁, h₂] at hg
      dsimp only at hg
      split_ifs at hg with hsame hroom
      cases hg
      exact h.mergeSectors h₁ h₂ hsame hroom

variable {es : List (ℕ × ℕ)}

theorem Forming.edgeLoop (h : Forming t g) (hes : ∀ e ∈ es, e.1 < t.npts ∧ e.2 < t.npts)
    (hg : t.edgeLoop i es g = some g') : Forming t g' := by
  induction es generalizing i g with
  | nil =>
    cases hg
    exact h
  | cons e es ih =>
    rw [List.forall_mem_cons] at hes
    rw [ReorderInput.edgeLoop] at hg
    cases hbody : t.edgeBody i e g with
    | none =>
      rw [hbody] at hg
      exact ih h hes.2 hg
    | some g₁ =>
      rw [hbody] at hg
      dsimp only at hg
      have h₁ := h.edgeBody hes.1 hbody
      split_ifs at hg
      · cases hg
        exact h₁
      · exact ih h₁ hes.2 hg

theorem exists_edgeLoop (hes : 1000 ≤ t.edges.length ∨ ∀ e ∈ es, e.1 = e.2) (i : ℕ) (g : Groups) :
    ∃ g', t.edgeLoop i es g = some g' := by
  induction es generalizing i g with
  | nil => exact ⟨g, rfl⟩
  | cons e es ih =>
    have hrest := ih (hes.imp_right fun h e' he' => h e' (mem_cons_of_mem e he'))
    rw [edgeLoop]
    cases hbody : t.edgeBody i e g with
    | none => exact hrest (i + 1) g
    | some g₁ =>
      have hlen : 1000 ≤ t.edges.length := hes.resolve_right fun h => by
        rw [edgeBody, if_pos (h e mem_cons_self)] at hbody
        cases hbody
      dsimp only
      rw [if_neg (div_pos hlen (by decide)).ne']
      split_ifs
      · exact ⟨g₁, rfl⟩
      · exact hrest (i + 1) g₁

/-- The first edge that counts opens a sector, and divides by the number of edges. -/
theorem edges_of_edgeLoop (hg : t.edgeLoop i es t.start = some g) :
    1000 ≤ t.edges.length ∨ ∀ e ∈ es, e.1 = e.2 := by
  induction es generalizing i with
  | nil => exact .inr fun e he => absurd he not_mem_nil
  | cons e es ih =>
    rw [edgeLoop, edgeBody] at hg
    by_cases he : e.1 = e.2
    · rw [if_pos he] at hg
      exact (ih hg).imp_right fun h => forall_mem_cons.2 ⟨he, h⟩
    · rw [if_neg he] at hg
      dsimp only [start] at hg
      split_ifs at hg with hlen
      · exact .inl (by omega)
      · exact .inl (by omega)

/-! ### How many nodes there are -/

/-- The sector of a node, or the one behind the last. -/
def groupKey (t : ReorderInput) (g : Groups) (i : ℕ) : ℕ := (g.sectorId i).getD t.nSectors

theorem Grouped.groupKey_eq_iff (h : Grouped t g) {s : ℕ} (hs : s < t.nSectors) :
    t.groupKey g i = s ↔ i ∈ g.sectorNodeId s := by
  rw [← h.mem, groupKey]
  cases g.sectorId i with
  | none => exact iff_of_false hs.ne' (some_ne_none s).symm
  | some s' => exact some_inj.symm

theorem Grouped.groupSize_eq (h : Grouped t g) {s : ℕ} (hs : s < t.nSectors) :
    groupSize (t.groupKey g) t.npts s = (g.sectorNodeId s).length := by
  have hperm : ((List.range t.npts).filter fun i => t.groupKey g i = s).Perm
      (g.sectorNodeId s) := by
    refine (perm_ext_iff_of_nodup (nodup_range.filter _) (h.nodup s)).2 fun i => ?_
    rw [mem_filter, List.mem_range, decide_eq_true_eq, h.groupKey_eq_iff hs]
    exact and_iff_right_of_imp fun hi => (h.lt s i hi).1
  rw [groupSize, countP_eq_length_filter, hperm.length_eq]

theorem Grouped.groupSize_nSectors (h : Grouped t g) :
    groupSize (t.groupKey g) t.npts t.nSectors = (t.unassigned g).length := by
  rw [groupSize, countP_eq_length_filter]
  refine congrArg List.length (filter_congr fun i _ => ?_)
  rw [decide_eq_decide, groupKey]
  cases hi : g.sectorId i with
  | none => exact iff_of_true rfl rfl
  | some s =>
    exact iff_of_false (h.lt s i ((h.mem i s).1 hi)).2.ne (some_ne_none s)

theorem Grouped.sum_length (h : Grouped t g) :
    ∑ s ∈ Finset.range t.nSectors, (g.sectorNodeId s).length + (t.unassigned g).length =
      t.npts := by
  have hall : below (t.groupKey g) t.npts (t.nSectors + 1) = t.npts := by
    refine below_eq fun i _ => lt_succ_of_le ?_
    rw [groupKey]
    cases hi : g.sectorId i with
    | none => exact le_rfl
    | some s => exact (h.lt s i ((h.mem i s).1 hi)).2.le
  rw [below_succ, below_eq_sum, h.groupSize_nSectors] at hall
  rw [← hall]
  congr 1
  exact sum_congr rfl fun s hs => (h.groupSize_eq (Finset.mem_range.1 hs)).symm

theorem npts_le_mul (hroom : 0 < t.nvectorsPerSector) :
    t.npts ≤ t.nSectors * t.nvectorsPerSector := by
  have h := lt_div_mul_add (a := t.npts + t.nvectorsPerSector - 1) hroom
  rw [nSectors]
  omega

theorem lt_npts (hpos : 0 < t.nSectors) : (t.nSectors - 1) * t.nvectorsPerSector < t.npts := by
  have h := div_mul_le_self (t.npts + t.nvectorsPerSector - 1) t.nvectorsPerSector
  have hroom : 0 < t.nvectorsPerSector := by
    by_contra hzero
    rw [nSectors, Nat.eq_zero_of_not_pos hzero, Nat.div_zero] at hpos
    exact lt_irrefl 0 hpos
  have hmul : t.nvectorsPerSector ≤ t.nSectors * t.nvectorsPerSector :=
    Nat.le_mul_of_pos_left _ hpos
  rw [← nSectors] at h
  rw [Nat.sub_mul]
  omega

/-! ### The sectors are filled -/

/-- While the sectors before the `k`th have been filled. -/
structure FilledTo (t : ReorderInput) (g₀ : Groups) (k : ℕ) (f : Filling) : Prop where
  grouped : Grouped t f.groups
  left : f.unassignedNodeId.Perm (t.unassigned f.groups)
  full : f.unassignedNodeId = [] ∨
    ∀ s < k, (f.groups.sectorNodeId s).length = t.nvectorsPerSector
  grows : ∀ s, (g₀.sectorNodeId s).length ≤ (f.groups.sectorNodeId s).length
  order : ∀ s', (g₀.sectorNodeId s').length < (f.groups.sectorNodeId s').length →
    ∀ s < s', (f.groups.sectorNodeId s).length = t.nvectorsPerSector
  emptyCnt : f.emptyCnt =
    ∑ s ∈ Finset.range k, (t.nvectorsPerSector - (f.groups.sectorNodeId s).length)

theorem fillWhile_spec {left : List ℕ} (h : Grouped t g) (hleft : left.Perm (t.unassigned g))
    (hsector : sector < t.nSectors) {r : List ℕ × Groups} (hr : t.fillWhile sector left g = r) :
    Grouped t r.2 ∧ r.1.Perm (t.unassigned r.2) ∧
      (r.1 = [] ∨ (r.2.sectorNodeId sector).length = t.nvectorsPerSector) ∧
      (∀ s, s ≠ sector → r.2.sectorNodeId s = g.sectorNodeId s) ∧
      (g.sectorNodeId sector).length ≤ (r.2.sectorNodeId sector).length ∧
      (left = [] → r.2 = g) := by
  induction left generalizing g with
  | nil =>
    obtain rfl := hr
    exact ⟨h, hleft, .inl rfl, fun _ _ => rfl, le_rfl, fun _ => rfl⟩
  | cons node left ih =>
    rw [fillWhile] at hr
    split_ifs at hr with hroom
    · obtain ⟨hnode, hnone⟩ := mem_unassigned.1 (hleft.mem_iff.1 mem_cons_self)
      have hrest : left.Perm (t.unassigned (g.assign node sector)) :=
        (hleft.trans (unassigned_assign hnode hnone)).cons_inv
      obtain ⟨hg, hperm, hfull, hother, hgrow, -⟩ :=
        ih (h.assign hnode hnone hsector hroom) hrest hr
      refine ⟨hg, hperm, hfull, fun s hs => ?_, ?_, fun hnil => absurd hnil (cons_ne_nil _ _)⟩
      · rw [hother s hs, sectorNodeId_assign, update_of_ne hs]
      · rw [sectorNodeId_assign, update_self, length_append] at hgrow
        exact (le_add_right _ _).trans hgrow
    · obtain rfl := hr
      exact ⟨h, hleft, .inr (le_antisymm (h.length sector) (Nat.le_of_not_lt hroom)),
        fun _ _ => rfl, le_rfl, fun _ => rfl⟩

variable {g₀ : Groups} {f : Filling}

theorem FilledTo.fillSector {k : ℕ} (h : FilledTo t g₀ k f) (hk : k < t.nSectors) :
    FilledTo t g₀ (k + 1) (t.fillSector f k) := by
  obtain ⟨hg, hperm, hfull, hother, hgrow, hnil⟩ :=
    fillWhile_spec h.grouped h.left hk rfl
  rw [ReorderInput.fillSector]
  generalize t.fillWhile k f.unassignedNodeId f.groups = r at *
  have hlen : ∀ s, (f.groups.sectorNodeId s).length ≤ (r.2.sectorNodeId s).length := by
    intro s
    by_cases hs : s = k
    · rw [hs]
      exact hgrow
    · rw [hother s hs]
  refine ⟨hg, hperm, ?_, fun s => (h.grows s).trans (hlen s), fun s' hs' s hs => ?_, ?_⟩
  · obtain hleft | hall := h.full
    · left
      have hnone := h.left
      rw [hleft, ← hnil hleft] at hnone
      exact (hperm.trans hnone.symm).eq_nil
    · refine hfull.imp_right fun hlast s hs => ?_
      obtain hs | rfl := Nat.lt_succ_iff_lt_or_eq.1 hs
      · rw [hother s hs.ne]
        exact hall s hs
      · exact hlast
  · have hkeep : ∀ s, (f.groups.sectorNodeId s).length = t.nvectorsPerSector →
        (r.2.sectorNodeId s).length = t.nvectorsPerSector := fun s hs =>
      le_antisymm (hg.length s) (hs ▸ hlen s)
    refine hkeep s ?_
    by_cases heq : r.2.sectorNodeId s' = f.groups.sectorNodeId s'
    · rw [heq] at hs'
      exact h.order s' hs' s hs
    · obtain rfl : s' = k := by
        by_contra hne
        exact heq (hother s' hne)
      refine (h.full.resolve_left fun hleft => heq ?_) s hs
      rw [hnil hleft]
  · have hsum : ∑ s ∈ Finset.range k, (t.nvectorsPerSector - (f.groups.sectorNodeId s).length) =
        ∑ s ∈ Finset.range k, (t.nvectorsPerSector - (r.2.sectorNodeId s).length) := by
      refine sum_congr rfl fun s hs => ?_
      rw [hother s (Finset.mem_range.1 hs).ne]
    rw [Finset.sum_range_succ, h.emptyCnt, hsum]

theorem filledTo_fillSectors (h : Grouped t g) :
    FilledTo t g t.nSectors (t.fillSectors g) := by
  have hrun : ∀ k ≤ t.nSectors, FilledTo t g k
      ((List.range k).foldl t.fillSector ⟨g, (t.unassigned g).reverse, 0⟩) := by
    intro k
    induction k with
    | zero =>
      intro _
      exact ⟨h, reverse_perm _, .inr fun s hs => absurd hs (not_lt_zero s),
        fun _ => le_rfl, fun s' hs' => absurd hs' (lt_irrefl _), rfl⟩
    | succ k ih =>
      intro hk
      rw [range_succ, foldl_append]
      exact (ih (le_of_succ_le hk)).fillSector hk
  exact hrun _ le_rfl

theorem FilledTo.left_eq_nil (h : FilledTo t g₀ t.nSectors f) (hroom : 0 < t.nvectorsPerSector) :
    f.unassignedNodeId = [] := by
  obtain hnil | hfull := h.full
  · exact hnil
  · have hsum := h.grouped.sum_length
    have hle := npts_le_mul hroom
    rw [sum_const_nat fun s hs => hfull s (Finset.mem_range.1 hs), card_range] at hsum
    rw [← length_eq_zero_iff, h.left.length_eq]
    omega

theorem FilledTo.unassigned_eq_nil (h : FilledTo t g₀ t.nSectors f)
    (hroom : 0 < t.nvectorsPerSector) : t.unassigned f.groups = [] :=
  (h.left_eq_nil hroom ▸ h.left).symm.eq_nil

theorem FilledTo.checked (h : FilledTo t g₀ t.nSectors f) (hroom : 0 < t.nvectorsPerSector) :
    t.checked f = some f.groups := by
  have hleft := h.left_eq_nil hroom
  have hnone := h.unassigned_eq_nil hroom
  have hused := h.grouped.used
  have hsum := h.grouped.sum_length
  rw [hnone, length_nil, add_zero] at hused hsum
  have hcnt : f.emptyCnt + t.npts = t.nvectorsPerSector * t.nSectors := by
    rw [h.emptyCnt, ← hsum, ← sum_add_distrib, mul_comm]
    rw [sum_const_nat fun s _ => Nat.sub_add_cancel (h.grouped.length s), card_range]
  rw [ReorderInput.checked, if_neg]
  rintro (⟨-, hne⟩ | hne | hne)
  · exact hne (by omega)
  · rw [hleft] at hne
    exact lt_irrefl 0 hne
  · exact hne hused

/-- All sectors but the last one are full exactly when the edges have left it room for no more. -/
theorem FilledTo.full_iff (h : FilledTo t g₀ t.nSectors f) (h₀ : Grouped t g₀)
    (hroom : 0 < t.nvectorsPerSector) :
    (∀ s, s + 1 < t.nSectors → (f.groups.sectorNodeId s).length = t.nvectorsPerSector) ↔
      (g₀.sectorNodeId (t.nSectors - 1)).length ≤
        t.npts - t.nvectorsPerSector * (t.nSectors - 1) := by
  have hnone := h.unassigned_eq_nil hroom
  have hsum := h.grouped.sum_length
  rw [hnone, length_nil] at hsum
  have hgrows := h.grows (t.nSectors - 1)
  have horder := h.order (t.nSectors - 1)
  obtain hzero | hpos := Nat.eq_zero_or_pos t.nSectors
  · have hempty : g₀.sectorNodeId (t.nSectors - 1) = [] :=
      eq_nil_iff_forall_not_mem.2 fun i hi => by
        have hlt := (h₀.lt _ i hi).2
        omega
    rw [hempty]
    exact iff_of_true (fun s hs => by omega) (zero_le _)
  have hlt := lt_npts hpos
  rw [Nat.mul_comm] at hlt
  generalize hn : t.nSectors = n at *
  obtain ⟨m, rfl⟩ := exists_eq_succ_of_ne_zero hpos.ne'
  rw [succ_sub_one] at *
  rw [Finset.sum_range_succ] at hsum
  constructor
  · intro hfull
    rw [sum_const_nat fun s hs => hfull s (succ_lt_succ (Finset.mem_range.1 hs)),
      card_range, Nat.mul_comm] at hsum
    omega
  · intro hle
    obtain hgrown | heq := lt_or_eq_of_le hgrows
    · exact fun s hs => horder hgrown s (lt_of_succ_lt_succ hs)
    · have hle_each : ∀ s ∈ Finset.range m,
          (f.groups.sectorNodeId s).length ≤ t.nvectorsPerSector := fun s _ => h.grouped.length s
      have hall : ∑ s ∈ Finset.range m, (f.groups.sectorNodeId s).length =
          ∑ _s ∈ Finset.range m, t.nvectorsPerSector := by
        refine Nat.le_antisymm (Finset.sum_le_sum hle_each) ?_
        rw [sum_const, card_range, smul_eq_mul, Nat.mul_comm]
        omega
      exact fun s hs => (sum_eq_sum_iff_of_le hle_each).1 hall s
        (Finset.mem_range.2 (lt_of_succ_lt_succ hs))

/-! ### The new order -/

theorem indices_perm : (t.indices g).Perm (List.range t.npts) := t.sort_perm _ _

theorem invIndices_eq (hi : i < t.npts) : t.invIndices g i = (t.indices g).idxOf i := by
  have hperm := indices_perm (t := t) (g := g)
  have hget := getElem?_positionArray (d := 0) (hperm.nodup_iff.2 nodup_range)
    (getElem?_idxOf (hperm.mem_iff.2 (List.mem_range.2 hi))) hi
  rw [invIndices, getD_eq_getElem?_getD, hget]
  exact div_add_mod' _ _

theorem map_invIndices :
    (List.range t.npts).map (t.invIndices g) = (List.range t.npts).map (t.indices g).idxOf :=
  map_congr_left fun _ hi => invIndices_eq (List.mem_range.1 hi)

theorem invIndices_inj (hi : i < t.npts) (hj : j < t.npts)
    (h : t.invIndices g i = t.invIndices g j) : i = j := by
  rw [invIndices_eq hi, invIndices_eq hj] at h
  exact (idxOf_inj (indices_perm.mem_iff.2 (List.mem_range.2 hi))).1 h

theorem exists_sector (hnone : t.unassigned g = []) (hi : i < t.npts) :
    ∃ s, g.sectorId i = some s := by
  refine ne_none_iff_exists'.1 fun h => ?_
  have hmem : i ∈ t.unassigned g := mem_unassigned.2 ⟨hi, h⟩
  rw [hnone] at hmem
  exact absurd hmem not_mem_nil

theorem sorted_indices (hnone : t.unassigned g = []) :
    (t.indices g).Pairwise fun a b => t.groupKey g a ≤ t.groupKey g b := by
  refine (t.sort_sorted _ _).imp_of_mem fun {a b} ha hb hab => ?_
  obtain ⟨s, hs⟩ := exists_sector hnone (List.mem_range.1 (indices_perm.mem_iff.1 ha))
  obtain ⟨s', hs'⟩ := exists_sector hnone (List.mem_range.1 (indices_perm.mem_iff.1 hb))
  rw [hs, hs'] at hab
  rw [groupKey, groupKey, hs, hs']
  exact Int.ofNat_le.1 hab

theorem Grouped.together_iff (h : Grouped t g) (hnone : t.unassigned g = [])
    (hroom : 0 < t.nvectorsPerSector) :
    (∀ i < t.npts, ∀ j < t.npts, g.sectorId i = g.sectorId j →
      t.invIndices g i / t.nvectorsPerSector = t.invIndices g j / t.nvectorsPerSector) ↔
    ∀ s, s + 1 < t.nSectors → (g.sectorNodeId s).length = t.nvectorsPerSector := by
  have hkey : ∀ i < t.npts, t.groupKey g i < t.nSectors := by
    intro i hi
    obtain ⟨s, hs⟩ := exists_sector hnone hi
    rw [groupKey, hs]
    exact (h.lt s i ((h.mem i s).1 hs)).2
  have hsize : ∀ s < t.nSectors, groupSize (t.groupKey g) t.npts s ≤ t.nvectorsPerSector := by
    intro s hs
    rw [h.groupSize_eq hs]
    exact h.length s
  have hiff := Lib.together_iff hroom indices_perm (sorted_indices hnone) hsize hkey lt_npts
  constructor
  · intro htogether s hs
    rw [← h.groupSize_eq (lt_of_succ_lt hs)]
    refine hiff.1 (fun i hi j hj hij => ?_) s hs
    rw [← invIndices_eq hi, ← invIndices_eq hj]
    refine htogether i hi j hj ?_
    obtain ⟨s, hs⟩ := exists_sector hnone hi
    obtain ⟨s', hs'⟩ := exists_sector hnone hj
    rw [groupKey, groupKey, hs, hs'] at hij
    rw [hs, hs']
    exact congrArg some hij
  · intro hfull i hi j hj hij
    rw [invIndices_eq hi, invIndices_eq hj]
    refine hiff.2 (fun s hs => ?_) i hi j hj (by rw [groupKey, groupKey, hij])
    rw [h.groupSize_eq (lt_of_succ_lt hs)]
    exact hfull s hs

/-! ### The new file -/

variable {topo : ByteFile} {st : Written} {k : ℕ}

theorem nbytes_pos (hroom : 0 < t.nvectorsPerSector) : 0 < t.nbytesPerVector := by
  by_contra hzero
  rw [nvectorsPerSector, Nat.eq_zero_of_not_pos hzero] at hroom
  exact lt_irrefl 0 hroom

theorem nbytes_le (hroom : 0 < t.nvectorsPerSector) : t.nbytesPerVector ≤ sectorLen :=
  (Nat.div_pos_iff.1 hroom).2

theorem place_disjoint (hroom : 0 < t.nvectorsPerSector) (hne : i ≠ j) :
    place t.nbytesPerVector i + t.nbytesPerVector ≤ place t.nbytesPerVector j ∨
      place t.nbytesPerVector j + t.nbytesPerVector ≤ place t.nbytesPerVector i :=
  (lt_or_gt_of_ne hne).imp (place_add_le (nbytes_pos hroom) (nbytes_le hroom))
    (place_add_le (nbytes_pos hroom) (nbytes_le hroom))

/-- The records of the first `k` nodes are at their new ids. -/
structure RecordsAt (t : ReorderInput) (topo : ByteFile) (g : Groups) (k : ℕ) (st : Written) :
    Prop where
  curNodeId : st.curNodeId = k
  records : ∀ i < k, st.file.bytes (place t.nbytesPerVector (t.invIndices g i)) t.nbytesPerVector =
    topo.bytes (place t.nbytesPerVector i) t.nbytesPerVector

theorem RecordsAt.writeNode
    (h : RecordsAt t topo g (min (sector * t.nvectorsPerSector + k) t.npts) st)
    (hk : k < t.nvectorsPerSector) :
    RecordsAt t topo g (min (sector * t.nvectorsPerSector + (k + 1)) t.npts)
      (t.writeNode topo g sector st k) := by
  have hroom : 0 < t.nvectorsPerSector := zero_lt_of_lt hk
  have hcur := h.curNodeId
  rw [ReorderInput.writeNode]
  split_ifs with hlt
  · have hmin : min (sector * t.nvectorsPerSector + k) t.npts =
        sector * t.nvectorsPerSector + k := by omega
    have hmin' : min (sector * t.nvectorsPerSector + (k + 1)) t.npts =
        sector * t.nvectorsPerSector + k + 1 := by omega
    rw [hmin] at h hcur
    rw [hmin', hcur]
    rw [hcur] at hlt
    refine ⟨rfl, fun i hi => ?_⟩
    have hlen := ByteFile.length_bytes topo
    obtain hi' | rfl := Nat.lt_succ_iff_lt_or_eq.1 hi
    · have hne : t.invIndices g i ≠ t.invIndices g (sector * t.nvectorsPerSector + k) :=
        fun he => hi'.ne (invIndices_inj (hi'.trans hlt) hlt he)
      rw [ByteFile.bytes_put_of_disjoint]
      · exact h.records i hi'
      · rw [hlen]
        exact place_disjoint hroom hne
    · have hdiv : (sector * t.nvectorsPerSector + k) / t.nvectorsPerSector = sector ∧
          (sector * t.nvectorsPerSector + k) % t.nvectorsPerSector = k :=
        (Nat.div_mod_unique hroom).2 ⟨by rw [mul_comm sector, add_comm], hk⟩
      have hplace : place t.nbytesPerVector (sector * t.nvectorsPerSector + k) =
          sector * sectorLen + k * t.nbytesPerVector := by
        rw [place, ← nvectorsPerSector, hdiv.1, hdiv.2]
      have hput (off : ℕ) (bs : List UInt8) : (st.file.put off bs).bytes off bs.length = bs :=
        ByteFile.bytes_put_same
      have hrecord := hput (t.newOffset (t.invIndices g (sector * t.nvectorsPerSector + k)))
        (topo.bytes (sector * sectorLen + k * t.nbytesPerVector) t.nbytesPerVector)
      rw [hlen] at hrecord
      rw [hplace]
      exact hrecord
  · have hmin : min (sector * t.nvectorsPerSector + (k + 1)) t.npts =
        min (sector * t.nvectorsPerSector + k) t.npts := by omega
    rw [hmin]
    exact h

theorem RecordsAt.writeNodes
    (h : RecordsAt t topo g (min (sector * t.nvectorsPerSector) t.npts) st) :
    RecordsAt t topo g (min ((sector + 1) * t.nvectorsPerSector) t.npts)
      ((List.range t.nvectorsPerSector).foldl (t.writeNode topo g sector) st) := by
  have hrun : ∀ n ≤ t.nvectorsPerSector,
      RecordsAt t topo g (min (sector * t.nvectorsPerSector + n) t.npts)
        ((List.range n).foldl (t.writeNode topo g sector) st) := by
    intro n
    induction n with
    | zero => exact fun _ => h
    | succ n ih =>
      intro hn
      rw [range_succ, foldl_append]
      exact (ih (le_of_succ_le hn)).writeNode hn
  rw [succ_mul]
  exact hrun _ le_rfl

theorem exists_writeLoop (hroom : 0 < t.nvectorsPerSector)
    (hsectors : 1000 ≤ t.nSectors ∨ t.npts = 0) (topo : ByteFile) (g : Groups) :
    ∃ st, t.writeLoop topo g = some st ∧ RecordsAt t topo g t.npts st := by
  have hrun : ∀ n ≤ t.nSectors, ∃ st,
      (List.range n).foldlM (t.writeSector topo g) ⟨0, fun _ => 0⟩ = some st ∧
        RecordsAt t topo g (min (n * t.nvectorsPerSector) t.npts) st := by
    intro n
    induction n with
    | zero =>
      refine fun _ => ⟨_, rfl, ?_⟩
      rw [zero_mul]
      exact ⟨rfl, fun i hi => absurd hi (not_lt_zero i)⟩
    | succ n ih =>
      intro hn
      obtain ⟨st, hst, h⟩ := ih (le_of_succ_le hn)
      have hmany : 1000 ≤ t.nSectors := hsectors.resolve_right fun hzero => by
        have hlt := lt_npts (zero_lt_of_lt hn)
        omega
      refine ⟨_, ?_, h.writeNodes⟩
      rw [range_succ, foldlM_append, hst]
      show (List.foldlM _ st [n] : Option Written) = _
      rw [foldlM_cons, writeSector, if_neg (div_pos hmany (by decide)).ne']
      rfl
  obtain ⟨st, hst, h⟩ := hrun t.nSectors le_rfl
  rw [min_eq_right (npts_le_mul hroom)] at h
  exact ⟨st, hst, h⟩

theorem sectors_of_writeLoop (hroom : 0 < t.nvectorsPerSector)
    (h : t.writeLoop topo g = some st) : 1000 ≤ t.nSectors ∨ t.npts = 0 := by
  rw [writeLoop] at h
  cases hn : t.nSectors with
  | zero =>
    have hle := npts_le_mul hroom
    rw [hn, zero_mul] at hle
    exact .inr (le_zero.1 hle)
  | succ n =>
    rw [hn, range_succ_eq_map, foldlM_cons, writeSector] at h
    by_cases hfew : t.nSectors / 1000 = 0
    · rw [if_pos hfew] at h
      cases h
    · exact .inl (by omega)

theorem locSectorNoTopo_eq {r : Geometry} (hr : t.ReadBy r) (hroom : 0 < t.nvectorsPerSector)
    (loc : ℕ) : r.locSectorNoTopo loc = .ok (loc / t.nvectorsPerSector) := by
  have hper : r.ntopoPerSector = t.nvectorsPerSector := by
    rw [hr.ntopoPerSector, hr.topoLen]
    rfl
  rw [Geometry.locSectorNoTopo, hper, if_neg hroom.ne']

theorem foundTopo_eq {r : Geometry} (hr : t.ReadBy r) (hroom : 0 < t.nvectorsPerSector)
    (file : ByteFile) (loc : ℕ) : foundTopo r file loc =
      .ok (file.bytes (place t.nbytesPerVector loc) t.nbytesPerVector) := by
  have hlen : r.topoLen = t.nbytesPerVector := hr.topoLen
  have hper : r.ntopoPerSector = t.nvectorsPerSector := by
    rw [hr.ntopoPerSector, hlen]
    rfl
  rw [foundTopo, locSectorNoTopo_eq hr hroom, Geometry.offsetToLocTopo, hper, if_neg hroom.ne',
    hlen]
  rfl

theorem exists_readBy (t : ReorderInput) : ∃ r, t.ReadBy r :=
  ⟨⟨0, 0, t.ndims, (t.ndims + 1) * 4 % 2 ^ 32, 0, sectorLen / ((t.ndims + 1) * 4 % 2 ^ 32), 0⟩,
    rfl, rfl⟩

/-- The tool reorders as it should exactly when the input is reorderable. -/
theorem reordersRight_iff (t : ReorderInput) (topo : ByteFile) :
    t.ReordersRight topo ↔ t.Reorderable := by
  constructor
  · rintro ⟨o, ho, hright⟩
    rw [reorder] at ho
    split_ifs at ho with hzero
    have hroom := pos_of_ne_zero hzero
    obtain ⟨g, hg, ho⟩ := bind_eq_some_iff.1 ho
    have hforming := forming_start.edgeLoop t.edges_lt hg
    have hfilled := filledTo_fillSectors hforming.toGrouped
    rw [hfilled.checked hroom, bind_some] at ho
    obtain ⟨st, hst, rfl⟩ := map_eq_some_iff.1 ho
    refine ⟨hroom, edges_of_edgeLoop hg, sectors_of_writeLoop hroom hst, fun g' hg' => ?_⟩
    obtain rfl := Option.some.inj (hg.symm.trans hg')
    refine (hfilled.full_iff hforming.toGrouped hroom).1
      ((hfilled.grouped.together_iff (hfilled.unassigned_eq_nil hroom) hroom).1
        fun i hi j hj hij => ?_)
    obtain ⟨r, hr⟩ := t.exists_readBy
    obtain ⟨s, hi', hj'⟩ := hright.together r hr i hi j hj hij
    rw [locSectorNoTopo_eq hr hroom] at hi' hj'
    exact (Except.ok.inj hi').trans (Except.ok.inj hj').symm
  · intro h
    obtain ⟨g, hg⟩ := exists_edgeLoop h.edges 0 t.start
    have hforming := forming_start.edgeLoop t.edges_lt hg
    have hfilled := filledTo_fillSectors hforming.toGrouped
    obtain ⟨st, hst, hrecords⟩ :=
      exists_writeLoop h.room h.sectors topo (t.fillSectors g).groups
    refine ⟨⟨(t.fillSectors g).groups.sectorId, t.invIndices (t.fillSectors g).groups, st.file⟩,
      ?_, ?_, ?_, ?_⟩
    · rw [reorder, if_neg h.room.ne', hg, bind_some, hfilled.checked h.room,
        bind_some, hst]
      rfl
    · rw [map_invIndices]
      exact map_idxOf_perm indices_perm
    · intro r hr i hi
      refine ⟨_, foundTopo_eq hr h.room topo i, ?_⟩
      rw [foundTopo_eq hr h.room, hrecords.records i hi]
    · intro r hr i hi j hj hij
      refine ⟨_, locSectorNoTopo_eq hr h.room _, ?_⟩
      rw [locSectorNoTopo_eq hr h.room]
      have hfull := (hfilled.full_iff hforming.toGrouped h.room).2 (h.last g hg)
      exact congrArg _ ((hfilled.grouped.together_iff (hfilled.unassigned_eq_nil h.room)
        h.room).2 hfull i hi j hj hij).symm

end ReorderInput

/-! ### One edge -/

theorem oneEdge_npts_le : 2 ≤ 2 ^ 32 := by decide

theorem oneEdge_edges_lt : ∀ e ∈ [(0, 1)], e.1 < 2 ∧ e.2 < 2 := by decide

/-- The smallest sector. -/
def smallest (_ : ℕ) (s : Finset ℕ) : ℕ := if h : s.Nonempty then s.min' h else 0

theorem smallest_mem (i : ℕ) (s : Finset ℕ) (h : s.Nonempty) : smallest i s ∈ s := by
  rw [smallest, dif_pos h]
  exact s.min'_mem h

/-- A sort by a key. -/
def sortIds (key : ℕ → ℤ) (l : List ℕ) : List ℕ := l.insertionSort fun a b => key a ≤ key b

theorem sortIds_perm (key : ℕ → ℤ) (l : List ℕ) : (sortIds key l).Perm l :=
  perm_insertionSort _ l

theorem sortIds_sorted (key : ℕ → ℤ) (l : List ℕ) :
    (sortIds key l).Pairwise fun a b => key a ≤ key b :=
  pairwise_insertionSort_key key l

/-- Two points of at most 63 neighbours, and an edge between them. -/
def oneEdge : ReorderInput where
  npts := 2
  ndims := 63
  edges := [(0, 1)]
  npts_le := oneEdge_npts_le
  edges_lt := oneEdge_edges_lt
  firstUnused := smallest
  firstUnused_mem := smallest_mem
  sortBy := sortIds
  sort_perm := sortIds_perm
  sort_sorted := sortIds_sorted

/-- The remainder of the edge is that of a division by a thousandth of one edge. -/
theorem not_reordersRight_oneEdge :
    oneEdge.edgeLoop 0 oneEdge.edges oneEdge.start = none ∧
      ¬ oneEdge.ReordersRight fun _ => 0 := by
  have hdivide : oneEdge.edgeLoop 0 oneEdge.edges oneEdge.start = none := rfl
  refine ⟨hdivide, ?_⟩
  rintro ⟨o, ho, -⟩
  rw [ReorderInput.reorder, if_neg (by decide), hdivide] at ho
  cases ho

end ReorderTopo

end DiskANNEval.DGAI
