import Mathlib

/-!
# PageGeometry — the sectors of the coordinates and of the topologies

`load` takes the lengths of a record from the header and divides the sector by them.  Only
`nnodes_per_sector` is compared with the size of the page arrays; the location maps divide and index by
all three counts.  They are safe exactly for the headers whose lengths give counts between one and
the sizes of the arrays (`safe_iff_fits`).
-/

namespace DiskANNEval.DGAI

namespace PageGeometry

def sectorLen : ℕ := 4096

def kMaxElemInAPage : ℕ := 32

/-- The size of `PageArrTopo`. -/
def topoArrSize : ℕ := 128

/-- The size of `PageArrCoord`. -/
def coordArrSize : ℕ := 32

def kInvalidID : ℕ := 2 ^ 32 - 1

def divRoundUp (x y : ℕ) : ℕ := x / y + if x % y ≠ 0 then 1 else 0

/-- The type `T` of an index. -/
inductive DataType where
  | float
  | int8
  | uint8
  deriving DecidableEq

/-- `sizeof(T)` -/
def DataType.size : DataType → ℕ
  | .float => 4
  | .int8 => 1
  | .uint8 => 1

/-- What `load` reads; in the old format there is no dimension in the file. -/
structure IndexHeader where
  newIndexFormat : Bool
  dataType : DataType
  ndims : ℕ
  maxNodeLen : ℕ
  nnodesPerSector : ℕ

structure Geometry where
  maxNodeLen : ℕ
  nnodesPerSector : ℕ
  maxDegree : ℕ
  topoLen : ℕ
  coordLen : ℕ
  ntopoPerSector : ℕ
  ncoordPerSector : ℕ

/-! ### The header -/

namespace IndexHeader

variable (h : IndexHeader)

/-- `data_dim * sizeof(T)` -/
def dataLen : ℕ := h.ndims * h.dataType.size % 2 ^ 64

/-- `(max_node_len - data_dim * sizeof(T)) / sizeof(unsigned)` -/
def nhoodWords : ℕ := (h.maxNodeLen + (2 ^ 64 - h.dataLen)) % 2 ^ 64 / 4

def maxDegree : ℕ := (h.nhoodWords + (2 ^ 64 - 1)) % 2 ^ 64

/-- `coord_len`, of 32 bits. -/
def coordLen : ℕ := h.dataLen % 2 ^ 32

/-- `topo_len`, of 32 bits. -/
def topoLen : ℕ := (h.maxDegree + 1) * 4 % 2 ^ 32

/-- `none`: a division by zero, or `load` returns `-1`.  The old format leaves the lengths at zero. -/
def load : Option Geometry :=
  if h.newIndexFormat then
    if h.coordLen = 0 ∨ h.topoLen = 0 ∨ kMaxElemInAPage < h.nnodesPerSector then none
    else some
      { maxNodeLen := h.maxNodeLen
        nnodesPerSector := h.nnodesPerSector
        maxDegree := h.maxDegree
        topoLen := h.topoLen
        coordLen := h.coordLen
        ntopoPerSector := sectorLen / h.topoLen
        ncoordPerSector := sectorLen / h.coordLen }
  else some
    { maxNodeLen := h.maxNodeLen
      nnodesPerSector := h.nnodesPerSector
      maxDegree := h.maxDegree
      topoLen := 0
      coordLen := 0
      ntopoPerSector := 0
      ncoordPerSector := 0 }

end IndexHeader

/-! ### The maps -/

inductive Fault where
  | divisionByZero
  | outsideArray
  | crash
  deriving DecidableEq

/-- A page array; its first values count, as many as its size. -/
abbrev PageArr := ℕ → ℕ

/-- `page_layout` and `id2loc_` of one kind, with the queues of the free pages and locations. -/
structure Layout where
  pages : ℕ → Option PageArr
  id2loc : ℕ → Option ℕ
  emptyPages : List ℕ
  emptyLocs : List ℕ

/-- What the maps of one kind divide and index by. -/
structure Kind where
  perSector : ℕ
  arrSize : ℕ
  sectorNo : ℕ → Except Fault ℕ

namespace Kind

variable (k : Kind) (m : Layout)

/-- `page` and `offset` -/
def place (loc : ℕ) : Except Fault (ℕ × ℕ) :=
  (k.sectorNo loc).bind fun page =>
    if k.perSector = 0 then .error .divisionByZero else .ok (page % 2 ^ 32, loc % k.perSector)

/-- `v[i]` -/
def read (v : PageArr) (i : ℕ) : Except Fault ℕ :=
  if i < k.arrSize then .ok (v i) else .error .outsideArray

def write (v : PageArr) (i id : ℕ) : Except Fault PageArr :=
  if i < k.arrSize then .ok (Function.update v i id) else .error .outsideArray

def loc2id (loc : ℕ) : Except Fault ℕ :=
  (k.place loc).bind fun (page, offset) =>
    match m.pages page with
    | some v => k.read v offset
    | none => .ok kInvalidID

/-- A new page: its first `nnodes_per_sector` values are invalid. -/
def newPage : Except Fault PageArr :=
  (List.range k.perSector).foldlM (fun v i => k.write v i kInvalidID) fun _ => 0

/-- The page that `upsert` finds or adds. -/
def upserted (page : ℕ) : Except Fault PageArr :=
  match m.pages page with
  | some v => .ok v
  | none => k.newPage

def setLoc2id (loc id : ℕ) : Except Fault Layout :=
  (k.place loc).bind fun (page, offset) =>
    (k.upserted m page).bind fun v =>
      (k.write v offset id).map fun v =>
        { m with pages := Function.update m.pages page (some v) }

/-- The loop that looks for a value, from `i` on. -/
def allInvalid (v : PageArr) : ℕ → ℕ → Except Fault Bool
  | 0, _ => .ok true
  | n + 1, i => (k.read v i).bind fun id =>
    if id ≠ kInvalidID then .ok false else allInvalid v n (i + 1)

/-- `erase_loc2id`; a page that is not there is added, and left as it is. -/
def eraseLoc2id (loc : ℕ) : Except Fault Layout :=
  (k.place loc).bind fun (page, offset) =>
    match m.pages page with
    | some v =>
      (k.write v offset kInvalidID).bind fun v =>
        (k.allInvalid v k.perSector 0).map fun empty =>
          { m with
            pages := Function.update m.pages page (some v)
            emptyPages := if empty then m.emptyPages ++ [page] else m.emptyPages }
    | none => .ok { m with pages := Function.update m.pages page (some fun _ => 0) }

def id2page (id : ℕ) : Except Fault ℕ :=
  match m.id2loc id with
  | some loc => if loc = kInvalidID then .ok kInvalidID else k.sectorNo loc
  | none => .ok kInvalidID

end Kind

namespace Geometry

variable (g : Geometry) (m : Layout)

/-! ### Nodes -/

def locSectorNo (loc : ℕ) : Except Fault ℕ :=
  .ok (1 + if 0 < g.nnodesPerSector then loc / g.nnodesPerSector
    else loc * divRoundUp g.maxNodeLen sectorLen)

def offsetToLoc (loc : ℕ) : ℕ :=
  if g.nnodesPerSector = 0 then 0 else loc % g.nnodesPerSector * g.maxNodeLen

def nodes : Kind := ⟨g.nnodesPerSector, kMaxElemInAPage, g.locSectorNo⟩

def loc2id (loc : ℕ) : Except Fault ℕ := g.nodes.loc2id m loc

def setLoc2id (loc id : ℕ) : Except Fault Layout := g.nodes.setLoc2id m loc id

def eraseLoc2id (loc : ℕ) : Except Fault Layout := g.nodes.eraseLoc2id m loc

/-- `id2loc` crashes where the id is not found. -/
def id2page (id : ℕ) : Except Fault ℕ :=
  if m.id2loc id = none then .error .crash else g.nodes.id2page m id

/-! ### Topologies -/

def locSectorNoTopo (loc : ℕ) : Except Fault ℕ :=
  if g.ntopoPerSector = 0 then .error .divisionByZero else .ok (loc / g.ntopoPerSector)

def offsetToLocTopo (loc : ℕ) : ℕ :=
  if g.ntopoPerSector = 0 then 0 else loc % g.ntopoPerSector * g.topoLen

def topos : Kind := ⟨g.ntopoPerSector, topoArrSize, g.locSectorNoTopo⟩

def loc2idTopo (loc : ℕ) : Except Fault ℕ := g.topos.loc2id m loc

def setLoc2idTopo (loc id : ℕ) : Except Fault Layout := g.topos.setLoc2id m loc id

def eraseLoc2idTopo (loc : ℕ) : Except Fault Layout :=
  g.topos.eraseLoc2id { m with emptyLocs := m.emptyLocs ++ [loc] } loc

def id2pageTopo (id : ℕ) : Except Fault ℕ := g.topos.id2page m id

/-! ### Coordinates -/

def locSectorNoCoord (loc : ℕ) : Except Fault ℕ :=
  .ok (if 0 < g.ncoordPerSector then loc / g.ncoordPerSector
    else loc * divRoundUp g.coordLen sectorLen)

def offsetToLocCoord (loc : ℕ) : ℕ :=
  if g.ncoordPerSector = 0 then 0 else loc % g.ncoordPerSector * g.coordLen

def coords : Kind := ⟨g.ncoordPerSector, coordArrSize, g.locSectorNoCoord⟩

def loc2idCoord (loc : ℕ) : Except Fault ℕ := g.coords.loc2id m loc

def setLoc2idCoord (loc id : ℕ) : Except Fault Layout := g.coords.setLoc2id m loc id

def eraseLoc2idCoord (loc : ℕ) : Except Fault Layout :=
  g.coords.eraseLoc2id { m with emptyLocs := m.emptyLocs ++ [loc] } loc

def id2pageCoord (id : ℕ) : Except Fault ℕ := g.coords.id2page m id

end Geometry

/-- No division by zero, and no index behind an array. -/
def Defined {α : Type*} (r : Except Fault α) : Prop := ∀ f, r = .error f → f = .crash

/-- The operations of a kind are defined, for all maps, ids and locations. -/
structure Kind.Safe (k : Kind) : Prop where
  loc2id : ∀ m loc, Defined (k.loc2id m loc)
  setLoc2id : ∀ m loc id, Defined (k.setLoc2id m loc id)
  eraseLoc2id : ∀ m loc, Defined (k.eraseLoc2id m loc)
  id2page : ∀ m id, Defined (k.id2page m id)

/-- The counts fit the arrays, and all operations are defined. -/
structure Geometry.Safe (g : Geometry) : Prop where
  coordCount : 1 ≤ g.ncoordPerSector ∧ g.ncoordPerSector ≤ coordArrSize
  topoCount : 1 ≤ g.ntopoPerSector ∧ g.ntopoPerSector ≤ topoArrSize
  loc2id : ∀ m loc, Defined (g.loc2id m loc) ∧ Defined (g.loc2idTopo m loc) ∧
    Defined (g.loc2idCoord m loc)
  setLoc2id : ∀ m loc id, Defined (g.setLoc2id m loc id) ∧ Defined (g.setLoc2idTopo m loc id) ∧
    Defined (g.setLoc2idCoord m loc id)
  eraseLoc2id : ∀ m loc, Defined (g.eraseLoc2id m loc) ∧ Defined (g.eraseLoc2idTopo m loc) ∧
    Defined (g.eraseLoc2idCoord m loc)
  id2page : ∀ m id, Defined (g.id2page m id) ∧ Defined (g.id2pageTopo m id) ∧
    Defined (g.id2pageCoord m id)

/-- A sector holds one to `size` pieces of the length. -/
def FitsSector (len size : ℕ) : Prop := len ≤ sectorLen ∧ sectorLen < (size + 1) * len

instance (len size : ℕ) : Decidable (FitsSector len size) := inferInstanceAs (Decidable (_ ∧ _))

/-- The header is of the new format, its lengths give counts for the arrays, and a sector holds a
node. -/
structure IndexHeader.Fits (h : IndexHeader) : Prop where
  format : h.newIndexFormat = true
  coords : FitsSector h.coordLen coordArrSize
  topos : FitsSector h.topoLen topoArrSize
  nodes : 0 < h.nnodesPerSector

/-! ### The maps are defined -/

theorem defined_ok {α : Type*} (a : α) : Defined (.ok a) := fun _ h => by cases h

namespace Kind

variable {k : Kind} {m : Layout}

/-- The count is in range, and the sector of a location is found. -/
structure InRange (k : Kind) : Prop where
  pos : 0 < k.perSector
  le : k.perSector ≤ k.arrSize
  sectorNo : ∀ loc, ∃ page, k.sectorNo loc = .ok page

theorem InRange.place (h : k.InRange) (loc : ℕ) :
    ∃ page offset, k.place loc = .ok (page, offset) ∧ offset < k.arrSize := by
  obtain ⟨page, hpage⟩ := h.sectorNo loc
  refine ⟨page % 2 ^ 32, loc % k.perSector, ?_, (Nat.mod_lt _ h.pos).trans_le h.le⟩
  rw [Kind.place, hpage]
  exact if_neg h.pos.ne'

theorem write_eq {v : PageArr} {i id : ℕ} (h : i < k.arrSize) :
    k.write v i id = .ok (Function.update v i id) := if_pos h

theorem read_eq {v : PageArr} {i : ℕ} (h : i < k.arrSize) : k.read v i = .ok (v i) := if_pos h

theorem InRange.newPage (h : k.InRange) : ∃ v, k.newPage = .ok v := by
  have hfold : ∀ (l : List ℕ) (v : PageArr), (∀ i ∈ l, i < k.arrSize) →
      ∃ v', l.foldlM (fun v i => k.write v i kInvalidID) v = .ok v' := by
    intro l
    induction l with
    | nil => exact fun v _ => ⟨v, rfl⟩
    | cons i l ih =>
      intro v hl
      rw [List.foldlM_cons, write_eq (hl i List.mem_cons_self)]
      exact ih _ fun j hj => hl j (List.mem_cons_of_mem i hj)
  exact hfold _ _ fun i hi => (List.mem_range.1 hi).trans_le h.le

theorem InRange.upserted (h : k.InRange) (m : Layout) (page : ℕ) :
    ∃ v, k.upserted m page = .ok v := by
  rw [Kind.upserted]
  cases m.pages page with
  | some v => exact ⟨v, rfl⟩
  | none => exact h.newPage

theorem exists_allInvalid (v : PageArr) {n i : ℕ} (h : i + n ≤ k.arrSize) :
    ∃ b, k.allInvalid v n i = .ok b := by
  induction n generalizing i with
  | zero => exact ⟨true, rfl⟩
  | succ n ih =>
    rw [allInvalid, read_eq (by omega), Except.bind]
    split_ifs
    · exact ⟨false, rfl⟩
    · exact ih (by omega)

theorem InRange.safe (h : k.InRange) : k.Safe := by
  refine ⟨fun m loc => ?_, fun m loc id => ?_, fun m loc => ?_, fun m id => ?_⟩
  · obtain ⟨page, offset, hplace, hlt⟩ := h.place loc
    rw [loc2id, hplace, Except.bind]
    dsimp only
    cases m.pages page with
    | some v =>
      dsimp only
      rw [read_eq hlt]
      exact defined_ok _
    | none => exact defined_ok _
  · obtain ⟨page, offset, hplace, hlt⟩ := h.place loc
    obtain ⟨v, hv⟩ := h.upserted m page
    rw [setLoc2id, hplace, Except.bind]
    dsimp only
    rw [hv, Except.bind, write_eq hlt]
    exact defined_ok _
  · obtain ⟨page, offset, hplace, hlt⟩ := h.place loc
    rw [eraseLoc2id, hplace, Except.bind]
    dsimp only
    cases m.pages page with
    | some w =>
      obtain ⟨b, hb⟩ := exists_allInvalid (Function.update w offset kInvalidID)
        (show 0 + k.perSector ≤ k.arrSize by rw [Nat.zero_add]; exact h.le)
      dsimp only
      rw [write_eq hlt, Except.bind, hb]
      exact defined_ok _
    | none => exact defined_ok _
  · rw [id2page]
    split
    · split_ifs
      · exact defined_ok _
      · obtain ⟨page, hpage⟩ := h.sectorNo _
        rw [hpage]
        exact defined_ok _
    · exact defined_ok _

end Kind

/-! ### The counts -/

theorem count_iff {len size : ℕ} (hlen : 0 < len) :
    1 ≤ sectorLen / len ∧ sectorLen / len ≤ size ↔ FitsSector len size := by
  rw [FitsSector, Nat.one_le_div_iff hlen, ← Nat.div_lt_iff_lt_mul hlen, Nat.lt_succ_iff]

theorem Geometry.Safe.nodes_pos {g : Geometry} (h : g.Safe) : 0 < g.nnodesPerSector := by
  by_contra hzero
  have hz : g.nodes.perSector = 0 := Nat.eq_zero_of_not_pos hzero
  have hdef := (h.loc2id ⟨fun _ => none, fun _ => none, [], []⟩ 0).1 .divisionByZero
  have herr : g.loc2id ⟨fun _ => none, fun _ => none, [], []⟩ 0 = .error .divisionByZero := by
    show Except.bind (if g.nodes.perSector = 0 then _ else _) _ = _
    rw [if_pos hz]
    rfl
  cases hdef herr

theorem safe_of_counts {g : Geometry} (hnodes : 0 < g.nnodesPerSector)
    (hmax : g.nnodesPerSector ≤ kMaxElemInAPage)
    (htopo : 1 ≤ g.ntopoPerSector ∧ g.ntopoPerSector ≤ topoArrSize)
    (hcoord : 1 ≤ g.ncoordPerSector ∧ g.ncoordPerSector ≤ coordArrSize) : g.Safe := by
  have h₁ : g.nodes.Safe := Kind.InRange.safe ⟨hnodes, hmax, fun _ => ⟨_, rfl⟩⟩
  have h₂ : g.topos.Safe := Kind.InRange.safe ⟨htopo.1, htopo.2, fun _ => ⟨_, if_neg (by omega)⟩⟩
  have h₃ : g.coords.Safe := Kind.InRange.safe ⟨hcoord.1, hcoord.2, fun _ => ⟨_, rfl⟩⟩
  refine ⟨hcoord, htopo, fun m loc => ⟨h₁.loc2id m loc, h₂.loc2id m loc, h₃.loc2id m loc⟩,
    fun m loc id => ⟨h₁.setLoc2id m loc id, h₂.setLoc2id m loc id, h₃.setLoc2id m loc id⟩,
    fun m loc => ⟨h₁.eraseLoc2id m loc, h₂.eraseLoc2id _ loc, h₃.eraseLoc2id _ loc⟩,
    fun m id => ⟨?_, h₂.id2page m id, h₃.id2page m id⟩⟩
  rw [Geometry.id2page]
  split_ifs
  · exact fun f hf => by cases hf; rfl
  · exact h₁.id2page m id

/-- The geometry that `load` accepts is safe exactly when the header fits. -/
theorem safe_iff_fits {h : IndexHeader} {g : Geometry} (hload : h.load = some g) :
    g.Safe ↔ h.Fits := by
  rw [IndexHeader.load] at hload
  split_ifs at hload with hnew hbad
  · obtain rfl := Option.some.inj hload
    have hcoord : 0 < h.coordLen := by omega
    have htopo : 0 < h.topoLen := by omega
    constructor
    · exact fun hs => ⟨hnew, (count_iff hcoord).1 hs.coordCount, (count_iff htopo).1 hs.topoCount,
        hs.nodes_pos⟩
    · exact fun hf => safe_of_counts hf.nodes (by dsimp only; omega) ((count_iff htopo).2 hf.topos)
        ((count_iff hcoord).2 hf.coords)
  · obtain rfl := Option.some.inj hload
    refine iff_of_false (fun hs => ?_) fun hf => hnew hf.format
    exact Nat.not_succ_le_zero 0 hs.coordCount.1

/-- 128 dimensions of four bytes, and lists of at most 64. -/
def siftHeader : IndexHeader := ⟨true, .float, 128, 772, 5⟩

theorem safe_siftHeader : ∃ g, siftHeader.load = some g ∧ g.ncoordPerSector = 8 ∧ g.Safe := by
  have hload : siftHeader.load = some ⟨772, 5, 64, 260, 512, 15, 8⟩ := rfl
  exact ⟨_, hload, rfl, (safe_iff_fits hload).2 ⟨rfl, by decide, by decide, by decide⟩⟩

/-- 100 dimensions of a byte: a sector holds 40 of them, and location 32 is behind the array. -/
def spacevHeader : IndexHeader := ⟨true, .int8, 100, 360, 11⟩

theorem not_safe_spacevHeader : ∃ g, spacevHeader.load = some g ∧
    g.setLoc2idCoord ⟨fun _ => none, fun _ => none, [], []⟩ 32 0 = .error .outsideArray ∧
    ¬ g.Safe := by
  have hload : spacevHeader.load = some ⟨360, 11, 64, 260, 100, 15, 40⟩ := rfl
  exact ⟨_, hload, rfl, fun hs => absurd hs.coordCount.2 (by decide)⟩

end PageGeometry

end DiskANNEval.DGAI
