import DiskANNEval.DGAI.PageGeometry
import DiskANNEval.FreshDiskANN.NodeFile

/-!
# SplitIndex — the coordinates and the topologies of a disk index, each in a file

The tool goes through the records of a disk index and writes their coordinates, and their lists, as
many to a sector as there is room for.  It divides by the number of vectors in a sector, and for
records of several sectors it writes each vector to the start of a sector.  `splitsRight_iff` says
for which indexes the reader finds what was in them.
-/

namespace DiskANNEval.DGAI

open Lib Nat List
open Lib.ByteFile (bytes put le leArray)
open PageGeometry

namespace SplitIndex

/-- A disk index: points of `ndims` dimensions with at most `degree` neighbours. -/
structure IndexShape where
  dataType : DataType
  ndims : ℕ
  degree : ℕ
  npts : ℕ
  ndims_pos : 0 < ndims
  npts_pos : 0 < npts
  len_lt : ndims * dataType.size + 4 + degree * 4 < 2 ^ 32

/-- The state of the two loops. -/
structure SplitState where
  nodeId : ℕ
  coordFile : ByteFile
  topoFile : ByteFile
  topoOffsetAligned : ℕ

namespace IndexShape

variable (sh : IndexShape) (f : ByteFile)

/-! ### The input -/

/-- `ndims * sizeof(T)`, the `ssd_node_len` of the tool. -/
def dataLen : ℕ := sh.ndims * sh.dataType.size

def maxNodeLen : ℕ := sh.dataLen + 4 + sh.degree * 4

def nnodesPerSector : ℕ := sectorLen / sh.maxNodeLen

def header : IndexHeader := ⟨true, sh.dataType, sh.ndims, sh.maxNodeLen, sh.nnodesPerSector⟩

def nsectorPerNode : ℕ := divRoundUp sh.maxNodeLen sectorLen

/-- The record of a node. -/
def inputOff (i : ℕ) : ℕ :=
  if 0 < sh.nnodesPerSector then
    (1 + i / sh.nnodesPerSector) * sectorLen + i % sh.nnodesPerSector * sh.maxNodeLen
  else (1 + i * sh.nsectorPerNode) * sectorLen

def inputCoords (i : ℕ) : List UInt8 := f.bytes (sh.inputOff i) sh.dataLen

def inputNnbrs (i : ℕ) : ℕ := f.le 4 (sh.inputOff i + sh.dataLen)

def inputNbrs (i : ℕ) : List ℕ := f.leArray 4 (sh.inputOff i + sh.dataLen + 4) (sh.inputNnbrs f i)

/-- No node has more neighbours than there is room for. -/
def WellFormed : Prop := ∀ i < sh.npts, sh.inputNnbrs f i ≤ sh.degree

/-! ### The tool -/

def maxNodeDegree : ℕ := (sh.maxNodeLen - sh.dataLen - 4) / 4

def topoLen : ℕ := (sh.maxNodeDegree + 1) * 4

def nSectors : ℕ :=
  if 0 < sh.nnodesPerSector then divRoundUp sh.npts sh.nnodesPerSector
  else sh.nsectorPerNode * sh.npts

def ssdNodesPerSector : ℕ := sectorLen / sh.dataLen

def ssdNsectorPerNode : ℕ := sectorLen / sh.dataLen

def getSectorOffset (nodeId : ℕ) : ℕ :=
  nodeId / sh.ssdNodesPerSector * sectorLen + nodeId % sh.ssdNodesPerSector * sh.dataLen

def getSectorOffset2 (nodeId : ℕ) : ℕ := nodeId / sh.ssdNsectorPerNode * sectorLen

/-- The place of the next topology. -/
def nextTopo (off : ℕ) : ℕ :=
  let off := off + sh.topoLen
  if sectorLen < off % sectorLen + sh.topoLen then (off / sectorLen + 1) * sectorLen else off

/-- The node at `node` is written, its coordinates at `coordOff`. -/
def writeNode (node coordOff : ℕ) (st : SplitState) : SplitState where
  nodeId := st.nodeId + 1
  coordFile := st.coordFile.put coordOff (f.bytes node sh.dataLen)
  topoFile := (st.topoFile.put st.topoOffsetAligned (f.bytes (node + sh.dataLen) 4)).put
    (st.topoOffsetAligned + 4)
    (f.bytes (node + sh.dataLen + 4) (f.le 4 (node + sh.dataLen) * 4))
  topoOffsetAligned := sh.nextTopo st.topoOffsetAligned

/-- The files are new. -/
def start : SplitState := ⟨0, fun _ => 0, fun _ => 0, 0⟩

/-- The loop over the nodes of a sector. -/
def splitSector (s : ℕ) (st : SplitState) : SplitState :=
  (List.range sh.nnodesPerSector).foldl (fun st i =>
    if st.nodeId < sh.npts then
      sh.writeNode f ((1 + s) * sectorLen + i * sh.maxNodeLen) (sh.getSectorOffset st.nodeId) st
    else st) st

/-- The loops for records of one sector, and for records of several ones. -/
def splitLoop : SplitState :=
  if sh.nsectorPerNode = 1 then
    (List.range sh.nSectors).foldl (fun st s => sh.splitSector f s st) start
  else
    (List.range (divRoundUp sh.nSectors sh.nsectorPerNode)).foldl (fun st k =>
      sh.writeNode f ((1 + k * sh.nsectorPerNode) * sectorLen) (sh.getSectorOffset2 st.nodeId) st)
      start

/-- `none`: a division by zero, in `ssd_n_sectors`. -/
def splitIndex : Option SplitState :=
  if sh.ssdNodesPerSector = 0 then none else some (sh.splitLoop f)

end IndexShape

/-! ### The reader -/

/-- The coordinates at a location. -/
def foundCoords (g : Geometry) (file : ByteFile) (loc : ℕ) : Except Fault (List UInt8) :=
  (g.locSectorNoCoord loc).map fun s =>
    file.bytes (s * sectorLen + g.offsetToLocCoord loc) g.coordLen

/-- The list at a location. -/
def foundNbrs (g : Geometry) (file : ByteFile) (loc : ℕ) : Except Fault (List ℕ) :=
  (g.locSectorNoTopo loc).map fun s =>
    let topo := s * sectorLen + g.offsetToLocTopo loc
    file.leArray 4 (topo + 4) (file.le 4 topo)

/-- The tool ends, and the reader finds the coordinates and the list of each node. -/
def IndexShape.SplitsRight (sh : IndexShape) (f : ByteFile) : Prop :=
  ∃ st, sh.splitIndex f = some st ∧ ∀ g, sh.header.load = some g → ∀ i < sh.npts,
    foundCoords g st.coordFile i = .ok (sh.inputCoords f i) ∧
      foundNbrs g st.topoFile i = .ok (sh.inputNbrs f i)

/-- No other point is in the sector of the vector. -/
def IndexShape.Alone (sh : IndexShape) (i : ℕ) : Prop :=
  ∀ j < sh.npts, j / sh.ssdNodesPerSector = i / sh.ssdNodesPerSector → j = i

/-- All coordinates are zero. -/
def IndexShape.ZeroVector (sh : IndexShape) (f : ByteFile) (i : ℕ) : Prop :=
  ∀ o < sh.dataLen, f (sh.inputOff i + o) = 0

/-- A vector and a list fit into a sector; and the records are of one sector, or the vectors that
share a sector are zero. -/
structure IndexShape.Splittable (sh : IndexShape) (f : ByteFile) : Prop where
  coords : sh.dataLen ≤ sectorLen
  topos : sh.topoLen ≤ sectorLen
  records : sh.maxNodeLen ≤ sectorLen ∨ ∀ i < sh.npts, sh.Alone i ∨ sh.ZeroVector f i

/-! ### Places in sectors -/

/-- The place of the `i`th of pieces of `len` bytes. -/
def place (len i : ℕ) : ℕ := i / (sectorLen / len) * sectorLen + i % (sectorLen / len) * len

theorem place_add_le {len i j : ℕ} (hpos : 0 < len) (hle : len ≤ sectorLen) (hij : i < j) :
    place len i + len ≤ place len j := by
  have hok : (FreshDiskANN.Layout.mk 0 len (sectorLen / len)).Ok :=
    ⟨div_pos hle hpos, div_mul_le_self _ _⟩
  have h := hok.disjoint_of_lt hij
  rw [FreshDiskANN.Layout.nodeOff, FreshDiskANN.Layout.nodeOff, succ_mul, succ_mul] at h
  have hs : FreshDiskANN.sectorLen = sectorLen := rfl
  rw [hs] at h
  dsimp only at h
  rw [place, place]
  omega

theorem place_succ {len : ℕ} (hpos : 0 < len) (hle : len ≤ sectorLen) (i : ℕ) :
    place len (i + 1) =
      if sectorLen < (place len i + len) % sectorLen + len then
        ((place len i + len) / sectorLen + 1) * sectorLen
      else place len i + len := by
  have hn : 0 < sectorLen / len := div_pos hle hpos
  have hfit : sectorLen / len * len ≤ sectorLen := div_mul_le_self _ _
  have hfull : sectorLen < sectorLen / len * len + len := by
    have h := lt_mul_div_succ sectorLen hpos
    rw [Nat.mul_comm, succ_mul] at h
    exact h
  have hr := mod_lt i hn
  have hi := div_add_mod i (sectorLen / len)
  rw [place, place]
  generalize sectorLen / len = n at *
  have hplace : i / n * sectorLen + i % n * len + len =
      (i % n + 1) * len + sectorLen * (i / n) := by
    rw [succ_mul, Nat.mul_comm sectorLen]
    omega
  rw [hplace, add_mul_mod_self_left, add_mul_div_left _ _ (show 0 < sectorLen by decide)]
  obtain hlt | heq := lt_or_eq_of_le (succ_le_of_lt hr)
  · have hdiv : (i + 1) / n = i / n ∧ (i + 1) % n = i % n + 1 :=
      (Nat.div_mod_unique hn).2 ⟨by omega, hlt⟩
    have hroom : (i % n + 2) * len ≤ n * len := mul_le_mul_right len hlt
    have htwo : (i % n + 2) * len = (i % n + 1) * len + len := succ_mul _ _
    rw [hdiv.1, hdiv.2, mod_eq_of_lt (show (i % n + 1) * len < sectorLen by omega),
      if_neg (by omega), Nat.mul_comm sectorLen, add_comm]
  · have hlast : i % n + 1 = n := heq
    have hdiv : (i + 1) / n = i / n + 1 ∧ (i + 1) % n = 0 :=
      (Nat.div_mod_unique hn).2 ⟨by rw [mul_succ]; omega, hn⟩
    rw [hdiv.1, hdiv.2, Nat.zero_mul, add_zero, hlast]
    obtain hlt' | heq' := lt_or_eq_of_le hfit
    · rw [mod_eq_of_lt hlt', if_pos hfull, div_eq_of_lt hlt', Nat.zero_add]
    · rw [heq', mod_self, if_neg (by omega), succ_mul, Nat.mul_comm sectorLen, add_comm]

/-! ### The loops -/

namespace IndexShape

variable {sh : IndexShape} {f : ByteFile} {st : SplitState} {k : ℕ}

theorem size_pos (t : DataType) : 0 < t.size := by
  cases t <;> decide

theorem dataLen_pos : 0 < sh.dataLen := mul_pos sh.ndims_pos (size_pos _)

theorem topoLen_eq : sh.topoLen = 4 + sh.degree * 4 := by
  have h : sh.maxNodeLen - sh.dataLen - 4 = sh.degree * 4 := by
    rw [maxNodeLen]
    omega
  rw [topoLen, maxNodeDegree, h]
  omega

theorem topoLen_pos : 0 < sh.topoLen := by
  rw [topoLen_eq]
  omega

variable (sh f) in
/-- The lists of the first `k` nodes are in their places. -/
structure ToposWritten (k : ℕ) (st : SplitState) : Prop where
  nodeId : st.nodeId = k
  offset : st.topoOffsetAligned = place sh.topoLen k
  topos : ∀ id < k, ∀ o < 4 + sh.inputNnbrs f id * 4,
    st.topoFile (place sh.topoLen id + o) = f (sh.inputOff id + sh.dataLen + o)

variable (sh f) in
/-- The coordinates of the first `k` nodes are in their places. -/
def CoordsWritten (k : ℕ) (st : SplitState) : Prop :=
  ∀ id < k, ∀ o < sh.dataLen, st.coordFile (place sh.dataLen id + o) = f (sh.inputOff id + o)

theorem toposWritten_start : sh.ToposWritten f 0 start where
  nodeId := rfl
  offset := by
    show 0 = place sh.topoLen 0
    rw [place, Nat.zero_div, zero_mod, Nat.zero_mul, Nat.zero_mul]
  topos := fun id hid => absurd hid (not_lt_zero id)

theorem ToposWritten.writeNode (h : sh.ToposWritten f k st) (hwf : sh.WellFormed f)
    (htopos : sh.topoLen ≤ sectorLen) (hk : k < sh.npts) (coordOff : ℕ) :
    sh.ToposWritten f (k + 1) (sh.writeNode f (sh.inputOff k) coordOff st) := by
  have hlist : ∀ id < sh.npts, 4 + sh.inputNnbrs f id * 4 ≤ sh.topoLen := by
    intro id hid
    have := hwf id hid
    rw [topoLen_eq]
    omega
  have hnbrs : f.le 4 (sh.inputOff k + sh.dataLen) = sh.inputNnbrs f k := rfl
  refine ⟨congrArg Nat.succ h.nodeId, ?_, fun id hid o ho => ?_⟩
  · show sh.nextTopo st.topoOffsetAligned = _
    rw [h.offset, place_succ topoLen_pos htopos]
    rfl
  · show ((st.topoFile.put _ _).put _ _) _ = _
    rw [h.offset]
    obtain hlt | rfl := Nat.lt_succ_iff_lt_or_eq.1 hid
    · have hplace := place_add_le topoLen_pos htopos hlt
      have hlen := hlist id (hlt.trans hk)
      rw [ByteFile.put_of_not_mem (.inl (by omega)), ByteFile.put_of_not_mem (.inl (by omega))]
      exact h.topos id hlt o ho
    · obtain hhead | htail := Nat.lt_or_ge o 4
      · rw [ByteFile.put_of_not_mem (.inl (by omega))]
        exact ByteFile.put_bytes_of_lt hhead
      · obtain ⟨p, rfl⟩ := Nat.exists_eq_add_of_le htail
        rw [← add_assoc, ← add_assoc]
        exact ByteFile.put_bytes_of_lt (by omega)

theorem CoordsWritten.writeNode (h : sh.CoordsWritten f k st) (hcoords : sh.dataLen ≤ sectorLen) :
    sh.CoordsWritten f (k + 1)
      (sh.writeNode f (sh.inputOff k) (place sh.dataLen k) st) := by
  intro id hid o ho
  show st.coordFile.put _ _ _ = _
  obtain hlt | rfl := Nat.lt_succ_iff_lt_or_eq.1 hid
  · have hplace := place_add_le dataLen_pos hcoords hlt
    rw [ByteFile.put_of_not_mem (.inl (by omega))]
    exact h id hlt o ho
  · exact ByteFile.put_bytes_of_lt ho

theorem inputOff_sector {s i : ℕ} (hi : i < sh.nnodesPerSector) :
    sh.inputOff (s * sh.nnodesPerSector + i) = (1 + s) * sectorLen + i * sh.maxNodeLen := by
  have hdiv : (s * sh.nnodesPerSector + i) / sh.nnodesPerSector = s ∧
      (s * sh.nnodesPerSector + i) % sh.nnodesPerSector = i :=
    (Nat.div_mod_unique (by omega)).2 ⟨by rw [mul_comm s, add_comm], hi⟩
  rw [inputOff, if_pos (by omega), hdiv.1, hdiv.2]

theorem written_splitSector {s : ℕ} (hwf : sh.WellFormed f) (hcoords : sh.dataLen ≤ sectorLen)
    (htopos : sh.topoLen ≤ sectorLen)
    (h : sh.ToposWritten f (min (s * sh.nnodesPerSector) sh.npts) st ∧
      sh.CoordsWritten f (min (s * sh.nnodesPerSector) sh.npts) st) :
    sh.ToposWritten f (min ((s + 1) * sh.nnodesPerSector) sh.npts) (sh.splitSector f s st) ∧
      sh.CoordsWritten f (min ((s + 1) * sh.nnodesPerSector) sh.npts) (sh.splitSector f s st) := by
  have hrun : ∀ n ≤ sh.nnodesPerSector, ∀ st', st' = (List.range n).foldl (fun st i =>
      if st.nodeId < sh.npts then
        sh.writeNode f ((1 + s) * sectorLen + i * sh.maxNodeLen) (sh.getSectorOffset st.nodeId) st
      else st) st →
      sh.ToposWritten f (min (s * sh.nnodesPerSector + n) sh.npts) st' ∧
        sh.CoordsWritten f (min (s * sh.nnodesPerSector + n) sh.npts) st' := by
    intro n
    induction n with
    | zero =>
      rintro - _ rfl
      exact h
    | succ n ih =>
      rintro hn _ rfl
      have hprev := ih (le_of_succ_le hn) _ rfl
      rw [range_succ, foldl_append, foldl_cons, hprev.1.nodeId]
      obtain hlt | hge := lt_or_ge (s * sh.nnodesPerSector + n) sh.npts
      · rw [min_eq_left hlt.le] at hprev ⊢
        rw [if_pos hlt, ← add_assoc, min_eq_left (succ_le_of_lt hlt),
          ← inputOff_sector hn]
        exact ⟨hprev.1.writeNode hwf htopos hlt _, hprev.2.writeNode hcoords⟩
      · rw [min_eq_right hge] at hprev ⊢
        rw [if_neg (lt_irrefl _),
          min_eq_right (hge.trans (le_succ _) : sh.npts ≤ _ + (n + 1))]
        exact hprev
  rw [succ_mul]
  exact hrun _ le_rfl _ rfl

theorem divRoundUp_mul_ge {x y : ℕ} (hy : 0 < y) : x ≤ divRoundUp x y * y := by
  have h := div_add_mod x y
  have hmod := mod_lt x hy
  rw [divRoundUp]
  split_ifs with h0
  · rw [succ_mul, Nat.mul_comm]
    omega
  · rw [add_zero, Nat.mul_comm]
    omega

theorem divRoundUp_mul_self {x y : ℕ} (hy : 0 < y) : divRoundUp (y * x) y = x := by
  rw [divRoundUp, mul_mod_right, if_neg (not_not.2 rfl), Nat.mul_div_cancel_left x hy,
    add_zero]

theorem nsectorPerNode_eq_one (h : sh.maxNodeLen ≤ sectorLen) : sh.nsectorPerNode = 1 := by
  have hpos : 0 < sh.maxNodeLen := by
    rw [maxNodeLen]
    omega
  rw [nsectorPerNode, divRoundUp]
  obtain hlt | heq := lt_or_eq_of_le h
  · rw [div_eq_of_lt hlt, mod_eq_of_lt hlt, if_pos hpos.ne']
  · rw [heq, Nat.div_self (by decide), mod_self, if_neg (not_not.2 rfl)]

theorem one_lt_nsectorPerNode (h : sectorLen < sh.maxNodeLen) : 1 < sh.nsectorPerNode := by
  have hge := divRoundUp_mul_ge (x := sh.maxNodeLen) (y := sectorLen) (by decide)
  by_contra hle
  have hmul : divRoundUp sh.maxNodeLen sectorLen * sectorLen ≤ 1 * sectorLen :=
    mul_le_mul_right _ (Nat.le_of_not_lt hle)
  omega

theorem nnodesPerSector_eq_zero (h : sectorLen < sh.maxNodeLen) : sh.nnodesPerSector = 0 :=
  div_eq_of_lt h

theorem written_splitLoop (hwf : sh.WellFormed f) (hcoords : sh.dataLen ≤ sectorLen)
    (htopos : sh.topoLen ≤ sectorLen) (hle : sh.maxNodeLen ≤ sectorLen) :
    sh.ToposWritten f sh.npts (sh.splitLoop f) ∧ sh.CoordsWritten f sh.npts (sh.splitLoop f) := by
  have hper : 0 < sh.nnodesPerSector := div_pos hle (by rw [maxNodeLen]; omega)
  have hrun : ∀ n, ∀ st, st = (List.range n).foldl (fun st s => sh.splitSector f s st) start →
      sh.ToposWritten f (min (n * sh.nnodesPerSector) sh.npts) st ∧
        sh.CoordsWritten f (min (n * sh.nnodesPerSector) sh.npts) st := by
    intro n
    induction n with
    | zero =>
      rintro _ rfl
      rw [zero_mul]
      exact ⟨toposWritten_start, fun id hid => absurd hid (not_lt_zero id)⟩
    | succ n ih =>
      rintro _ rfl
      rw [range_succ, foldl_append]
      exact written_splitSector hwf hcoords htopos (ih _ rfl)
  have hall := hrun sh.nSectors _ rfl
  rw [nSectors, if_pos hper, min_eq_right (divRoundUp_mul_ge hper)] at hall
  rw [splitLoop, if_pos (nsectorPerNode_eq_one hle), nSectors, if_pos hper]
  exact hall

variable (sh f) in
/-- After `k` nodes a sector starts with the vector of the last one that belongs to it, and has
zeros behind it. -/
structure SectorsWritten (k : ℕ) (st : SplitState) : Prop where
  last : ∀ q, q * sh.ssdNodesPerSector < k → ∀ o < sh.dataLen,
    st.coordFile (q * sectorLen + o) =
      f (sh.inputOff (min ((q + 1) * sh.ssdNodesPerSector) k - 1) + o)
  rest : ∀ q o, sh.dataLen ≤ o → o < sectorLen → st.coordFile (q * sectorLen + o) = 0

theorem lt_of_succ_sector {p q : ℕ} (h : p < q) : p * sectorLen + sectorLen ≤ q * sectorLen := by
  rw [← succ_mul]
  exact mul_le_mul_right _ h

theorem SectorsWritten.writeNode (h : sh.SectorsWritten f k st) (hcoords : sh.dataLen ≤ sectorLen)
    (hper : 0 < sh.ssdNodesPerSector) :
    sh.SectorsWritten f (k + 1) (sh.writeNode f (sh.inputOff k) (sh.getSectorOffset2 k) st) := by
  have hoff : sh.getSectorOffset2 k = k / sh.ssdNodesPerSector * sectorLen := rfl
  have hlen : (f.bytes (sh.inputOff k) sh.dataLen).length = sh.dataLen := ByteFile.length_bytes ..
  refine ⟨fun q hq o ho => ?_, fun q o ho holt => ?_⟩
  · show st.coordFile.put _ _ _ = _
    rw [hoff]
    have hqle : q ≤ k / sh.ssdNodesPerSector :=
      (le_div_iff_mul_le hper).2 (Nat.lt_succ_iff.1 hq)
    obtain hlt | rfl := lt_or_eq_of_le hqle
    · have hsec := lt_of_succ_sector hlt
      have hfull : (q + 1) * sh.ssdNodesPerSector ≤ k := (le_div_iff_mul_le hper).1 hlt
      rw [ByteFile.put_of_not_mem (.inl (by omega)), min_eq_left (hfull.trans (le_succ k)),
        h.last q ?_ o ho, min_eq_left hfull]
      exact ((Nat.mul_lt_mul_right hper).2 (lt_succ_self q)).trans_le hfull
    · have hlast : k < (k / sh.ssdNodesPerSector + 1) * sh.ssdNodesPerSector := by
        rw [mul_comm]
        exact lt_mul_div_succ k hper
      rw [ByteFile.put_bytes_of_lt ho, min_eq_right hlast, succ_sub_one]
  · show st.coordFile.put _ _ _ = _
    rw [ByteFile.put_of_not_mem, h.rest q o ho holt]
    obtain hlt | rfl | hgt := lt_trichotomy q (k / sh.ssdNodesPerSector)
    · have hsec := lt_of_succ_sector hlt
      exact .inl (by omega)
    · exact .inr (by omega)
    · have hsec := lt_of_succ_sector hgt
      exact .inr (by omega)

theorem sectorsWritten_splitLoop (hwf : sh.WellFormed f) (hcoords : sh.dataLen ≤ sectorLen)
    (htopos : sh.topoLen ≤ sectorLen) (hgt : sectorLen < sh.maxNodeLen) :
    sh.ToposWritten f sh.npts (sh.splitLoop f) ∧ sh.SectorsWritten f sh.npts (sh.splitLoop f) := by
  have hone := one_lt_nsectorPerNode hgt
  have hzero := nnodesPerSector_eq_zero hgt
  have hper : 0 < sh.ssdNodesPerSector := div_pos hcoords dataLen_pos
  have hrun : ∀ n ≤ sh.npts, ∀ st, st = (List.range n).foldl (fun st k =>
      sh.writeNode f ((1 + k * sh.nsectorPerNode) * sectorLen) (sh.getSectorOffset2 st.nodeId)
        st) start → sh.ToposWritten f n st ∧ sh.SectorsWritten f n st := by
    intro n
    induction n with
    | zero =>
      rintro - _ rfl
      exact ⟨toposWritten_start, fun q hq => absurd hq (not_lt_zero _), fun _ _ _ _ => rfl⟩
    | succ n ih =>
      rintro hn _ rfl
      have hprev := ih (le_of_succ_le hn) _ rfl
      have hnode : (1 + n * sh.nsectorPerNode) * sectorLen = sh.inputOff n := by
        rw [inputOff, if_neg (by omega)]
      rw [range_succ, foldl_append, foldl_cons, hprev.1.nodeId,
        hnode]
      exact ⟨hprev.1.writeNode hwf htopos hn _, hprev.2.writeNode hcoords hper⟩
  rw [splitLoop, if_neg (by omega), nSectors, if_neg (by omega),
    divRoundUp_mul_self (by omega)]
  exact hrun _ le_rfl _ rfl

variable (sh) in
/-- The last point in the sector of a vector. -/
def lastOf (i : ℕ) : ℕ :=
  min ((i / sh.ssdNodesPerSector + 1) * sh.ssdNodesPerSector) sh.npts - 1

theorem lastOf_spec (hper : 0 < sh.ssdNodesPerSector) {i : ℕ} (hi : i < sh.npts) :
    i ≤ sh.lastOf i ∧ sh.lastOf i < sh.npts ∧
      sh.lastOf i / sh.ssdNodesPerSector = i / sh.ssdNodesPerSector := by
  have hend : i < (i / sh.ssdNodesPerSector + 1) * sh.ssdNodesPerSector := by
    rw [mul_comm]
    exact lt_mul_div_succ i hper
  have hile : i ≤ sh.lastOf i := by
    rw [lastOf]
    omega
  refine ⟨hile, by rw [lastOf]; omega, le_antisymm ?_ (Nat.div_le_div_right hile)⟩
  have hlt : sh.lastOf i < (i / sh.ssdNodesPerSector + 1) * sh.ssdNodesPerSector := by
    rw [lastOf]
    omega
  exact Nat.lt_succ_iff.1 ((div_lt_iff_lt_mul hper).2 hlt)

namespace SectorsWritten

variable {i o : ℕ}

theorem coordFile_first (h : sh.SectorsWritten f sh.npts st)
    (hi : i < sh.npts) (hfirst : i % sh.ssdNodesPerSector = 0) (ho : o < sh.dataLen) :
    st.coordFile (place sh.dataLen i + o) = f (sh.inputOff (sh.lastOf i) + o) := by
  have hplace : place sh.dataLen i = i / sh.ssdNodesPerSector * sectorLen := by
    rw [ssdNodesPerSector] at hfirst
    rw [place, hfirst, zero_mul, add_zero, ssdNodesPerSector]
  rw [hplace]
  exact h.last _ ((div_mul_le_self i _).trans_lt hi) o ho

theorem coordFile_other (h : sh.SectorsWritten f sh.npts st)
    (hcoords : sh.dataLen ≤ sectorLen) (hother : i % sh.ssdNodesPerSector ≠ 0)
    (ho : o < sh.dataLen) : st.coordFile (place sh.dataLen i + o) = 0 := by
  have hper : 0 < sh.ssdNodesPerSector := div_pos hcoords dataLen_pos
  have hend : (i % sh.ssdNodesPerSector + 1) * sh.dataLen ≤ sectorLen :=
    (mul_le_mul_right _ (mod_lt i hper)).trans (div_mul_le_self sectorLen sh.dataLen)
  have hstart : 1 * sh.dataLen ≤ i % sh.ssdNodesPerSector * sh.dataLen :=
    mul_le_mul_right _ (pos_of_ne_zero hother)
  rw [succ_mul] at hend
  have hplace : place sh.dataLen i = i / sh.ssdNodesPerSector * sectorLen +
    i % sh.ssdNodesPerSector * sh.dataLen := rfl
  rw [hplace, Nat.add_assoc]
  exact h.rest _ _ (by omega) (by omega)

theorem coordsWritten_iff (h : sh.SectorsWritten f sh.npts st) (hcoords : sh.dataLen ≤ sectorLen) :
    sh.CoordsWritten f sh.npts st ↔ ∀ i < sh.npts, sh.Alone i ∨ sh.ZeroVector f i := by
  have hper : 0 < sh.ssdNodesPerSector := div_pos hcoords dataLen_pos
  constructor
  · intro hall i hi
    by_cases halone : sh.Alone i
    · exact .inl halone
    · obtain ⟨j, hj, hgroup, hne⟩ : ∃ j < sh.npts,
          j / sh.ssdNodesPerSector = i / sh.ssdNodesPerSector ∧ j ≠ i := by
        rw [Alone] at halone
        push Not at halone
        exact halone
      refine .inr fun o ho => ?_
      by_cases hfirst : i % sh.ssdNodesPerSector = 0
      · obtain ⟨-, hlt, hlast⟩ := lastOf_spec hper hi
        have hjle : j ≤ sh.lastOf i := by
          have hle := (lastOf_spec hper hj).1
          rwa [lastOf, hgroup] at hle
        have hij : i < j := by
          have hi' := div_add_mod i sh.ssdNodesPerSector
          have hj' := div_add_mod j sh.ssdNodesPerSector
          rw [hgroup] at hj'
          omega
        have hother : sh.lastOf i % sh.ssdNodesPerSector ≠ 0 := by
          have hi' := div_add_mod i sh.ssdNodesPerSector
          have hl' := div_add_mod (sh.lastOf i) sh.ssdNodesPerSector
          rw [hlast] at hl'
          omega
        rw [← hall i hi o ho, h.coordFile_first hi hfirst ho, ← hall _ hlt o ho,
          h.coordFile_other hcoords hother ho]
      · rw [← hall i hi o ho, h.coordFile_other hcoords hfirst ho]
  · intro hall i hi o ho
    by_cases hfirst : i % sh.ssdNodesPerSector = 0
    · rw [h.coordFile_first hi hfirst ho]
      obtain ⟨-, hlt, hlast⟩ := lastOf_spec hper hi
      by_cases heq : sh.lastOf i = i
      · rw [heq]
      · have hzero : sh.ZeroVector f i :=
          (hall i hi).resolve_left fun halone => heq (halone _ hlt hlast)
        have hzero' : sh.ZeroVector f (sh.lastOf i) :=
          (hall _ hlt).resolve_left fun halone => heq (halone i hi hlast.symm).symm
        rw [hzero o ho, hzero' o ho]
    · have hzero : sh.ZeroVector f i := by
        refine (hall i hi).resolve_left fun halone => hfirst ?_
        have hstart := halone (i / sh.ssdNodesPerSector * sh.ssdNodesPerSector)
          ((div_mul_le_self i _).trans_lt hi) (Nat.mul_div_cancel _ hper)
        rw [← hstart, mul_mod_left]
      rw [hzero o ho, h.coordFile_other hcoords hfirst ho]

end SectorsWritten

/-! ### What the reader finds -/

theorem header_lens : sh.header.coordLen = sh.dataLen ∧ sh.header.topoLen = sh.topoLen := by
  have hlen : sh.dataLen + 4 + sh.degree * 4 < 2 ^ 32 := sh.len_lt
  have hdata : sh.header.dataLen = sh.dataLen :=
    mod_eq_of_lt (show sh.dataLen < 2 ^ 64 by omega)
  have hsub : sh.header.maxNodeLen + (2 ^ 64 - sh.dataLen) = (sh.degree + 1) * 4 + 2 ^ 64 := by
    show sh.dataLen + 4 + sh.degree * 4 + (2 ^ 64 - sh.dataLen) = _
    omega
  have hwords : sh.header.nhoodWords = sh.degree + 1 := by
    rw [IndexHeader.nhoodWords, hdata, hsub, add_mod_right, mod_eq_of_lt (by omega),
      Nat.mul_div_cancel _ (by decide)]
  have hdegree : sh.header.maxDegree = sh.degree := by
    rw [IndexHeader.maxDegree]
    omega
  constructor
  · rw [IndexHeader.coordLen, hdata, mod_eq_of_lt (by omega)]
  · rw [IndexHeader.topoLen, topoLen_eq]
    omega

theorem load_header (h : sh.nnodesPerSector ≤ kMaxElemInAPage) :
    ∃ g, sh.header.load = some g := by
  have hdata : 0 < sh.dataLen := dataLen_pos
  have htopo : 0 < sh.topoLen := topoLen_pos
  rw [IndexHeader.load, if_pos (show sh.header.newIndexFormat = true from rfl), header_lens.1,
    header_lens.2, if_neg]
  · exact ⟨_, rfl⟩
  · rintro (h0 | h0 | hgt)
    · omega
    · omega
    · exact absurd h (not_le.2 hgt)

variable {g : Geometry}

theorem geometry_of_load (h : sh.header.load = some g) :
    g.coordLen = sh.dataLen ∧ g.topoLen = sh.topoLen ∧
      g.ncoordPerSector = sectorLen / sh.dataLen ∧ g.ntopoPerSector = sectorLen / sh.topoLen := by
  rw [IndexHeader.load, if_pos (show sh.header.newIndexFormat = true from rfl)] at h
  split_ifs at h
  cases h
  rw [header_lens.1, header_lens.2]
  exact ⟨rfl, rfl, rfl, rfl⟩

theorem foundCoords_eq (h : sh.header.load = some g) (hle : sh.dataLen ≤ sectorLen)
    (file : ByteFile) (i : ℕ) :
    foundCoords g file i = .ok (file.bytes (place sh.dataLen i) sh.dataLen) := by
  obtain ⟨hlen, -, hcount, -⟩ := geometry_of_load h
  have hpos : 0 < sectorLen / sh.dataLen := div_pos hle dataLen_pos
  rw [foundCoords, Geometry.locSectorNoCoord, Geometry.offsetToLocCoord, hlen, hcount, if_pos hpos,
    if_neg hpos.ne']
  rfl

theorem foundNbrs_eq (h : sh.header.load = some g) (hle : sh.topoLen ≤ sectorLen) (file : ByteFile)
    (i : ℕ) : foundNbrs g file i = .ok (file.leArray 4 (place sh.topoLen i + 4)
      (file.le 4 (place sh.topoLen i))) := by
  obtain ⟨-, hlen, -, hcount⟩ := geometry_of_load h
  have hpos : 0 < sectorLen / sh.topoLen := div_pos hle topoLen_pos
  rw [foundNbrs, Geometry.locSectorNoTopo, Geometry.offsetToLocTopo, hlen, hcount, if_neg hpos.ne',
    if_neg hpos.ne']
  rfl

theorem found_iff (h : sh.header.load = some g) (hcoords : sh.dataLen ≤ sectorLen)
    (htopos : sh.topoLen ≤ sectorLen) (hwritten : sh.ToposWritten f sh.npts st) :
    (∀ i < sh.npts, foundCoords g st.coordFile i = .ok (sh.inputCoords f i) ∧
      foundNbrs g st.topoFile i = .ok (sh.inputNbrs f i)) ↔ sh.CoordsWritten f sh.npts st := by
  have hcoord : ∀ i, foundCoords g st.coordFile i = .ok (sh.inputCoords f i) ↔
      ∀ o < sh.dataLen, st.coordFile (place sh.dataLen i + o) = f (sh.inputOff i + o) := by
    intro i
    rw [foundCoords_eq h hcoords, inputCoords, Except.ok.injEq, ByteFile.bytes_eq_iff]
  constructor
  · exact fun hfound i hi => (hcoord i).1 (hfound i hi).1
  · refine fun hall i hi => ⟨(hcoord i).2 (hall i hi), ?_⟩
    have hnnbrs : st.topoFile.le 4 (place sh.topoLen i) = sh.inputNnbrs f i :=
      ByteFile.le_eq_iff.2 fun o ho => hwritten.topos i hi o (by omega)
    rw [foundNbrs_eq h htopos, hnnbrs, inputNbrs, ByteFile.leArray_eq_iff.2]
    intro o ho
    have hbyte := hwritten.topos i hi (4 + o) (by omega)
    rw [← add_assoc, ← add_assoc] at hbyte
    exact hbyte

theorem SplitsRight.coords (h : sh.SplitsRight f) : sh.dataLen ≤ sectorLen := by
  obtain ⟨st, hst, -⟩ := h
  by_contra hgt
  have hzero : sh.ssdNodesPerSector = 0 := div_eq_of_lt (Nat.lt_of_not_le hgt)
  rw [splitIndex, if_pos hzero] at hst
  cases hst

theorem SplitsRight.topos (h : sh.SplitsRight f) : sh.topoLen ≤ sectorLen := by
  obtain ⟨st, -, hread⟩ := h
  by_contra hle
  have hlt := Nat.lt_of_not_le hle
  have hgt : sectorLen < sh.maxNodeLen := by
    rw [topoLen_eq] at hlt
    rw [maxNodeLen]
    omega
  have hnodes : sh.nnodesPerSector ≤ kMaxElemInAPage := by
    rw [nnodesPerSector_eq_zero hgt]
    decide
  obtain ⟨g, hg⟩ := load_header hnodes
  have hcount : g.ntopoPerSector = 0 := by
    rw [(geometry_of_load hg).2.2.2, div_eq_of_lt hlt]
  have hfound := (hread g hg 0 sh.npts_pos).2
  rw [foundNbrs, Geometry.locSectorNoTopo, if_pos hcount] at hfound
  cases hfound

/-- The reader finds what was in the index exactly when it can be split. -/
theorem splitsRight_iff (hwf : sh.WellFormed f) : sh.SplitsRight f ↔ sh.Splittable f := by
  constructor
  · intro h
    refine ⟨h.coords, h.topos, ?_⟩
    obtain hgt | hle := lt_or_ge sectorLen sh.maxNodeLen
    · obtain ⟨htopo, hsec⟩ := sectorsWritten_splitLoop hwf h.coords h.topos hgt
      have hcoords := h.coords
      have htopos := h.topos
      obtain ⟨st, hst, hread⟩ := h
      have hper : 0 < sh.ssdNodesPerSector := div_pos hcoords dataLen_pos
      rw [splitIndex, if_neg hper.ne'] at hst
      obtain rfl := Option.some.inj hst
      have hnodes : sh.nnodesPerSector ≤ kMaxElemInAPage := by
        rw [nnodesPerSector_eq_zero hgt]
        decide
      obtain ⟨g, hg⟩ := load_header hnodes
      exact .inr ((hsec.coordsWritten_iff hcoords).1
        ((found_iff hg hcoords htopos htopo).1 (hread g hg)))
    · exact .inl hle
  · intro h
    have hper : 0 < sh.ssdNodesPerSector := div_pos h.coords dataLen_pos
    have hwritten : sh.ToposWritten f sh.npts (sh.splitLoop f) ∧
        sh.CoordsWritten f sh.npts (sh.splitLoop f) := by
      obtain hgt | hle := lt_or_ge sectorLen sh.maxNodeLen
      · obtain ⟨htopo, hsec⟩ := sectorsWritten_splitLoop hwf h.coords h.topos hgt
        refine ⟨htopo, (hsec.coordsWritten_iff h.coords).2 (h.records.resolve_left ?_)⟩
        exact not_le.2 hgt
      · exact written_splitLoop hwf h.coords h.topos hle
    exact ⟨sh.splitLoop f, if_neg hper.ne',
      fun g hg => (found_iff hg h.coords h.topos hwritten.1).2 hwritten.2⟩

end IndexShape

theorem siftDims_pos : 0 < 128 := by decide

theorem siftLen_lt : 128 * DataType.float.size + 4 + 64 * 4 < 2 ^ 32 := by decide

/-- 128 dimensions of four bytes, and lists of at most 64. -/
def siftShape : IndexShape where
  dataType := .float
  ndims := 128
  degree := 64
  npts := 2
  ndims_pos := siftDims_pos
  npts_pos := Nat.two_pos
  len_lt := siftLen_lt

theorem splitsRight_siftShape : siftShape.SplitsRight fun _ => 0 := by
  refine (IndexShape.splitsRight_iff fun i _ => ?_).2 ⟨by decide, by decide, .inl (by decide)⟩
  rw [IndexShape.inputNnbrs, ByteFile.le_eq_zero fun _ _ _ => rfl]
  exact zero_le _

theorem longDims_pos : 0 < 1536 := by decide

theorem longLen_lt : 1536 * DataType.float.size + 4 + 64 * 4 < 2 ^ 32 := by decide

/-- 1536 dimensions of four bytes: a vector is longer than a sector. -/
def longShape : IndexShape where
  dataType := .float
  ndims := 1536
  degree := 64
  npts := 1
  ndims_pos := longDims_pos
  npts_pos := Nat.one_pos
  len_lt := longLen_lt

theorem not_splitsRight_longShape :
    longShape.WellFormed (fun _ => 0) ∧ ¬ longShape.SplitsRight fun _ => 0 := by
  refine ⟨fun i _ => ?_, ?_⟩
  · rw [IndexShape.inputNnbrs, ByteFile.le_eq_zero fun _ _ _ => rfl]
    exact zero_le _
  · rintro ⟨st, hst, -⟩
    rw [IndexShape.splitIndex, if_pos (by decide)] at hst
    cases hst

end SplitIndex

end DiskANNEval.DGAI
