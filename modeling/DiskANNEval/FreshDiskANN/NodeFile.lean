import DiskANNEval.Lib.ByteFile

/-!
# NodeFile — the records of a disk index

A record is `[coords | nnbrs | nbrs]`, at most `max_node_len` bytes, and a sector behind the header
holds `nnodes_per_sector` of them.  A list that fits into its record is read back as it was written,
and no other record changes (`readNode_writeNbrs`).
-/

namespace DiskANNEval.FreshDiskANN

open Lib Nat

def sectorLen : ℕ := 4096

/-- What a reader takes from the header, and the bytes of the coordinates, `ndims * sizeof(T)`. -/
structure Layout where
  coordsLen : ℕ
  maxNodeLen : ℕ
  nnodesPerSector : ℕ
  deriving DecidableEq

/-- The layout of the records for lists of at most `range`. -/
def Layout.ofRange (coordsLen range : ℕ) : Layout where
  coordsLen
  maxNodeLen := coordsLen + 4 + range * 4
  nnodesPerSector := sectorLen / (coordsLen + 4 + range * 4)

structure DiskNode where
  coords : List UInt8
  nbrs : List ℕ
  deriving DecidableEq

namespace Layout

variable (l : Layout)

/-- `NODE_SECTOR_NO` and `OFFSET_TO_NODE` -/
def nodeOff (id : ℕ) : ℕ :=
  (id / l.nnodesPerSector + 1) * sectorLen + id % l.nnodesPerSector * l.maxNodeLen

/-- `OFFSET_TO_NODE_NHOOD` -/
def nhoodOff (id : ℕ) : ℕ := l.nodeOff id + l.coordsLen

def readNode (f : ByteFile) (id : ℕ) : DiskNode where
  coords := f.bytes (l.nodeOff id) l.coordsLen
  nbrs := f.leArray 4 (l.nhoodOff id + 4) (f.le 4 (l.nhoodOff id))

/-- `*(disk_node.nbrs - 1)` and `disk_node.nbrs` -/
def writeNbrs (f : ByteFile) (id : ℕ) (nbrs : List ℕ) : ByteFile :=
  (f.put (l.nhoodOff id) (leBytes 4 nbrs.length)).put (l.nhoodOff id + 4) (leList 4 nbrs)

def writeCoords (f : ByteFile) (id : ℕ) (coords : List UInt8) : ByteFile :=
  f.put (l.nodeOff id) coords

/-- The records of a sector are in it. -/
structure Ok : Prop where
  pos : 0 < l.nnodesPerSector
  fits : l.nnodesPerSector * l.maxNodeLen ≤ sectorLen

/-- A list of `n` ids fits into a record. -/
def Room (n : ℕ) : Prop := l.coordsLen + 4 + n * 4 ≤ l.maxNodeLen

theorem room_ofRange {coordsLen range n : ℕ} : (ofRange coordsLen range).Room n ↔ n ≤ range := by
  show coordsLen + 4 + n * 4 ≤ coordsLen + 4 + range * 4 ↔ n ≤ range
  omega

theorem ok_ofRange {coordsLen range : ℕ} (h : coordsLen + 4 + range * 4 ≤ sectorLen) :
    (ofRange coordsLen range).Ok :=
  ⟨div_pos h (by omega), div_mul_le_self _ _⟩

variable {l} {f g : ByteFile} {id id' : ℕ} {nbrs : List ℕ}

theorem coords_readNode : (l.readNode f id).coords = f.bytes (l.nodeOff id) l.coordsLen := rfl

theorem Ok.end_le (h : l.Ok) (id : ℕ) :
    l.nodeOff id + l.maxNodeLen ≤ (id / l.nnodesPerSector + 2) * sectorLen := by
  have hmod : (id % l.nnodesPerSector + 1) * l.maxNodeLen ≤ l.nnodesPerSector * l.maxNodeLen :=
    mul_le_mul_right _ (mod_lt _ h.pos)
  have hfits := h.fits
  rw [succ_mul] at hmod
  rw [nodeOff, add_mul, add_mul]
  omega

theorem Ok.disjoint_of_lt (h : l.Ok) (hlt : id < id') :
    l.nodeOff id + l.maxNodeLen ≤ l.nodeOff id' := by
  by_cases hdiv : id / l.nnodesPerSector = id' / l.nnodesPerSector
  · have h1 := div_add_mod id l.nnodesPerSector
    have h2 := div_add_mod id' l.nnodesPerSector
    rw [hdiv] at h1
    have hmod : id % l.nnodesPerSector + 1 ≤ id' % l.nnodesPerSector := by omega
    have hmul := mul_le_mul_right l.maxNodeLen hmod
    rw [succ_mul] at hmul
    rw [nodeOff, nodeOff, hdiv]
    omega
  · have hle : id / l.nnodesPerSector + 1 ≤ id' / l.nnodesPerSector :=
      lt_of_le_of_ne (Nat.div_le_div_right hlt.le) hdiv
    have hend := h.end_le id
    have hmul := mul_le_mul_right sectorLen (succ_le_succ hle)
    calc l.nodeOff id + l.maxNodeLen ≤ (id / l.nnodesPerSector + 2) * sectorLen := hend
      _ ≤ (id' / l.nnodesPerSector + 1) * sectorLen := hmul
      _ ≤ l.nodeOff id' := le_add_right _ _

theorem Ok.disjoint (h : l.Ok) (hne : id ≠ id') :
    l.nodeOff id + l.maxNodeLen ≤ l.nodeOff id' ∨ l.nodeOff id' + l.maxNodeLen ≤ l.nodeOff id := by
  obtain hlt | hlt := lt_or_gt_of_ne hne
  · exact .inl (h.disjoint_of_lt hlt)
  · exact .inr (h.disjoint_of_lt hlt)

theorem readNode_congr (hroom : l.Room (l.readNode f id).nbrs.length)
    (h : ∀ o, l.nodeOff id ≤ o → o < l.nodeOff id + l.maxNodeLen → f o = g o) :
    l.readNode g id = l.readNode f id := by
  have hlen : (l.readNode f id).nbrs.length = f.le 4 (l.nhoodOff id) := ByteFile.length_leArray ..
  have hoff : l.nhoodOff id = l.nodeOff id + l.coordsLen := rfl
  rw [Room] at hroom
  have hcoords : g.bytes (l.nodeOff id) l.coordsLen = f.bytes (l.nodeOff id) l.coordsLen :=
    ByteFile.bytes_congr fun o h1 h2 => (h o h1 (by omega)).symm
  have hnnbrs : g.le 4 (l.nhoodOff id) = f.le 4 (l.nhoodOff id) :=
    ByteFile.le_congr fun o h1 h2 => (h o (by omega) (by omega)).symm
  have hnbrs : g.leArray 4 (l.nhoodOff id + 4) (f.le 4 (l.nhoodOff id)) =
      f.leArray 4 (l.nhoodOff id + 4) (f.le 4 (l.nhoodOff id)) :=
    ByteFile.leArray_congr fun o h1 h2 => (h o (by omega) (by omega)).symm
  rw [readNode, readNode, hcoords, hnnbrs, hnbrs]

theorem writeNbrs_of_not_mem {o : ℕ} (hroom : l.Room nbrs.length)
    (h : o < l.nodeOff id ∨ l.nodeOff id + l.maxNodeLen ≤ o) : l.writeNbrs f id nbrs o = f o := by
  rw [Room] at hroom
  rw [writeNbrs, ByteFile.put_of_not_mem, ByteFile.put_of_not_mem]
  · rw [length_leBytes, nhoodOff]
    omega
  · rw [length_leList, nhoodOff]
    omega

theorem readNode_writeNbrs_same (hlen : nbrs.length < 2 ^ 32) (hids : ∀ n ∈ nbrs, n < 2 ^ 32) :
    l.readNode (l.writeNbrs f id nbrs) id = ⟨(l.readNode f id).coords, nbrs⟩ := by
  have hcoords : (l.writeNbrs f id nbrs).bytes (l.nodeOff id) l.coordsLen =
      f.bytes (l.nodeOff id) l.coordsLen := by
    rw [writeNbrs, ByteFile.bytes_put_of_disjoint, ByteFile.bytes_put_of_disjoint]
    · rw [nhoodOff]
      omega
    · rw [nhoodOff]
      omega
  have hnnbrs : (l.writeNbrs f id nbrs).le 4 (l.nhoodOff id) = nbrs.length := by
    rw [writeNbrs, ByteFile.le, ByteFile.bytes_put_of_disjoint (by omega)]
    exact ByteFile.le_put_leBytes hlen
  have hnbrs : (l.writeNbrs f id nbrs).leArray 4 (l.nhoodOff id + 4) nbrs.length = nbrs :=
    ByteFile.leArray_put_leList hids
  rw [readNode, readNode, hcoords, hnnbrs, hnbrs]

theorem readNode_writeNbrs_of_ne (h : l.Ok) (hne : id' ≠ id) (hroom : l.Room nbrs.length)
    (hroom' : l.Room (l.readNode f id').nbrs.length) :
    l.readNode (l.writeNbrs f id nbrs) id' = l.readNode f id' := by
  refine readNode_congr hroom' fun o h1 h2 => (writeNbrs_of_not_mem hroom ?_).symm
  have := h.disjoint hne
  omega

theorem readNode_writeLists (h : l.Ok) {touched : ℕ → Prop} [DecidablePred touched]
    {g : ℕ → List ℕ} {n : ℕ} (hroom : ∀ id < n, touched id → l.Room (g id).length)
    (hlen : ∀ id < n, (g id).length < 2 ^ 32) (hids : ∀ id < n, ∀ k ∈ g id, k < 2 ^ 32) {id : ℕ}
    (hid : l.Room (l.readNode f id).nbrs.length) :
    l.readNode ((List.range n).foldl
        (fun f id => if touched id then l.writeNbrs f id (g id) else f) f) id =
      if id < n ∧ touched id then ⟨(l.readNode f id).coords, g id⟩ else l.readNode f id := by
  induction n generalizing id with
  | zero => rw [if_neg fun hc => absurd hc.1 (not_lt_zero id)]; rfl
  | succ n ih =>
    have ih' := @ih (fun k hk => hroom k (lt_succ_of_lt hk))
      (fun k hk => hlen k (lt_succ_of_lt hk)) fun k hk => hids k (lt_succ_of_lt hk)
    rw [List.range_succ, List.foldl_append, List.foldl_cons, List.foldl_nil]
    by_cases hn : touched n
    · rw [if_pos hn]
      by_cases heq : id = n
      · subst heq
        rw [readNode_writeNbrs_same (hlen id (lt_succ_self id)) (hids id (lt_succ_self id)),
          ih' hid, if_neg fun hc => absurd hc.1 (lt_irrefl id), if_pos ⟨lt_succ_self id, hn⟩]
      · rw [readNode_writeNbrs_of_ne h heq (hroom n (lt_succ_self n) hn), ih' hid]
        · have hiff : id < n ∧ touched id ↔ id < n + 1 ∧ touched id :=
            and_congr_left fun _ => by omega
          rw [if_congr hiff rfl rfl]
        · rw [ih' hid]
          split_ifs with hc
          · exact hroom id (lt_succ_of_lt hc.1) hc.2
          · exact hid
    · rw [if_neg hn, ih' hid]
      have hiff : id < n ∧ touched id ↔ id < n + 1 ∧ touched id := by
        refine and_congr_left fun ht => ⟨lt_succ_of_lt, fun hlt => ?_⟩
        exact lt_of_le_of_ne (Nat.lt_succ_iff.1 hlt) fun he => hn (he ▸ ht)
      rw [if_congr hiff rfl rfl]

theorem readNode_nbrs_lt : ∀ n ∈ (l.readNode f id).nbrs, n < 2 ^ 32 := by
  intro n hn
  obtain ⟨i, -, rfl⟩ := List.mem_map.1 hn
  exact ByteFile.le_lt 4 f _

theorem writeCoords_of_not_mem {coords : List UInt8} {o : ℕ} (hlen : coords.length = l.coordsLen)
    (h : o < l.nodeOff id ∨ l.nhoodOff id ≤ o) : l.writeCoords f id coords o = f o := by
  apply ByteFile.put_of_not_mem
  rw [nhoodOff] at h
  omega

theorem readNode_writeCoords_same {coords : List UInt8} (hlen : coords.length = l.coordsLen) :
    l.readNode (l.writeCoords f id coords) id = ⟨coords, (l.readNode f id).nbrs⟩ := by
  have hcoords : (l.writeCoords f id coords).bytes (l.nodeOff id) l.coordsLen = coords := by
    rw [← hlen]
    exact ByteFile.bytes_put_same
  have hnnbrs : (l.writeCoords f id coords).le 4 (l.nhoodOff id) = f.le 4 (l.nhoodOff id) :=
    ByteFile.le_congr fun o h1 _ => writeCoords_of_not_mem hlen (.inr h1)
  have hnbrs : ∀ n, (l.writeCoords f id coords).leArray 4 (l.nhoodOff id + 4) n =
      f.leArray 4 (l.nhoodOff id + 4) n :=
    fun n => ByteFile.leArray_congr fun o h1 _ => writeCoords_of_not_mem hlen (.inr (by omega))
  rw [readNode, readNode, hcoords, hnnbrs, hnbrs]

end Layout

end DiskANNEval.FreshDiskANN
