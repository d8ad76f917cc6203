import DiskANNEval.Lib.Pages
import DiskANNEval.PipeANN.AllocLoc

/-!
# NodeBytes — the records of the disk index

A record is `[coords | nnbrs | nbrs | labels]` in `max_node_len` bytes, and the labels begin behind
the room for `range` neighbours.  A page holds the records of `nnodes_per_sector` locations, or a
page of several sectors holds one.  A node is written field by field, and no field is the labels: the
record gets the coordinates it is given and keeps the label bytes that are at its place
(`Rewritten`).
-/

namespace DiskANNEval.PipeANN

open Lib

def sectorLen : ℕ := 4096

def divRoundUp (x y : ℕ) : ℕ := x / y + if x % y ≠ 0 then 1 else 0

/-- The sizes of `SSDIndexMetadata`. -/
structure SSDIndexMetadata where
  dataDim : ℕ
  sizeofT : ℕ
  maxNodeLen : ℕ
  nnodesPerSector : ℕ
  labelSize : ℕ
  node_fits : dataDim * sizeofT + labelSize + 4 ≤ maxNodeLen
  sector_fits : nnodesPerSector * maxNodeLen ≤ sectorLen

namespace SSDIndexMetadata

variable (m : SSDIndexMetadata)

abbrev coordsLen : ℕ := m.dataDim * m.sizeofT

/-- The maximum out-degree. -/
def range : ℕ := (m.maxNodeLen - m.dataDim * m.sizeofT - m.labelSize) / 4 - 1

def sizePerIo : ℕ := sectorLen * if 0 < m.nnodesPerSector then 1 else divRoundUp m.maxNodeLen sectorLen

theorem le_divRoundUp_mul (x : ℕ) {y : ℕ} (hy : 0 < y) : x ≤ y * divRoundUp x y := by
  have h := Nat.div_add_mod x y
  have hlt := Nat.mod_lt x hy
  rw [divRoundUp]
  split_ifs with hr
  · rw [Nat.mul_add]
    omega
  · rw [Nat.add_zero]
    omega

def layout : PageLayout where
  nnodesPerSector := m.nnodesPerSector
  sectorsPerNode := divRoundUp m.maxNodeLen sectorLen
  sectorsPerNode_pos := by
    have h := le_divRoundUp_mul m.maxNodeLen (y := sectorLen) (by decide)
    have hfit := m.node_fits
    refine Nat.pos_of_ne_zero fun h0 => ?_
    rw [h0, Nat.mul_zero] at h
    omega

/-- The sector of a location. -/
abbrev sectorNo (loc : ℕ) : ℕ := m.layout.locSectorNo loc

/-! ### `DiskNode` -/

def coordsOff (loc : ℕ) : ℕ :=
  if m.nnodesPerSector = 0 then 0 else loc % m.nnodesPerSector * m.maxNodeLen

def nnbrsOff (loc : ℕ) : ℕ := m.coordsOff loc + m.coordsLen

def nbrsOff (loc : ℕ) : ℕ := m.coordsOff loc + m.coordsLen + 4

def labelsOff (loc : ℕ) : ℕ := m.coordsOff loc + m.coordsLen + (1 + m.range) * 4

def coords (pages : Pages) (loc : ℕ) : List UInt8 :=
  slice (pages (m.sectorNo loc)) (m.coordsOff loc) m.coordsLen

def nnbrs (pages : Pages) (loc : ℕ) : ℕ := leNat (slice (pages (m.sectorNo loc)) (m.nnbrsOff loc) 4)

def nbrs (pages : Pages) (loc : ℕ) : List ℕ :=
  (List.range (m.nnbrs pages loc)).map fun i =>
    leNat (slice (pages (m.sectorNo loc)) (m.nbrsOff loc + i * 4) 4)

def labels (pages : Pages) (loc : ℕ) : List UInt8 :=
  slice (pages (m.sectorNo loc)) (m.labelsOff loc) m.labelSize

/-- The pages are all there. -/
def PagesOk (pages : Pages) : Prop := ∀ s, (pages s).length = m.sizePerIo

/-! ### Places -/

theorem labels_fit : m.coordsLen + (1 + m.range) * 4 + m.labelSize ≤ m.maxNodeLen := by
  have h := m.node_fits
  have hpos : 1 ≤ (m.maxNodeLen - m.dataDim * m.sizeofT - m.labelSize) / 4 :=
    (Nat.one_le_div_iff (by decide)).2 (by omega)
  rw [range, coordsLen]
  omega

theorem coordsOff_fit (loc : ℕ) : m.coordsOff loc + m.maxNodeLen ≤ m.sizePerIo := by
  rw [coordsOff, sizePerIo]
  by_cases hn : m.nnodesPerSector = 0
  · rw [if_pos hn, if_neg (by omega), Nat.zero_add]
    exact le_divRoundUp_mul _ (by decide)
  · have hpos := Nat.pos_of_ne_zero hn
    have hslot : (loc % m.nnodesPerSector + 1) * m.maxNodeLen ≤ m.nnodesPerSector * m.maxNodeLen :=
      Nat.mul_le_mul_right _ (Nat.mod_lt _ hpos)
    rw [Nat.succ_mul] at hslot
    rw [if_neg hn, if_pos hpos]
    exact hslot.trans m.sector_fits

variable {loc' : ℕ}

theorem coordsOff_disjoint {loc : ℕ} (hs : m.sectorNo loc = m.sectorNo loc') (hne : loc ≠ loc') :
    m.coordsOff loc + m.maxNodeLen ≤ m.coordsOff loc' ∨
      m.coordsOff loc' + m.maxNodeLen ≤ m.coordsOff loc := by
  have hsec : loc' ∈ m.layout.pageLocs (m.sectorNo loc) := PageLayout.mem_pageLocs.2 hs.symm
  have hsec' : loc ∈ m.layout.pageLocs (m.sectorNo loc) := PageLayout.self_mem_pageLocs loc
  rw [PageLayout.pageLocs, List.mem_range'_1] at hsec hsec'
  change _ ∧ _ < _ + (if m.nnodesPerSector = 0 then 1 else m.nnodesPerSector) at hsec hsec'
  by_cases hn : m.nnodesPerSector = 0
  · rw [if_pos hn] at hsec hsec'
    omega
  · have hdvd : m.nnodesPerSector ∣ m.layout.sectorToLoc (m.sectorNo loc) := by
      rw [PageLayout.sectorToLoc, if_neg (by exact hn)]
      exact Nat.dvd_mul_left ..
    obtain ⟨q, hq⟩ := hdvd
    rw [if_neg hn, hq] at hsec hsec'
    have h1 : loc % m.nnodesPerSector = loc - m.nnodesPerSector * q := by
      obtain ⟨d, rfl⟩ := Nat.exists_eq_add_of_le hsec'.1
      rw [Nat.mul_add_mod, Nat.mod_eq_of_lt (by omega), Nat.add_sub_cancel_left]
    have h2 : loc' % m.nnodesPerSector = loc' - m.nnodesPerSector * q := by
      obtain ⟨d, rfl⟩ := Nat.exists_eq_add_of_le hsec.1
      rw [Nat.mul_add_mod, Nat.mod_eq_of_lt (by omega), Nat.add_sub_cancel_left]
    rw [coordsOff, coordsOff, if_neg hn, if_neg hn, ← Nat.succ_mul, ← Nat.succ_mul]
    obtain hlt | hlt := Nat.lt_or_gt_of_ne hne
    · exact .inl (Nat.mul_le_mul_right _ (by omega))
    · exact .inr (Nat.mul_le_mul_right _ (by omega))

/-! ### Writing a node -/

/-- The coordinates, `nnbrs` and the neighbours are written. -/
def writeNode (pages : Pages) (s loc : ℕ) (coords : List UInt8) (nhood : List ℕ) : Option Pages := do
  let pages ← pages.put s (m.coordsOff loc) coords
  let pages ← pages.put s (m.nnbrsOff loc) (leBytes 4 nhood.length)
  pages.put s (m.nbrsOff loc) (leList 4 nhood)

/-- The pages after a record is written at `loc` of page `s`, with the coordinates `coords`. -/
structure Rewritten (pages pages' : Pages) (s loc : ℕ) (coords : List UInt8) : Prop where
  outside : pages'.SameOutside pages s (m.coordsOff loc) (m.labelsOff loc)
  coords_eq : slice (pages' s) (m.coordsOff loc) m.coordsLen = coords

variable {m} {pages pages' : Pages} {s loc : ℕ} {coords : List UInt8} {nhood : List ℕ}

theorem PagesOk.of_sameOutside (h : m.PagesOk pages) {lo hi : ℕ}
    (hs : pages'.SameOutside pages s lo hi) : m.PagesOk pages' := fun k =>
  (hs.length_eq k).trans (h k)

theorem put_in_record (h : m.PagesOk pages) {off : ℕ} {bs : List UInt8} (hoff : m.coordsOff loc ≤ off)
    (hend : off + bs.length ≤ m.labelsOff loc) :
    ∃ pages', pages.put s off bs = some pages' ∧ m.PagesOk pages' ∧
      pages'.SameOutside pages s off (off + bs.length) ∧
      pages'.SameOutside pages s (m.coordsOff loc) (m.labelsOff loc) := by
  have h1 := m.coordsOff_fit loc
  have h2 := m.labels_fit
  obtain ⟨pages', hput⟩ := @Pages.put_isSome pages s off bs (by
    rw [h s]
    rw [labelsOff] at hend
    omega)
  have hsame := Pages.sameOutside_put hput
  exact ⟨pages', hput, h.of_sameOutside hsame, hsame, hsame.mono hoff hend⟩

theorem writeNode_spec (h : m.PagesOk pages) (hc : coords.length = m.coordsLen)
    (hn : nhood.length ≤ m.range) :
    ∃ pages', m.writeNode pages s loc coords nhood = some pages' ∧ m.PagesOk pages' ∧
      m.Rewritten pages pages' s loc coords := by
  obtain ⟨p1, hput1, hok1, -, hs1⟩ := @put_in_record m _ s loc h _ coords
    le_rfl (by rw [labelsOff]; omega)
  obtain ⟨p2, hput2, hok2, hs2, hs2'⟩ := @put_in_record m _ s loc hok1
    (m.nnbrsOff loc) (leBytes 4 nhood.length) (by rw [nnbrsOff]; omega)
    (by rw [length_leBytes, nnbrsOff, labelsOff]; omega)
  obtain ⟨p3, hput3, hok3, hs3, hs3'⟩ := @put_in_record m _ s loc hok2
    (m.nbrsOff loc) (leList 4 nhood) (by rw [nbrsOff]; omega)
    (by rw [length_leList, nbrsOff, labelsOff]; omega)
  refine ⟨p3, ?_, hok3, hs3'.trans (hs2'.trans hs1), ?_⟩
  · simp only [writeNode, hput1, hput2, hput3, Option.bind_eq_bind, Option.bind_some]
  · have hsame := Pages.slice_put_same hput1
    rw [hc] at hsame
    rw [hs3.slice_eq s _ _ fun _ => .inl (by rw [nbrsOff]; omega),
      hs2.slice_eq s _ _ fun _ => .inl (by rw [nnbrsOff]), hsame]

theorem Rewritten.labels_eq (h : m.Rewritten pages pages' s loc coords) :
    slice (pages' s) (m.labelsOff loc) m.labelSize =
      slice (pages s) (m.labelsOff loc) m.labelSize :=
  h.outside.slice_eq s _ _ fun _ => .inr le_rfl

theorem Rewritten.slice_other (h : m.Rewritten pages pages' s loc coords) {s' o l : ℕ}
    (hs : s' = s → m.sectorNo loc' = m.sectorNo loc) (hne : loc' ≠ loc) (ho : m.coordsOff loc' ≤ o)
    (hl : o + l ≤ m.coordsOff loc' + m.maxNodeLen) :
    slice (pages' s') o l = slice (pages s') o l := by
  have hfit := m.labels_fit
  refine h.outside.slice_eq _ _ _ fun heq => ?_
  have hdisj := m.coordsOff_disjoint (hs heq) hne
  rw [labelsOff]
  omega

theorem Rewritten.other (h : m.Rewritten pages pages' (m.sectorNo loc) loc coords) {o l : ℕ}
    (hne : loc' ≠ loc) (ho : m.coordsOff loc' ≤ o) (hl : o + l ≤ m.coordsOff loc' + m.maxNodeLen) :
    slice (pages' (m.sectorNo loc')) o l = slice (pages (m.sectorNo loc')) o l :=
  h.slice_other id hne ho hl

theorem Rewritten.coords_other (h : m.Rewritten pages pages' (m.sectorNo loc) loc coords)
    (hne : loc' ≠ loc) : m.coords pages' loc' = m.coords pages loc' :=
  h.other hne le_rfl (by have := m.node_fits; rw [coordsLen]; omega)

theorem Rewritten.labels_other (h : m.Rewritten pages pages' (m.sectorNo loc) loc coords)
    (hne : loc' ≠ loc) : m.labels pages' loc' = m.labels pages loc' :=
  h.other hne (by rw [labelsOff]; omega) (by have := m.labels_fit; rw [labelsOff]; omega)

theorem Rewritten.nnbrs_other (h : m.Rewritten pages pages' (m.sectorNo loc) loc coords)
    (hne : loc' ≠ loc) : m.nnbrs pages' loc' = m.nnbrs pages loc' := by
  rw [nnbrs, nnbrs, h.other hne (by rw [nnbrsOff]; omega)]
  have := m.node_fits
  rw [nnbrsOff, coordsLen]
  omega

end SSDIndexMetadata

end DiskANNEval.PipeANN
