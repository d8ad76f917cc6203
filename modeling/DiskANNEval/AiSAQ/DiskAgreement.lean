import DiskANNEval.AiSAQ.DiskFiles

/-!
# DiskAgreement — the loader and the writer on one layout

The length of a record does not say what is in it.  With automatic inline codes the writer first makes
room for the old ids; when then all codes fit, it drops the rearrangement and keeps the room, and the
loader takes the room for codes as soon as a code is not longer than it.
-/

namespace DiskANNEval.AiSAQ.DiskLayout

open Lib AiSAQ.MergeShards

/-! ### What has been decided -/

/-- The rearrangement is dropped after room has been made for the old ids. -/
def LateDrop (o : Options) (nodeLen nb width : ℕ) : Prop :=
  o.inlinePq < 0 ∧ o.rearrange = true ∧
    (calcMaxInlinePqVectors (nodeLen % 2 ^ 32) nb width).any (· < width) = true ∧
    calcMaxInlinePqVectors ((nodeLen + 4) % 2 ^ 32) nb width = some width

instance (o : Options) (nodeLen nb width : ℕ) : Decidable (LateDrop o nodeLen nb width) :=
  inferInstanceAs (Decidable (_ ∧ _))

section decide

variable {o : Options} {nodeLen nb width : ℕ}

theorem calcMaxInlinePqVectors_le {len n : ℕ} (h : calcMaxInlinePqVectors len nb width = some n) :
    n ≤ width := by
  rw [calcMaxInlinePqVectors] at h
  dsimp only at h
  split_ifs at h
  · cases h
    exact Nat.min_le_left _ _
  · cases h
    exact Nat.min_le_left _ _

theorem calcInline_spec {len n : ℕ} (h : calcInline o nodeLen nb width = some (len, n))
    (ho : o.asserts = true ∨ o.inlinePq ≤ width) (hzero : o.inlinePq ≠ 0) :
    n ≤ width ∧
      (len = nodeLen ∧ (o.rearrange = true → n = width) ∧ ¬LateDrop o nodeLen nb width ∨
        len = nodeLen + 4 ∧ o.rearrange = true ∧ (n = width ↔ LateDrop o nodeLen nb width)) := by
  rw [calcInline] at h
  split at h
  · rename_i hpos
    have hnot : ¬LateDrop o nodeLen nb width := fun hd => by
      have hneg := hd.1
      omega
    dsimp only at h
    split_ifs at h with hassert hroom
    · cases h
      refine ⟨hroom.2.le, Or.inr ⟨rfl, hroom.1, ?_⟩⟩
      exact ⟨fun heq => absurd hroom.2 (by omega), fun hd => absurd hd hnot⟩
    · cases h
      have hle : o.inlinePq.toNat ≤ width := by
        rcases ho with ha | hle
        · by_contra hgt
          exact hassert ⟨ha, by omega⟩
        · omega
      refine ⟨hle, Or.inl ⟨rfl, ?_, hnot⟩⟩
      intro hr
      by_contra hne
      exact hroom ⟨hr, by omega⟩
  · rename_i hpos
    split_ifs at h with hassert
    obtain ⟨n₁, hn₁, h⟩ := Option.bind_eq_some_iff.mp h
    have hle₁ := calcMaxInlinePqVectors_le hn₁
    split_ifs at h with hroom
    · obtain ⟨n₂, hn₂, h⟩ := Option.map_eq_some_iff.mp h
      cases h
      refine ⟨calcMaxInlinePqVectors_le hn₂, Or.inr ⟨rfl, hroom.1, ?_⟩⟩
      constructor
      · rintro rfl
        refine ⟨by omega, hroom.1, ?_, hn₂⟩
        rw [hn₁]
        simpa using hroom.2
      · intro hd
        have hlast := hd.2.2.2
        rw [hn₂, Option.some.injEq] at hlast
        exact hlast
    · cases h
      refine ⟨hle₁, Or.inl ⟨rfl, ?_, ?_⟩⟩
      · intro hr
        by_contra hne
        exact hroom ⟨hr, by omega⟩
      · rintro ⟨-, hr, hany, -⟩
        rw [hn₁] at hany
        exact hroom ⟨hr, by simpa using hany⟩

/-- The length of a record: the room for the old id is there when the vectors are rearranged, and
when the rearrangement was dropped late. -/
theorem decideLayout_spec {l : Layout} (h : decideLayout o nodeLen nb width = some l)
    (ho : o.asserts = true ∨ o.inlinePq ≤ width) :
    l.inlinePqVectors ≤ width ∧ ∃ room, l.maxNodeLen = nodeLen + room + l.inlinePqVectors * nb % 2 ^ 32 ∧
      (l.rearrange = true ∧ room = 4 ∧ ¬LateDrop o nodeLen nb width ∨
        l.rearrange = false ∧ room = 0 ∧ ¬LateDrop o nodeLen nb width ∨
        l.rearrange = false ∧ room = 4 ∧ LateDrop o nodeLen nb width ∧
          l.inlinePqVectors = width ∧ 0 < width) := by
  rw [decideLayout] at h
  split at h
  · rename_i hzero
    have hnot : ¬LateDrop o nodeLen nb width := fun hd => by
      have hneg := hd.1
      omega
    cases h
    refine ⟨Nat.zero_le _, ?_⟩
    cases hr : o.rearrange with
    | true => exact ⟨4, by simp, Or.inl ⟨rfl, rfl, hnot⟩⟩
    | false => exact ⟨0, by simp, Or.inr (Or.inl ⟨rfl, rfl, hnot⟩)⟩
  · rename_i hzero
    obtain ⟨⟨len, n⟩, hcalc, h⟩ := Option.bind_eq_some_iff.mp h
    obtain ⟨hle, hroom⟩ := calcInline_spec hcalc ho hzero
    dsimp only at h
    split_ifs at h with hall hwidth
    · cases h
      refine ⟨hle, ?_⟩
      rcases hroom with ⟨rfl, -, hnot⟩ | ⟨rfl, -, hdrop⟩
      · exact ⟨0, rfl, Or.inr (Or.inl ⟨rfl, rfl, hnot⟩)⟩
      · have hd := hdrop.mp hall
        have hany := hd.2.2.1
        have hpos : 0 < width := by
          obtain ⟨n₁, -, hlt⟩ := (Option.any_eq_true _ _).mp hany
          exact Nat.lt_of_le_of_lt (Nat.zero_le _) (of_decide_eq_true hlt)
        exact ⟨4, rfl, Or.inr (Or.inr ⟨rfl, rfl, hd, hall, hpos⟩)⟩
    · cases h
      refine ⟨hle, ?_⟩
      rcases hroom with ⟨rfl, hr, hnot⟩ | ⟨rfl, hr, hdrop⟩
      · have hr' : o.rearrange = false := by
          cases hr' : o.rearrange with
          | true => exact absurd (hr hr') hall
          | false => rfl
        exact ⟨0, rfl, Or.inr (Or.inl ⟨hr', rfl, hnot⟩)⟩
      · exact ⟨4, rfl, Or.inl ⟨hr, rfl, fun hd => hall (hdrop.mpr hd)⟩⟩

end decide

/-! ### What the loader derives -/

section derive

variable {o : Options} {nb width : ℕ} {l : Layout} {env : LoadEnv}

theorem sub64_of_le {a b : ℕ} (h : b ≤ a) (ha : a < 2 ^ 64) : sub64 a b = a - b := by
  rw [sub64, show a + 2 ^ 64 - b = a - b + 2 ^ 64 by omega, Nat.add_mod_right,
    Nat.mod_eq_of_lt (by omega)]

/-- The bytes for the old ids that the loader expects. -/
def ridLen (rearranged : Bool) : ℕ := if rearranged = true then 4 else 0

theorem deriveDegree_eq {room : ℕ} (hinline : l.inlinePqVectors ≤ width)
    (hlen : l.maxNodeLen = (width + 1) * 4 + env.diskBytesPerPoint + room +
      l.inlinePqVectors * env.nChunks % 2 ^ 32)
    (hroom : room = ridLen l.rearrange ∨ room = ridLen l.rearrange + 4 ∧
      l.inlinePqVectors = width ∧ 0 < width)
    (hlt : l.maxNodeLen < 2 ^ 64) (hchunks : env.nChunks ≤ maxPqChunks) :
    deriveDegree env l.maxNodeLen (if 0 < l.inlinePqVectors then width else 0) l.rearrange =
      if maxGraphDegree < width then .error .graphDegree
      else if env.nChunks = 0 then .error .divisionByZero
      else .ok (width,
        (room - ridLen l.rearrange + l.inlinePqVectors * env.nChunks) / env.nChunks) := by
  have hrid : (if l.rearrange = true then 4 else 0) = ridLen l.rearrange := rfl
  set c := l.inlinePqVectors * env.nChunks % 2 ^ 32 with hc
  have hmax : sub64 (sub64 (sub64 l.maxNodeLen env.diskBytesPerPoint) (ridLen l.rearrange) / 4) 1 =
      ((width + 1) * 4 + (room - ridLen l.rearrange) + c) / 4 - 1 := by
    have hcoords := sub64_of_le (b := env.diskBytesPerPoint) (by omega) hlt
    have hbytes : sub64 (l.maxNodeLen - env.diskBytesPerPoint) (ridLen l.rearrange) =
        l.maxNodeLen - env.diskBytesPerPoint - ridLen l.rearrange :=
      sub64_of_le (by omega) (by omega)
    rw [hcoords, sub64_of_le (by omega) (by omega)]
    omega
  rw [deriveDegree, hrid, hmax]
  have hdeg : (if (if 0 < l.inlinePqVectors then width else 0) ≠ 0 then
      (if 0 < l.inlinePqVectors then width else 0)
      else ((width + 1) * 4 + (room - ridLen l.rearrange) + c) / 4 - 1) = width := by
    by_cases hpos : 0 < l.inlinePqVectors
    · rw [if_pos hpos, if_pos (by omega)]
    · have hzero : l.inlinePqVectors = 0 := by omega
      have hczero : c = 0 := by rw [hc, hzero, Nat.zero_mul, Nat.zero_mod]
      rw [if_neg hpos, if_neg (by omega)]
      omega
  rw [hdeg, if_neg (by split <;> omega)]
  by_cases hwidth : maxGraphDegree < width
  · rw [if_pos hwidth, if_pos hwidth]
  · rw [if_neg hwidth, if_neg hwidth]
    by_cases hzero : env.nChunks = 0
    · rw [if_pos hzero, if_pos hzero]
    · rw [if_neg hzero, if_neg hzero]
      -- within the limits of the loader the product is below `2 ^ 32`
      have hprod : l.inlinePqVectors * env.nChunks ≤ 512 * 512 :=
        Nat.mul_le_mul (by rw [maxGraphDegree] at hwidth; omega) hchunks
      have hcc : c = l.inlinePqVectors * env.nChunks := Nat.mod_eq_of_lt (by omega)
      have hleft : l.maxNodeLen - (env.diskBytesPerPoint + (width + 1) * 4 + ridLen l.rearrange) =
          room - ridLen l.rearrange + c := by omega
      rw [sub64_of_le (by omega) hlt, hleft, hcc]

/-- A file of the writer, loaded: it is refused for its width or its PQ chunks, or the degree is the
width and the bytes that are left are taken for codes. -/
theorem load_createDiskLayout {d : DataSet} {map : List ℕ} {file : File}
    (hl : decideLayout o d.files.plainNodeLen d.pqNbytes d.width = some l)
    (hfile : createDiskLayout d.files o map = some file)
    (ho : o.asserts = true ∨ o.inlinePq ≤ d.width) (henv : env.Matches d)
    (hcache : l.rearrange = false → env.pqReadPageCache = false) (hchunks : d.pqNbytes ≤ maxPqChunks) :
    ∃ room, (LateDrop o d.files.plainNodeLen d.pqNbytes d.width ∧ room = 4 ∧
        l.inlinePqVectors = d.width ∨
        ¬LateDrop o d.files.plainNodeLen d.pqNbytes d.width ∧ room = 0) ∧
      l.maxNodeLen = d.files.plainNodeLen + ridLen l.rearrange + room +
        l.inlinePqVectors * d.pqNbytes % 2 ^ 32 ∧
      ∃ mk : ℕ × ℕ → FlashIndex, (∀ p, (mk p).HasLayout env l p) ∧
        load env file = (if maxGraphDegree < d.width then .error .graphDegree
          else if d.pqNbytes = 0 then .error .divisionByZero
          else .ok (d.width, (room + l.inlinePqVectors * d.pqNbytes) / d.pqNbytes) :
            Except LoadError (ℕ × ℕ)).map mk := by
  obtain ⟨hinline, room, hlen, hcase⟩ := decideLayout_spec hl ho
  obtain ⟨w, medoid, hfiles, -, rfl, -, hw⟩ := createDiskLayout_eq_some hfile hl
  have hplain : d.files.plainNodeLen = (d.width + 1) * 4 + env.diskBytesPerPoint := by
    rw [henv.diskBytesPerPoint]
    rfl
  have hcoord : env.diskBytesPerPoint ≤ 2 ^ 32 * 4 := by
    rw [henv.diskBytesPerPoint]
    exact Nat.mul_le_mul d.ndims_lt.le d.sizeofT_le
  have hwidth := d.width_lt
  have hrid : room - ridLen w.layout.rearrange = 0 ∧ room = ridLen w.layout.rearrange ∧
        ¬LateDrop o d.files.plainNodeLen d.pqNbytes d.width ∨
      room - ridLen w.layout.rearrange = 4 ∧ room = ridLen w.layout.rearrange + 4 ∧
        LateDrop o d.files.plainNodeLen d.pqNbytes d.width ∧
        w.layout.inlinePqVectors = d.width ∧ 0 < d.width := by
    rcases hcase with ⟨hr, rfl, hnot⟩ | ⟨hr, rfl, hnot⟩ | ⟨hr, rfl, hd, hall, hpos⟩
    · rw [hr]
      exact Or.inl ⟨rfl, rfl, hnot⟩
    · rw [hr]
      exact Or.inl ⟨rfl, rfl, hnot⟩
    · rw [hr]
      exact Or.inr ⟨rfl, rfl, hd, hall, hpos⟩
  have hlt : w.layout.maxNodeLen < 2 ^ 64 := by
    omega
  obtain ⟨mk, hload, hmk⟩ := @Writer.load_file _ _ _ env hw
    (by rw [hfiles]; exact henv.numPoints) (by rw [hfiles]; exact d.npts_lt)
    (by rw [henv.nChunks]; exact hchunks) (by rw [hfiles]; exact henv.useDiskIndexPq) hcache hlt
    (by rw [hfiles]; exact d.width_lt)
  have hderive := @deriveDegree_eq _ _ env room hinline
    (by rw [hlen, hplain, henv.nChunks])
    (by rcases hrid with ⟨-, heq, -⟩ | ⟨-, heq, -, hall, hpos⟩
        · exact Or.inl heq
        · exact Or.inr ⟨heq, hall, hpos⟩)
    hlt (by rw [henv.nChunks]; exact hchunks)
  rw [hfiles] at hload
  change load env file = Except.map mk (deriveDegree env w.layout.maxNodeLen
    (if 0 < w.layout.inlinePqVectors then d.width else 0) w.layout.rearrange) at hload
  rw [hderive, henv.nChunks] at hload
  refine ⟨room - ridLen w.layout.rearrange, ?_, by rw [hlen]; omega, mk, hmk, hload⟩
  rcases hrid with ⟨hzero, -, hnot⟩ | ⟨hfour, -, hd, hall, -⟩
  · exact Or.inr ⟨hnot, hzero⟩
  · exact Or.inl ⟨hd, hfour, hall⟩

end derive

/-! ### The agreement -/

/-- The index has the parameters of the writer, and its records are where the writer has put them. -/
structure FlashIndex.Agrees (ix : FlashIndex) (width : ℕ) (l : Layout) : Prop where
  maxDegree : ix.maxDegree = width
  inlinePqVectors : ix.inlinePqVectors = l.inlinePqVectors
  rearrangedVectors : ix.rearrangedVectors = l.rearrange
  nnodesPerSector : ix.nnodesPerSector = l.nnodesPerSector
  sectorsPerNode : divRoundUp ix.maxNodeLen sectorLen = divRoundUp l.maxNodeLen sectorLen
  nodeOffset : ∀ i, ix.getNodeSector i * sectorLen + ix.offsetToNode i = l.nodeOffset i

theorem FlashIndex.HasLayout.nodeOffset {ix : FlashIndex} {env : LoadEnv} {l : Layout} {p : ℕ × ℕ}
    (h : ix.HasLayout env l p) (i : ℕ) :
    ix.getNodeSector i * sectorLen + ix.offsetToNode i = l.nodeOffset i := by
  rw [FlashIndex.getNodeSector, FlashIndex.offsetToNode, Layout.nodeOffset, h.nnodesPerSector,
    h.maxNodeLen]
  by_cases hper : 0 < l.nnodesPerSector
  · rw [if_pos hper, if_neg (by omega), if_pos hper, Nat.add_mul, Nat.one_mul]
  · rw [if_neg hper, if_pos (by omega), if_neg hper, Nat.add_mul, Nat.one_mul, Nat.add_zero,
      Nat.mul_assoc]

/-- The loader agrees with the writer unless it refuses the file, or the rearrangement was dropped
late and a PQ code has at most the length of an id. -/
theorem load_agrees_iff {d : DataSet} {o : Options} {map : List ℕ} {l : Layout} {file : File}
    {env : LoadEnv} (hl : decideLayout o d.files.plainNodeLen d.pqNbytes d.width = some l)
    (hfile : createDiskLayout d.files o map = some file)
    (ho : o.asserts = true ∨ o.inlinePq ≤ d.width) (henv : env.Matches d)
    (hcache : l.rearrange = false → env.pqReadPageCache = false) :
    (∃ ix, load env file = .ok ix ∧ ix.Agrees d.width l) ↔
      0 < d.pqNbytes ∧ d.pqNbytes ≤ maxPqChunks ∧ d.width ≤ maxGraphDegree ∧
        ¬(LateDrop o d.files.plainNodeLen d.pqNbytes d.width ∧ d.pqNbytes ≤ 4) := by
  by_cases hchunks : d.pqNbytes ≤ maxPqChunks
  · obtain ⟨room, hroom, -, mk, hmk, hload⟩ := load_createDiskLayout hl hfile ho henv hcache hchunks
    rw [hload]
    by_cases hwidth : maxGraphDegree < d.width
    · rw [if_pos hwidth]
      constructor
      · rintro ⟨ix, hix, -⟩
        cases hix
      · rintro ⟨-, -, hle, -⟩
        omega
    · rw [if_neg hwidth]
      by_cases hzero : d.pqNbytes = 0
      · rw [if_pos hzero]
        constructor
        · rintro ⟨ix, hix, -⟩
          cases hix
        · rintro ⟨hpos, -⟩
          omega
      · have hpos : 0 < d.pqNbytes := Nat.pos_of_ne_zero hzero
        rw [if_neg hzero]
        have hp := hmk (d.width, (room + l.inlinePqVectors * d.pqNbytes) / d.pqNbytes)
        have hdiv : (room + l.inlinePqVectors * d.pqNbytes) / d.pqNbytes =
            room / d.pqNbytes + l.inlinePqVectors := Nat.add_mul_div_right _ _ hpos
        constructor
        · rintro ⟨ix, hix, hagree⟩
          cases hix
          refine ⟨hpos, hchunks, by omega, ?_⟩
          rintro ⟨hd, hle⟩
          have hinline := hagree.inlinePqVectors
          rw [hp.inlinePqVectors, hdiv] at hinline
          rcases hroom with ⟨-, rfl, -⟩ | ⟨hnot, -⟩
          · have hone : 1 ≤ 4 / d.pqNbytes := (Nat.one_le_div_iff hpos).mpr hle
            omega
          · exact hnot hd
        · rintro ⟨-, -, -, hgood⟩
          refine ⟨_, rfl, ?_⟩
          have hzeroRoom : room / d.pqNbytes = 0 := by
            rcases hroom with ⟨hd, rfl, -⟩ | ⟨-, rfl⟩
            · apply Nat.div_eq_of_lt
              by_contra hge
              exact hgood ⟨hd, by omega⟩
            · exact Nat.zero_div _
          exact
            { maxDegree := hp.maxDegree
              inlinePqVectors := by rw [hp.inlinePqVectors, hdiv, hzeroRoom, Nat.zero_add]
              rearrangedVectors := hp.rearrangedVectors
              nnodesPerSector := hp.nnodesPerSector
              sectorsPerNode := by rw [hp.maxNodeLen]
              nodeOffset := hp.nodeOffset }
  · constructor
    · rintro ⟨ix, hix, -⟩
      rw [load, require, if_neg (by rw [henv.nChunks]; exact hchunks)] at hix
      cases hix
    · rintro ⟨-, hle, -⟩
      exact absurd hle hchunks

/-- Two points with 447 coordinates of `float` and codes of 4 bytes, in a graph of degree 64. -/
def twoPoints : DataSet where
  nhood := [[1], [0]]
  coords := List.replicate 2 (List.replicate 1788 0)
  codes := List.replicate 2 (List.replicate 4 0)
  ndims := 447
  sizeofT := 4
  width := 64
  medoid := 0
  frozen := 0
  pqNbytes := 4
  reorder := none
  npts_lt := by decide
  ndims_lt := by decide
  sizeofT_le := le_rfl
  width_lt := by decide
  degree_le := by decide
  nbr_lt := by decide
  coords_length := rfl
  coord_length := by
    intro c hc
    rw [List.eq_of_mem_replicate hc, List.length_replicate]
  codes_length := rfl
  code_length := by
    intro c hc
    rw [List.eq_of_mem_replicate hc, List.length_replicate]

/-- Automatic inline codes, and rearranged vectors. -/
def autoRearranged : Options := { inlinePq := -1, rearrange := true, asserts := true }

/-- What is loaded of the other files of `twoPoints`. -/
def twoPointsEnv : LoadEnv where
  numPoints := 2
  nChunks := 4
  diskBytesPerPoint := 1788
  useDiskIndexPq := false
  pqReadPageCache := false

theorem twoPointsEnv_matches : twoPointsEnv.Matches twoPoints :=
  ⟨rfl, rfl, rfl, fun h => absurd h (by decide)⟩

theorem decideLayout_twoPoints : decideLayout autoRearranged twoPoints.files.plainNodeLen
    twoPoints.pqNbytes twoPoints.width = some ⟨2308, 64, false⟩ := by decide +kernel

theorem twoPoints_written : ∃ file, createDiskLayout twoPoints.files autoRearranged [] = some file :=
  Option.isSome_iff_exists.mp (by decide +kernel)

/-- Two records of 2048 bytes fill a sector and leave no room for codes; with an old id there is one
record in a sector and room for all of them.  The writer has 64 inline codes, the loader 65. -/
theorem load_disagrees : ∃ file ix,
    decideLayout autoRearranged twoPoints.files.plainNodeLen twoPoints.pqNbytes twoPoints.width =
      some ⟨2308, 64, false⟩ ∧
    createDiskLayout twoPoints.files autoRearranged [] = some file ∧
    load twoPointsEnv file = .ok ix ∧ ix.maxDegree = 64 ∧ ix.inlinePqVectors = 65 := by
  obtain ⟨file, hfile⟩ := twoPoints_written
  obtain ⟨room, hroom, -, mk, hmk, hload⟩ := load_createDiskLayout decideLayout_twoPoints hfile
    (Or.inl rfl) twoPointsEnv_matches (fun _ => rfl) (by decide)
  rcases hroom with ⟨-, rfl, -⟩ | ⟨hnot, -⟩
  · exact ⟨file, _, decideLayout_twoPoints, hfile, hload, (hmk _).maxDegree, (hmk _).inlinePqVectors⟩
  · exact absurd (by decide +kernel) hnot

theorem load_agrees_iff_twoPoints : ∃ file,
    ¬∃ ix, load twoPointsEnv file = .ok ix ∧ ix.Agrees 64 ⟨2308, 64, false⟩ := by
  obtain ⟨file, hfile⟩ := twoPoints_written
  refine ⟨file, ?_⟩
  intro h
  obtain ⟨-, -, -, hgood⟩ := (load_agrees_iff decideLayout_twoPoints hfile (Or.inl rfl)
    twoPointsEnv_matches fun _ => rfl).mp h
  exact hgood (by decide +kernel)

end DiskANNEval.AiSAQ.DiskLayout
