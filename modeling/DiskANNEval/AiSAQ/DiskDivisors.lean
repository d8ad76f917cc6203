import DiskANNEval.AiSAQ.DiskLayout

/-!
# DiskDivisors — what `create_disk_layout` divides by

The divisors that are not constants, in the order in which they are used.  A division by zero ends the
process, so the divisions are defined when no divisor of the list is zero; what comes after a zero
does not matter.  The map of the rearranged vectors is made with the sorter that has no score, whose
divisors are constants and the steps at which the progress of a level is printed.
-/

namespace DiskANNEval.AiSAQ.DiskLayout

open AiSAQ.MergeShards List Option

/-- `aisaq_calc_max_inline_pq_vectors` -/
def inlineDivisors (maxNodeLen pqNbytes : ℕ) : List ℕ :=
  if sectorLen ≤ maxNodeLen then [pqNbytes]
  else [maxNodeLen, sectorLen / maxNodeLen * pqNbytes % 2 ^ 32]

/-- The number of inline codes is worked out: without the old id, and where that leaves codes out,
again with it. -/
def autoDivisors (o : Options) (maxNodeLen pqNbytes width : ℕ) : List ℕ :=
  inlineDivisors (maxNodeLen % 2 ^ 32) pqNbytes ++
    ((calcMaxInlinePqVectors (maxNodeLen % 2 ^ 32) pqNbytes width).map fun nInline =>
      if o.rearrange = true ∧ nInline < width then
        inlineDivisors ((maxNodeLen + 4) % 2 ^ 32) pqNbytes
      else []).getD []

/-- Up to the decision about the layout; the share of the inline codes is printed. -/
def decisionDivisors (o : Options) (maxNodeLen pqNbytes width : ℕ) : List ℕ :=
  (if o.inlinePq < 0 then autoDivisors o maxNodeLen pqNbytes width else []) ++
    if o.inlinePq = 0 then []
    else
      ((calcInline o maxNodeLen pqNbytes width).map fun p =>
        if p.2 = width then [] else [width]).getD []

/-- The wasted space that is printed. -/
def wasteDivisors (l : Layout) : List ℕ :=
  if sectorLen ≤ l.maxNodeLen then [sectorLen * divRoundUp l.maxNodeLen sectorLen]
  else [l.maxNodeLen, sectorLen]

/-- The rearranged vectors: the progress of each level of the walk, with `ncount` nodes in blocks of
1024, that of the plain file, the vectors of a page, and the progress of the aligned file. -/
def rearrangeDivisors (f : Files) (levels : List ℕ) : List ℕ :=
  (levels.map fun ncount => max 1 (divRoundUp ncount 1024 / 20)) ++
    [f.npts / 100, f.pqNbytes, max 1 (f.npts / 100)]

/-- The sectors of the nodes, and those of the reorder data. -/
def sectorDivisors (f : Files) (l : Layout) : List ℕ :=
  l.maxNodeLen :: (if 0 < l.nnodesPerSector then [l.nnodesPerSector] else []) ++
    (f.reorder.map fun r => [r.ndims * 4, r.nDataNodesPerSector]).getD []

/-- All of `create_disk_layout`; `levels` are the sizes of the levels of the walk over the graph. -/
def divisors (f : Files) (o : Options) (levels : List ℕ) : List ℕ :=
  decisionDivisors o f.plainNodeLen f.pqNbytes f.vamana.width ++
    ((decideLayout o f.plainNodeLen f.pqNbytes f.vamana.width).map fun l =>
      wasteDivisors l ++ (if l.rearrange = true then rearrangeDivisors f levels else []) ++
        sectorDivisors f l).getD []

/-- The files and the options are accepted: the checks of the files, and in a debug build the
assertions about `inline_pq`. -/
structure Accepts (f : Files) (o : Options) : Prop where
  npts_pos : 0 < f.npts
  checked : f.checked = true
  asserts : o.asserts = true → -1 ≤ o.inlinePq ∧ o.inlinePq ≤ f.vamana.width

/-- No division is by zero, whatever the walk over the graph is like. -/
def DivisionsDefined (f : Files) (o : Options) : Prop := ∀ levels, 0 ∉ divisors f o levels

/-! ### Where they are defined -/

/-- The divisions for the number of inline codes, for a record of this length. -/
def InlineDefined (maxNodeLen pqNbytes : ℕ) : Prop :=
  if sectorLen ≤ maxNodeLen then pqNbytes ≠ 0
  else maxNodeLen ≠ 0 ∧ sectorLen / maxNodeLen * pqNbytes % 2 ^ 32 ≠ 0

/-- The old id is to be in the records, and not all codes fit inline without it. -/
def TriesAgain (o : Options) (maxNodeLen pqNbytes width : ℕ) : Prop :=
  o.rearrange = true ∧ ∃ nInline < width,
    calcMaxInlinePqVectors (maxNodeLen % 2 ^ 32) pqNbytes width = some nInline

/-- The vectors are rearranged after all. -/
def Rearranges (f : Files) (o : Options) : Prop :=
  ∃ l, decideLayout o f.plainNodeLen f.pqNbytes f.vamana.width = some l ∧ l.rearrange = true

structure DivisorsOk (f : Files) (o : Options) : Prop where
  auto : o.inlinePq < 0 → InlineDefined (f.plainNodeLen % 2 ^ 32) f.pqNbytes
  again : o.inlinePq < 0 → TriesAgain o f.plainNodeLen f.pqNbytes f.vamana.width →
    InlineDefined ((f.plainNodeLen + 4) % 2 ^ 32) f.pqNbytes
  share : 0 < o.inlinePq → 0 < f.vamana.width
  rearranged : Rearranges f o → 100 ≤ f.npts ∧ 0 < f.pqNbytes
  reorder : ∀ r ∈ f.reorder, 0 < r.ndims ∧ r.ndims ≤ 1024

theorem inlineDefined_iff {maxNodeLen pqNbytes : ℕ} :
    InlineDefined maxNodeLen pqNbytes ↔ 0 ∉ inlineDivisors maxNodeLen pqNbytes := by
  unfold InlineDefined inlineDivisors
  split_ifs
  · simp [eq_comm]
  · simp [eq_comm]

theorem calcMaxInline_isSome (maxNodeLen pqNbytes width : ℕ) :
    (calcMaxInlinePqVectors maxNodeLen pqNbytes width).isSome = true ↔
      InlineDefined maxNodeLen pqNbytes := by
  unfold calcMaxInlinePqVectors InlineDefined
  split_ifs
  all_goals simp_all

theorem calcMaxInline_le {maxNodeLen pqNbytes width nInline : ℕ}
    (h : calcMaxInlinePqVectors maxNodeLen pqNbytes width = some nInline) : nInline ≤ width := by
  unfold calcMaxInlinePqVectors at h
  dsimp only at h
  split_ifs at h
  all_goals
    cases h
    exact min_le_left _ _

section Decision

variable {o : Options} {maxNodeLen pqNbytes width : ℕ}

theorem autoDivisors_iff : 0 ∉ autoDivisors o maxNodeLen pqNbytes width ↔
    InlineDefined (maxNodeLen % 2 ^ 32) pqNbytes ∧
      (TriesAgain o maxNodeLen pqNbytes width →
        InlineDefined ((maxNodeLen + 4) % 2 ^ 32) pqNbytes) := by
  rw [autoDivisors, mem_append, not_or, ← inlineDefined_iff]
  apply and_congr_right
  intro hdef
  obtain ⟨nInline, hn⟩ := isSome_iff_exists.1 ((calcMaxInline_isSome _ _ _).2 hdef)
  unfold TriesAgain
  rw [hn, map_some, getD_some]
  split_ifs with h
  · rw [← inlineDefined_iff]
    exact ⟨fun hdef' _ => hdef', fun hdef' => hdef' ⟨h.1, nInline, h.2, rfl⟩⟩
  · refine iff_of_true not_mem_nil ?_
    rintro ⟨hre, k, hlt, hk⟩
    cases hk
    exact absurd ⟨hre, hlt⟩ h

/-- What the decision needs. -/
structure Decides (o : Options) (maxNodeLen pqNbytes width : ℕ) : Prop where
  auto : o.inlinePq < 0 → InlineDefined (maxNodeLen % 2 ^ 32) pqNbytes
  again : o.inlinePq < 0 → TriesAgain o maxNodeLen pqNbytes width →
    InlineDefined ((maxNodeLen + 4) % 2 ^ 32) pqNbytes
  share : 0 < o.inlinePq → 0 < width

variable (hasserts : o.asserts = true → -1 ≤ o.inlinePq ∧ o.inlinePq ≤ width)

include hasserts

theorem calcInline_of_pos (maxNodeLen pqNbytes : ℕ) (hpos : 0 < o.inlinePq) :
    ∃ len, calcInline o maxNodeLen pqNbytes width = some (len, o.inlinePq.toNat) := by
  have hle : ¬ (o.asserts = true ∧ width < o.inlinePq.toNat) := by
    rintro ⟨ha, hlt⟩
    have := (hasserts ha).2
    omega
  unfold calcInline
  rw [if_neg hle]
  split_ifs
  · exact ⟨_, rfl⟩
  · exact ⟨_, rfl⟩

theorem calcInline_of_neg (hneg : o.inlinePq < 0) :
    (calcInline o maxNodeLen pqNbytes width).isSome = true ↔
      0 ∉ autoDivisors o maxNodeLen pqNbytes width := by
  have hasrt : ¬ (o.asserts = true ∧ o.inlinePq ≠ -1) := by
    rintro ⟨ha, hne⟩
    have := (hasserts ha).1
    omega
  rw [autoDivisors_iff]
  unfold calcInline
  rw [if_neg (by omega)]
  cases hn : calcMaxInlinePqVectors (maxNodeLen % 2 ^ 32) pqNbytes width with
  | none =>
    refine iff_of_false (by simp) fun h => ?_
    rw [← calcMaxInline_isSome _ _ width, hn] at h
    cases h.1
  | some nInline =>
    have hdef : InlineDefined (maxNodeLen % 2 ^ 32) pqNbytes := by
      rw [← calcMaxInline_isSome _ _ width, hn]
      rfl
    unfold TriesAgain
    rw [hn, bind_some]
    split_ifs with h
    · rw [isSome_map, calcMaxInline_isSome]
      exact ⟨fun h' => ⟨hdef, fun _ => h'⟩, fun h' => h'.2 ⟨h.1, nInline, h.2, rfl⟩⟩
    · refine iff_of_true rfl ⟨hdef, ?_⟩
      rintro ⟨hre, k, hlt, hk⟩
      cases hk
      exact absurd ⟨hre, hlt⟩ h

omit hasserts in
theorem inline_le_of_neg (hneg : o.inlinePq < 0) {p : ℕ × ℕ}
    (h : calcInline o maxNodeLen pqNbytes width = some p) : p.2 ≤ width := by
  unfold calcInline at h
  rw [if_neg (by omega)] at h
  split_ifs at h
  obtain ⟨nInline, hn, h⟩ := bind_eq_some_iff.1 h
  split_ifs at h
  · obtain ⟨k, hk, rfl⟩ := map_eq_some_iff.1 h
    exact calcMaxInline_le hk
  · cases h
    exact calcMaxInline_le hn

theorem decisionDivisors_iff :
    0 ∉ decisionDivisors o maxNodeLen pqNbytes width ↔ Decides o maxNodeLen pqNbytes width := by
  unfold decisionDivisors
  rw [mem_append, not_or]
  rcases lt_trichotomy o.inlinePq 0 with hneg | hzero | hpos
  · rw [if_pos hneg, if_neg (by omega)]
    constructor
    · rintro ⟨hauto, -⟩
      obtain ⟨h1, h2⟩ := autoDivisors_iff.1 hauto
      exact ⟨fun _ => h1, fun _ => h2, fun hpos => by omega⟩
    · intro h
      have hauto := autoDivisors_iff.2 ⟨h.auto hneg, h.again hneg⟩
      obtain ⟨p, hp⟩ := isSome_iff_exists.1 ((calcInline_of_neg hasserts hneg).2 hauto)
      have hle := inline_le_of_neg hneg hp
      refine ⟨hauto, ?_⟩
      rw [hp, map_some, getD_some]
      split_ifs with heq
      · exact not_mem_nil
      · rw [mem_singleton]
        omega
  · rw [if_neg (by omega), if_pos hzero]
    refine iff_of_true ⟨not_mem_nil, not_mem_nil⟩ ⟨?_, ?_, ?_⟩
    all_goals
      omega
  · obtain ⟨len, hlen⟩ := calcInline_of_pos hasserts maxNodeLen pqNbytes hpos
    rw [if_neg (by omega), if_neg (by omega), hlen, map_some, getD_some]
    constructor
    · rintro ⟨-, h⟩
      refine ⟨fun hneg => by omega, fun hneg => by omega, fun _ => ?_⟩
      split_ifs at h with heq
      · omega
      · rw [mem_singleton] at h
        omega
    · intro h
      have hwidth := h.share hpos
      refine ⟨not_mem_nil, ?_⟩
      split_ifs
      · exact not_mem_nil
      · rw [mem_singleton]
        omega

theorem decideLayout_isSome_iff :
    (decideLayout o maxNodeLen pqNbytes width).isSome = true ↔
      Decides o maxNodeLen pqNbytes width := by
  rcases lt_trichotomy o.inlinePq 0 with hneg | hzero | hpos
  · unfold decideLayout
    rw [if_neg (by omega)]
    constructor
    · intro h
      cases hp : calcInline o maxNodeLen pqNbytes width with
      | none =>
        rw [hp] at h
        cases h
      | some p =>
        have hauto := autoDivisors_iff.1 ((calcInline_of_neg hasserts hneg).1 (by rw [hp]; rfl))
        exact ⟨fun _ => hauto.1, fun _ => hauto.2, fun h => by omega⟩
    · intro h
      have hauto := autoDivisors_iff.2 ⟨h.auto hneg, h.again hneg⟩
      obtain ⟨p, hp⟩ := isSome_iff_exists.1 ((calcInline_of_neg hasserts hneg).2 hauto)
      have hle := inline_le_of_neg hneg hp
      rw [hp, bind_some]
      dsimp only
      split_ifs
      · rfl
      · omega
      · rfl
  · unfold decideLayout
    rw [if_pos hzero]
    exact iff_of_true rfl ⟨fun h => by omega, fun h => by omega, fun h => by omega⟩
  · obtain ⟨len, hlen⟩ := calcInline_of_pos hasserts maxNodeLen pqNbytes hpos
    unfold decideLayout
    rw [if_neg (by omega), hlen, bind_some]
    dsimp only
    constructor
    · intro h
      refine ⟨fun hneg => by omega, fun hneg => by omega, fun _ => ?_⟩
      by_contra hwidth
      rw [if_neg (by omega), if_pos (by omega)] at h
      cases h
    · intro h
      have hwidth := h.share hpos
      split_ifs
      · rfl
      · omega
      · rfl

omit hasserts in
theorem le_calcInline {p : ℕ × ℕ} (h : calcInline o maxNodeLen pqNbytes width = some p) :
    maxNodeLen ≤ p.1 := by
  unfold calcInline at h
  dsimp only at h
  split_ifs at h
  · cases h
    exact Nat.le_add_right _ _
  · cases h
    exact le_rfl
  · obtain ⟨nInline, -, h⟩ := bind_eq_some_iff.1 h
    split_ifs at h
    · obtain ⟨k, -, rfl⟩ := map_eq_some_iff.1 h
      exact Nat.le_add_right _ _
    · cases h
      exact le_rfl

omit hasserts in
theorem le_maxNodeLen {l : Layout} (h : decideLayout o maxNodeLen pqNbytes width = some l) :
    maxNodeLen ≤ l.maxNodeLen := by
  unfold decideLayout at h
  by_cases hzero : o.inlinePq = 0
  · rw [if_pos hzero] at h
    cases h
    split_ifs
    · exact Nat.le_add_right _ _
    · exact le_rfl
  · rw [if_neg hzero] at h
    obtain ⟨p, hp, h⟩ := bind_eq_some_iff.1 h
    have hle := le_calcInline hp
    dsimp only at h
    split_ifs at h
    all_goals
      cases h
      exact hle.trans (Nat.le_add_right _ _)

end Decision

/-! ### The rest of the divisors -/

variable {f : Files} {o : Options} {l : Layout}

theorem wasteDivisors_pos (hl : 0 < l.maxNodeLen) : 0 ∉ wasteDivisors l := by
  unfold wasteDivisors
  split_ifs with h
  · have hdiv : 0 < divRoundUp l.maxNodeLen sectorLen :=
      Nat.add_pos_left (Nat.div_pos h (by decide)) _
    rw [mem_singleton]
    exact (Nat.mul_pos (by decide) hdiv).ne
  · simp [hl.ne, sectorLen]

theorem rearrangeDivisors_iff {levels : List ℕ} :
    0 ∉ rearrangeDivisors f levels ↔ 100 ≤ f.npts ∧ 0 < f.pqNbytes := by
  have hlevels : 0 ∉ levels.map fun ncount => max 1 (divRoundUp ncount 1024 / 20) := by
    rw [List.mem_map]
    omega
  unfold rearrangeDivisors
  rw [mem_append, not_or]
  simp only [hlevels, not_false_eq_true, true_and, mem_cons, not_mem_nil, or_false]
  omega

theorem sectorDivisors_iff (hl : 0 < l.maxNodeLen) :
    0 ∉ sectorDivisors f l ↔ ∀ r ∈ f.reorder, 0 < r.ndims ∧ r.ndims ≤ 1024 := by
  have hnodes : 0 ∉ if 0 < l.nnodesPerSector then [l.nnodesPerSector] else [] := by
    split_ifs with h
    · rw [mem_singleton]
      exact h.ne
    · exact not_mem_nil
  unfold sectorDivisors
  rw [mem_append, mem_cons, not_or, not_or]
  simp only [hl.ne, hnodes, not_false_eq_true, true_and]
  cases f.reorder with
  | none => simp
  | some r =>
    simp only [map_some, getD_some, mem_cons, not_mem_nil, or_false, not_or,
      mem_def, Option.some.injEq, forall_eq']
    rw [ReorderFile.nDataNodesPerSector, sectorLen]
    constructor
    · rintro ⟨h1, h2⟩
      by_contra hlt
      exact h2 (Nat.div_eq_of_lt (by omega)).symm
    · rintro ⟨h1, h2⟩
      exact ⟨by omega, (Nat.div_pos (by omega) (by omega)).ne⟩

/-- All divisions are defined exactly where the conditions hold. -/
theorem divisionsDefined_iff (h : Accepts f o) : DivisionsDefined f o ↔ DivisorsOk f o := by
  have hdiv : ∀ levels, 0 ∉ divisors f o levels ↔
      Decides o f.plainNodeLen f.pqNbytes f.vamana.width ∧
      (Rearranges f o → 100 ≤ f.npts ∧ 0 < f.pqNbytes) ∧
      ∀ r ∈ f.reorder, 0 < r.ndims ∧ r.ndims ≤ 1024 := by
    intro levels
    rw [divisors, List.mem_append, not_or, decisionDivisors_iff h.asserts]
    apply and_congr_right
    intro hdec
    obtain ⟨l, hl⟩ := Option.isSome_iff_exists.1 ((decideLayout_isSome_iff h.asserts).2 hdec)
    have hpos : 0 < l.maxNodeLen :=
      lt_of_lt_of_le (Nat.add_pos_left (Nat.mul_pos (Nat.succ_pos _) (by decide)) _)
        (le_maxNodeLen hl)
    have hre : Rearranges f o ↔ l.rearrange = true := by
      rw [Rearranges, hl]
      exact ⟨fun ⟨_, h, h'⟩ => Option.some.inj h ▸ h', fun h => ⟨l, rfl, h⟩⟩
    rw [hl, Option.map_some, Option.getD_some, List.mem_append, List.mem_append, not_or, not_or, hre,
      sectorDivisors_iff hpos]
    simp only [wasteDivisors_pos hpos, not_false_eq_true, true_and]
    split_ifs with hr
    · rw [rearrangeDivisors_iff]
      simp only [hr, true_implies]
    · simp [hr]
  constructor
  · intro hdef
    obtain ⟨hdec, hre, hreorder⟩ := (hdiv []).1 (hdef [])
    exact ⟨hdec.auto, hdec.again, hdec.share, hre, hreorder⟩
  · intro hok levels
    exact (hdiv levels).2 ⟨⟨hok.auto, hok.again, hok.share⟩, hok.rearranged, hok.reorder⟩

/-! ### A small data set -/

/-- Two points with one neighbour each, and codes of one byte. -/
def smallFiles : Files where
  npts := 2
  ndims := 1
  sizeofT := 4
  base := List.replicate 8 0
  vamana := ⟨vamanaMetadataSize + 16, 2, 0, 0, [1, 1, 1, 0]⟩
  pqNpts := 2
  pqNbytes := 1
  pqCompressed := [3, 5]
  reorder := none

/-- Rearranged vectors and no inline codes. -/
def rearranging : Options := ⟨0, true, true⟩

theorem accepts_smallFiles : Accepts smallFiles rearranging := by
  refine ⟨Nat.two_pos, ?_, fun _ => ⟨?_, ?_⟩⟩
  all_goals decide

/-- Fewer than a hundred points: the step of the progress is zero. -/
theorem small_not_defined :
    Accepts smallFiles rearranging ∧ ¬ DivisionsDefined smallFiles rearranging := by
  refine ⟨accepts_smallFiles, fun h => h [] ?_⟩
  decide

theorem divisionsDefined_iff_smallFiles :
    DivisionsDefined smallFiles ⟨0, false, true⟩ ↔ DivisorsOk smallFiles ⟨0, false, true⟩ := by
  apply divisionsDefined_iff
  refine ⟨Nat.two_pos, ?_, fun _ => ⟨?_, ?_⟩⟩
  all_goals decide

end DiskANNEval.AiSAQ.DiskLayout
