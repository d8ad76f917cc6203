import DiskANNEval.Lib.While
import Mathlib

/-!
# PageBudget — how many nodes and neighbours a page has

`get_optimal_page_degree_nnodes_per_page` looks for the least page degree at which the nodes of a page
have enough neighbours on average, and then for the greatest degree with that number of nodes.  Where
the neighbours have room in a sector, so have the nodes, also when the last of them is copied with the
aligned width.

With an exact cache ratio `rightOptimum_iff` says when the result is the best one: the first loop stops
at the least degree that is enough, and a neighbour can take the room of more than one node.
-/

namespace DiskANNEval.PageANN

open Lib Option Nat

def sectorLen : ℕ := 4096

/-- The arguments of `get_optimal_page_degree_nnodes_per_page`.  `share` is `degree * sampleRatio` as a
`size_t`, for a ratio up to 1, and `avgBelow` the test
`static_cast<float>(pageDegree) / nnodes_per_page < static_cast<float>(min_degree_per_node)`. -/
structure PageBudget where
  dimension : ℕ
  dimension_pos : 0 < dimension
  typeByte : ℕ
  type_eq : typeByte = 1 ∨ typeByte = 4
  pqSize : ℕ
  share : ℕ → ℕ
  share_le : ∀ d, share d ≤ d
  minDegree : ℕ
  avgBelow : ℕ → ℕ → Bool
  avg_ge : 0 < minDegree → ∀ d n, n ≤ sectorLen → avgBelow d n = false → n ≤ d

namespace PageBudget

variable (b : PageBudget)

/-- `each_node_sapce` -/
def nodeLen : ℕ := b.dimension * b.typeByte

/-- The bytes of the counts and of the neighbours. -/
def overhead (pageDegree : ℕ) : ℕ :=
  2 + 2 + (4 + b.pqSize) * (pageDegree - b.share pageDegree) + 4 * b.share pageDegree

/-- `remainingBytes` is a `size_t`. -/
def getNnodesPerPage (pageDegree : ℕ) : ℕ :=
  (2 ^ 64 + sectorLen - b.overhead pageDegree % 2 ^ 64) % 2 ^ 64 / b.nodeLen

/-- The state of the first loop; `below` is its test, and `failed` the early return. -/
structure FirstLoop where
  pageDegree : ℕ
  nnodes : ℕ
  below : Bool
  failed : Bool

def firstPass (x : FirstLoop) : FirstLoop :=
  let n := b.getNnodesPerPage x.pageDegree
  if n = 0 then { x with nnodes := n, failed := true }
  else ⟨x.pageDegree + 1, n, b.avgBelow x.pageDegree n, false⟩

def getOptimal (fuel : ℕ) : Option (ℕ × ℕ) :=
  (whileM (fun x : FirstLoop => x.below && !x.failed) (fun x => some (b.firstPass x)) fuel
    ⟨b.minDegree, 0, 0 < b.minDegree, false⟩).bind fun x =>
  if x.failed then some (0, 0)
  else
    (whileM (fun d => b.getNnodesPerPage d == x.nnodes) (fun d => some (d + 1)) fuel
      x.pageDegree).map fun d => (if d = 0 then 2 ^ 64 - 1 else d - 1, x.nnodes)

/-! ### The result -/

/-- Between two passes of the first loop, `nnodes` belongs to the degree before. -/
structure Tried (x : FirstLoop) : Prop where
  pos : 0 < x.pageDegree
  minDegree_pos : 0 < b.minDegree
  nnodes : b.getNnodesPerPage (x.pageDegree - 1) = x.nnodes
  below : x.below = b.avgBelow (x.pageDegree - 1) x.nnodes

variable {b}

variable (b) in
/-- Kept by the first loop. -/
def InFirstLoop (x : FirstLoop) : Prop :=
  x.failed = false → (0 < b.minDegree ∨ x.below = false) ∧ (x.nnodes = 0 ∨ b.Tried x)

theorem InFirstLoop.firstPass {x : FirstLoop} (h : b.InFirstLoop x)
    (hc : (x.below && !x.failed) = true) : b.InFirstLoop (b.firstPass x) := by
  rw [Bool.and_eq_true, Bool.not_eq_true'] at hc
  have hmin : 0 < b.minDegree := by
    obtain ⟨hmin | hbelow, -⟩ := h hc.2
    · exact hmin
    · rw [hc.1] at hbelow
      cases hbelow
  intro hfailed
  refine ⟨Or.inl hmin, Or.inr ?_⟩
  unfold PageBudget.firstPass at hfailed ⊢
  dsimp only at hfailed ⊢
  split_ifs at hfailed ⊢ with hn
  exact ⟨succ_pos _, hmin, rfl, rfl⟩

variable {fuel D n : ℕ}

theorem firstLoop_spec {x : FirstLoop}
    (h : whileM (fun x : FirstLoop => x.below && !x.failed) (fun x => some (b.firstPass x)) fuel ⟨b.minDegree, 0, 0 < b.minDegree, false⟩ = some x)
    (hfailed : x.failed = false) (hpos : 0 < x.nnodes) : b.Tried x ∧ x.below = false := by
  have hstart : b.InFirstLoop ⟨b.minDegree, 0, 0 < b.minDegree, false⟩ := by
    refine fun _ => ⟨?_, Or.inl rfl⟩
    show 0 < b.minDegree ∨ decide (0 < b.minDegree) = false
    rcases Nat.eq_zero_or_pos b.minDegree with hz | hp
    · rw [hz]
      exact Or.inr rfl
    · exact Or.inl hp
  obtain ⟨hx, hdone⟩ := whileM_keeps (fun x hx hc x' hx' => by
    cases hx'
    exact InFirstLoop.firstPass hx hc) hstart h
  rw [hfailed, Bool.not_false, Bool.and_true] at hdone
  obtain ⟨-, hzero | htried⟩ := hx hfailed
  · omega
  · exact ⟨htried, hdone⟩

theorem getOptimal_spec (h : b.getOptimal fuel = some (D, n)) (hn : 0 < n) :
    b.getNnodesPerPage D = n ∧ 0 < b.minDegree ∧ ∃ d ≤ D, b.avgBelow d n = false := by
  obtain ⟨x, hx, h⟩ := bind_eq_some_iff.1 h
  split_ifs at h with hfailed
  · have hzero := congrArg Prod.snd (Option.some.inj h)
    exact absurd hzero hn.ne
  · obtain ⟨d, hd, heq⟩ := map_eq_some_iff.1 h
    obtain ⟨hD, rfl⟩ := Prod.mk.inj heq
    obtain ⟨htried, hbelow⟩ := firstLoop_spec hx (by simpa using hfailed) hn
    obtain ⟨⟨hle, hnn⟩, -⟩ := whileM_keeps
      (P := fun d => x.pageDegree ≤ d ∧ b.getNnodesPerPage (d - 1) = x.nnodes)
      (fun d hd hc d' hd' => by
        cases hd'
        exact ⟨le_succ_of_le hd.1, eq_of_beq hc⟩) ⟨le_rfl, htried.nnodes⟩ hd
    have hpos := htried.pos
    rw [if_neg (by omega)] at hD
    rw [← hD]
    refine ⟨hnn, htried.minDegree_pos, x.pageDegree - 1, by omega, ?_⟩
    rw [← htried.below, hbelow]

theorem getNnodesPerPage_eq {d : ℕ} (h : b.overhead d ≤ sectorLen) :
    b.getNnodesPerPage d = (sectorLen - b.overhead d) / b.nodeLen := by
  have hlen : sectorLen < 2 ^ 64 := by norm_num [sectorLen]
  unfold getNnodesPerPage
  rw [mod_eq_of_lt (by omega : b.overhead d < 2 ^ 64), Nat.add_sub_assoc h, add_mod_left,
    mod_eq_of_lt (by omega)]

theorem le_overhead (d : ℕ) : 4 + 4 * d ≤ b.overhead d := by
  have hmul : 4 * (d - b.share d) ≤ (4 + b.pqSize) * (d - b.share d) :=
    mul_le_mul_right _ (le_add_right _ _)
  unfold overhead
  omega

theorem nodeLen_pos : 0 < b.nodeLen := by
  apply mul_pos b.dimension_pos
  rcases b.type_eq with h | h
  · rw [h]; exact one_pos
  · rw [h]; exact succ_pos 3

/-- Nodes and neighbours have room in a sector, and there are as many neighbours as nodes. -/
structure Fits (b : PageBudget) (D n : ℕ) : Prop where
  room : n * b.nodeLen + b.overhead D ≤ sectorLen
  pos : 0 < n
  le : n ≤ D

theorem fits_of_getOptimal (h : b.getOptimal fuel = some (D, n)) (hn : 0 < n)
    (hD : b.overhead D ≤ sectorLen) : b.Fits D n := by
  obtain ⟨hnn, hmin, d, hd, hbelow⟩ := getOptimal_spec h hn
  rw [getNnodesPerPage_eq hD] at hnn
  have hroom : n * b.nodeLen ≤ sectorLen - b.overhead D := by
    rw [← hnn]
    exact div_mul_le_self _ _
  have hle : n ≤ sectorLen := by
    have hmul := Nat.le_mul_of_pos_right n (nodeLen_pos (b := b))
    omega
  exact ⟨by omega, hn, (b.avg_ge hmin d n hle hbelow).trans hd⟩

/-- `get_aligned_dim()` -/
def alignedDim (b : PageBudget) : ℕ := (b.dimension + 7) / 8 * 8

theorem Fits.aligned (h : b.Fits D n) :
    (n - 1) * b.nodeLen + b.alignedDim * b.typeByte ≤ sectorLen := by
  have hroom := h.room
  have hover := le_overhead (b := b) D
  have hpos := h.pos
  have hle := h.le
  have hsub : (n - 1) * b.nodeLen + b.nodeLen = n * b.nodeLen := by
    rw [← succ_mul, succ_eq_add_one, Nat.sub_add_cancel hpos]
  have halign : b.alignedDim = (b.dimension + 7) / 8 * 8 := rfl
  have hsector : sectorLen = 4096 := rfl
  rcases b.type_eq with htype | htype
  · have hlen : b.nodeLen = b.dimension := by rw [nodeLen, htype, Nat.mul_one]
    rw [htype]
    omega
  · have hlen : b.nodeLen = 4 * b.dimension := by rw [nodeLen, htype, mul_comm]
    rw [htype]
    by_cases hD : 6 ≤ D
    · have hmul : n * b.nodeLen = 4 * (n * b.dimension) := by rw [hlen]; ring
      omega
    · -- few nodes, so that the padding is less than what the neighbours leave
      have hn : n ≤ 5 := by omega
      interval_cases n <;> omega

/-! ### Subtractions -/

variable (b) in
/-- A pass whose subtraction does not wrap around. -/
def firstPassChecked (x : FirstLoop) : Option FirstLoop :=
  if b.overhead x.pageDegree ≤ sectorLen then some (b.firstPass x) else none

variable (b) in
/-- `get_optimal_page_degree_nnodes_per_page`; `none` also where a subtraction wraps around. -/
def getOptimalChecked (fuel : ℕ) : Option (ℕ × ℕ) :=
  (whileM (fun x : FirstLoop => x.below && !x.failed) b.firstPassChecked fuel
    ⟨b.minDegree, 0, 0 < b.minDegree, false⟩).bind fun x =>
  if x.failed then some (0, 0)
  else if b.overhead x.pageDegree ≤ sectorLen then
    (whileM (fun d => b.getNnodesPerPage d == x.nnodes)
      (fun d => if b.overhead (d + 1) ≤ sectorLen then some (d + 1) else none) fuel x.pageDegree).map
        fun d => (if d = 0 then 2 ^ 64 - 1 else d - 1, x.nnodes)
  else none

theorem getOptimal_of_checked {r : ℕ × ℕ} (h : b.getOptimalChecked fuel = some r) :
    b.getOptimal fuel = some r := by
  obtain ⟨x, hx, h⟩ := bind_eq_some_iff.1 h
  have hfirst : ∀ s s', b.firstPassChecked s = some s' → some (b.firstPass s) = some s' := by
    intro s s' hs
    unfold firstPassChecked at hs
    split_ifs at hs
    exact hs
  refine bind_eq_some_iff.2 ⟨x, whileM_le hfirst le_rfl hx, ?_⟩
  split_ifs at h ⊢ with hfailed hroom
  · exact h
  · obtain ⟨d, hd, hr⟩ := map_eq_some_iff.1 h
    refine map_eq_some_iff.2 ⟨d, whileM_le (fun d d' hd' => ?_) le_rfl hd, hr⟩
    split_ifs at hd'
    exact hd'

end PageBudget

/-! ### Exact arithmetic -/

/-- The arguments with an exact cache ratio. -/
structure ExactBudget where
  dimension : ℕ
  dimension_pos : 0 < dimension
  typeByte : ℕ
  type_eq : typeByte = 1 ∨ typeByte = 4
  pqSize : ℕ
  ratio : ℚ
  ratio_nonneg : 0 ≤ ratio
  ratio_le : ratio ≤ 1
  minDegree : ℕ
  minDegree_pos : 0 < minDegree

namespace ExactBudget

variable (x : ExactBudget)

/-- `minNumCachedNbrs` -/
def numCached (pageDegree : ℕ) : ℕ := ⌊pageDegree * x.ratio⌋₊

/-- `avgDegree < min_degree_per_node` -/
def avgBelow (pageDegree nnodes : ℕ) : Bool := decide ((pageDegree : ℚ) / nnodes < x.minDegree)

theorem numCached_le (d : ℕ) : x.numCached d ≤ d := by
  refine floor_le_of_le ?_
  exact mul_le_of_le_one_right (cast_nonneg d) x.ratio_le

variable {x}

variable {d e : ℕ}

theorem avgBelow_iff {n : ℕ} (hn : 0 < n) : x.avgBelow d n = true ↔ d / x.minDegree < n := by
  have hn' : (0 : ℚ) < n := cast_pos.2 hn
  rw [avgBelow, decide_eq_true_eq, div_lt_iff₀ hn', div_lt_iff_lt_mul x.minDegree_pos,
    mul_comm]
  exact_mod_cast Iff.rfl

variable (x)

theorem le_of_not_avgBelow (_ : 0 < x.minDegree) (d n : ℕ) (_ : n ≤ sectorLen)
    (hbelow : x.avgBelow d n = false) : n ≤ d := by
  rcases Nat.eq_zero_or_pos n with rfl | hn
  · exact zero_le d
  · refine le_trans ?_ (div_le_self d x.minDegree)
    rw [← not_lt, ← avgBelow_iff hn, hbelow]
    exact Bool.false_ne_true

def budget : PageBudget where
  dimension := x.dimension
  dimension_pos := x.dimension_pos
  typeByte := x.typeByte
  type_eq := x.type_eq
  pqSize := x.pqSize
  share := x.numCached
  share_le := x.numCached_le
  minDegree := x.minDegree
  avgBelow := x.avgBelow
  avg_ge := x.le_of_not_avgBelow

/-- `available_bytes` of `build_page_graph` -/
def availableBytes : ℚ := sectorLen - x.dimension * x.typeByte - 2 * 2

def avgSizePerNeighbor : ℚ := x.ratio * 4 + (1 - x.ratio) * (4 + x.pqSize)

/-- The check of `build_page_graph` before the call. -/
def Accepted : Prop := (x.minDegree : ℤ) ≤ ⌊x.availableBytes / x.avgSizePerNeighbor⌋

/-- The neighbours have room in a sector. -/
def HasRoom (d : ℕ) : Prop := x.budget.overhead d ≤ sectorLen

instance (d : ℕ) : Decidable (x.HasRoom d) := inferInstanceAs (Decidable (_ ≤ _))

/-- How many vectors have room with `d` neighbours. -/
def count (d : ℕ) : ℕ := (sectorLen - x.budget.overhead d) / x.budget.nodeLen

/-- `n` vectors and `d` neighbours have room in a sector. -/
def RoomFor (d n : ℕ) : Prop := n * x.budget.nodeLen + x.budget.overhead d ≤ sectorLen

/-- The pair meets the constraint, and no other one is better. -/
structure Optimal (d n : ℕ) : Prop where
  pos : 1 ≤ n
  room : x.RoomFor d n
  degree : x.minDegree * n ≤ d
  maxDegree : ¬ x.RoomFor (d + 1) n
  maxNodes : ∀ n' > n, ∀ d', x.minDegree * n' ≤ d' → ¬ x.RoomFor d' n'

/-- The function ends, no subtraction wraps around, and the result is `(0, 0)` or the best one. -/
def RightOptimum : Prop :=
  ∃ fuel r, x.budget.getOptimalChecked fuel = some r ∧ x.budget.getOptimal fuel = some r ∧
    (r = (0, 0) ∨ x.Optimal r.1 r.2)

/-- The least degree has room; no neighbour more takes the room of the vectors from more than are
allowed to fewer, but some; and at the greatest degree that has room there is none for a vector, or
fewer have room than at a degree that is enough. -/
structure NoJump : Prop where
  first : x.HasRoom x.minDegree
  noGap : ∀ d, x.minDegree ≤ d → d / x.minDegree < x.count d →
    x.count (d + 1) = 0 ∨ d / x.minDegree ≤ x.count (d + 1)
  noWrap : ∀ d, x.minDegree ≤ d → x.HasRoom d → ¬ x.HasRoom (d + 1) → 0 < x.count d →
    ∃ e, x.minDegree ≤ e ∧ e ≤ d ∧ x.count d < x.count e ∧ x.count e ≤ e / x.minDegree

variable {x}

/-! ### More neighbours -/

theorem overhead_eq (d : ℕ) :
    x.budget.overhead d = 4 + 4 * d + x.pqSize * (d - x.numCached d) := by
  have hle := x.numCached_le d
  show 2 + 2 + (4 + x.pqSize) * (d - x.numCached d) + 4 * x.numCached d = _
  rw [add_mul]
  omega

theorem numCached_succ_le (d : ℕ) : x.numCached (d + 1) ≤ x.numCached d + 1 := by
  have hlt := lt_floor_add_one ((d : ℚ) * x.ratio)
  have hratio := x.ratio_le
  refine Nat.lt_succ_iff.1 ((floor_lt' (succ_ne_zero _)).2 ?_)
  rw [numCached]
  push_cast
  linarith

theorem overhead_mono : Monotone x.budget.overhead := by
  refine monotone_nat_of_le_succ fun d => ?_
  rw [overhead_eq, overhead_eq]
  have hsucc := numCached_succ_le (x := x) d
  have hmul : x.pqSize * (d - x.numCached d) ≤ x.pqSize * (d + 1 - x.numCached (d + 1)) :=
    mul_le_mul_left _ (by omega)
  omega

theorem count_anti : Antitone x.count := fun _ _ h =>
  Nat.div_le_div_right (Nat.sub_le_sub_left (overhead_mono h) sectorLen)

theorem HasRoom.mono (h : x.HasRoom e) (hle : d ≤ e) : x.HasRoom d :=
  (overhead_mono hle).trans h

theorem HasRoom.count (h : x.HasRoom d) : x.budget.getNnodesPerPage d = x.count d :=
  PageBudget.getNnodesPerPage_eq h

theorem roomFor_iff {n : ℕ} (hn : 0 < n) : x.RoomFor d n ↔ n ≤ x.count d := by
  have hpos := PageBudget.nodeLen_pos (b := x.budget)
  have hmul := Nat.mul_pos hn hpos
  rw [RoomFor, ExactBudget.count, le_div_iff_mul_le hpos]
  omega

/-! ### The degree found -/

variable (x) in
/-- The least degree that is enough for the vectors that have room. -/
structure FoundDegree (d : ℕ) : Prop where
  le : x.minDegree ≤ d
  before : ∀ e, x.minDegree ≤ e → e < d → e / x.minDegree < x.count e
  stop : x.count d ≤ d / x.minDegree

theorem FoundDegree.le_of_stop (h : x.FoundDegree d) (he : x.minDegree ≤ e)
    (hstop : x.count e ≤ e / x.minDegree) : d ≤ e := by
  by_contra hlt
  exact absurd (h.before e he (not_le.1 hlt)) (not_lt.2 hstop)

theorem FoundDegree.stop_of_le (h : x.FoundDegree d) (hle : d ≤ e) : x.count e ≤ e / x.minDegree :=
  (count_anti hle).trans (h.stop.trans (Nat.div_le_div_right hle))

variable (x) in
/-- Kept by the first loop. -/
structure InFirst (s : PageBudget.FirstLoop) : Prop where
  le : x.minDegree ≤ s.pageDegree
  room : ∀ e, x.minDegree ≤ e → e < s.pageDegree → x.HasRoom e
  searching : s.below = true → s.failed = false →
    ∀ e, x.minDegree ≤ e → e < s.pageDegree → e / x.minDegree < x.count e
  failed : s.failed = true →
    x.FoundDegree s.pageDegree ∧ x.HasRoom s.pageDegree ∧ x.count s.pageDegree = 0
  found : s.below = false → s.failed = false → ∃ d, s.pageDegree = d + 1 ∧ x.FoundDegree d ∧
    s.nnodes = x.count d ∧ 0 < x.count d

theorem inFirst_start : x.InFirst ⟨x.minDegree, 0, decide (0 < x.minDegree), false⟩ where
  le := le_rfl
  room _ he hlt := absurd he (not_le.2 hlt)
  searching _ _ _ he hlt := absurd he (not_le.2 hlt)
  failed h := absurd h Bool.false_ne_true
  found h _ := absurd x.minDegree_pos (of_decide_eq_false h)

theorem InFirst.firstPass {s : PageBudget.FirstLoop} (h : x.InFirst s)
    (hc : (s.below && !s.failed) = true) (hroom : x.HasRoom s.pageDegree) :
    x.InFirst (x.budget.firstPass s) := by
  rw [Bool.and_eq_true, Bool.not_eq_true'] at hc
  have hbefore := h.searching hc.1 hc.2
  unfold PageBudget.firstPass
  rw [hroom.count]
  dsimp only
  split_ifs with hzero
  · exact ⟨h.le, h.room, fun _ hf => (nomatch hf),
      fun _ => ⟨⟨h.le, hbefore, hzero ▸ zero_le _⟩, hroom, hzero⟩, fun _ hf => (nomatch hf)⟩
  · have hpos := pos_of_ne_zero hzero
    refine ⟨le_succ_of_le h.le, fun e he hlt => ?_, fun hbelow _ e he hlt => ?_,
      fun hf => (nomatch hf), fun hbelow _ => ⟨s.pageDegree, rfl, ⟨h.le, hbefore, ?_⟩, rfl, hpos⟩⟩
    · exact hroom.mono (Nat.lt_succ_iff.1 hlt)
    · rcases Nat.lt_succ_iff_lt_or_eq.1 hlt with hlt | rfl
      · exact hbefore e he hlt
      · exact (avgBelow_iff hpos).1 hbelow
    · rw [← not_lt, ← avgBelow_iff hpos, show x.avgBelow s.pageDegree _ = false from hbelow]
      exact Bool.false_ne_true

variable (x) in
/-- What the function has found: the first degree has no room for a vector, or the number of vectors
is the one for the greatest degree with that number. -/
def FoundResult (r : ℕ × ℕ) : Prop :=
  ∃ d₀, x.FoundDegree d₀ ∧ x.HasRoom d₀ ∧
    (x.count d₀ = 0 ∧ r = (0, 0) ∨
      0 < x.count d₀ ∧ r.2 = x.count d₀ ∧ d₀ ≤ r.1 ∧ x.count r.1 = x.count d₀ ∧
        x.HasRoom (r.1 + 1) ∧ x.count (r.1 + 1) < x.count d₀)

theorem foundResult_of_checked {fuel : ℕ} {r : ℕ × ℕ}
    (h : x.budget.getOptimalChecked fuel = some r) : x.FoundResult r := by
  obtain ⟨s, hs, h⟩ := Option.bind_eq_some_iff.1 h
  obtain ⟨hin, hdone⟩ := whileM_keeps (fun s hs hc s' hs' => by
    unfold PageBudget.firstPassChecked at hs'
    split_ifs at hs' with hroom
    cases hs'
    exact hs.firstPass hc hroom) inFirst_start hs
  split_ifs at h with hfailed hroom
  · cases h
    obtain ⟨hfound, hroom, hzero⟩ := hin.failed hfailed
    exact ⟨_, hfound, hroom, .inl ⟨hzero, rfl⟩⟩
  rw [Bool.not_eq_true] at hfailed
  rw [hfailed, Bool.not_false, Bool.and_true] at hdone
  obtain ⟨d₀, hd₀, hfound, hn, hpos⟩ := hin.found hdone hfailed
  obtain ⟨d, hd, hr⟩ := map_eq_some_iff.1 h
  -- between two passes the degree before has the number of vectors
  obtain ⟨⟨hle, hcount, hroom'⟩, hstop⟩ := whileM_keeps
    (P := fun d => d₀ + 1 ≤ d ∧ x.count (d - 1) = x.count d₀ ∧ x.HasRoom d)
    (fun d hd hc d' hd' => by
      split_ifs at hd' with hroom'
      cases hd'
      refine ⟨le_succ_of_le hd.1, ?_, hroom'⟩
      rw [Nat.add_sub_cancel, ← hn, ← hd.2.2.count]
      exact eq_of_beq hc) ⟨hd₀.ge, by rw [hd₀]; rfl, hroom⟩ hd
  rw [hroom'.count, beq_eq_false_iff_ne] at hstop
  rw [if_neg (by omega)] at hr
  subst hr
  have hsucc : d - 1 + 1 = d := by omega
  have hanti := count_anti (x := x) (sub_le d 1)
  refine ⟨d₀, hfound, HasRoom.mono (x := x) hroom (hd₀ ▸ le_succ d₀), .inr ⟨hpos, hn, by omega, hcount, ?_⟩⟩
  rw [hsucc]
  exact ⟨hroom', by omega⟩

/-! ### The result is the best one -/

theorem FoundDegree.noGap {d₀ : ℕ} (h : x.FoundDegree d₀)
    (hmax : ∀ n' > x.count d₀, ∀ d', x.minDegree * n' ≤ d' → ¬ x.RoomFor d' n')
    (hd : x.minDegree ≤ d) (hlt : d / x.minDegree < x.count d) (hpos : 0 < x.count (d + 1)) :
    d / x.minDegree ≤ x.count (d + 1) := by
  by_contra hgap
  have hstop : x.count (d + 1) ≤ (d + 1) / x.minDegree :=
    (not_le.1 hgap).le.trans (Nat.div_le_div_right (le_succ d))
  have heq : d₀ = d + 1 := by
    refine le_antisymm (h.le_of_stop (le_succ_of_le hd) hstop) ?_
    by_contra hlt'
    exact absurd (h.stop_of_le (Nat.lt_succ_iff.1 (not_le.1 hlt'))) (not_le.2 hlt)
  rw [heq] at hmax
  refine hmax _ (not_le.1 hgap) d (mul_div_le d x.minDegree) ?_
  exact (roomFor_iff (hpos.trans (not_le.1 hgap))).2 hlt.le

theorem FoundResult.noJump {r : ℕ × ℕ} (h : x.FoundResult r) (hr : r = (0, 0) ∨ x.Optimal r.1 r.2) :
    x.NoJump := by
  obtain ⟨d₀, hfound, hroom, h⟩ := h
  refine ⟨hroom.mono hfound.le, fun d hd hlt => ?_, fun d hd hroomd hwrap hpos => ?_⟩
  · rcases Nat.eq_zero_or_pos (x.count (d + 1)) with hzero | hpos
    · exact .inl hzero
    refine .inr ?_
    rcases h with ⟨hzero, -⟩ | ⟨hpos₀, hn, -⟩
    · -- where the first degree has no room for a vector, the next one has none
      by_contra hgap
      have hle : d₀ ≤ d + 1 := hfound.le_of_stop (le_succ_of_le hd)
        ((not_le.1 hgap).le.trans (Nat.div_le_div_right (le_succ d)))
      have hanti := count_anti (x := x) hle
      omega
    · rcases hr with hr | hr
      · rw [hr] at hn
        omega
      · exact hfound.noGap (hn ▸ hr.maxNodes) hd hlt hpos
  · rcases h with ⟨hzero, -⟩ | ⟨hpos₀, hn, hle, hcount, hroom', hlt⟩
    · refine absurd hzero (pos_iff_ne_zero.1 (hpos.trans_le (count_anti ?_)))
      by_contra hgt
      exact hwrap (hroom.mono (not_le.1 hgt))
    · have hd : r.1 + 1 ≤ d := by
        by_contra hgt
        exact hwrap (hroom'.mono (by omega))
      have hanti := count_anti (x := x) hd
      exact ⟨d₀, hfound.le, by omega, by omega, hfound.stop⟩

theorem RightOptimum.noJump (h : x.RightOptimum) : x.NoJump := by
  obtain ⟨fuel, r, hchecked, -, hr⟩ := h
  exact (foundResult_of_checked hchecked).noJump hr

theorem NoJump.optimal (h : x.NoJump) {d₀ : ℕ} (hfound : x.FoundDegree d₀) (hpos : 0 < x.count d₀)
    (hle : d₀ ≤ d) (hcount : x.count d = x.count d₀) (hlt : x.count (d + 1) < x.count d₀) :
    x.Optimal d (x.count d₀) := by
  refine ⟨hpos, (roomFor_iff hpos).2 hcount.ge, ?_, ?_, fun n' hn' d' hd' hroom => ?_⟩
  · rw [mul_comm, ← le_div_iff_mul_le x.minDegree_pos]
    exact hfound.stop.trans (Nat.div_le_div_right hle)
  · rw [roomFor_iff hpos]
    exact not_le.2 hlt
  · have hn'pos : 0 < n' := hpos.trans hn'
    have hcount' := (roomFor_iff hn'pos).1 hroom
    have hdeg : n' ≤ d' / x.minDegree := by
      rw [le_div_iff_mul_le x.minDegree_pos, mul_comm]
      exact hd'
    -- the degree is one before the one found, and the one found takes too much
    have hbefore : d' < d₀ := by
      by_contra hge
      exact absurd (hcount'.trans (count_anti (not_lt.1 hge))) (not_le.2 hn')
    have hmin : x.minDegree ≤ d' := (Nat.le_mul_of_pos_right _ hn'pos).trans hd'
    have hlast := hfound.before (d₀ - 1) (by omega) (by omega)
    have hsucc : d₀ - 1 + 1 = d₀ := by omega
    have hgap := h.noGap (d₀ - 1) (by omega) hlast
    rw [hsucc] at hgap
    have hmono : d' / x.minDegree ≤ (d₀ - 1) / x.minDegree := Nat.div_le_div_right (by omega)
    omega

/-! ### The loops end -/

theorem HasRoom.le (h : x.HasRoom d) : d ≤ sectorLen := by
  have hle := PageBudget.le_overhead (b := x.budget) d
  unfold HasRoom at h
  omega

theorem NoJump.room_succ (h : x.NoJump) (hd : x.minDegree ≤ d) (hroom : x.HasRoom d)
    (hpos : 0 < x.count d)
    (hno : ∀ e, x.minDegree ≤ e → e ≤ d → x.count e ≤ e / x.minDegree → x.count e ≤ x.count d) :
    x.HasRoom (d + 1) := by
  by_contra hwrap
  obtain ⟨e, he, hle, hlt, hstop⟩ := h.noWrap d hd hroom hwrap hpos
  exact absurd (hno e he hle hstop) (not_le.2 hlt)

theorem NoJump.exists_firstLoop (h : x.NoJump) : ∃ s,
    whileM (fun s : PageBudget.FirstLoop => s.below && !s.failed) x.budget.firstPassChecked
      (sectorLen + 2) ⟨x.minDegree, 0, decide (0 < x.minDegree), false⟩ = some s ∧ x.InFirst s ∧
      (s.below && !s.failed) = false := by
  refine exists_whileM _ _ x.InFirst
    (fun s => sectorLen + 1 - s.pageDegree + (!s.failed).toNat) (fun s hs hc => ?_)
    inFirst_start ?_
  · have hc' := hc
    rw [Bool.and_eq_true, Bool.not_eq_true'] at hc'
    have hroom : x.HasRoom s.pageDegree := by
      rcases Nat.eq_or_lt_of_le hs.le with heq | hlt
      · rw [← heq]
        exact h.first
      · have hlast := hs.searching hc'.1 hc'.2 (s.pageDegree - 1) (by omega) (by omega)
        have hsucc : s.pageDegree - 1 + 1 = s.pageDegree := by omega
        rw [← hsucc]
        refine h.room_succ (by omega) (hs.room _ (by omega) (by omega))
          ((zero_le _).trans_lt hlast)
          fun e he hle hstop => ?_
        exact absurd (hs.searching hc'.1 hc'.2 e he (by omega)) (not_lt.2 hstop)
    refine ⟨_, if_pos hroom, hs.firstPass hc hroom, ?_⟩
    have hle := hroom.le
    unfold PageBudget.firstPass
    dsimp only
    rw [hc'.2]
    split_ifs with hzero
    · exact lt_succ_self _
    · show sectorLen + 1 - (s.pageDegree + 1) + 1 < sectorLen + 1 - s.pageDegree + 1
      omega
  · show sectorLen + 1 - x.minDegree + 1 ≤ sectorLen + 2
    omega

theorem NoJump.exists_checked (h : x.NoJump) : ∃ fuel r, x.budget.getOptimalChecked fuel = some r := by
  obtain ⟨s, hs, hin, hdone⟩ := h.exists_firstLoop
  have hbind : x.budget.getOptimalChecked (sectorLen + 2) = _ :=
    congrArg (fun o => Option.bind o _) hs
  rw [bind_some] at hbind
  refine ⟨sectorLen + 2, ?_⟩
  rw [hbind]
  cases hfailed : s.failed with
  | true => exact ⟨(0, 0), if_pos rfl⟩
  | false =>
    rw [hfailed, Bool.not_false, Bool.and_true] at hdone
    obtain ⟨d₀, hd₀, hfound, hn, hpos⟩ := hin.found hdone hfailed
    have hroom₀ : x.HasRoom d₀ := hin.room d₀ hfound.le (by omega)
    have hnext : ∀ d, d₀ ≤ d → x.HasRoom d → x.count d = x.count d₀ → x.HasRoom (d + 1) := by
      intro d hle hroom hcount
      refine h.room_succ (hfound.le.trans hle) hroom (hcount ▸ hpos) fun e he _ hstop => ?_
      rw [hcount]
      exact count_anti (hfound.le_of_stop he hstop)
    obtain ⟨d, hd, -⟩ := exists_whileM
      (fun d => x.budget.getNnodesPerPage d == s.nnodes)
      (fun d => if x.budget.overhead (d + 1) ≤ sectorLen then some (d + 1) else none)
      (fun d => d₀ ≤ d ∧ x.HasRoom d) (fun d => sectorLen + 1 - d) (fun d hd hc => by
        have hcount : x.count d = x.count d₀ := by
          rw [← hd.2.count, ← hn]
          exact eq_of_beq hc
        have hroom := hnext d hd.1 hd.2 hcount
        have hle := hroom.le
        exact ⟨d + 1, if_pos hroom, ⟨le_succ_of_le hd.1, hroom⟩, by omega⟩)
      (n := sectorLen + 2)
      ⟨hd₀ ▸ le_succ d₀, hd₀ ▸ hnext d₀ le_rfl hroom₀ rfl⟩ (by omega)
    have hroom : x.budget.overhead s.pageDegree ≤ sectorLen := by
      rw [hd₀]
      exact hnext d₀ le_rfl hroom₀ rfl
    rw [if_neg Bool.false_ne_true, if_pos hroom, hd]
    exact ⟨_, rfl⟩

/-- The result is the best one exactly where a neighbour more never takes the room of too many
vectors. -/
theorem rightOptimum_iff (x : ExactBudget) : x.RightOptimum ↔ x.NoJump := by
  refine ⟨RightOptimum.noJump, fun h => ?_⟩
  obtain ⟨fuel, r, hchecked⟩ := h.exists_checked
  refine ⟨fuel, r, hchecked, PageBudget.getOptimal_of_checked hchecked, ?_⟩
  obtain ⟨d₀, hfound, -, ⟨-, hr⟩ | ⟨hpos, hn, hle, hcount, -, hlt⟩⟩ :=
    foundResult_of_checked hchecked
  · exact .inl hr
  · rw [hn]
    exact .inr (h.optimal hfound hpos hle hcount hlt)

/-! ### Bytes -/

theorem eight_pos : 0 < 8 := succ_pos 7

theorem seven_pos : 0 < 7 := succ_pos 6

/-- Vectors of eight bytes with codes of eight bytes, none in memory, and seven neighbours a node. -/
def eightBytes : ExactBudget where
  dimension := 8
  dimension_pos := eight_pos
  typeByte := 1
  type_eq := .inl rfl
  pqSize := 8
  ratio := 0
  ratio_nonneg := le_rfl
  ratio_le := zero_le_one
  minDegree := 7
  minDegree_pos := seven_pos

theorem eightBytes_count (d : ℕ) : eightBytes.count d = (4092 - 12 * d) / 8 := by
  have hzero : eightBytes.numCached d = 0 := by
    show ⌊(d : ℚ) * 0⌋₊ = 0
    rw [mul_zero, floor_zero]
  have hover : eightBytes.budget.overhead d = 4 + 4 * d + 8 * d := by
    rw [overhead_eq, hzero]
    rfl
  show (sectorLen - eightBytes.budget.overhead d) / (8 * 1) = _
  rw [hover]
  show (4096 - (4 + 4 * d + 8 * d)) / 8 = _
  omega

/-- 311 neighbours leave room for 45 vectors, and 312 for 43. -/
theorem eightBytes_not_right : eightBytes.Accepted ∧ ¬ eightBytes.RightOptimum := by
  constructor
  · show (7 : ℤ) ≤ ⌊((4096 : ℕ) - ((8 : ℕ) : ℚ) * ((1 : ℕ) : ℚ) - 2 * 2) /
      (0 * 4 + (1 - 0) * (4 + ((8 : ℕ) : ℚ)))⌋
    rw [Int.le_floor]
    norm_num
  · intro h
    have hgap := h.noJump.noGap 311 (by decide)
    rw [eightBytes_count, eightBytes_count] at hgap
    exact absurd (hgap (by decide)) (by decide)

end ExactBudget

end DiskANNEval.PageANN
