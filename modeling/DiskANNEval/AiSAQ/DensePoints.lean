import DiskANNEval.Lib.Loops
import DiskANNEval.Lib.Text
import Mathlib

/-!
# DensePoints — points with more labels than the graph can serve

`breakup_dense_points` lets a point keep its first labels, at most `density` of them, and hands the
others on to dummy points behind the last point, which get its vector.  The files it writes are read
back here with the readers of the builder and of the index.
-/

namespace DiskANNEval.AiSAQ.DensePoints

open Lib List Option

/-- A token without the ends of line in it, as a `uint32_t`. -/
def readLabel (token : List Char) : Option ℕ :=
  (stoul ((token.filter (· ≠ '\n')).filter (· ≠ '\r'))).map (· % 2 ^ 32)

/-- The labels of the points in a label file; `none`: a token is not a number. -/
def readLabels (text : List Char) : Option (List (List ℕ)) :=
  (pieces '\n' text).mapM fun line => (pieces ',' line).mapM readLabel

/-- `none`: one of the two ids stays uninitialized, or a token is not a number. -/
def readDummyLine (line : List Char) : Option (ℕ × ℕ) :=
  ((pieces ',' line).mapM stoul).bind fun ids => ids.head?.bind fun dummyId =>
    ids.tail.getLast?.map fun realId => (dummyId % 2 ^ 32, realId % 2 ^ 32)

/-- `_dummy_to_real_map` -/
def readDummyMap (text : List Char) : Option (List (ℕ × ℕ)) := (pieces '\n' text).mapM readDummyLine

/-! ### The loops over the lines and the labels -/

/-- The state of the loop over the lines. -/
structure Labels where
  labelsPerPoint : List (List ℕ)
  dummyPtIds : List (ℕ × ℕ)
  nextDummyId : ℕ
  pointCnt : ℕ

/-- The state of the loop over the labels of a line. -/
structure Line extends Labels where
  labelHost : ℕ
  lblCnt : ℕ

def resize (l : List (List ℕ)) (size : ℕ) : List (List ℕ) :=
  l.take size ++ List.replicate (size - l.length) []

/-- A new dummy point takes the labels from now on. -/
def addDummy (s : Line) : Line :=
  { labelsPerPoint := resize s.labelsPerPoint ((s.nextDummyId + 1) % 2 ^ 32)
    dummyPtIds := s.dummyPtIds ++ [(s.nextDummyId, s.pointCnt)]
    nextDummyId := (s.nextDummyId + 1) % 2 ^ 32
    pointCnt := s.pointCnt
    labelHost := s.nextDummyId
    lblCnt := 0 }

/-- `none`: the token is not a number, or the host has no place. -/
def pushToken (s : Line) (token : List Char) : Option Line :=
  (readLabel token).bind fun label => s.labelsPerPoint[s.labelHost]?.map fun labels =>
    { s with
      labelsPerPoint := s.labelsPerPoint.set s.labelHost (labels ++ [label])
      lblCnt := s.lblCnt + 1 }

def placeToken (density : ℕ) (s : Line) (token : List Char) : Option Line :=
  pushToken (if s.lblCnt = density then addDummy s else s) token

def startLine (s : Labels) : Line := { s with labelHost := s.pointCnt, lblCnt := 0 }

def breakLine (density : ℕ) (s : Labels) (line : List Char) : Option Labels :=
  ((pieces ',' line).foldlM (placeToken density) (startLine s)).map fun s =>
    { s.toLabels with pointCnt := s.pointCnt + 1 }

def breakLines (density npts : ℕ) (text : List Char) : Option Labels :=
  (pieces '\n' text).foldlM (breakLine density) ⟨List.replicate npts [], [], npts, 0⟩

/-! ### The files -/

/-- `none`: the loop runs to `size() - 1` of no labels. -/
def labelLine (labels : List ℕ) : Option (List Char) :=
  if labels = [] then none else some (joined ',' (labels.map digits))

def writeLabels (labelsPerPoint : List (List ℕ)) : Option (List Char) :=
  (labelsPerPoint.mapM labelLine).map (terminated '\n')

def dummyLine (d : ℕ × ℕ) : List Char := joined ',' [digits d.1, digits d.2]

variable {Vec : Type}

/-- The vectors after `realloc` and the copies; `none` is what has not been written. -/
def expandData (rows : List Vec) (size : ℕ) (dummies : List (ℕ × ℕ)) : Option (List (Option Vec)) :=
  dummies.foldlM
    (fun data d => data[d.2]?.bind fun row =>
      if d.1 < data.length then some (data.set d.1 row) else none)
    (rows.map some ++ List.replicate (size - rows.length) none)

/-- The files that are written. -/
structure Output (Vec : Type) where
  labels : Option (List Char)
  metadata : Option (List Char)
  data : List (Option Vec)

/-- A call of `breakup_dense_points` on a data file and a label file with a line for each point, whose
labels are `labels`; `mapOrder` is how `dummy_pt_ids` iterates. -/
structure DenseCall (Vec : Type) where
  rows : List Vec
  text : List Char
  density : ℕ
  labels : List (List ℕ)
  mapOrder : List (ℕ × ℕ) → List (ℕ × ℕ)
  mapOrder_perm : ∀ dummies, (mapOrder dummies).Perm dummies
  density_pos : 0 < density
  rows_lt : rows.length < 2 ^ 32
  readLabels_eq : readLabels text = some labels
  labels_length : labels.length = rows.length
  labels_ne_nil : ∀ l ∈ labels, l ≠ []

namespace DenseCall

variable (a : DenseCall Vec)

def npts : ℕ := a.rows.length

/-- `breakup_dense_points` -/
def breakup : Option (Output Vec) :=
  (breakLines a.density a.npts a.text).bind fun s =>
    (if s.labelsPerPoint ≠ [] then (writeLabels s.labelsPerPoint).map some else some none).bind
      fun labels =>
        if s.dummyPtIds ≠ [] then
          let dummies := a.mapOrder s.dummyPtIds
          (expandData a.rows s.labelsPerPoint.length dummies).map fun data =>
            { labels, metadata := some (terminated '\n' (dummies.map dummyLine)), data }
        else some { labels, metadata := none, data := a.rows.map some }

end DenseCall

/-! ### What is asked of the files -/

/-- A point and its dummy points, in ascending order. -/
def cells (n : ℕ) (dummies : List (ℕ × ℕ)) (p : ℕ) : List ℕ :=
  p :: (List.range' n dummies.length).filter fun d => (d, p) ∈ dummies

/-- The labels of a point, or of a dummy point. -/
def labelsAt (labelsPerPoint : List (List ℕ)) (i : ℕ) : List ℕ := (labelsPerPoint[i]?).getD []

/-- The files of a call, as they are read back. -/
structure BrokenUp (a : DenseCall Vec) (out : Output Vec) (labelsPerPoint : List (List ℕ))
    (dummies : List (ℕ × ℕ)) : Prop where
  labels : readLabels (out.labels.getD []) = some labelsPerPoint
  dummyMap : readDummyMap (out.metadata.getD []) = some dummies
  ids : (dummies.map Prod.fst).Perm (List.range' a.npts dummies.length)
  size : labelsPerPoint.length = a.npts + dummies.length
  dataSize : out.data.length = a.npts + dummies.length
  split : ∀ p < a.npts, (cells a.npts dummies p).flatMap (labelsAt labelsPerPoint) =
    labelsAt a.labels p
  le : ∀ l ∈ labelsPerPoint, l.length ≤ a.density
  rows : ∀ p < a.npts, out.data[p]? = some a.rows[p]?
  host : ∀ d ∈ dummies, d.2 < a.npts ∧ out.data[d.1]? = some a.rows[d.2]?

/-- The dummy points that the labels ask for. -/
def extra (density : ℕ) (labels : List (List ℕ)) : ℕ :=
  (labels.map fun l => (l.length - 1) / density).sum

/-! ### Points and their dummy points -/

variable {n density p q i : ℕ} {dummies : List (ℕ × ℕ)} {l : List (List ℕ)}

theorem cells_perm {dummies' : List (ℕ × ℕ)} (h : dummies'.Perm dummies) :
    cells n dummies' p = cells n dummies p := by
  simp only [cells, h.length_eq, h.mem_iff]

theorem mem_cells : i ∈ cells n dummies p ↔
    i = p ∨ (n ≤ i ∧ i < n + dummies.length) ∧ (i, p) ∈ dummies := by
  rw [cells, mem_cons, mem_filter, mem_range'_1, decide_eq_true_iff]

theorem nodup_cells (hp : p < n) : (cells n dummies p).Nodup := by
  refine nodup_cons.2 ⟨fun h => ?_, Nodup.filter _ nodup_range'⟩
  have := mem_range'_1.1 (mem_of_mem_filter h)
  omega

/-- The ids of the dummy points follow those of the points. -/
def Numbered (n : ℕ) (dummies : List (ℕ × ℕ)) : Prop :=
  dummies.map Prod.fst = List.range' n dummies.length

theorem Numbered.mem_range (h : Numbered n dummies) {d : ℕ × ℕ} (hd : d ∈ dummies) :
    n ≤ d.1 ∧ d.1 < n + dummies.length := by
  have hmem : d.1 ∈ dummies.map Prod.fst := mem_map_of_mem hd
  rw [h] at hmem
  exact mem_range'_1.1 hmem

theorem Numbered.host_unique (h : Numbered n dummies) (hp : (i, p) ∈ dummies)
    (hq : (i, q) ∈ dummies) : p = q := by
  have hnd : (dummies.map Prod.fst).Nodup := by
    rw [h]
    exact nodup_range'
  exact congrArg Prod.snd (inj_on_of_nodup_map hnd hp hq rfl)

theorem Numbered.concat (h : Numbered n dummies) (p : ℕ) :
    Numbered n (dummies ++ [(n + dummies.length, p)]) := by
  unfold Numbered
  rw [map_append, h, length_append, length_singleton, range'_concat, Nat.one_mul]
  rfl

theorem cells_concat (h : Numbered n dummies) (p q : ℕ) :
    cells n (dummies ++ [(n + dummies.length, p)]) q =
      cells n dummies q ++ if q = p then [n + dummies.length] else [] := by
  have hnew : (n + dummies.length, q) ∉ dummies := fun hmem => by
    have := (h.mem_range hmem).2
    omega
  have hold : (range' n dummies.length).filter
      (fun d => (d, q) ∈ dummies ++ [(n + dummies.length, p)]) =
        (range' n dummies.length).filter fun d => (d, q) ∈ dummies := by
    apply filter_congr
    intro d hd
    have hne : d ≠ n + dummies.length := (mem_range'_1.1 hd).2.ne
    simp [hne]
  unfold cells
  rw [length_append, length_singleton, range'_concat, filter_append,
    hold]
  split_ifs with hq
  · simp [hq]
  · simp [hq, hnew]

theorem cells_disjoint (h : Numbered n dummies) (hp : p < n) (hq : q < n) (hne : q ≠ p)
    (hi : i ∈ cells n dummies p) : i ∉ cells n dummies q := by
  intro hi'
  rcases mem_cells.1 hi with rfl | ⟨hrange, hmem⟩
  · rcases mem_cells.1 hi' with heq | ⟨hrange', -⟩
    · exact hne heq.symm
    · omega
  · rcases mem_cells.1 hi' with rfl | ⟨-, hmem'⟩
    · omega
    · exact hne (h.host_unique hmem' hmem)

/-! ### A label more -/

theorem labelsAt_of_lt (h : i < l.length) : labelsAt l i = l[i] := by
  rw [labelsAt, getElem?_eq_getElem h, getD_some]

theorem labelsAt_of_ge (h : l.length ≤ i) : labelsAt l i = [] := by
  rw [labelsAt, getElem?_eq_none h, getD_none]

variable {host m : ℕ}

theorem labelsAt_set (hhost : host < l.length) (labels : List ℕ) (i : ℕ) :
    labelsAt (l.set host labels) i = if i = host then labels else labelsAt l i := by
  unfold labelsAt
  split_ifs with hi
  · rw [hi, getElem?_set_self hhost, getD_some]
  · rw [getElem?_set_ne (Ne.symm hi)]

theorem labelsAt_append_nil (l : List (List ℕ)) (i : ℕ) : labelsAt (l ++ [[]]) i = labelsAt l i := by
  rcases lt_trichotomy i l.length with hi | rfl | hi
  · rw [labelsAt, getElem?_append_left hi, labelsAt]
  · rw [labelsAt_of_ge (le_refl _), labelsAt, getElem?_concat_length, getD_some]
  · rw [labelsAt_of_ge hi.le, labelsAt_of_ge]
    rw [length_append]
    exact hi

theorem labelsAt_concat (l : List (List ℕ)) (labels : List ℕ) (i : ℕ) :
    labelsAt (l ++ [labels]) i = if i = l.length then labels else labelsAt l i := by
  have hlt : l.length < (l ++ [[]]).length := by simp
  have h := labelsAt_set hlt labels i
  rw [labelsAt_append_nil] at h
  rw [← h]
  simp

theorem flatMap_set_last {cs : List ℕ} {x : ℕ} (hnd : cs.Nodup) (hlast : cs.getLast? = some host)
    (hhost : host < l.length) :
    cs.flatMap (labelsAt (l.set host (labelsAt l host ++ [x]))) = cs.flatMap (labelsAt l) ++ [x] := by
  obtain ⟨init, rfl⟩ := getLast?_eq_some_iff.1 hlast
  obtain ⟨-, -, hdisj⟩ := nodup_append.1 hnd
  have hinit : init.flatMap (labelsAt (l.set host (labelsAt l host ++ [x]))) =
      init.flatMap (labelsAt l) := by
    apply flatMap_congr
    intro i hi
    rw [labelsAt_set hhost, if_neg (hdisj i hi host mem_cons_self)]
  rw [flatMap_append, flatMap_append, hinit, flatMap_singleton, flatMap_singleton,
    labelsAt_set hhost, if_pos rfl, append_assoc]

theorem flatMap_set_of_notMem {cs : List ℕ} (hmem : host ∉ cs) (hhost : host < l.length)
    (labels : List ℕ) : cs.flatMap (labelsAt (l.set host labels)) = cs.flatMap (labelsAt l) := by
  apply flatMap_congr
  intro i hi
  have hne : i ≠ host := fun h => hmem (h ▸ hi)
  rw [labelsAt_set hhost, if_neg hne]

/-! ### The loops -/

/-- The labels of the lines that have been read are where they belong. -/
structure Placed (n density : ℕ) (labels : List (List ℕ)) (s : Labels) : Prop where
  size : s.labelsPerPoint.length = n + s.dummyPtIds.length
  next : s.nextDummyId = n + s.dummyPtIds.length
  ids : Numbered n s.dummyPtIds
  hosts : ∀ d ∈ s.dummyPtIds, d.2 < labels.length
  split : ∀ p < n, (cells n s.dummyPtIds p).flatMap (labelsAt s.labelsPerPoint) = labelsAt labels p
  le : ∀ l ∈ s.labelsPerPoint, l.length ≤ density

/-- How many dummy points there are, and that none is without labels. -/
structure Counted (n density : ℕ) (labels : List (List ℕ)) (s : Labels) : Prop where
  lt : s.nextDummyId < 2 ^ 32
  ne : ∀ i < s.labelsPerPoint.length, labelsAt s.labelsPerPoint i = [] →
    i < n ∧ labelsAt labels i = []
  count : s.dummyPtIds.length = extra density labels

/-- In the middle of a line: the labels go to the last cell of its point. -/
structure Filling (n density : ℕ) (labels : List (List ℕ)) (read : List ℕ) (s : Line) : Prop extends
    Placed n density (labels ++ [read]) s.toLabels where
  point : s.pointCnt = labels.length
  host : (cells n s.dummyPtIds labels.length).getLast? = some s.labelHost
  cnt : (labelsAt s.labelsPerPoint s.labelHost).length = s.lblCnt

variable {labels : List (List ℕ)} {read : List ℕ} {s : Line} {x : ℕ} {token : List Char}

theorem Filling.host_mem (h : Filling n density labels read s) :
    s.labelHost ∈ cells n s.dummyPtIds labels.length := mem_of_getLast? h.host

theorem Filling.host_lt (h : Filling n density labels read s) (hp : labels.length < n) :
    s.labelHost < s.labelsPerPoint.length := by
  rw [h.size]
  rcases mem_cells.1 h.host_mem with heq | ⟨hrange, -⟩
  · omega
  · exact hrange.2

theorem Filling.addDummy (h : Filling n density labels read s)
    (hlt : s.nextDummyId + 1 < 2 ^ 32) :
    (addDummy s).labelsPerPoint = s.labelsPerPoint ++ [[]] ∧
      (addDummy s).nextDummyId = s.nextDummyId + 1 ∧
      Filling n density labels read (addDummy s) := by
  have hlen : s.labelsPerPoint.length = s.nextDummyId := h.size.trans h.next.symm
  have hmod : (s.nextDummyId + 1) % 2 ^ 32 = s.nextDummyId + 1 := Nat.mod_eq_of_lt hlt
  have hresize : (DensePoints.addDummy s).labelsPerPoint = s.labelsPerPoint ++ [[]] := by
    show resize s.labelsPerPoint ((s.nextDummyId + 1) % 2 ^ 32) = _
    rw [hmod, resize, hlen, take_of_length_le (by omega), Nat.add_sub_cancel_left]
    rfl
  have hdummies : (DensePoints.addDummy s).dummyPtIds =
      s.dummyPtIds ++ [(n + s.dummyPtIds.length, labels.length)] := by
    show s.dummyPtIds ++ [(s.nextDummyId, s.pointCnt)] = _
    rw [h.next, h.point]
  have hcells := cells_concat h.ids labels.length
  refine ⟨hresize, hmod, ⟨?_, ?_, ?_, ?_, ?_, ?_⟩, h.point, ?_, ?_⟩
  · rw [hresize, hdummies, length_append, length_append, h.size]
    rfl
  · show (s.nextDummyId + 1) % 2 ^ 32 = _
    rw [hmod, hdummies, length_append, h.next]
    rfl
  · rw [hdummies]
    exact h.ids.concat labels.length
  · intro d hd
    rw [hdummies, mem_append, mem_singleton] at hd
    rcases hd with hd | rfl
    · exact h.hosts d hd
    · rw [length_append]
      exact Nat.lt_succ_self _
  · intro q hq
    have hnil : labelsAt s.labelsPerPoint (n + s.dummyPtIds.length) = [] :=
      labelsAt_of_ge h.size.le
    have hold := h.split q hq
    have hfun : labelsAt (s.labelsPerPoint ++ [[]]) = labelsAt s.labelsPerPoint :=
      funext (labelsAt_append_nil s.labelsPerPoint)
    rw [hresize, hdummies, hcells, hfun, flatMap_append, hold]
    split_ifs with hqp
    · rw [flatMap_singleton, hnil, append_nil]
    · rw [flatMap_nil, append_nil]
  · intro l hl
    rw [hresize, mem_append, mem_singleton] at hl
    rcases hl with hl | rfl
    · exact h.le l hl
    · exact Nat.zero_le _
  · rw [hdummies, hcells, if_pos rfl, getLast?_concat]
    exact congrArg some h.next.symm
  · show (labelsAt (DensePoints.addDummy s).labelsPerPoint s.nextDummyId).length = 0
    rw [hresize, labelsAt_append_nil, labelsAt_of_ge hlen.le]
    rfl

/-- A label more for the host. -/
def push (s : Line) (x : ℕ) : Line :=
  { s with
    labelsPerPoint := s.labelsPerPoint.set s.labelHost (labelsAt s.labelsPerPoint s.labelHost ++ [x])
    lblCnt := s.lblCnt + 1 }

theorem pushToken_eq (hread : readLabel token = some x)
    (hhost : s.labelHost < s.labelsPerPoint.length) : pushToken s token = some (push s x) := by
  rw [pushToken, hread, bind_some, getElem?_eq_getElem hhost, map_some, push,
    labelsAt_of_lt hhost]

theorem Filling.push (h : Filling n density labels read s) (hp : labels.length < n)
    (hcnt : s.lblCnt < density) (x : ℕ) : Filling n density labels (read ++ [x]) (push s x) := by
  have hhost := h.host_lt hp
  refine ⟨⟨?_, h.next, h.ids, ?_, ?_, ?_⟩, h.point, h.host, ?_⟩
  · show (s.labelsPerPoint.set _ _).length = _
    rw [length_set]
    exact h.size
  · intro d hd
    have := h.hosts d hd
    rwa [length_append] at this ⊢
  · intro q hq
    have hold := h.split q hq
    rw [labelsAt_concat] at hold ⊢
    by_cases hqp : q = labels.length
    · subst hqp
      rw [if_pos rfl] at hold ⊢
      rw [← hold]
      exact flatMap_set_last (nodup_cells hp) h.host hhost
    · rw [if_neg hqp] at hold ⊢
      rw [← hold]
      exact flatMap_set_of_notMem (cells_disjoint h.ids hp hq hqp h.host_mem) hhost _
  · intro l hl
    rcases mem_or_eq_of_mem_set hl with hl | rfl
    · exact h.le l hl
    · rw [length_append, h.cnt]
      exact hcnt
  · show (labelsAt (s.labelsPerPoint.set _ _) s.labelHost).length = s.lblCnt + 1
    rw [labelsAt_set hhost, if_pos rfl, length_append, h.cnt]
    rfl

theorem extra_concat (density : ℕ) (labels : List (List ℕ)) (l : List ℕ) :
    extra density (labels ++ [l]) = extra density labels + (l.length - 1) / density := by
  simp [extra]

theorem push_ne (hhost : s.labelHost < s.labelsPerPoint.length)
    (hold : ∀ i < s.labelsPerPoint.length, i ≠ s.labelHost → labelsAt s.labelsPerPoint i = [] →
      i < n ∧ i ≠ labels.length ∧ labelsAt labels i = []) (l : List ℕ) :
    ∀ i < (push s x).labelsPerPoint.length, labelsAt (push s x).labelsPerPoint i = [] →
      i < n ∧ labelsAt (labels ++ [l]) i = [] := by
  intro i hi hnil
  have hi' : i < s.labelsPerPoint.length := by
    rwa [push, length_set] at hi
  rw [push, labelsAt_set hhost] at hnil
  split_ifs at hnil with hih
  · exact absurd hnil (by simp)
  · obtain ⟨hn, hne, hlabels⟩ := hold i hi' hih hnil
    refine ⟨hn, ?_⟩
    rw [labelsAt_concat, if_neg hne]
    exact hlabels

/-- In the middle of a line, with the dummy points counted. -/
structure Filled (n density : ℕ) (labels : List (List ℕ)) (read : List ℕ) (s : Line) : Prop extends
    Filling n density labels read s where
  counted : Counted n density (labels ++ [read]) s.toLabels
  full : read.length = (read.length - 1) / density * density + s.lblCnt

theorem Filled.ne_host (h : Filled n density labels read s) (hp : labels.length < n) :
    ∀ i < s.labelsPerPoint.length, i ≠ s.labelHost → labelsAt s.labelsPerPoint i = [] →
      i < n ∧ i ≠ labels.length ∧ labelsAt labels i = [] := by
  intro i hi hhost hnil
  obtain ⟨hn, hread⟩ := h.counted.ne i hi hnil
  rw [labelsAt_concat] at hread
  split_ifs at hread with hip
  · -- without labels the host is the point itself
    have hcells := h.split labels.length hp
    rw [labelsAt_concat, if_pos rfl, hread, flatMap_eq_nil_iff] at hcells
    have hlt := (h.counted.ne _ (h.host_lt hp) (hcells _ h.host_mem)).1
    rcases mem_cells.1 h.host_mem with heq | ⟨hrange, -⟩
    · exact absurd (hip.trans heq.symm) hhost
    · omega
  · exact ⟨hn, hip, hread⟩

theorem Filled.cnt_le (h : Filled n density labels read s) (hp : labels.length < n) :
    s.lblCnt ≤ density := by
  have hhost := h.host_lt hp
  rw [← h.cnt, labelsAt_of_lt hhost]
  exact h.le _ (getElem_mem hhost)

theorem Filled.place (h : Filled n density labels read s) (hd : 0 < density)
    (hp : labels.length < n) (hread : readLabel token = some x) :
    (placeToken density s token = none ∧ 2 ^ 32 ≤ n + extra density (labels ++ [read ++ [x]])) ∨
      ∃ s', placeToken density s token = some s' ∧ Filled n density labels (read ++ [x]) s' := by
  have hcount := h.counted.count
  have hnext := h.next
  have hlt := h.counted.lt
  have hfull := h.full
  have hlen : (read ++ [x]).length = read.length + 1 := by simp
  rw [extra_concat] at hcount
  unfold placeToken
  by_cases hcnt : s.lblCnt = density
  · have hdiv : read.length / density = (read.length - 1) / density + 1 := by
      rw [hcnt] at hfull
      calc read.length / density = (((read.length - 1) / density + 1) * density) / density := by
            rw [Nat.add_mul, Nat.one_mul, ← hfull]
        _ = (read.length - 1) / density + 1 := Nat.mul_div_cancel _ hd
    rw [if_pos hcnt, extra_concat, hlen, Nat.add_sub_cancel, hdiv]
    by_cases hfit : s.nextDummyId + 1 < 2 ^ 32
    · obtain ⟨hlabels, hnext', hfilling⟩ := h.toFilling.addDummy hfit
      refine Or.inr ⟨_, pushToken_eq hread (hfilling.host_lt hp), hfilling.push hp hd x,
        ⟨?_, ?_, ?_⟩, ?_⟩
      · exact hnext'.trans_lt hfit
      · refine push_ne (hfilling.host_lt hp) ?_ _
        intro i hi hhost hnil
        have hhost' : i ≠ s.labelsPerPoint.length := by
          rw [h.size, ← hnext]
          exact hhost
        rw [hlabels, length_append, length_singleton] at hi
        rw [hlabels, labelsAt_append_nil] at hnil
        obtain ⟨hn, hi'⟩ := h.counted.ne i (by omega) hnil
        rw [labelsAt_concat] at hi'
        split_ifs at hi' with hip
        · rw [hi', length_nil, Nat.zero_sub, Nat.zero_div] at hfull
          omega
        · exact ⟨hn, hip, hi'⟩
      · show (s.dummyPtIds ++ [_]).length = _
        rw [extra_concat, hlen, Nat.add_sub_cancel, hdiv, length_append, hcount]
        rfl
      · show _ = _ + 1
        rw [hlen, Nat.add_sub_cancel, hdiv, Nat.add_mul, Nat.one_mul]
        rw [hcnt] at hfull
        exact congrArg (· + 1) hfull
    · left
      have hzero : (s.nextDummyId + 1) % 2 ^ 32 = 0 := by
        have : s.nextDummyId + 1 = 2 ^ 32 := by omega
        rw [this, Nat.mod_self]
      have hempty : (DensePoints.addDummy s).labelsPerPoint = [] := by
        show resize s.labelsPerPoint ((s.nextDummyId + 1) % 2 ^ 32) = []
        rw [hzero, resize, Nat.zero_sub]
        rfl
      refine ⟨?_, by omega⟩
      rw [pushToken, hread, hempty]
      rfl
  · have hlt' : s.lblCnt < density := lt_of_le_of_ne (h.cnt_le hp) hcnt
    have hdiv : read.length / density = (read.length - 1) / density := by
      conv_lhs => rw [hfull]
      rw [Nat.mul_comm, Nat.mul_add_div hd, Nat.div_eq_of_lt hlt', Nat.add_zero]
    rw [if_neg hcnt]
    refine Or.inr ⟨_, pushToken_eq hread (h.host_lt hp), h.toFilling.push hp hlt' x,
      ⟨hlt, ?_, ?_⟩, ?_⟩
    · exact push_ne (h.host_lt hp) (h.ne_host hp) _
    · show s.dummyPtIds.length = _
      rw [extra_concat, hlen, Nat.add_sub_cancel, hdiv, hcount]
    · show _ = _ + (s.lblCnt + 1)
      rw [hlen, Nat.add_sub_cancel, hdiv, ← Nat.add_assoc, ← hfull]

theorem extra_append (density : ℕ) (labels labels' : List (List ℕ)) :
    extra density (labels ++ labels') = extra density labels + extra density labels' := by
  rw [extra, map_append, sum_append]
  rfl

theorem Filled.placeAll (h : Filled n density labels read s) (hd : 0 < density)
    (hp : labels.length < n) {tokens : List (List Char)} {xs : List ℕ}
    (hread : tokens.mapM readLabel = some xs) :
    (tokens.foldlM (placeToken density) s = none ∧
        2 ^ 32 ≤ n + extra density (labels ++ [read ++ xs])) ∨
      ∃ s', tokens.foldlM (placeToken density) s = some s' ∧
        Filled n density labels (read ++ xs) s' := by
  induction tokens generalizing read s xs with
  | nil =>
    obtain rfl : xs = [] := (Option.some.inj hread).symm
    rw [append_nil]
    exact Or.inr ⟨s, rfl, h⟩
  | cons token tokens ih =>
    obtain ⟨x, xs, hx, hxs, rfl⟩ := exists_of_mapM_cons hread
    rw [foldlM_cons, append_cons read x xs]
    rcases h.place hd hp hx with ⟨hnone, hbound⟩ | ⟨s₁, hplace, h₁⟩
    · left
      refine ⟨by rw [hnone]; rfl, hbound.trans ?_⟩
      have hle : (read ++ [x]).length - 1 ≤ (read ++ [x] ++ xs).length - 1 := by
        simp only [length_append]
        omega
      have hdiv := Nat.div_le_div_right (c := density) hle
      rw [extra_concat, extra_concat]
      omega
    · rw [hplace]
      exact ih h₁ hxs

/-- Between two lines. -/
structure Broken (n density : ℕ) (labels : List (List ℕ)) (s : Labels) : Prop extends
    Placed n density labels s, Counted n density labels s where
  point : s.pointCnt = labels.length

variable {t : Labels} {line : List Char} {xs : List ℕ}

theorem Broken.startLine (h : Broken n density labels t) (hp : labels.length < n) :
    Filled n density labels [] (startLine t) := by
  have hcells : cells n t.dummyPtIds labels.length = [labels.length] := by
    refine congrArg (labels.length :: ·) (filter_eq_nil_iff.2 fun d _ hmem => ?_)
    exact lt_irrefl _ (h.hosts _ (of_decide_eq_true hmem))
  have hnil : labelsAt t.labelsPerPoint labels.length = [] := by
    have hsplit := h.split labels.length hp
    rwa [hcells, flatMap_singleton, labelsAt_of_ge (le_refl labels.length)] at hsplit
  refine ⟨⟨⟨h.size, h.next, h.ids, ?_, ?_, h.le⟩, h.point, ?_, ?_⟩, ⟨h.lt, ?_, ?_⟩, ?_⟩
  · intro d hd
    rw [length_append]
    exact Nat.lt_succ_of_lt (h.hosts d hd)
  · intro q hq
    rw [labelsAt_append_nil]
    exact h.split q hq
  · show (cells n t.dummyPtIds labels.length).getLast? = some t.pointCnt
    rw [hcells, h.point]
    rfl
  · show (labelsAt t.labelsPerPoint t.pointCnt).length = 0
    rw [h.point, hnil]
    rfl
  · intro i hi
    rw [labelsAt_append_nil]
    exact h.ne i hi
  · rw [extra_concat, length_nil, Nat.zero_div]
    exact h.count
  · rw [length_nil, Nat.zero_div, Nat.zero_mul]
    rfl

theorem Broken.breakLine (h : Broken n density labels t) (hd : 0 < density) (hp : labels.length < n)
    (hread : (pieces ',' line).mapM readLabel = some xs) :
    (breakLine density t line = none ∧ 2 ^ 32 ≤ n + extra density (labels ++ [xs])) ∨
      ∃ t', breakLine density t line = some t' ∧ Broken n density (labels ++ [xs]) t' := by
  unfold DensePoints.breakLine
  rcases (h.startLine hp).placeAll hd hp hread with ⟨hnone, hbound⟩ | ⟨s, hplace, hs⟩
  · rw [hnone]
    exact Or.inl ⟨rfl, hbound⟩
  · rw [hplace]
    refine Or.inr ⟨_, rfl, ⟨hs.size, hs.next, hs.ids, hs.hosts, hs.split, hs.le⟩,
      ⟨hs.counted.lt, hs.counted.ne, hs.counted.count⟩, ?_⟩
    show s.pointCnt + 1 = _
    rw [hs.point, length_append]
    rfl

theorem Broken.breakAll (h : Broken n density labels t) (hd : 0 < density)
    {lines : List (List Char)} {rest : List (List ℕ)}
    (hread : lines.mapM (fun line => (pieces ',' line).mapM readLabel) = some rest)
    (hlen : labels.length + rest.length ≤ n) :
    (lines.foldlM (DensePoints.breakLine density) t = none ∧
        2 ^ 32 ≤ n + extra density (labels ++ rest)) ∨
      ∃ t', lines.foldlM (DensePoints.breakLine density) t = some t' ∧
        Broken n density (labels ++ rest) t' := by
  induction lines generalizing labels t rest with
  | nil =>
    obtain rfl : rest = [] := (Option.some.inj hread).symm
    rw [append_nil]
    exact Or.inr ⟨t, rfl, h⟩
  | cons line lines ih =>
    obtain ⟨xs, rest, hxs, hrest, rfl⟩ := exists_of_mapM_cons hread
    rw [length_cons] at hlen
    rw [foldlM_cons, append_cons labels xs rest]
    rcases h.breakLine hd (by omega) hxs with ⟨hnone, hbound⟩ | ⟨t₁, hline, h₁⟩
    · left
      refine ⟨by rw [hnone]; rfl, hbound.trans ?_⟩
      rw [extra_append _ _ rest]
      omega
    · rw [hline]
      refine ih h₁ hrest ?_
      rw [length_append, length_singleton]
      omega

theorem broken_start (n density : ℕ) (hn : n < 2 ^ 32) :
    Broken n density [] ⟨replicate n [], [], n, 0⟩ := by
  have hnil : ∀ i, labelsAt (replicate n []) i = [] := by
    intro i
    rcases Nat.lt_or_ge i n with hi | hi
    · rw [labelsAt, getElem?_replicate, if_pos hi]
      rfl
    · exact labelsAt_of_ge (by rwa [length_replicate])
  refine ⟨⟨?_, rfl, rfl, ?_, ?_, ?_⟩, ⟨hn, ?_, rfl⟩, rfl⟩
  · exact length_replicate
  · exact fun d hd => absurd hd not_mem_nil
  · intro p _
    show [p].flatMap (labelsAt (replicate n [])) = labelsAt [] p
    rw [flatMap_singleton, hnil]
    rfl
  · intro l hl
    rw [eq_of_mem_replicate hl]
    exact Nat.zero_le _
  · intro i hi _
    rw [length_replicate] at hi
    exact ⟨hi, rfl⟩

/-! ### The files are read back -/

theorem readLabel_digits {x : ℕ} (hx : x < 2 ^ 32) : readLabel (digits x) = some x := by
  have hfilter : ((digits x).filter (· ≠ '\n')).filter (· ≠ '\r') = digits x := by
    rw [List.filter_filter]
    refine filter_eq_self.2 fun c hc => ?_
    have hnewline : c ≠ '\n' := fun h => notMem_digits (by decide) x (h ▸ hc)
    have hreturn : c ≠ '\r' := fun h => notMem_digits (by decide) x (h ▸ hc)
    simp [hnewline, hreturn]
  rw [readLabel, hfilter, stoul_digits (by omega), map_some, Nat.mod_eq_of_lt hx]

theorem readLabel_lt {token : List Char} {x : ℕ} (h : readLabel token = some x) : x < 2 ^ 32 := by
  obtain ⟨v, -, rfl⟩ := map_eq_some_iff.1 h
  exact Nat.mod_lt v (by decide)

theorem lt_of_readLabels {text : List Char} {labels : List (List ℕ)}
    (h : readLabels text = some labels) {l : List ℕ} (hl : l ∈ labels) {x : ℕ} (hx : x ∈ l) :
    x < 2 ^ 32 := by
  obtain ⟨line, -, hline⟩ := exists_of_mem_mapM h hl
  obtain ⟨token, -, htoken⟩ := exists_of_mem_mapM hline hx
  exact readLabel_lt htoken

theorem pieces_joined_digits (l : List ℕ) :
    pieces ',' (joined ',' (l.map digits)) = l.map digits := by
  apply pieces_joined
  intro p hp
  obtain ⟨x, -, rfl⟩ := mem_map.1 hp
  exact ⟨notMem_digits (by decide) x, digits_ne_nil x⟩

theorem newline_notMem_joined_digits (l : List ℕ) : '\n' ∉ joined ',' (l.map digits) := by
  refine notMem_joined (by decide) fun p hp => ?_
  obtain ⟨x, -, rfl⟩ := mem_map.1 hp
  exact notMem_digits (by decide) x

theorem readLabels_writeLabels (h : ∀ labels ∈ l, labels ≠ [] ∧ ∀ x ∈ labels, x < 2 ^ 32) :
    ∃ text, writeLabels l = some text ∧ readLabels text = some l := by
  have hlines : l.mapM labelLine = some (l.map fun labels => joined ',' (labels.map digits)) :=
    mapM_eq_some_map fun labels hl => by rw [labelLine, if_neg (h labels hl).1]
  refine ⟨_, by rw [writeLabels, hlines, map_some], ?_⟩
  rw [readLabels, pieces_terminated]
  · rw [mapM_map]
    conv_rhs => rw [← map_id l]
    refine mapM_eq_some_map fun labels hl => ?_
    show (pieces ',' (joined ',' (labels.map digits))).mapM readLabel = some labels
    rw [pieces_joined_digits, mapM_map]
    conv_rhs => rw [← map_id labels]
    exact mapM_eq_some_map fun x hx => readLabel_digits ((h labels hl).2 x hx)
  · intro line hline
    obtain ⟨labels, -, rfl⟩ := mem_map.1 hline
    exact newline_notMem_joined_digits labels

theorem readDummyMap_written (h : ∀ d ∈ dummies, d.1 < 2 ^ 32 ∧ d.2 < 2 ^ 32) :
    readDummyMap (terminated '\n' (dummies.map dummyLine)) = some dummies := by
  rw [readDummyMap, pieces_terminated]
  · rw [mapM_map]
    conv_rhs => rw [← map_id dummies]
    refine mapM_eq_some_map fun d hd => ?_
    obtain ⟨h₁, h₂⟩ := h d hd
    have hpieces : pieces ',' (dummyLine d) = [digits d.1, digits d.2] :=
      pieces_joined_digits [d.1, d.2]
    show readDummyLine (dummyLine d) = some d
    rw [readDummyLine, hpieces]
    simp only [mapM_cons, stoul_digits (h₁.trans (by decide)),
      stoul_digits (h₂.trans (by decide))]
    show some (d.1 % 2 ^ 32, d.2 % 2 ^ 32) = some d
    rw [Nat.mod_eq_of_lt h₁, Nat.mod_eq_of_lt h₂]
  · intro line hline
    obtain ⟨d, -, rfl⟩ := mem_map.1 hline
    exact newline_notMem_joined_digits [d.1, d.2]

theorem copyRows (rows : List Vec) {size : ℕ} {ds : List (ℕ × ℕ)} {data : List (Option Vec)}
    (hlen : data.length = size) (hrows : ∀ p < rows.length, data[p]? = some rows[p]?)
    (hds : ∀ d ∈ ds, rows.length ≤ d.1 ∧ d.1 < size ∧ d.2 < rows.length)
    (hnd : (ds.map Prod.fst).Nodup) :
    ∃ data', ds.foldlM (fun (data : List (Option Vec)) d => data[d.2]?.bind fun row =>
        if d.1 < data.length then some (data.set d.1 row) else none) data = some data' ∧
      data'.length = size ∧ (∀ p < rows.length, data'[p]? = some rows[p]?) ∧
      (∀ d ∈ ds, data'[d.1]? = some rows[d.2]?) ∧
      ∀ i, i ∉ ds.map Prod.fst → data'[i]? = data[i]? := by
  induction ds generalizing data with
  | nil => exact ⟨data, rfl, hlen, hrows, fun _ h => absurd h not_mem_nil, fun _ _ => rfl⟩
  | cons d ds ih =>
    rw [forall_mem_cons] at hds
    rw [map_cons, nodup_cons] at hnd
    obtain ⟨⟨hge, hlt, hhost⟩, hds⟩ := hds
    have hrows' : ∀ p < rows.length, (data.set d.1 rows[d.2]?)[p]? = some rows[p]? := by
      intro p hp
      rw [getElem?_set_ne (by omega)]
      exact hrows p hp
    obtain ⟨data', hfold, hlen', hkeep, hcopied, hframe⟩ :=
      ih (by rwa [length_set]) hrows' hds hnd.2
    refine ⟨data', ?_, hlen', hkeep, ?_, ?_⟩
    · rw [foldlM_cons, hrows d.2 hhost, bind_some, if_pos (by rwa [hlen])]
      exact hfold
    · intro e he
      rcases mem_cons.1 he with rfl | he
      · rw [hframe _ hnd.1, getElem?_set_self (by rwa [hlen])]
      · exact hcopied e he
    · intro i hi
      obtain ⟨hne, hi'⟩ := not_or.1 (mt mem_cons.2 hi)
      rw [hframe i hi', getElem?_set_ne (Ne.symm hne)]

theorem expandData_spec {rows : List Vec} {ds : List (ℕ × ℕ)} (hperm : ds.Perm dummies)
    (hids : Numbered rows.length dummies) (hhosts : ∀ d ∈ dummies, d.2 < rows.length) :
    ∃ data, expandData rows (rows.length + dummies.length) ds = some data ∧
      data.length = rows.length + dummies.length ∧
      (∀ p < rows.length, data[p]? = some rows[p]?) ∧ ∀ d ∈ ds, data[d.1]? = some rows[d.2]? := by
  have hnd : (ds.map Prod.fst).Nodup := by
    rw [(hperm.map Prod.fst).nodup_iff, hids]
    exact nodup_range'
  have hlen : (rows.map some ++ replicate (rows.length + dummies.length - rows.length)
      (none : Option Vec)).length = rows.length + dummies.length := by
    rw [length_append, length_map, length_replicate, Nat.add_sub_cancel_left]
  obtain ⟨data, hfold, hsize, hrows, hcopied, -⟩ := copyRows rows hlen
    (fun p hp => by
      rw [getElem?_append_left (by rwa [length_map]), getElem?_map,
        getElem?_eq_getElem hp, map_some])
    (fun d hd => by
      have hd' := hperm.mem_iff.1 hd
      exact ⟨(hids.mem_range hd').1, (hids.mem_range hd').2, hhosts d hd'⟩) hnd
  exact ⟨data, hfold, hsize, hrows, hcopied⟩

/-! ### The call -/

theorem exists_cells (hids : Numbered n dummies) (hhosts : ∀ d ∈ dummies, d.2 < n)
    (hi : i < n + dummies.length) : ∃ p < n, i ∈ cells n dummies p := by
  rcases Nat.lt_or_ge i n with hlt | hge
  · exact ⟨i, hlt, mem_cells.2 (Or.inl rfl)⟩
  · have hmem : i ∈ dummies.map Prod.fst := by
      rw [hids]
      exact mem_range'_1.2 ⟨hge, hi⟩
    obtain ⟨d, hd, rfl⟩ := mem_map.1 hmem
    exact ⟨d.2, hhosts d hd, mem_cells.2 (Or.inr ⟨⟨hge, hi⟩, hd⟩)⟩

theorem Broken.readable {a : DenseCall Vec} (h : Broken a.npts a.density a.labels t) :
    ∀ labels ∈ t.labelsPerPoint, labels ≠ [] ∧ ∀ x ∈ labels, x < 2 ^ 32 := by
  intro labels hmem
  obtain ⟨i, hi, rfl⟩ := getElem_of_mem hmem
  have hlen : a.labels.length = a.npts := a.labels_length
  constructor
  · intro hnil
    obtain ⟨hn, hempty⟩ := h.ne i hi (by rw [labelsAt_of_lt hi, hnil])
    rw [labelsAt_of_lt (by rwa [hlen])] at hempty
    exact a.labels_ne_nil _ (getElem_mem _) hempty
  · intro x hx
    have hhosts : ∀ d ∈ t.dummyPtIds, d.2 < a.npts := fun d hd => hlen ▸ h.hosts d hd
    obtain ⟨p, hp, hcell⟩ := exists_cells h.ids hhosts (h.size ▸ hi)
    have hmem : x ∈ labelsAt a.labels p := by
      rw [← h.split p hp, mem_flatMap]
      exact ⟨i, hcell, by rwa [labelsAt_of_lt hi]⟩
    rw [labelsAt_of_lt (by rwa [hlen])] at hmem
    exact lt_of_readLabels a.readLabels_eq (getElem_mem _) hmem

theorem exists_brokenUp {a : DenseCall Vec} (ht : breakLines a.density a.npts a.text = some t)
    (h : Broken a.npts a.density a.labels t) :
    ∃ out dummies, a.breakup = some out ∧ BrokenUp a out t.labelsPerPoint dummies := by
  have hlen : a.labels.length = a.npts := a.labels_length
  have hhosts : ∀ d ∈ t.dummyPtIds, d.2 < a.npts := fun d hd => hlen ▸ h.hosts d hd
  have hsize : t.nextDummyId < 2 ^ 32 := h.lt
  have hnext := h.next
  -- the label file
  obtain ⟨labels, hlabels, hread⟩ : ∃ labels,
      (if t.labelsPerPoint ≠ [] then (writeLabels t.labelsPerPoint).map some else some none) =
        some labels ∧ readLabels (labels.getD []) = some t.labelsPerPoint := by
    obtain ⟨text, hwrite, hback⟩ := readLabels_writeLabels h.readable
    split_ifs with hne
    · exact ⟨some text, by rw [hwrite, map_some], hback⟩
    · rw [not_ne_iff] at hne
      rw [hne]
      exact ⟨none, rfl, rfl⟩
  -- the dummy map and the data
  have hperm := a.mapOrder_perm t.dummyPtIds
  obtain ⟨data, hdata, hdataLen, hrows, hcopied⟩ := expandData_spec hperm h.ids hhosts
  have hdata' : expandData a.rows t.labelsPerPoint.length (a.mapOrder t.dummyPtIds) = some data := by
    rw [h.size]
    exact hdata
  have hlt : ∀ d ∈ a.mapOrder t.dummyPtIds, d.1 < 2 ^ 32 ∧ d.2 < 2 ^ 32 := by
    intro d hd
    have hd' := hperm.mem_iff.1 hd
    have := (h.ids.mem_range hd').2
    have := hhosts d hd'
    omega
  have hsplit : ∀ p < a.npts, (cells a.npts (a.mapOrder t.dummyPtIds) p).flatMap
      (labelsAt t.labelsPerPoint) = labelsAt a.labels p := by
    intro p hp
    rw [cells_perm hperm]
    exact h.split p hp
  have hids : ((a.mapOrder t.dummyPtIds).map Prod.fst).Perm
      (range' a.npts (a.mapOrder t.dummyPtIds).length) := by
    rw [hperm.length_eq, ← h.ids]
    exact hperm.map Prod.fst
  have hcount : t.labelsPerPoint.length = a.npts + (a.mapOrder t.dummyPtIds).length := by
    rw [hperm.length_eq]
    exact h.size
  unfold DenseCall.breakup
  rw [ht, bind_some, hlabels, bind_some]
  split_ifs with hne
  · refine ⟨_, a.mapOrder t.dummyPtIds, by dsimp only; rw [hdata', map_some], ?_⟩
    exact ⟨hread, readDummyMap_written hlt, hids, hcount, by rw [hperm.length_eq]; exact hdataLen,
      hsplit, h.le, hrows, fun d hd => ⟨hhosts d (hperm.mem_iff.1 hd), hcopied d hd⟩⟩
  · rw [not_ne_iff] at hne
    rw [hne] at hperm hsplit hcount
    have hnil : a.mapOrder [] = [] := hperm.eq_nil
    rw [hnil] at hsplit hcount
    refine ⟨_, [], rfl, hread, rfl, .refl _, hcount, length_map _, hsplit, h.le, ?_, ?_⟩
    · intro p hp
      show (a.rows.map some)[p]? = _
      rw [getElem?_map, getElem?_eq_getElem hp, map_some]
    · exact fun d hd => absurd hd not_mem_nil

theorem breakLines_cases (a : DenseCall Vec) :
    (breakLines a.density a.npts a.text = none ∧
        2 ^ 32 ≤ a.npts + extra a.density a.labels) ∨
      ∃ t, breakLines a.density a.npts a.text = some t ∧ Broken a.npts a.density a.labels t ∧
        a.npts + extra a.density a.labels < 2 ^ 32 := by
  have hlen : ([] : List (List ℕ)).length + a.labels.length ≤ a.npts := by
    rw [length_nil, Nat.zero_add]
    exact a.labels_length.le
  rcases (broken_start a.npts a.density a.rows_lt).breakAll a.density_pos a.readLabels_eq hlen with
    h | ⟨t, ht, h⟩
  · exact Or.inl h
  · have hfit : t.nextDummyId = a.npts + extra a.density a.labels := by
      rw [h.next, h.count]
      rfl
    exact Or.inr ⟨t, ht, h, hfit ▸ h.lt⟩

/-- The labels of each point are spread over it and its dummy points, and the dummy points are copies
of their hosts, exactly when the ids of the dummy points fit. -/
theorem brokenUp_iff (a : DenseCall Vec) :
    (∃ out labelsPerPoint dummies, a.breakup = some out ∧ BrokenUp a out labelsPerPoint dummies) ↔
      a.npts + extra a.density a.labels < 2 ^ 32 := by
  rcases breakLines_cases a with ⟨hnone, hbound⟩ | ⟨t, ht, h, hfit⟩
  · refine iff_of_false ?_ (Nat.not_lt.2 hbound)
    rintro ⟨out, -, -, hout, -⟩
    rw [DenseCall.breakup, hnone] at hout
    cases hout
  · obtain ⟨out, dummies, hout, hbroken⟩ := exists_brokenUp ht h
    exact iff_of_true ⟨out, _, dummies, hout, hbroken⟩ hfit

/-! ### More labels than ids -/

/-- One point with `m` times the label 1. -/
def oneLine (m : ℕ) : List Char := joined ',' ((List.replicate m 1).map digits)

theorem replicate_ne_nil (hm : m ≠ 0) : replicate m 1 ≠ [] := fun h => by
  have hlen := congrArg List.length h
  rw [length_replicate] at hlen
  exact hm hlen

theorem readLabels_oneLine (hm : m ≠ 0) : readLabels (oneLine m) = some [replicate m 1] := by
  have hpieces : pieces ',' (oneLine m) = (replicate m 1).map digits := pieces_joined_digits _
  have hne : oneLine m ≠ [] := by
    intro h
    rw [h] at hpieces
    exact replicate_ne_nil hm (map_eq_nil_iff.1 hpieces.symm)
  have hlabels : ((replicate m 1).map digits).mapM readLabel = some (replicate m 1) := by
    rw [mapM_map]
    conv_rhs => rw [← map_id (replicate m 1)]
    refine mapM_eq_some_map fun x hx => readLabel_digits ?_
    rw [eq_of_mem_replicate hx]
    decide
  have hline : '\n' ∉ oneLine m := newline_notMem_joined_digits _
  rw [readLabels, pieces_of_notMem hline hne, mapM_cons, hpieces, hlabels]
  rfl

theorem extra_oneLine (m : ℕ) : extra 1 [replicate m 1] = m - 1 := by
  rw [extra, map_singleton, sum_singleton, length_replicate, Nat.div_one]

theorem perm_mapOrder_id (dummies : List (ℕ × ℕ)) : (id dummies).Perm dummies := .refl dummies

/-- A point with `m` labels, of which all but the first need a dummy point. -/
def manyLabels (m : ℕ) (hm : m ≠ 0) : DenseCall Unit where
  rows := [()]
  text := oneLine m
  density := 1
  labels := [List.replicate m 1]
  mapOrder := id
  mapOrder_perm := perm_mapOrder_id
  density_pos := Nat.one_pos
  rows_lt := by decide
  readLabels_eq := readLabels_oneLine hm
  labels_length := rfl
  labels_ne_nil := fun l hl => by
    rw [List.mem_singleton.1 hl]
    exact replicate_ne_nil hm

theorem breakup_manyLabels (hm : m ≠ 0) (hle : 2 ^ 32 ≤ m) : (manyLabels m hm).breakup = none := by
  rcases breakLines_cases (manyLabels m hm) with ⟨hnone, -⟩ | ⟨-, -, -, hfit⟩
  · rw [DenseCall.breakup, hnone]
    rfl
  · have hfit' : 1 + extra 1 [replicate m 1] < 2 ^ 32 := hfit
    rw [extra_oneLine] at hfit'
    omega

/-- As many labels as there are ids: the last dummy point has none. -/
theorem manyLabels_not_brokenUp : ¬ ∃ out labelsPerPoint dummies,
    (manyLabels (2 ^ 32) (by decide)).breakup = some out ∧
      BrokenUp (manyLabels (2 ^ 32) (by decide)) out labelsPerPoint dummies := by
  rintro ⟨out, -, -, hout, -⟩
  rw [breakup_manyLabels _ (le_refl _)] at hout
  cases hout

end DiskANNEval.AiSAQ.DensePoints
