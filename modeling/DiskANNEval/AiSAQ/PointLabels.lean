import DiskANNEval.Lib.Loops
import DiskANNEval.Lib.Text

/-!
# PointLabels — the label file of the disk index

`parse_label_file` scans the file twice, over positions: once to count the points and the labels, and
once to fill arrays of that size.  Both passes see the pieces between the commas of each line
(`countLabels_eq`, `fillLine_eq`), but the counters have 32 bits.
-/

namespace DiskANNEval.AiSAQ.PointLabels

open Lib List Option Nat

/-- `std::string::find`; `none` is `npos`. -/
def findFrom (text : List Char) (c : Char) (pos : ℕ) : Option ℕ :=
  ((text.drop pos).idxOf? c).map (pos + ·)

theorem le_of_findFrom {text : List Char} {c : Char} {pos q : ℕ}
    (h : findFrom text c pos = some q) :
    pos ≤ q := by
  obtain ⟨k, -, rfl⟩ := map_eq_some_iff.1 h
  exact le_add_right pos k

theorem le_findFrom_getD (text : List Char) (c : Char) {pos d : ℕ} (hd : pos ≤ d) :
    pos ≤ (findFrom text c pos).getD d := by
  cases h : findFrom text c pos with
  | none => exact hd
  | some q => exact le_of_findFrom h

/-! ### `get_label_file_metadata` -/

/-- The loop over the labels of a line that ends at `nextPos`. -/
def countLabels (text : List Char) (nextPos lblPos numTotalLabels : ℕ) : ℕ :=
  if lblPos < nextPos then
    countLabels text nextPos ((findFrom text ',' lblPos).getD nextPos + 1)
      ((numTotalLabels + 1) % 2 ^ 32)
  else numTotalLabels
termination_by nextPos - lblPos
decreasing_by
  have := le_findFrom_getD text ',' (by omega : lblPos ≤ nextPos)
  omega

/-- The loop over the lines. -/
def countLines (text : List Char) (curPos numPts numTotalLabels : ℕ) : ℕ × ℕ :=
  if curPos < text.length then
    match hfind : findFrom text '\n' curPos with
    | none => (numPts, numTotalLabels)
    | some nextPos =>
      countLines text (nextPos + 1) ((numPts + 1) % 2 ^ 32)
        (countLabels text nextPos curPos numTotalLabels)
  else (numPts, numTotalLabels)
termination_by text.length - curPos
decreasing_by
  have := le_of_findFrom hfind
  omega

def getLabelFileMetadata (text : List Char) : ℕ × ℕ := countLines text 0 0 0

/-! ### `parse_label_file` -/

/-- What ends the process, or breaks the memory. -/
inductive Failure
  | invalidLabel
  | noLabel (pointId : ℕ)
  | pastArray
deriving DecidableEq

/-- The arrays, with `none` for what has not been written, and the counters.  The offsets and the
counts have the same size. -/
structure Arrays where
  offsets : List (Option ℕ)
  counts : List (Option ℕ)
  labels : List (Option ℕ)
  lineCnt : ℕ
  labelsSeenSoFar : ℕ

/-- A label, without a tab behind it; `none`: `std::stoul` throws. -/
def labelOf (token : List Char) : Option ℕ :=
  stoul (if token.getLast? = some '\t' then token.dropLast else token)

def pushLabel (label : ℕ) (s : Arrays) : Arrays :=
  { s with
    labels := s.labels.set s.labelsSeenSoFar (some label)
    labelsSeenSoFar := (s.labelsSeenSoFar + 1) % 2 ^ 32 }

/-- The loop over the labels of a line, with their number; `LabelT` has `bits` bits. -/
def fillLine (bits : ℕ) (text : List Char) (nextPos lblPos numLbls : ℕ) (s : Arrays) :
    Except Failure (ℕ × Arrays) :=
  if lblPos < nextPos then
    match labelOf ((text.drop lblPos).take
        (min ((findFrom text ',' lblPos).getD nextPos) nextPos - lblPos)) with
    | none => .error .invalidLabel
    | some label =>
      if s.labelsSeenSoFar < s.labels.length then
        fillLine bits text nextPos (min ((findFrom text ',' lblPos).getD nextPos) nextPos + 1)
          ((numLbls + 1) % 2 ^ 32) (pushLabel (label % 2 ^ bits) s)
      else .error .pastArray
  else .ok (numLbls, s)
termination_by nextPos - lblPos
decreasing_by
  have := le_findFrom_getD text ',' (by omega : lblPos ≤ nextPos)
  omega

def startLine (s : Arrays) : Arrays :=
  { s with offsets := s.offsets.set s.lineCnt (some s.labelsSeenSoFar) }

/-- The count of a line is in its place when the line has been read. -/
def endLine (numLbls : ℕ) (s : Arrays) : Arrays :=
  { s with
    counts := s.counts.set s.lineCnt (some numLbls)
    lineCnt := (s.lineCnt + 1) % 2 ^ 32 }

/-- The loop over the lines. -/
def fillLines (bits : ℕ) (text : List Char) (curPos : ℕ) (s : Arrays) : Except Failure Arrays :=
  if curPos < text.length then
    match _hfind : findFrom text '\n' curPos with
    | none => .ok s
    | some nextPos =>
      if s.lineCnt < s.offsets.length then
        match fillLine bits text nextPos curPos 0 (startLine s) with
        | .error e => .error e
        | .ok (numLbls, s) =>
          if numLbls = 0 then .error (.noLabel s.lineCnt)
          else fillLines bits text (nextPos + 1) (endLine numLbls s)
      else .error .pastArray
  else .ok s
termination_by text.length - curPos
decreasing_by
  have := le_of_findFrom _hfind
  omega

/-- The arrays have the sizes that the first pass has counted. -/
def parseLabelFile (bits : ℕ) (text : List Char) : Except Failure Arrays :=
  let (numPts, numTotalLabels) := getLabelFileMetadata text
  fillLines bits text 0
    { offsets := List.replicate numPts none
      counts := List.replicate numPts none
      labels := List.replicate numTotalLabels none
      lineCnt := 0
      labelsSeenSoFar := 0 }

/-! ### `point_has_label` -/

/-- `none`: a label that is not there is read. -/
def hasLabel (labels : List (Option ℕ)) (label pos : ℕ) : ℕ → Option Bool
  | 0 => some false
  | k + 1 => labels[pos]?.join.bind fun l =>
      if l = label then some true else hasLabel labels label ((pos + 1) % 2 ^ 32) k

def pointHasLabel (s : Arrays) (pointId label : ℕ) : Option Bool :=
  s.offsets[pointId]?.join.bind fun start => s.counts[pointId]?.join.bind fun numLbls =>
    hasLabel s.labels label start numLbls

/-! ### What is asked of the two passes -/

/-- A label file: its lines, each of at least one label that `LabelT` holds. -/
structure LabelFile where
  bits : ℕ
  lines : List (List Char)
  labels : List (List ℕ)
  newline_notMem : ∀ line ∈ lines, '\n' ∉ line
  labels_eq : lines.mapM (fun line => (pieces ',' line).mapM labelOf) = some labels
  labels_lt : ∀ l ∈ labels, ∀ label ∈ l, label < 2 ^ bits
  labels_ne_nil : ∀ l ∈ labels, l ≠ []

namespace LabelFile

variable (f : LabelFile)

def text : List Char := terminated '\n' f.lines

/-- The passes agree with the file and with each other, nothing is written past the arrays, and the
labels of each point are found. -/
def Parsed : Prop :=
  getLabelFileMetadata f.text = (f.labels.length, f.labels.flatten.length) ∧
    ∃ s, parseLabelFile f.bits f.text = .ok s ∧
      s.lineCnt = f.labels.length ∧ s.labelsSeenSoFar = f.labels.flatten.length ∧
      ∀ p labels, f.labels[p]? = some labels → ∀ label,
        pointHasLabel s p label = some (decide (label ∈ labels))

end LabelFile

/-! ### Positions and pieces -/

variable {text line token after : List Char} {c : Char} {pos : ℕ}

theorem findFrom_eq (h : text.drop pos = token ++ c :: after) (hc : c ∉ token) :
    findFrom text c pos = some (pos + token.length) := by
  have hidx : (token ++ c :: after).idxOf? c = some token.length := by
    refine idxOf?_eq_some_iff.2 ⟨by simp, by simp, ?_⟩
    intro j hj heq
    rw [getElem_append_left hj] at heq
    exact hc (heq ▸ getElem_mem hj)
  rw [findFrom, h, hidx, map_some]

theorem le_findFrom (h : text.drop pos = line ++ after) (hc : c ∉ line) :
    pos + line.length ≤ (findFrom text c pos).getD (pos + line.length) := by
  rw [findFrom, h]
  cases hidx : (line ++ after).idxOf? c with
  | none => exact le_refl _
  | some k =>
    obtain ⟨hk, hget, -⟩ := idxOf?_eq_some_iff.1 hidx
    refine Nat.add_le_add_left (Nat.le_of_not_lt fun hlt => ?_) pos
    rw [getElem_append_left hlt] at hget
    exact hc (hget ▸ getElem_mem hlt)

theorem drop_after (h : text.drop pos = token ++ c :: after) :
    text.drop (pos + token.length + 1) = after := by
  have hdrop : text.drop (pos + token.length + 1) = (text.drop pos).drop (token.length + 1) := by
    rw [drop_drop, add_assoc]
  rw [hdrop, h, drop_append, drop_of_length_le (le_succ _),
    Nat.add_sub_cancel_left]
  rfl

theorem pos_lt_of_drop (h : text.drop pos = token ++ c :: after) : pos < text.length := by
  by_contra hge
  rw [drop_of_length_le (Nat.le_of_not_lt hge)] at h
  exact absurd h.symm (by simp)

theorem countLabels_eq (h : text.drop pos = line ++ '\n' :: after) {k : ℕ} (hk : k < 2 ^ 32) :
    countLabels text (pos + line.length) pos k = (k + (pieces ',' line).length) % 2 ^ 32 := by
  induction line using pieces_induction ',' generalizing pos k with
  | nil =>
    rw [countLabels, length_nil, add_zero, if_neg (lt_irrefl pos)]
    exact (mod_eq_of_lt hk).symm
  | last p hne hp =>
    have hpos := length_pos_of_ne_nil hne
    have hend := le_findFrom h hp
    rw [countLabels, if_pos (by omega), countLabels, if_neg (by omega), pieces_of_notMem hp hne]
    rfl
  | piece p s hp ih =>
    rw [append_assoc] at h
    have hlen : pos + (p ++ ',' :: s).length = pos + p.length + 1 + s.length := by
      rw [length_append, length_cons]
      omega
    rw [countLabels, if_pos (by omega), findFrom_eq h hp, getD_some, hlen,
      ih (drop_after h) (mod_lt _ (by decide)), pieces_append hp, length_cons]
    omega

theorem countLines_eq {lines : List (List Char)} {labels : List (List ℕ)}
    (h : text.drop pos = terminated '\n' lines) (hline : ∀ line ∈ lines, '\n' ∉ line)
    (hlabels : lines.mapM (fun line => (pieces ',' line).mapM labelOf) = some labels) {n k : ℕ}
    (hn : n < 2 ^ 32) (hk : k < 2 ^ 32) :
    countLines text pos n k =
      ((n + labels.length) % 2 ^ 32, (k + labels.flatten.length) % 2 ^ 32) := by
  induction lines generalizing pos labels n k with
  | nil =>
    obtain rfl : labels = [] := (Option.some.inj hlabels).symm
    have hge : ¬ pos < text.length := not_lt.2 (drop_eq_nil_iff.1 h)
    rw [countLines, if_neg hge, flatten_nil, length_nil, length_nil, add_zero,
      add_zero, mod_eq_of_lt hn, mod_eq_of_lt hk]
  | cons line lines ih =>
    rw [forall_mem_cons] at hline
    obtain ⟨xs, rest, hxs, hrest, rfl⟩ := exists_of_mapM_cons hlabels
    rw [terminated_cons] at h
    rw [countLines, if_pos (pos_lt_of_drop h)]
    split
    next hnone =>
      rw [findFrom_eq h hline.1] at hnone
      cases hnone
    next nextPos hsome =>
      rw [findFrom_eq h hline.1] at hsome
      cases hsome
      rw [countLabels_eq h hk, ih (drop_after h) hline.2 hrest (mod_lt _ (by decide))
        (mod_lt _ (by decide)), length_of_mapM hxs, flatten_cons, length_append,
        length_cons, mod_add_mod, mod_add_mod]
      congr 2
      · omega
      · omega

/-! ### The second pass -/

variable {s : Arrays} {xs : List ℕ} {bits : ℕ}

def pushLabels (bits : ℕ) (xs : List ℕ) (s : Arrays) : Arrays :=
  xs.foldl (fun s x => pushLabel (x % 2 ^ bits) s) s

theorem take_of_drop (h : text.drop pos = token ++ after) :
    (text.drop pos).take (pos + token.length - pos) = token := by
  rw [h, Nat.add_sub_cancel_left, take_left]

theorem fillLine_eq (h : text.drop pos = line ++ '\n' :: after)
    (hxs : (pieces ',' line).mapM labelOf = some xs) (hsize : s.labels.length < 2 ^ 32)
    (hseen : s.labelsSeenSoFar ≤ s.labels.length) {k : ℕ} (hk : k < 2 ^ 32) :
    fillLine bits text (pos + line.length) pos k s =
      if s.labelsSeenSoFar + xs.length ≤ s.labels.length then
        .ok ((k + xs.length) % 2 ^ 32, pushLabels bits xs s)
      else .error .pastArray := by
  induction line using pieces_induction ',' generalizing pos xs s k with
  | nil =>
    obtain rfl : xs = [] := (Option.some.inj hxs).symm
    have hroom : s.labelsSeenSoFar + ([] : List ℕ).length ≤ s.labels.length := hseen
    have hcount : (k + ([] : List ℕ).length) % 2 ^ 32 = k := mod_eq_of_lt hk
    rw [fillLine, if_pos hroom, hcount, length_nil, add_zero, if_neg (lt_irrefl pos)]
    rfl
  | last p hne hp =>
    rw [pieces_of_notMem hp hne] at hxs
    obtain ⟨x, rest, hx, hrest, rfl⟩ := exists_of_mapM_cons hxs
    obtain rfl : rest = [] := (Option.some.inj hrest).symm
    have hpos := length_pos_of_ne_nil hne
    rw [fillLine, if_pos (by omega), min_eq_right (le_findFrom h hp), take_of_drop h, hx]
    dsimp only
    by_cases hroom : s.labelsSeenSoFar + [x].length ≤ s.labels.length
    · rw [if_pos hroom, if_pos (lt_of_succ_le hroom), fillLine, if_neg (by omega)]
      rfl
    · rw [if_neg hroom, if_neg (mt succ_le_of_lt hroom)]
  | piece p rest hp ih =>
    rw [pieces_append hp] at hxs
    obtain ⟨x, xs, hx, hrest, rfl⟩ := exists_of_mapM_cons hxs
    rw [append_assoc] at h
    have hlen : pos + (p ++ ',' :: rest).length = pos + p.length + 1 + rest.length := by
      rw [length_append, length_cons]
      omega
    have hmin : min (pos + p.length) (pos + p.length + 1 + rest.length) = pos + p.length :=
      Nat.min_eq_left (by omega)
    rw [fillLine, if_pos (by omega), findFrom_eq h hp, getD_some, hlen, hmin, take_of_drop h,
      hx, length_cons]
    dsimp only
    by_cases hroom : s.labelsSeenSoFar < s.labels.length
    · have hlabels : (pushLabel (x % 2 ^ bits) s).labels.length = s.labels.length :=
        length_set
      have hseen' : (pushLabel (x % 2 ^ bits) s).labelsSeenSoFar = s.labelsSeenSoFar + 1 :=
        mod_eq_of_lt (by omega)
      rw [if_pos hroom, ih (drop_after h) hrest (by rwa [hlabels]) (by rw [hlabels]; omega)
        (mod_lt _ (by decide)), hlabels, hseen', mod_add_mod,
        add_right_comm s.labelsSeenSoFar, add_right_comm k]
      rfl
    · rw [if_neg hroom, if_neg (by omega)]

/-! ### What the arrays hold -/

/-- The labels that have been written. -/
structure Holds (all : List ℕ) (s : Arrays) : Prop where
  seen : s.labelsSeenSoFar = all.length
  le : all.length ≤ s.labels.length
  lt : s.labels.length < 2 ^ 32
  labels : ∀ (i x : ℕ), all[i]? = some x → s.labels[i]? = some (some x)

variable {all : List ℕ}

theorem Holds.push (h : Holds all s) (hroom : all.length < s.labels.length) (x : ℕ) :
    Holds (all ++ [x]) (pushLabel x s) := by
  have hlen : (pushLabel x s).labels.length = s.labels.length := length_set
  refine ⟨?_, ?_, ?_, ?_⟩
  · show (s.labelsSeenSoFar + 1) % 2 ^ 32 = _
    rw [h.seen, length_append]
    exact mod_eq_of_lt (lt_of_le_of_lt hroom h.lt)
  · rw [hlen, length_append]
    exact hroom
  · rw [hlen]
    exact h.lt
  · intro i y hy
    show (s.labels.set s.labelsSeenSoFar (some x))[i]? = _
    rw [h.seen]
    rcases Nat.lt_or_ge i all.length with hi | hi
    · rw [getElem?_append_left hi] at hy
      rw [getElem?_set_ne (by omega)]
      exact h.labels i y hy
    · rw [getElem?_append_right hi] at hy
      obtain ⟨hlt, rfl⟩ := List.getElem?_eq_some_iff.1 hy
      rw [length_singleton] at hlt
      obtain rfl : i = all.length := by omega
      rw [getElem?_set_self hroom]
      simp

theorem Holds.pushAll (h : Holds all s) (hroom : all.length + xs.length ≤ s.labels.length)
    (hlt : ∀ x ∈ xs, x < 2 ^ bits) :
    Holds (all ++ xs) (pushLabels bits xs s) ∧
      (pushLabels bits xs s).labels.length = s.labels.length ∧
      (pushLabels bits xs s).offsets = s.offsets ∧ (pushLabels bits xs s).counts = s.counts ∧
      (pushLabels bits xs s).lineCnt = s.lineCnt := by
  induction xs generalizing s all with
  | nil =>
    rw [append_nil]
    exact ⟨h, rfl, rfl, rfl, rfl⟩
  | cons x xs ih =>
    rw [forall_mem_cons] at hlt
    rw [length_cons] at hroom
    have hlen : (pushLabel x s).labels.length = s.labels.length := length_set
    have hpush := h.push (by omega) x
    have hroom' : (all ++ [x]).length + xs.length ≤ (pushLabel x s).labels.length := by
      rw [hlen, length_append, length_singleton]
      omega
    obtain ⟨hholds, hlabels, hrest⟩ := ih hpush hroom' hlt.2
    have hstep : pushLabels bits (x :: xs) s = pushLabels bits xs (pushLabel x s) := by
      unfold pushLabels
      rw [foldl_cons, mod_eq_of_lt hlt.1]
    rw [hstep, append_cons]
    exact ⟨hholds, hlabels.trans hlen, hrest⟩

/-- The lines that have been read. -/
structure Filled (done : List (List ℕ)) (s : Arrays) : Prop extends Holds done.flatten s where
  lineCnt : s.lineCnt = done.length
  lines_le : done.length ≤ s.offsets.length
  sizes : s.counts.length = s.offsets.length
  offsets_lt : s.offsets.length < 2 ^ 32
  offsets : ∀ p < done.length, s.offsets[p]? = some (some (done.take p).flatten.length)
  counts : ∀ (p : ℕ) labels, done[p]? = some labels → s.counts[p]? = some (some labels.length)

variable {done : List (List ℕ)}

theorem Filled.addLine (h : Filled done s) (hlines : done.length < s.offsets.length)
    (hroom : done.flatten.length + xs.length ≤ s.labels.length) (hlt : ∀ x ∈ xs, x < 2 ^ bits) :
    Filled (done ++ [xs]) (endLine xs.length (pushLabels bits xs (startLine s))) ∧
      (pushLabels bits xs (startLine s)).labels.length = s.labels.length ∧
      (pushLabels bits xs (startLine s)).offsets.length = s.offsets.length := by
  have hstart : Holds done.flatten (startLine s) := ⟨h.seen, h.le, h.lt, h.labels⟩
  obtain ⟨hholds, hlabels, hoffsets, hcounts, hcnt⟩ := hstart.pushAll hroom hlt
  have hoffsets' : (pushLabels bits xs (startLine s)).offsets =
      s.offsets.set done.length (some done.flatten.length) := by
    rw [hoffsets, startLine, h.lineCnt, h.seen]
  have hcounts' : (endLine xs.length (pushLabels bits xs (startLine s))).counts =
      s.counts.set done.length (some xs.length) := by
    show (pushLabels bits xs (startLine s)).counts.set _ _ = _
    rw [hcounts, hcnt]
    exact congrArg (s.counts.set · (some xs.length)) h.lineCnt
  have hflat : (done ++ [xs]).flatten = done.flatten ++ xs := by
    rw [flatten_append, flatten_singleton]
  refine ⟨⟨⟨?_, ?_, ?_, ?_⟩, ?_, ?_, ?_, ?_, ?_, ?_⟩, hlabels, ?_⟩
  · rw [hflat]
    exact hholds.seen
  · rw [hflat]
    exact hholds.le
  · exact hholds.lt
  · rw [hflat]
    exact hholds.labels
  · show ((pushLabels bits xs (startLine s)).lineCnt + 1) % 2 ^ 32 = _
    have hline : (startLine s).lineCnt = done.length := h.lineCnt
    have := h.offsets_lt
    rw [hcnt, hline, length_append, length_singleton, mod_eq_of_lt (by omega)]
  · show _ ≤ (pushLabels bits xs (startLine s)).offsets.length
    rw [hoffsets', length_set, length_append]
    exact hlines
  · show _ = (pushLabels bits xs (startLine s)).offsets.length
    rw [hcounts', hoffsets', length_set, length_set]
    exact h.sizes
  · show (pushLabels bits xs (startLine s)).offsets.length < 2 ^ 32
    rw [hoffsets', length_set]
    exact h.offsets_lt
  · intro p hp
    show (pushLabels bits xs (startLine s)).offsets[p]? = _
    rw [hoffsets']
    rw [length_append, length_singleton] at hp
    rcases Nat.lt_or_ge p done.length with hlt | hge
    · rw [getElem?_set_ne (by omega), take_append_of_le_length hlt.le]
      exact h.offsets p hlt
    · obtain rfl : p = done.length := by omega
      rw [getElem?_set_self hlines, take_left]
  · intro p labels hp
    rw [hcounts']
    rcases Nat.lt_or_ge p done.length with hlt | hge
    · rw [getElem?_append_left hlt] at hp
      rw [getElem?_set_ne (by omega)]
      exact h.counts p labels hp
    · rw [getElem?_append_right hge] at hp
      obtain ⟨hlt, rfl⟩ := List.getElem?_eq_some_iff.1 hp
      rw [length_singleton] at hlt
      obtain rfl : p = done.length := by omega
      rw [getElem?_set_self (by rwa [h.sizes])]
      simp
  · rw [hoffsets', length_set]

/-- Room for the lines that are left. -/
def Room (done rest : List (List ℕ)) (s : Arrays) : Prop :=
  done.flatten.length + rest.flatten.length ≤ s.labels.length ∧
    done.length + rest.length ≤ s.offsets.length

theorem room_concat {rest : List (List ℕ)} {s' : Arrays}
    (hlabels : s'.labels.length = s.labels.length) (hoffsets : s'.offsets.length = s.offsets.length) :
    Room (done ++ [xs]) rest s' ↔ Room done (xs :: rest) s := by
  simp only [Room, flatten_append, flatten_cons, flatten_nil, length_append, length_cons, length_nil]
  omega

theorem Filled.fillLines (h : Filled done s) {lines : List (List Char)} {rest : List (List ℕ)}
    (htext : text.drop pos = terminated '\n' lines) (hline : ∀ line ∈ lines, '\n' ∉ line)
    (hlabels : lines.mapM (fun line => (pieces ',' line).mapM labelOf) = some rest)
    (hlt : ∀ l ∈ rest, ∀ label ∈ l, label < 2 ^ bits) (hne : ∀ l ∈ rest, l ≠ []) :
    (Room done rest s ∧ ∃ s', fillLines bits text pos s = .ok s' ∧ Filled (done ++ rest) s') ∨
      ¬ Room done rest s ∧ fillLines bits text pos s = .error .pastArray := by
  induction lines generalizing pos done s rest with
  | nil =>
    obtain rfl : rest = [] := (Option.some.inj hlabels).symm
    have hge : ¬ pos < text.length := not_lt.2 (drop_eq_nil_iff.1 htext)
    rw [PointLabels.fillLines, if_neg hge, append_nil]
    exact Or.inl ⟨⟨h.le, h.lines_le⟩, s, rfl, h⟩
  | cons line lines ih =>
    rw [forall_mem_cons] at hline
    obtain ⟨xs, rest, hxs, hrest, rfl⟩ := exists_of_mapM_cons hlabels
    rw [forall_mem_cons] at hlt hne
    rw [terminated_cons] at htext
    have hfind := findFrom_eq htext hline.1
    rw [PointLabels.fillLines, if_pos (pos_lt_of_drop htext)]
    split
    next hnone =>
      rw [hfind] at hnone
      cases hnone
    next nextPos hsome =>
      obtain rfl := Option.some.inj (hfind.symm.trans hsome)
      rw [h.lineCnt]
      by_cases hlines : done.length < s.offsets.length
      · have hsize : (startLine s).labels.length < 2 ^ 32 := h.lt
        have hseen : (startLine s).labelsSeenSoFar = done.flatten.length := h.seen
        have hcond : (startLine s).labelsSeenSoFar + xs.length ≤ (startLine s).labels.length ↔
            done.flatten.length + xs.length ≤ s.labels.length := by
          rw [hseen]
          rfl
        rw [if_pos hlines, fillLine_eq htext hxs hsize (hseen ▸ h.le) (by decide : 0 < 2 ^ 32),
          zero_add]
        by_cases hroom : done.flatten.length + xs.length ≤ s.labels.length
        · obtain ⟨hfilled, hlabels, hoffsets⟩ := h.addLine hlines hroom hlt.1
          have hlen : xs.length < 2 ^ 32 := by
            omega
          have hpos : xs.length ≠ 0 := (length_pos_of_ne_nil hne.1).ne'
          rw [if_pos (hcond.2 hroom), mod_eq_of_lt hlen]
          dsimp only
          rw [if_neg hpos, ← room_concat hlabels hoffsets, append_cons done xs rest]
          exact ih hfilled (drop_after htext) hline.2 hrest hlt.2 hne.2
        · rw [if_neg (mt hcond.1 hroom)]
          refine Or.inr ⟨fun hall => hroom ?_, rfl⟩
          have := hall.1
          rw [flatten_cons, length_append] at this
          omega
      · rw [if_neg hlines]
        refine Or.inr ⟨fun hall => hlines ?_, rfl⟩
        have := hall.2
        rw [length_cons] at this
        omega

/-! ### The labels of a point -/

theorem hasLabel_eq {labels : List (Option ℕ)} (hsize : labels.length < 2 ^ 32) (label : ℕ)
    (h : ∀ (j x : ℕ), xs[j]? = some x → labels[pos + j]? = some (some x)) :
    hasLabel labels label pos xs.length = some (decide (label ∈ xs)) := by
  induction xs generalizing pos with
  | nil => rfl
  | cons x xs ih =>
    have hx : labels[pos]? = some (some x) := h 0 x rfl
    rw [length_cons, hasLabel, hx]
    show (if x = label then some true else hasLabel labels label ((pos + 1) % 2 ^ 32) xs.length) = _
    split_ifs with heq
    · rw [heq]
      simp
    · obtain ⟨hpos, -⟩ := List.getElem?_eq_some_iff.1 hx
      rw [mod_eq_of_lt (by omega), ih]
      · simp [Ne.symm heq]
      · intro j y hj
        rw [add_assoc, add_comm 1 j]
        exact h (j + 1) y hj

theorem Filled.pointHasLabel (h : Filled done s) {p : ℕ} {labels : List ℕ}
    (hp : done[p]? = some labels) (label : ℕ) :
    pointHasLabel s p label = some (decide (label ∈ labels)) := by
  obtain ⟨hlt, rfl⟩ := List.getElem?_eq_some_iff.1 hp
  rw [PointLabels.pointHasLabel, h.offsets p hlt, h.counts p _ hp]
  refine hasLabel_eq h.lt label fun j x hj => h.labels _ x ?_
  have hsplit : done.flatten = (done.take p).flatten ++ (done[p] ++ (done.drop (p + 1)).flatten) := by
    conv_lhs => rw [← take_append_drop p done, drop_eq_getElem_cons hlt]
    rw [flatten_append, flatten_cons]
  obtain ⟨hj', -⟩ := List.getElem?_eq_some_iff.1 hj
  rw [hsplit, getElem?_append_right (le_add_right _ j), Nat.add_sub_cancel_left,
    getElem?_append_left hj']
  exact hj

/-! ### The file -/

theorem length_le_flatten {l : List (List ℕ)} (h : ∀ labels ∈ l, labels ≠ []) :
    l.length ≤ l.flatten.length := by
  induction l with
  | nil => exact le_refl _
  | cons labels l ih =>
    rw [forall_mem_cons] at h
    have := ih h.2
    have := length_pos_of_ne_nil h.1
    rw [length_cons, flatten_cons, length_append]
    omega

theorem filled_start (numPts numTotalLabels : ℕ) (hpts : numPts < 2 ^ 32)
    (htotal : numTotalLabels < 2 ^ 32) :
    Filled [] ⟨replicate numPts none, replicate numPts none,
      replicate numTotalLabels none, 0, 0⟩ := by
  refine ⟨⟨rfl, zero_le _, ?_, ?_⟩, rfl, zero_le _, ?_, ?_, ?_, ?_⟩
  · rwa [length_replicate]
  · exact fun i x hx => absurd hx (by simp)
  · rfl
  · rwa [length_replicate]
  · exact fun p hp => absurd hp (not_lt_zero p)
  · exact fun p labels hp => absurd hp (by simp)

namespace LabelFile

variable (f : LabelFile)

theorem text_drop : f.text.drop 0 = terminated '\n' f.lines := rfl

theorem metadata_eq : getLabelFileMetadata f.text =
    (f.labels.length % 2 ^ 32, f.labels.flatten.length % 2 ^ 32) := by
  have hcount := countLines_eq f.text_drop f.newline_notMem f.labels_eq
    (by decide : 0 < 2 ^ 32) (by decide : 0 < 2 ^ 32)
  rw [zero_add, zero_add] at hcount
  exact hcount

/-- The two passes come to their end together exactly when the labels can be counted. -/
theorem parse_cases :
    (f.labels.flatten.length < 2 ^ 32 ∧
        ∃ s, parseLabelFile f.bits f.text = .ok s ∧ Filled f.labels s) ∨
      ¬ f.labels.flatten.length < 2 ^ 32 ∧ parseLabelFile f.bits f.text = .error .pastArray := by
  have hpts : f.labels.length % 2 ^ 32 < 2 ^ 32 := mod_lt _ (by decide)
  have htotal : f.labels.flatten.length % 2 ^ 32 < 2 ^ 32 := mod_lt _ (by decide)
  have hfill := (filled_start _ _ hpts htotal).fillLines f.text_drop
    f.newline_notMem f.labels_eq f.labels_lt f.labels_ne_nil
  have hroom : Room [] f.labels ⟨replicate (f.labels.length % 2 ^ 32) none,
      replicate (f.labels.length % 2 ^ 32) none,
      replicate (f.labels.flatten.length % 2 ^ 32) none, 0, 0⟩ ↔
        f.labels.flatten.length < 2 ^ 32 := by
    have hle := length_le_flatten f.labels_ne_nil
    simp only [Room, length_replicate, flatten_nil, length_nil]
    omega
  rw [hroom] at hfill
  unfold parseLabelFile
  rw [metadata_eq]
  exact hfill

theorem parsed_iff : f.Parsed ↔ f.labels.flatten.length < 2 ^ 32 := by
  rcases f.parse_cases with ⟨hlt, s, hparse, hs⟩ | ⟨hge, hparse⟩
  · refine iff_of_true ⟨?_, s, hparse, hs.lineCnt, hs.seen, fun p labels => hs.pointHasLabel⟩ hlt
    have hle := length_le_flatten f.labels_ne_nil
    rw [metadata_eq, mod_eq_of_lt hlt, mod_eq_of_lt (hle.trans_lt hlt)]
  · refine iff_of_false ?_ hge
    rintro ⟨-, s, hs, -⟩
    rw [hparse] at hs
    cases hs

end LabelFile

/-! ### More labels than the counter counts -/

/-- A file of `m` points with the label 1. -/
def onePerPoint (m : ℕ) : LabelFile where
  bits := 32
  lines := List.replicate m ['1']
  labels := List.replicate m [1]
  newline_notMem := fun line hline => by
    rw [List.eq_of_mem_replicate hline]
    decide
  labels_eq := by
    rw [← List.map_replicate (f := fun _ => [1]) (a := ['1'])]
    refine mapM_eq_some_map fun line hline => ?_
    rw [List.eq_of_mem_replicate hline]
    decide
  labels_lt := fun l hl label hlabel => by
    rw [List.eq_of_mem_replicate hl] at hlabel
    rw [List.mem_singleton.1 hlabel]
    decide
  labels_ne_nil := fun l hl => by
    rw [List.eq_of_mem_replicate hl]
    exact List.cons_ne_nil _ _

theorem length_onePerPoint (m : ℕ) : (onePerPoint m).labels.flatten.length = m := by
  show (replicate m [1]).flatten.length = m
  simp

/-- The array for the labels is empty, and the first label is written past it. -/
theorem onePerPoint_not_parsed : ¬ (onePerPoint (2 ^ 32)).Parsed := by
  rcases (onePerPoint (2 ^ 32)).parse_cases with ⟨hlt, -⟩ | ⟨-, hparse⟩
  · rw [length_onePerPoint] at hlt
    exact absurd hlt (lt_irrefl _)
  · rintro ⟨-, s, hs, -⟩
    rw [hparse] at hs
    cases hs

end DiskANNEval.AiSAQ.PointLabels
