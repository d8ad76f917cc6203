import DiskANNEval.AiSAQ.DiskLayout

/-!
# DiskRecords — what is in one record

`node_buf` has the number of neighbours and their ids; the fields of the record are written over it,
or beside it into `multisector_buf`.  `Holds` says that a buffer has a list of neighbours in it: the
coordinates are written before it, the old id and the codes behind it.
-/

namespace DiskANNEval.AiSAQ.DiskLayout

open Lib AiSAQ.MergeShards Option List

variable {w : Writer}

/-! ### The neighbours in a buffer -/

/-- The buffer has these neighbours where the record has them. -/
structure Writer.Holds (w : Writer) (nbrs : List ℕ) (b : List UInt8) : Prop where
  nnbrs : slice b w.files.coordLen 4 = leBytes 4 nbrs.length
  nhood : slice b (w.files.coordLen + 4) (nbrs.length * 4) = leList 4 nbrs
  fits : w.files.coordLen + 4 + nbrs.length * 4 ≤ b.length

variable {nbrs : List ℕ} {b nodeBuf coords dst r : List UInt8}

theorem Writer.Holds.congr {c : List UInt8} (h : w.Holds nbrs c) {lo hi : ℕ}
    (ha : AgreesOutside b c lo hi)
    (hout : hi ≤ w.files.coordLen ∨ w.files.coordLen + 4 + nbrs.length * 4 ≤ lo) :
    w.Holds nbrs b := by
  refine ⟨?_, ?_, by rw [ha.1]; exact h.fits⟩
  · rw [ha.2 _ _ (by omega), h.nnbrs]
  · rw [ha.2 _ _ (by omega), h.nhood]

theorem Writer.Holds.readNnbrs (h : w.Holds nbrs b) (hlen : nbrs.length < 2 ^ 32) :
    w.nnbrs b = some nbrs.length := by
  have hfits := h.fits
  rw [Writer.nnbrs, readLe_of_slice (by omega) h.nnbrs, Nat.mod_eq_of_lt hlen]

theorem Writer.Holds.readNhoodBuf (h : w.Holds nbrs b) (hlt : ∀ n ∈ nbrs, n < 2 ^ 32) {j : ℕ}
    (hj : j < nbrs.length) : w.nhoodBuf b j = some nbrs[j] := by
  have hfits := h.fits
  have hslot : slice b (w.files.coordLen + 4 + j * 4) 4 = leBytes 4 nbrs[j] := by
    rw [← @slice_slice b _ (nbrs.length * 4) _ _ (by omega), h.nhood, slice_leList hj]
  rw [Writer.nhoodBuf, readLe_of_slice (by omega) hslot,
    Nat.mod_eq_of_lt (hlt _ (getElem_mem hj))]

/-! ### Reading the graph -/

theorem Writer.readNhood_spec {words rest : List ℕ} {k : ℕ}
    (hdeg : nbrs.length ≤ w.files.vamana.width) (hwords : words = nbrs.length :: (nbrs ++ rest))
    {words' : List ℕ} (h : w.readNhood nodeBuf words = some (k, b, words')) :
    k = nbrs.length ∧ words' = rest ∧ w.Holds nbrs b ∧ b.length = nodeBuf.length := by
  subst hwords
  obtain ⟨b₁, hb₁, h⟩ := bind_eq_some_iff.mp h
  split at h
  · cases h
  · rw [Nat.min_eq_left hdeg, if_pos (by simp)] at h
    obtain ⟨b₂, hb₂, h⟩ := map_eq_some_iff.mp h
    cases h
    rw [take_left] at hb₂
    have ha := agreesOutside_write hb₂
    have hfit := (write_eq_some hb₂).1
    have hsame := slice_write_same hb₂
    have hnn := slice_write_same hb₁
    rw [length_leList] at hsame hfit ha
    rw [length_leBytes] at hnn
    refine ⟨rfl, drop_left, ⟨?_, hsame, ?_⟩, by rw [length_write hb₂, length_write hb₁]⟩
    · rw [ha.2 _ _ (by omega), hnn]
    · rw [length_write hb₂]
      exact hfit

theorem Writer.length_readNhood {words words' : List ℕ} {k : ℕ}
    (h : w.readNhood nodeBuf words = some (k, b, words')) : b.length = nodeBuf.length := by
  cases words with
  | nil => cases h
  | cons nnbrs words =>
    obtain ⟨b₁, hb₁, h⟩ := bind_eq_some_iff.mp h
    dsimp only at h
    split_ifs at h
    obtain ⟨b₂, hb₂, h⟩ := map_eq_some_iff.mp h
    cases h
    rw [length_write hb₂, length_write hb₁]

theorem Writer.rename_slots {n : ℕ} (h : w.rename n nodeBuf = some b) :
    AgreesOutside b nodeBuf (w.files.coordLen + 4) (w.files.coordLen + 4 + n * 4) ∧
      ∀ j < n, ∃ id id', w.nhoodBuf nodeBuf j = some id ∧ w.map[id]? = some id' ∧
        slice b (w.files.coordLen + 4 + j * 4) 4 = leBytes 4 id' := by
  have hfold : w.rename n nodeBuf = (List.range n).foldlM
      (fun b j => ((w.nhoodBuf b j).bind fun id => w.map[id]?.map (leBytes 4)).bind fun bs =>
        write b (w.files.coordLen + 4 + j * 4) bs) nodeBuf := by
    rw [Writer.rename]
    congr 1
    funext b j
    rw [bind_assoc]
    congr 1
    funext id
    cases w.map[id]? with
    | none => rfl
    | some id' => rfl
  rw [hfold] at h
  have hg : ∀ (b : List UInt8) (k : ℕ) (bs : List UInt8),
      ((w.nhoodBuf b k).bind fun id => w.map[id]?.map (leBytes 4)) = some bs → bs.length = 4 := by
    intro b k bs hbs
    obtain ⟨id, -, hbs⟩ := bind_eq_some_iff.mp hbs
    obtain ⟨id', -, rfl⟩ := map_eq_some_iff.mp hbs
    exact length_leBytes 4 id'
  obtain ⟨hagree, hall⟩ := foldlM_write_spec hg h
  refine ⟨hagree, ?_⟩
  intro j hj
  obtain ⟨c, hc, hgc⟩ := hall j hj
  obtain ⟨id, hid, hgc⟩ := bind_eq_some_iff.mp hgc
  obtain ⟨id', hid', hslot⟩ := map_eq_some_iff.mp hgc
  refine ⟨id, id', ?_, hid', hslot.symm⟩
  -- slot `j` is not yet written when it is read
  rw [← hid]
  exact readLe_congr hc.1.symm (hc.2 _ _ (Or.inr le_rfl)).symm

/-- The new id of a node. -/
def Writer.newId (w : Writer) (n : ℕ) : ℕ := w.map[n]?.getD 0

theorem Writer.rename_spec (hlt : ∀ n ∈ nbrs, n < 2 ^ 32) (hold : w.Holds nbrs nodeBuf)
    (h : w.rename nbrs.length nodeBuf = some b) :
    (∀ n ∈ nbrs, w.map[n]? = some (w.newId n)) ∧ w.Holds (nbrs.map w.newId) b := by
  obtain ⟨hagree, hslots⟩ := Writer.rename_slots h
  have hslot : ∀ j, (hj : j < nbrs.length) → w.map[nbrs[j]]? = some (w.newId nbrs[j]) ∧
      slice b (w.files.coordLen + 4 + j * 4) 4 = leBytes 4 (w.newId nbrs[j]) := by
    intro j hj
    obtain ⟨id, id', hid, hid', hs⟩ := hslots j hj
    rw [hold.readNhoodBuf hlt hj, Option.some.injEq] at hid
    subst hid
    rw [Writer.newId, hid']
    exact ⟨rfl, hs⟩
  refine ⟨?_, ⟨?_, ?_, ?_⟩⟩
  · intro n hn
    obtain ⟨j, hj, rfl⟩ := getElem_of_mem hn
    exact (hslot j hj).1
  · rw [length_map, hagree.2 _ _ (Or.inl le_rfl), hold.nnbrs]
  · apply slice_eq_leList
    intro j hj
    rw [getElem_map]
    exact (hslot j (by simpa using hj)).2
  · rw [length_map, hagree.1]
    exact hold.fits

variable {rid : ℕ}

theorem Writer.length_readNode {cur : ℕ} {rd rd' : Readers}
    (h : w.readNode cur rd = some (rid, coords, nodeBuf, rd')) :
    nodeBuf.length = w.layout.maxNodeLen := by
  rw [Writer.readNode] at h
  split_ifs at h
  · obtain ⟨rid', -, h⟩ := bind_eq_some_iff.mp h
    obtain ⟨pos, -, h⟩ := bind_eq_some_iff.mp h
    obtain ⟨⟨k, b, ws⟩, hread, h⟩ := bind_eq_some_iff.mp h
    obtain ⟨b', hb', h⟩ := bind_eq_some_iff.mp h
    obtain ⟨c, -, h⟩ := map_eq_some_iff.mp h
    cases h
    rw [(Writer.rename_slots hb').1.1, Writer.length_readNhood hread, length_replicate]
  · obtain ⟨⟨k, b, ws⟩, hread, h⟩ := bind_eq_some_iff.mp h
    obtain ⟨c, -, h⟩ := map_eq_some_iff.mp h
    cases h
    rw [Writer.length_readNhood hread, length_replicate]

/-! ### Writing the fields -/

variable {src : List UInt8 → List UInt8}

/-- The slots of the codes, each with the code of the neighbour that is read for it. -/
theorem Writer.putCodes_slots (h : w.putCodes src dst = some r) :
    ∃ nnbrs, w.nnbrs (src dst) = some nnbrs ∧
      AgreesOutside r dst w.codesOffset
        (w.codesOffset + min w.layout.inlinePqVectors nnbrs * w.files.pqNbytes) ∧
      ∀ cv < min w.layout.inlinePqVectors nnbrs, ∃ b id,
        AgreesOutside b dst w.codesOffset (w.codesOffset + cv * w.files.pqNbytes) ∧
        w.nhoodBuf (src b) cv = some id ∧
        readSlice w.pq (id * w.files.pqNbytes) w.files.pqNbytes =
          some (slice r (w.codesOffset + cv * w.files.pqNbytes) w.files.pqNbytes) := by
  obtain ⟨nnbrs, hnn, h⟩ := bind_eq_some_iff.mp h
  have hfold : ∀ b cv, ((w.nhoodBuf (src b) cv).bind fun id =>
      (readSlice w.pq (id * w.files.pqNbytes) w.files.pqNbytes).bind fun code =>
        write b (w.codesOffset + cv * w.files.pqNbytes) code) =
      ((w.nhoodBuf (src b) cv).bind fun id =>
        readSlice w.pq (id * w.files.pqNbytes) w.files.pqNbytes).bind fun code =>
          write b (w.codesOffset + cv * w.files.pqNbytes) code := by
    intro b cv
    rw [bind_assoc]
  simp only [hfold] at h
  have hg : ∀ (b : List UInt8) (cv : ℕ) (bs : List UInt8),
      ((w.nhoodBuf (src b) cv).bind fun id =>
        readSlice w.pq (id * w.files.pqNbytes) w.files.pqNbytes) = some bs →
      bs.length = w.files.pqNbytes := by
    intro b cv bs hbs
    obtain ⟨id, -, hbs⟩ := bind_eq_some_iff.mp hbs
    obtain ⟨hfit, rfl⟩ := readSlice_eq_some.mp hbs
    exact length_slice hfit
  obtain ⟨hagree, hall⟩ := foldlM_write_spec hg h
  refine ⟨nnbrs, hnn, hagree, ?_⟩
  intro cv hcv
  obtain ⟨b, hb, hgb⟩ := hall cv hcv
  obtain ⟨id, hid, hcode⟩ := bind_eq_some_iff.mp hgb
  exact ⟨b, id, hb, hid, hcode⟩

theorem Writer.putRecord_eq_some (h : w.putRecord src rid coords dst = some r) :
    ∃ d₁ k₁ d₂ k₂ nhood d₃ d₄, write dst 0 coords = some d₁ ∧ w.nnbrs (src d₁) = some k₁ ∧
      write d₁ w.files.coordLen (leBytes 4 (min k₁ w.files.vamana.width)) = some d₂ ∧
      w.nnbrs (src d₂) = some k₂ ∧
      readSlice (src d₂) (w.files.coordLen + 4) (min k₂ w.files.vamana.width * 4) = some nhood ∧
      write d₂ (w.files.coordLen + 4) nhood = some d₃ ∧
      (if w.layout.rearrange = true then write d₃ w.auxOffset (leBytes 4 rid) else some d₃) =
        some d₄ ∧
      (if 0 < w.layout.inlinePqVectors then w.putCodes src d₄ else some d₄) = some r := by
  obtain ⟨d₁, h₁, h⟩ := bind_eq_some_iff.mp h
  obtain ⟨k₁, hk₁, h⟩ := bind_eq_some_iff.mp h
  obtain ⟨d₂, h₂, h⟩ := bind_eq_some_iff.mp h
  obtain ⟨k₂, hk₂, h⟩ := bind_eq_some_iff.mp h
  obtain ⟨nhood, hn, h⟩ := bind_eq_some_iff.mp h
  obtain ⟨d₃, h₃, h⟩ := bind_eq_some_iff.mp h
  obtain ⟨d₄, h₄, h⟩ := bind_eq_some_iff.mp h
  exact ⟨d₁, k₁, d₂, k₂, nhood, d₃, d₄, h₁, hk₁, h₂, hk₂, hn, h₃, h₄, h⟩

theorem Writer.length_putRecord (h : w.putRecord src rid coords dst = some r) :
    r.length = dst.length := by
  obtain ⟨d₁, k₁, d₂, k₂, nhood, d₃, d₄, h₁, -, h₂, -, -, h₃, h₄, h₅⟩ := Writer.putRecord_eq_some h
  have hd₄ : d₄.length = d₃.length := by
    split at h₄
    · exact length_write h₄
    · cases h₄
      rfl
  have hr : r.length = d₄.length := by
    split at h₅
    · obtain ⟨nnbrs, -, hagree, -⟩ := Writer.putCodes_slots h₅
      exact hagree.1
    · cases h₅
      rfl
  rw [hr, hd₄, length_write h₃, length_write h₂, length_write h₁]

/-- The record of a node with these fields. -/
structure Writer.IsRecord (w : Writer) (rid : ℕ) (coords : List UInt8) (nbrs : List ℕ)
    (r : List UInt8) : Prop where
  coords : slice r 0 w.files.coordLen = coords
  holds : w.Holds nbrs r
  rid : w.layout.rearrange = true → slice r w.auxOffset 4 = leBytes 4 rid
  codes : ∀ cv id, cv < w.layout.inlinePqVectors → nbrs[cv]? = some id →
    readSlice w.pq (id * w.files.pqNbytes) w.files.pqNbytes =
      some (slice r (w.codesOffset + cv * w.files.pqNbytes) w.files.pqNbytes)

/-- `putRecord` makes the record.  When the neighbours are in `dst` itself they stay there until
they are written over themselves. -/
theorem Writer.putRecord_spec (hcoords : coords.length = w.files.coordLen)
    (hdeg : nbrs.length ≤ w.files.vamana.width) (hlen : nbrs.length < 2 ^ 32)
    (hlt : ∀ n ∈ nbrs, n < 2 ^ 32)
    (hsrc : ∀ d, (w.Holds nbrs dst → w.Holds nbrs d) → w.Holds nbrs (src d))
    (h : w.putRecord src rid coords dst = some r) : w.IsRecord rid coords nbrs r := by
  obtain ⟨d₁, k₁, d₂, k₂, nhood, d₃, d₄, h₁, hk₁, h₂, hk₂, hn, h₃, h₄, h₅⟩ :=
    Writer.putRecord_eq_some h
  have haux : w.auxOffset = w.files.coordLen + (w.files.vamana.width + 1) * 4 := rfl
  have hcodes : w.auxOffset ≤ w.codesOffset := Nat.le_add_right _ _
  -- the coordinates are before the neighbours
  have ha₁ := agreesOutside_write h₁
  rw [Nat.zero_add, hcoords] at ha₁
  have hold₁ : w.Holds nbrs dst → w.Holds nbrs d₁ := fun hd => hd.congr ha₁ (Or.inl le_rfl)
  -- their number is written, as it was
  have hnum₁ := (hsrc d₁ hold₁).readNnbrs hlen
  rw [hk₁, Option.some.injEq] at hnum₁
  subst hnum₁
  rw [Nat.min_eq_left hdeg] at h₂
  have ha₂ := agreesOutside_write h₂
  have hs₂ := slice_write_same h₂
  rw [length_leBytes] at ha₂ hs₂
  have hold₂ : w.Holds nbrs dst → w.Holds nbrs d₂ := by
    intro hd
    have hd₁ := hold₁ hd
    refine ⟨hs₂, ?_, by rw [ha₂.1]; exact hd₁.fits⟩
    rw [ha₂.2 _ _ (Or.inr le_rfl), hd₁.nhood]
  -- and their ids
  have hnum₂ := (hsrc d₂ hold₂).readNnbrs hlen
  rw [hk₂, Option.some.injEq] at hnum₂
  subst hnum₂
  rw [Nat.min_eq_left hdeg] at hn
  obtain ⟨-, hnhood⟩ := readSlice_eq_some.mp hn
  rw [(hsrc d₂ hold₂).nhood] at hnhood
  subst hnhood
  have ha₃ := agreesOutside_write h₃
  have hs₃ := slice_write_same h₃
  have hfit₃ := (write_eq_some h₃).1
  rw [length_leList] at ha₃ hs₃ hfit₃
  have hold₃ : w.Holds nbrs d₃ := by
    refine ⟨?_, hs₃, by rw [ha₃.1]; exact hfit₃⟩
    rw [ha₃.2 _ _ (Or.inl le_rfl), hs₂]
  have hco₃ : slice d₃ 0 w.files.coordLen = coords := by
    have hs₁ := slice_write_same h₁
    rw [hcoords] at hs₁
    rw [ha₃.2 _ _ (Or.inl (by omega)), ha₂.2 _ _ (Or.inl (by omega)), hs₁]
  -- the old id is behind them
  have ha₄ : AgreesOutside d₄ d₃ w.auxOffset w.codesOffset ∧
      (w.layout.rearrange = true → slice d₄ w.auxOffset 4 = leBytes 4 rid) := by
    split at h₄
    · rename_i hr
      have ha := agreesOutside_write h₄
      have hs := slice_write_same h₄
      rw [Writer.codesOffset, if_pos hr]
      exact ⟨ha, fun _ => hs⟩
    · rename_i hr
      cases h₄
      exact ⟨AgreesOutside.refl _ _ _, fun hr' => absurd hr' hr⟩
  obtain ⟨ha₄, hrid₄⟩ := ha₄
  have hend : w.files.coordLen + 4 + nbrs.length * 4 ≤ w.auxOffset := by
    omega
  have hold₄ : w.Holds nbrs d₄ := hold₃.congr ha₄ (Or.inr hend)
  have hco₄ : slice d₄ 0 w.files.coordLen = coords := by
    rw [ha₄.2 _ _ (Or.inl (by omega)), hco₃]
  -- and so are the codes
  split at h₅
  · obtain ⟨nnbrs, hnn, ha₅, hslots⟩ := Writer.putCodes_slots h₅
    have hnum := (hsrc d₄ fun _ => hold₄).readNnbrs hlen
    rw [hnn, Option.some.injEq] at hnum
    refine ⟨?_, hold₄.congr ha₅ (Or.inr (by omega)), ?_, ?_⟩
    · rw [ha₅.2 _ _ (Or.inl (by omega)), hco₄]
    · intro hr
      have hcodes4 : w.codesOffset = w.auxOffset + 4 := by rw [Writer.codesOffset, if_pos hr]
      rw [ha₅.2 _ _ (Or.inl (by omega)), hrid₄ hr]
    · intro cv id' hcv hid'
      obtain ⟨hlt', rfl⟩ := List.getElem?_eq_some_iff.mp hid'
      obtain ⟨b, id, hb, hid, hcode⟩ := hslots cv (by omega)
      have hsb := hsrc b fun _ => hold₄.congr hb (Or.inr (by omega))
      rw [hsb.readNhoodBuf hlt hlt', Option.some.injEq] at hid
      rw [hid, hcode]
  · rename_i hzero
    cases h₅
    refine ⟨hco₄, hold₄, hrid₄, ?_⟩
    intro cv id hcv
    exact absurd (by omega) hzero

end DiskANNEval.AiSAQ.DiskLayout
