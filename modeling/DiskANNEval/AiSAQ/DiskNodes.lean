import DiskANNEval.AiSAQ.DiskAgreement

/-!
# DiskNodes — every node is found at its place in the file

The writer goes over the places of the file; with rearranged vectors `rid` is the node whose new id is
the place.  What the readers give for a place are the neighbours, the coordinates and the codes of one
node, and the loader finds them there.
-/

namespace DiskANNEval.AiSAQ.DiskLayout

open Lib AiSAQ.MergeShards List Option Nat

/-- The id of a node in the file. -/
def fileId (rearranged : Bool) (map : List ℕ) (n : ℕ) : ℕ :=
  if rearranged = true then map[n]?.getD 0 else n

/-! ### The maps -/

theorem nodePositions_encode {o : Options} {width : ℕ} {rs : List (List ℕ)} :
    ∀ {offset : ℕ} {pos : List ℕ},
      nodePositions o width rs.length offset (encode rs) = some pos →
      ∀ i < rs.length, pos[i]? = some (offset + (encode (rs.take i)).length) := by
  induction rs with
  | nil =>
    intro offset pos h i hi
    exact absurd hi (not_lt_zero i)
  | cons r rs ih =>
    intro offset pos h i hi
    cases rs with
    | nil =>
      cases h
      have hzero : i = 0 := by simpa using hi
      subst hzero
      rfl
    | cons r' rs =>
      rw [length_cons, length_cons, encode_cons, nodePositions] at h
      split at h
      · cases h
      · obtain ⟨pos', hpos', rfl⟩ := map_eq_some_iff.mp h
        rw [drop_left] at hpos'
        cases i with
        | zero => rfl
        | succ i =>
          have hi' : i < (r' :: rs).length := by simpa using hi
          rw [getElem?_cons_succ, ih hpos' i hi', take_succ_cons, encode_cons,
            length_cons, length_append]
          congr 1
          omega

theorem reversed_foldlM {ps : List (ℕ × ℕ)} : ∀ {rev rev' : List (Option ℕ)},
    ps.foldlM (fun rev p => rev[p.1]?.bind fun old =>
      if old = none then some (rev.set p.1 (some p.2)) else none) rev = some rev' →
    rev'.length = rev.length ∧ (∀ p ∈ ps, p.1 < rev.length) ∧
      ∀ i old : ℕ, rev'[i]? = some (some old) ↔ rev[i]? = some (some old) ∨ (i, old) ∈ ps := by
  induction ps with
  | nil =>
    intro rev rev' h
    cases h
    simp
  | cons p ps ih =>
    intro rev rev' h
    obtain ⟨rev₁, hstep, h⟩ := bind_eq_some_iff.mp h
    obtain ⟨old₁, hold₁, hstep⟩ := bind_eq_some_iff.mp hstep
    split at hstep
    · rename_i hnone
      cases hstep
      rw [hnone] at hold₁
      obtain ⟨hlt, -⟩ := List.getElem?_eq_some_iff.mp hold₁
      obtain ⟨hlen, hin, hiff⟩ := ih h
      rw [length_set] at hlen hin
      refine ⟨hlen, ?_, ?_⟩
      · intro q hq
        rcases mem_cons.mp hq with rfl | hq
        · exact hlt
        · exact hin q hq
      · intro i old
        rw [hiff, mem_cons]
        by_cases heq : i = p.1
        · subst heq
          rw [getElem?_set_self hlt, hold₁]
          have hpair : (p.1, old) = p ↔ old = p.2 :=
            ⟨fun hp => congrArg Prod.snd hp, fun ho => by rw [ho]⟩
          rw [hpair]
          simp only [Option.some.injEq, reduceCtorEq, false_or]
          exact or_congr_left eq_comm
        · have hpair : (i, old) ≠ p := fun hp => heq (congrArg Prod.fst hp)
          rw [getElem?_set_ne (Ne.symm heq)]
          simp [hpair]
    · cases hstep

variable {rev : List (Option ℕ)}

theorem createReversedVectorsMap_spec {map : List ℕ} (h : createReversedVectorsMap map = some rev) :
    (∀ id ∈ map, id < map.length) ∧
      ∀ i old : ℕ, rev[i]?.join = some old ↔ map[old]? = some i := by
  obtain ⟨hlen, hin, hiff⟩ := reversed_foldlM h
  rw [length_replicate] at hlen hin
  constructor
  · intro id hid
    obtain ⟨k, hk, rfl⟩ := getElem_of_mem hid
    exact hin (map[k], k) (mk_mem_zipIdx_iff_getElem?.mpr (getElem?_eq_getElem hk))
  · intro i old
    rw [join_eq_some_iff, hiff, mk_mem_zipIdx_iff_getElem?]
    constructor
    · rintro (hrep | hmem)
      · obtain ⟨hlt, heq⟩ := List.getElem?_eq_some_iff.mp hrep
        rw [getElem_replicate] at heq
        cases heq
      · exact hmem
    · exact Or.inr

theorem fileId_injective {map : List ℕ} (h : createReversedVectorsMap map = some rev) {a b : ℕ}
    (ha : a < map.length) (hb : b < map.length) (heq : fileId true map a = fileId true map b) :
    a = b := by
  obtain ⟨-, hiff⟩ := createReversedVectorsMap_spec h
  have hget : ∀ {k : ℕ}, k < map.length → map[k]? = some (fileId true map k) := by
    intro k hk
    rw [fileId, if_pos rfl, getElem?_eq_getElem hk, getD_some]
  have hra := (hiff _ _).mpr (hget ha)
  have hrb := (hiff _ _).mpr (hget hb)
  rw [heq, hrb, Option.some.injEq] at hra
  exact hra.symm

theorem rearrangedPq_spec {f : Files} {pq : List UInt8} (h : rearrangedPq f rev = some pq) {i : ℕ}
    (hi : i < f.npts) : ∃ rid, rev[i]?.join = some rid ∧
      readSlice f.pqCompressed (rid * f.pqNbytes) f.pqNbytes =
        some (slice pq (i * f.pqNbytes) f.pqNbytes) := by
  rw [rearrangedPq] at h
  split at h
  · cases h
  · obtain ⟨parts, hparts, rfl⟩ := map_eq_some_iff.mp h
    obtain ⟨hlen, hall⟩ := mapM_range_eq_some hparts
    have hpart : ∀ p ∈ parts, p.length = f.pqNbytes := by
      intro p hp
      obtain ⟨k, hk, rfl⟩ := getElem_of_mem hp
      have hk' := hall k (by omega)
      rw [getElem?_eq_getElem hk] at hk'
      obtain ⟨rid, -, hread⟩ := bind_eq_some_iff.mp hk'.symm
      obtain ⟨hfit, heq⟩ := readSlice_eq_some.mp hread
      rw [← heq, length_slice hfit]
    have hi' := hall i hi
    rw [getElem?_eq_getElem (by omega)] at hi'
    obtain ⟨rid, hrid, hread⟩ := bind_eq_some_iff.mp hi'.symm
    exact ⟨rid, hrid, by rw [hread, slice_flatten hpart (by omega)]⟩

/-! ### Reading a node -/

section nodes

variable {d : DataSet} {map : List ℕ} {w : Writer}

/-- What is left to the sequential readers before the place `cur`. -/
def Writer.Left (w : Writer) (d : DataSet) (cur : ℕ) (rd : Readers) : Prop :=
  w.layout.rearrange = false →
    rd.vamana = encode (d.nhood.drop cur) ∧ rd.base = (d.coords.drop cur).flatten

/-- `rid` is the node for the place `cur`, and these are its neighbours and coordinates. -/
structure Writer.IsNode (w : Writer) (d : DataSet) (map : List ℕ) (cur rid : ℕ) (nbrs : List ℕ)
    (coords : List UInt8) : Prop where
  fileId : fileId w.layout.rearrange map rid = cur
  nhood : d.nhood[rid]? = some nbrs
  coords : d.coords[rid]? = some coords

variable {i n cur : ℕ}

theorem encode_drop {rs : List (List ℕ)} {r : List ℕ} (h : rs[i]? = some r) :
    (encode rs).drop (encode (rs.take i)).length = r.length :: (r ++ encode (rs.drop (i + 1))) := by
  obtain ⟨hlt, rfl⟩ := List.getElem?_eq_some_iff.mp h
  have hsplit : encode rs = encode (rs.take i) ++ encode (rs.drop i) := by
    rw [← encode_append, take_append_drop]
  rw [hsplit, drop_left, drop_eq_getElem_cons hlt, encode_cons]

theorem DataSet.readCoords (d : DataSet) {rid : ℕ} (hrid : rid < d.npts) :
    readSlice d.coords.flatten (rid * (d.ndims * d.sizeofT)) (d.ndims * d.sizeofT) = d.coords[rid]? := by
  have hlt : rid < d.coords.length := by
    rw [d.coords_length]
    exact hrid
  have hle : (rid + 1) * (d.ndims * d.sizeofT) ≤ d.coords.length * (d.ndims * d.sizeofT) :=
    mul_le_mul_right _ hlt
  rw [succ_mul] at hle
  rw [readSlice, if_pos (by rw [length_flatten_of_length d.coord_length]; exact hle),
    slice_flatten d.coord_length hlt, getElem?_eq_getElem hlt]

variable {nbrs : List ℕ}

theorem DataSet.nbrs_lt (d : DataSet) {rid : ℕ} (h : d.nhood[rid]? = some nbrs) :
    ∀ n ∈ nbrs, n < 2 ^ 32 := by
  intro n hn
  have hlt := d.nbr_lt nbrs (mem_of_getElem? h) n hn
  exact lt_trans hlt d.npts_lt

theorem Writer.Prepared.fileId_lt (hp : w.Prepared map) (hf : w.files = d.files) (hn : n < d.npts) :
    DiskLayout.fileId w.layout.rearrange map n < d.npts := by
  rw [DiskLayout.fileId]
  split
  · rename_i hr
    obtain ⟨-, hlen, -, hrev, -⟩ := hp.rearranged hr
    rw [hf] at hlen
    change map.length = d.npts at hlen
    rw [getElem?_eq_getElem (by omega), ← hlen]
    exact (createReversedVectorsMap_spec hrev).1 _ (getElem_mem _)
  · exact hn

variable {r coords : List UInt8} {rd rd' : Readers}

theorem Writer.readNode_spec (hf : w.files = d.files) (hp : w.Prepared map) {rid : ℕ}
    {nodeBuf : List UInt8} (hcur : cur < d.npts) (hleft : w.Left d cur rd)
    (h : w.readNode cur rd = some (rid, coords, nodeBuf, rd')) :
    w.Left d (cur + 1) rd' ∧ ∃ nbrs, w.IsNode d map cur rid nbrs coords ∧
      w.Holds (nbrs.map (DiskLayout.fileId w.layout.rearrange map)) nodeBuf := by
  have hwidth : w.files.vamana.width = d.width := by rw [hf]; rfl
  have hlen : w.files.coordLen = d.ndims * d.sizeofT := by rw [hf]; rfl
  rw [Writer.readNode] at h
  rw [hlen] at h
  by_cases hr : w.layout.rearrange = true
  · obtain ⟨hmap, hmaplen, hpos, hrev, -⟩ := hp.rearranged hr
    rw [if_pos hr] at h
    obtain ⟨rid', hrid, h⟩ := bind_eq_some_iff.mp h
    obtain ⟨pos, hpos', h⟩ := bind_eq_some_iff.mp h
    obtain ⟨⟨k, b, ws⟩, hread, h⟩ := bind_eq_some_iff.mp h
    obtain ⟨b', hb', h⟩ := bind_eq_some_iff.mp h
    obtain ⟨c, hc, h⟩ := map_eq_some_iff.mp h
    cases h
    refine ⟨fun hr' => absurd hr (by rw [hr']; decide), ?_⟩
    have hplace := ((createReversedVectorsMap_spec hrev).2 cur rid).mp hrid
    have hlt : rid < d.nhood.length := by
      obtain ⟨hlt, -⟩ := List.getElem?_eq_some_iff.mp hplace
      rw [hmaplen, hf] at hlt
      exact hlt
    have hnhood : d.nhood[rid]? = some d.nhood[rid] := getElem?_eq_getElem hlt
    rw [hf] at hpos hread hc
    have hwhere := nodePositions_encode hpos rid hlt
    rw [hpos', Option.some.injEq, zero_add] at hwhere
    rw [hwhere] at hread
    have hdeg : d.nhood[rid].length ≤ w.files.vamana.width := by
      rw [hwidth]
      exact d.degree_le _ (getElem_mem hlt)
    obtain ⟨rfl, -, hold, -⟩ := Writer.readNhood_spec hdeg (encode_drop hnhood) hread
    obtain ⟨-, hold'⟩ := Writer.rename_spec (d.nbrs_lt hnhood) hold hb'
    have hid : DiskLayout.fileId w.layout.rearrange map = w.newId := by
      funext n
      rw [DiskLayout.fileId, if_pos hr, Writer.newId, hmap]
    change readSlice d.coords.flatten _ _ = _ at hc
    rw [d.readCoords hlt] at hc
    refine ⟨d.nhood[rid], ⟨?_, hnhood, hc⟩, by rw [hid]; exact hold'⟩
    rw [hid, Writer.newId, hmap, hplace, getD_some]
  · rw [if_neg hr] at h
    have hr' : w.layout.rearrange = false := by simpa using hr
    obtain ⟨⟨k, b, ws⟩, hread, h⟩ := bind_eq_some_iff.mp h
    obtain ⟨c, hc, h⟩ := map_eq_some_iff.mp h
    cases h
    obtain ⟨hvamana, hbase⟩ := hleft hr'
    have hlt : cur < d.nhood.length := hcur
    have hltc : cur < d.coords.length := by
      rw [d.coords_length]
      exact hlt
    have hnhood : d.nhood[cur]? = some d.nhood[cur] := getElem?_eq_getElem hlt
    have hcoords : d.coords[cur]? = some d.coords[cur] := getElem?_eq_getElem hltc
    have hcoordLen := d.coord_length _ (getElem_mem hltc)
    have hdeg : d.nhood[cur].length ≤ w.files.vamana.width := by
      rw [hwidth]
      exact d.degree_le _ (getElem_mem hlt)
    rw [hvamana, drop_eq_getElem_cons hlt] at hread
    obtain ⟨rfl, rfl, hold, -⟩ := Writer.readNhood_spec hdeg rfl hread
    rw [hbase, drop_eq_getElem_cons hltc, flatten_cons] at hc
    obtain ⟨-, rfl⟩ := readSlice_eq_some.mp hc
    have hslice : slice (d.coords[cur] ++ (d.coords.drop (cur + 1)).flatten) 0
        (d.ndims * d.sizeofT) = d.coords[cur] := by
      rw [slice_append_left (by omega), ← hcoordLen, slice_zero_length]
    have hid : DiskLayout.fileId w.layout.rearrange map = id := by
      funext n
      rw [DiskLayout.fileId, if_neg hr]
      rfl
    rw [hid, hslice]
    refine ⟨fun _ => ⟨?_, ?_⟩, d.nhood[cur], ⟨?_, hnhood, hcoords⟩, ?_⟩
    · rw [Nat.sub_eq_zero_of_le hdeg]
      rfl
    · have hrest : (d.coords[cur] ++ (d.coords.drop (cur + 1)).flatten).drop (d.ndims * d.sizeofT) =
          (d.coords.drop (cur + 1)).flatten := by rw [← hcoordLen, drop_left]
      rw [hbase, drop_eq_getElem_cons hltc]
      exact hrest
    · rw [hid]
      rfl
    · rw [List.map_id]
      exact hold

/-- The record of one node. -/
def Writer.IsPlaced (w : Writer) (d : DataSet) (map : List ℕ) (cur : ℕ) (r : List UInt8) : Prop :=
  ∃ rid nbrs coords, w.IsNode d map cur rid nbrs coords ∧
    w.IsRecord rid coords (nbrs.map (DiskLayout.fileId w.layout.rearrange map)) r

theorem Writer.isPlaced_putRecord (hf : w.files = d.files) (hp : w.Prepared map) {rid : ℕ}
    {dst : List UInt8} {src : List UInt8 → List UInt8} (hnode : w.IsNode d map cur rid nbrs coords)
    (hsrc : ∀ b, (w.Holds (nbrs.map (DiskLayout.fileId w.layout.rearrange map)) dst → w.Holds (nbrs.map (DiskLayout.fileId w.layout.rearrange map)) b) → w.Holds (nbrs.map (DiskLayout.fileId w.layout.rearrange map)) (src b))
    (h : w.putRecord src rid coords dst = some r) : w.IsPlaced d map cur r := by
  have hdeg := d.degree_le nbrs (mem_of_getElem? hnode.nhood)
  have hwidth : w.files.vamana.width = d.width := by rw [hf]; rfl
  have hcoords : coords.length = w.files.coordLen := by
    rw [hf]
    exact d.coord_length coords (mem_of_getElem? hnode.coords)
  refine ⟨rid, nbrs, coords, hnode, Writer.putRecord_spec hcoords ?_ ?_ ?_ hsrc h⟩
  · rw [length_map, hwidth]
    exact hdeg
  · rw [length_map]
    exact lt_of_le_of_lt hdeg d.width_lt
  · intro n hn
    obtain ⟨m, hm, rfl⟩ := mem_map.mp hn
    exact lt_trans (hp.fileId_lt hf (d.nbr_lt nbrs (mem_of_getElem? hnode.nhood) m hm)) d.npts_lt

theorem Writer.sectorNode_spec (hf : w.files = d.files) (hp : w.Prepared map) (hcur : cur < d.npts)
    (hleft : w.Left d cur rd) (h : w.sectorNode cur rd = some (r, rd')) :
    r.length = w.layout.maxNodeLen ∧ w.IsPlaced d map cur r ∧ w.Left d (cur + 1) rd' := by
  refine ⟨Writer.length_sectorNode h, ?_⟩
  obtain ⟨⟨rid, coords, nodeBuf, rd₁⟩, hread, h⟩ := bind_eq_some_iff.mp h
  obtain ⟨r', hr', h⟩ := map_eq_some_iff.mp h
  cases h
  obtain ⟨hleft', nbrs, hnode, hold⟩ := Writer.readNode_spec hf hp hcur hleft hread
  exact ⟨Writer.isPlaced_putRecord hf hp hnode (fun b hb => hb hold) hr', hleft'⟩

theorem Writer.multisectorNode_spec (hf : w.files = d.files) (hp : w.Prepared map)
    (hcur : cur < d.npts) (hleft : w.Left d cur rd) (h : w.multisectorNode cur rd = some (r, rd')) :
    r.length = divRoundUp w.layout.maxNodeLen sectorLen * sectorLen ∧ w.IsPlaced d map cur r ∧
      w.Left d (cur + 1) rd' := by
  refine ⟨Writer.length_multisectorNode h, ?_⟩
  obtain ⟨⟨rid, coords, nodeBuf, rd₁⟩, hread, h⟩ := bind_eq_some_iff.mp h
  obtain ⟨r', hr', h⟩ := map_eq_some_iff.mp h
  cases h
  obtain ⟨hleft', nbrs, hnode, hold⟩ := Writer.readNode_spec hf hp hcur hleft hread
  exact ⟨Writer.isPlaced_putRecord hf hp hnode (fun b _ => hold) hr', hleft'⟩

theorem Writer.Prepared.readCode (hp : w.Prepared map) (hf : w.files = d.files) (hn : n < d.npts)
    {code : List UInt8}
    (h : readSlice w.pq (DiskLayout.fileId w.layout.rearrange map n * d.pqNbytes) d.pqNbytes = some code) :
    d.codes[n]? = some code := by
  have hcodes : ∀ {k : ℕ} {c : List UInt8},
      readSlice d.codes.flatten (k * d.pqNbytes) d.pqNbytes = some c → k < d.npts →
      d.codes[k]? = some c := by
    intro k c hc hk
    have hlt : k < d.codes.length := by
      rw [d.codes_length]
      exact hk
    obtain ⟨-, rfl⟩ := readSlice_eq_some.mp hc
    rw [slice_flatten d.code_length hlt, getElem?_eq_getElem hlt]
  by_cases hr : w.layout.rearrange = true
  · obtain ⟨-, hlen, -, hrev, hpq⟩ := hp.rearranged hr
    have hlt := hp.fileId_lt hf hn
    rw [hf] at hlen hpq
    change map.length = d.npts at hlen
    obtain ⟨rid, hrid, hread⟩ := rearrangedPq_spec hpq hlt
    have hplace : map[n]? = some (DiskLayout.fileId w.layout.rearrange map n) := by
      rw [DiskLayout.fileId, if_pos hr, getElem?_eq_getElem (by omega), getD_some]
    have hback := ((createReversedVectorsMap_spec hrev).2 _ _).mpr hplace
    rw [hrid, Option.some.injEq] at hback
    subst hback
    obtain ⟨-, hslice⟩ := readSlice_eq_some.mp h
    apply hcodes _ hn
    rw [← hslice]
    exact hread
  · have hr' : w.layout.rearrange = false := by simpa using hr
    rw [DiskLayout.fileId, if_neg hr, hp.plain hr', hf] at h
    exact hcodes h hn

/-! ### The places of the records -/

theorem le_divRoundUp_mul (x : ℕ) {y : ℕ} (hy : 0 < y) : x ≤ divRoundUp x y * y := by
  have hdiv := div_add_mod x y
  have hmod := mod_lt x hy
  rw [divRoundUp, add_mul, Nat.mul_comm (x / y) y]
  split <;> omega

theorem div_lt_divRoundUp {y : ℕ} (hy : 0 < y) (hi : i < n) : i / y < divRoundUp n y :=
  (div_lt_iff_lt_mul hy).mpr (lt_of_lt_of_le hi (le_divRoundUp_mul n hy))

/-- The bytes of a record in the file. -/
def Layout.recordLen (l : Layout) : ℕ :=
  if 0 < l.nnodesPerSector then l.maxNodeLen else divRoundUp l.maxNodeLen sectorLen * sectorLen

theorem Layout.maxNodeLen_le_recordLen (l : Layout) : l.maxNodeLen ≤ l.recordLen := by
  rw [Layout.recordLen]
  split
  · exact le_rfl
  · exact le_divRoundUp_mul _ (by decide)

theorem Layout.sector_fits (l : Layout) (hper : 0 < l.nnodesPerSector) (i : ℕ) :
    i % l.nnodesPerSector * l.maxNodeLen + l.maxNodeLen ≤ sectorLen := by
  rw [← succ_mul]
  exact le_trans (mul_le_mul_right _ (mod_lt i hper)) (div_mul_le_self _ _)

theorem Writer.nSectors_of_pos (hper : 0 < w.layout.nnodesPerSector) :
    w.nSectors = divRoundUp w.files.npts w.layout.nnodesPerSector := by
  rw [Writer.nSectors, if_pos hper, roundUp, Nat.mul_div_cancel _ hper]

theorem Writer.nodeSectors_placed (hf : w.files = d.files) (hp : w.Prepared map)
    {nodes : List UInt8} (h : w.nodeSectors = some nodes) (hi : i < d.npts) :
    w.IsPlaced d map i (slice nodes (w.layout.nodeOffset i - sectorLen) w.layout.recordLen) := by
  have hnpts : w.files.npts = d.npts := by rw [hf]; rfl
  have hleft : w.Left d 0 { vamana := w.files.vamana.words, base := w.files.base } := by
    intro _
    rw [hf]
    exact ⟨rfl, rfl⟩
  rw [Writer.nodeSectors, hnpts] at h
  rw [Layout.nodeOffset, Layout.recordLen]
  split at h
  · rename_i hper
    have hall := (fillSectors_spec
      (fun cur s r s' hc hI hn => Writer.sectorNode_spec hf hp hc hI hn) hper
      (div_mul_le_self _ _) (zero_le _) hleft h).2 i (by omega) ?_
    · rw [zero_add] at hall
      rw [if_pos hper, if_pos hper, add_assoc, Nat.add_sub_cancel_left]
      exact hall
    · rw [Writer.nSectors_of_pos hper, hnpts]
      exact lt_of_lt_of_le hi (le_divRoundUp_mul _ hper)
  · rename_i hper
    have hall := (eachNode_spec
      (fun cur s r s' hc hI hn => Writer.multisectorNode_spec hf hp hc hI hn)
      (zero_add _).le hleft h).2 i hi
    rw [zero_add] at hall
    rw [if_neg hper, if_neg hper, Nat.add_sub_cancel_left]
    exact hall

/-- Where a record begins in the sectors that are read for it. -/
def Layout.offsetInRead (l : Layout) (i : ℕ) : ℕ :=
  if 0 < l.nnodesPerSector then i % l.nnodesPerSector * l.maxNodeLen else 0

/-- The length of the sectors that are read for a record. -/
def Layout.readLen (l : Layout) : ℕ :=
  if 0 < l.nnodesPerSector then sectorLen else divRoundUp l.maxNodeLen sectorLen * sectorLen

theorem Layout.record_in_read (l : Layout) (i : ℕ) : l.offsetInRead i + l.recordLen ≤ l.readLen := by
  rw [Layout.offsetInRead, Layout.recordLen, Layout.readLen]
  split
  · rename_i hper
    exact l.sector_fits hper i
  · rw [zero_add]

theorem Writer.read_in_nodes (w : Writer) (hi : i < w.files.npts) :
    ∃ start, w.layout.nodeOffset i = sectorLen + start + w.layout.offsetInRead i ∧
      start + w.layout.readLen ≤ w.nSectors * sectorLen := by
  rw [Layout.nodeOffset, Layout.offsetInRead, Layout.readLen]
  by_cases hper : 0 < w.layout.nnodesPerSector
  · refine ⟨i / w.layout.nnodesPerSector * sectorLen, by rw [if_pos hper, if_pos hper], ?_⟩
    rw [if_pos hper, Writer.nSectors_of_pos hper, ← succ_mul]
    exact mul_le_mul_right _ (div_lt_divRoundUp hper hi)
  · refine ⟨i * (divRoundUp w.layout.maxNodeLen sectorLen * sectorLen), ?_, ?_⟩
    · rw [if_neg hper, if_neg hper, add_zero]
    · rw [if_neg hper, Writer.nSectors, if_neg hper, ← succ_mul, mul_assoc]
      exact mul_le_mul_right _ hi

theorem Writer.file_placed (hf : w.files = d.files) (hp : w.Prepared map) {medoid : ℕ} {file : File}
    (h : w.file medoid = some file) (hi : i < d.npts) :
    w.IsPlaced d map i (slice file.bytes (w.layout.nodeOffset i) w.layout.recordLen) := by
  obtain ⟨nodes, reorder, hnodes, -, hbytes⟩ := Writer.file_eq_some h
  obtain ⟨start, hstart, hin⟩ := w.read_in_nodes (by rw [hf]; exact hi)
  have hrecord := w.layout.record_in_read i
  have hlen := Writer.length_nodeSectors hnodes
  have hheader : (header (w.outputFileMeta medoid)).length ≤ sectorLen := by
    have hmeta := w.length_outputFileMeta_le medoid
    rw [length_header, sectorLen]
    omega
  have hzeros : (replicate sectorLen (0 : UInt8)).length = sectorLen := length_replicate
  rw [slice_write_after hbytes (by omega), append_assoc, slice_append_right (by omega), hzeros,
    slice_append_left (by omega)]
  exact Writer.nodeSectors_placed hf hp hnodes hi

/-! ### What the loader reads -/

theorem FlashIndex.readNode_of_isRecord {ix : FlashIndex} {env : LoadEnv} {p : ℕ × ℕ} {file : File}
    (hix : ix.HasLayout env w.layout p) (hdisk : env.diskBytesPerPoint = w.files.coordLen)
    (hdeg : p.1 = w.files.vamana.width)
    (haisaq : w.codesOffset + p.2 * env.nChunks ≤ w.layout.maxNodeLen) {rid : ℕ}
    (hi : i < w.files.npts) (hfile : (w.nSectors + 1) * sectorLen ≤ file.bytes.length)
    (hlen : nbrs.length < 2 ^ 32) (hlt : ∀ n ∈ nbrs, n < 2 ^ 32)
    (hr : w.IsRecord rid coords nbrs (slice file.bytes (w.layout.nodeOffset i) w.layout.recordLen)) :
    ∃ data, ix.readNode file i = some data ∧ data.coords = coords ∧ data.nbrs = nbrs ∧
      data.aisaqData = slice (slice file.bytes (w.layout.nodeOffset i) w.layout.recordLen) w.auxOffset
        (p.2 * env.nChunks + ridLen w.layout.rearrange) := by
  obtain ⟨start, hstart, hin⟩ := w.read_in_nodes hi
  have hrecord := w.layout.record_in_read i
  have hmax := w.layout.maxNodeLen_le_recordLen
  have haux : w.auxOffset = w.files.coordLen + (w.files.vamana.width + 1) * 4 := rfl
  have hcodes : w.codesOffset = w.auxOffset + ridLen w.layout.rearrange := rfl
  rw [succ_mul] at hfile
  -- the sectors that are read
  have hsector : ix.getNodeSector i * sectorLen = sectorLen + start := by
    have hoff := hix.nodeOffset i
    have hoffset : ix.offsetToNode i = w.layout.offsetInRead i := by
      rw [FlashIndex.offsetToNode, Layout.offsetInRead, hix.nnodesPerSector, hix.maxNodeLen]
      by_cases hper : 0 < w.layout.nnodesPerSector
      · rw [if_pos hper, if_neg (by omega)]
      · rw [if_neg hper, if_pos (by omega)]
    omega
  have hoffset : ix.offsetToNode i = w.layout.offsetInRead i := by
    have hoff := hix.nodeOffset i
    omega
  have hnum : (if 0 < ix.nnodesPerSector then 1 else divRoundUp ix.maxNodeLen sectorLen) * sectorLen =
      w.layout.readLen := by
    rw [hix.nnodesPerSector, hix.maxNodeLen, Layout.readLen]
    split
    · rw [one_mul]
    · rfl
  have hbuf : readSlice file.bytes (ix.getNodeSector i * sectorLen)
      ((if 0 < ix.nnodesPerSector then 1 else divRoundUp ix.maxNodeLen sectorLen) * sectorLen) =
        some (slice file.bytes (sectorLen + start) w.layout.readLen) := by
    rw [hnum, hsector, readSlice, if_pos (by omega)]
  set buf := slice file.bytes (sectorLen + start) w.layout.readLen with hbufDef
  set r := slice file.bytes (w.layout.nodeOffset i) w.layout.recordLen with hrDef
  have hbufLen : buf.length = w.layout.readLen := length_slice (by omega)
  have hrLen : r.length = w.layout.recordLen := length_slice (by omega)
  have hpart : ∀ o l, o + l ≤ w.layout.recordLen →
      slice buf (w.layout.offsetInRead i + o) l = slice r o l := by
    intro o l hol
    rw [slice_slice (by omega), slice_slice hol]
    congr 1
    omega
  have hfits := hr.holds.fits
  -- the fields
  have hc : readSlice buf (ix.offsetToNode i) ix.diskBytesPerPoint = some coords := by
    have hpart0 := hpart 0 w.files.coordLen (by omega)
    rw [add_zero] at hpart0
    rw [hoffset, hix.diskBytesPerPoint, hdisk, readSlice, if_pos (by omega), hpart0, hr.coords]
  have hn : readLe 4 buf (ix.offsetToNode i + ix.diskBytesPerPoint) = some nbrs.length := by
    have hslot := hpart w.files.coordLen 4 (by omega)
    rw [hr.holds.nnbrs] at hslot
    rw [hoffset, hix.diskBytesPerPoint, hdisk, readLe_of_slice (by omega) hslot,
      mod_eq_of_lt hlen]
  have hnbrs : ((List.range nbrs.length).mapM fun j =>
      readLe 4 buf (ix.offsetToNode i + ix.diskBytesPerPoint + 4 + j * 4)) = some nbrs := by
    apply mapM_range_of_getElem?
    intro j hj
    have hslot := hpart (w.files.coordLen + 4 + j * 4) 4 (by omega)
    rw [← @slice_slice r _ (nbrs.length * 4) _ _ (by omega), hr.holds.nhood,
      slice_leList hj] at hslot
    have hplace : ix.offsetToNode i + ix.diskBytesPerPoint + 4 + j * 4 =
        w.layout.offsetInRead i + (w.files.coordLen + 4 + j * 4) := by
      rw [hix.diskBytesPerPoint]
      omega
    rw [hplace, readLe_of_slice (by omega) hslot, getElem?_eq_getElem hj,
      mod_eq_of_lt (hlt _ (getElem_mem hj))]
  have ha : readSlice buf (ix.offsetToNode i + ix.aisaqDataOffset) ix.aisaqDataSize =
      some (slice r w.auxOffset (p.2 * env.nChunks + ridLen w.layout.rearrange)) := by
    have hauxIx : ix.aisaqDataOffset = w.auxOffset := by
      rw [FlashIndex.aisaqDataOffset, hix.diskBytesPerPoint, hdisk, hix.maxDegree, hdeg, haux]
    have hsize : ix.aisaqDataSize = p.2 * env.nChunks + ridLen w.layout.rearrange := by
      rw [FlashIndex.aisaqDataSize, hix.inlinePqVectors, hix.nChunks, hix.rearrangedVectors, ridLen]
    rw [hauxIx, hsize, hoffset, readSlice, if_pos (by omega), hpart _ _ (by omega)]
  refine ⟨⟨coords, nbrs, _⟩, ?_, rfl, rfl, rfl⟩
  rw [FlashIndex.readNode, hbuf]
  dsimp only [bind_some]
  rw [hc, bind_some, hn, bind_some, hnbrs, ha]
  rfl

end nodes

/-- Every node is found at its place, with its coordinates, its neighbours under their new ids, its old
id, and the codes of its first neighbours. -/
theorem readNode_createDiskLayout {d : DataSet} {o : Options} {map : List ℕ} {l : Layout} {file : File}
    {env : LoadEnv} {ix : FlashIndex}
    (hl : decideLayout o d.files.plainNodeLen d.pqNbytes d.width = some l)
    (hfile : createDiskLayout d.files o map = some file)
    (ho : o.asserts = true ∨ o.inlinePq ≤ d.width) (henv : env.Matches d)
    (hcache : l.rearrange = false → env.pqReadPageCache = false) (hload : load env file = .ok ix) :
    (∀ a < d.npts, ∀ b < d.npts, fileId l.rearrange map a = fileId l.rearrange map b → a = b) ∧
    ∀ i < d.npts, ∃ rid nbrs coords data, fileId l.rearrange map rid = i ∧
      d.nhood[rid]? = some nbrs ∧ d.coords[rid]? = some coords ∧ ix.readNode file i = some data ∧
      data.coords = coords ∧ data.nbrs = nbrs.map (fileId l.rearrange map) ∧
      (l.rearrange = true → slice data.aisaqData 0 4 = leBytes 4 rid) ∧
      ∀ k n, k < ix.inlinePqVectors → nbrs[k]? = some n →
        d.codes[n]? = some (slice data.aisaqData ((if l.rearrange = true then 4 else 0) +
          k * d.pqNbytes) d.pqNbytes) := by
  have hchunks : d.pqNbytes ≤ maxPqChunks := by
    by_contra hgt
    rw [load, require, if_neg (by rw [henv.nChunks]; exact hgt)] at hload
    cases hload
  obtain ⟨room, hroom, hlen, mk, hmk, hload'⟩ :=
    load_createDiskLayout hl hfile ho henv hcache hchunks
  obtain ⟨hinline, -⟩ := decideLayout_spec hl ho
  obtain ⟨w, medoid, hf, -, rfl, hp, hw⟩ := createDiskLayout_eq_some hfile hl
  have hnpts : w.files.npts = d.npts := by rw [hf]; rfl
  -- the limits of the loader
  rw [hload'] at hload
  by_cases hwidth : maxGraphDegree < d.width
  · rw [if_pos hwidth] at hload
    cases hload
  rw [if_neg hwidth] at hload
  by_cases hzero : d.pqNbytes = 0
  · rw [if_pos hzero] at hload
    cases hload
  rw [if_neg hzero] at hload
  cases hload
  set inline := (room + w.layout.inlinePqVectors * d.pqNbytes) / d.pqNbytes with hinlineDef
  have hix := hmk (d.width, inline)
  have hprod : w.layout.inlinePqVectors * d.pqNbytes ≤ 512 * 512 :=
    Nat.mul_le_mul (by rw [maxGraphDegree] at hwidth; omega) hchunks
  rw [mod_eq_of_lt (by omega)] at hlen
  have haisaq : w.codesOffset + inline * env.nChunks ≤ w.layout.maxNodeLen := by
    have hdiv : inline * d.pqNbytes ≤ room + w.layout.inlinePqVectors * d.pqNbytes :=
      div_mul_le_self _ _
    have hcodes : w.codesOffset = d.files.plainNodeLen + ridLen w.layout.rearrange := by
      rw [Writer.codesOffset, Writer.auxOffset, hf, Files.plainNodeLen]
      change d.files.coordLen + (d.width + 1) * 4 + _ = (d.width + 1) * 4 + d.files.coordLen + _
      rw [add_comm d.files.coordLen]
      rfl
    rw [henv.nChunks, hcodes, hlen]
    omega
  refine ⟨?_, ?_⟩
  · intro a ha b hb heq
    by_cases hr : w.layout.rearrange = true
    · obtain ⟨-, hmaplen, -, hrev, -⟩ := hp.rearranged hr
      rw [hr] at heq
      exact fileId_injective hrev (by omega) (by omega) heq
    · rw [fileId, fileId, if_neg hr, if_neg hr] at heq
      exact heq
  · intro i hi
    obtain ⟨rid, nbrs, coords, hnode, hrecord⟩ := Writer.file_placed hf hp hw hi
    have hdeg := d.degree_le nbrs (mem_of_getElem? hnode.nhood)
    have hnbr := d.nbr_lt nbrs (mem_of_getElem? hnode.nhood)
    have hfileLen : (w.nSectors + 1) * sectorLen ≤ file.bytes.length := by
      rw [Writer.length_file hw]
      exact mul_le_mul_right _ (by omega)
    obtain ⟨data, hdata, hcoords, hnbrs, haux⟩ := FlashIndex.readNode_of_isRecord hix
      (by rw [hf]; exact henv.diskBytesPerPoint) (by rw [hf]; rfl) haisaq (i := i)
      (by rw [hnpts]; exact hi) hfileLen
      (by rw [length_map]; exact lt_of_le_of_lt hdeg d.width_lt)
      (by
        intro n hn
        obtain ⟨m, hm, rfl⟩ := mem_map.mp hn
        exact lt_trans (hp.fileId_lt hf (hnbr m hm)) d.npts_lt) hrecord
    dsimp only at haux
    rw [henv.nChunks] at haux
    refine ⟨rid, nbrs, coords, data, hnode.fileId, hnode.nhood, hnode.coords, hdata, hcoords, hnbrs,
      ?_, ?_⟩
    · intro hr
      rw [haux, slice_slice (by rw [ridLen, if_pos hr]; omega), add_zero]
      exact hrecord.rid hr
    · intro k n hk hn
      rw [hix.inlinePqVectors] at hk
      have hkn : k < nbrs.length := (List.getElem?_eq_some_iff.mp hn).1
      -- the codes that the loader counts too many are behind those of all neighbours
      have hkw : k < w.layout.inlinePqVectors := by
        rcases hroom with ⟨-, -, hall⟩ | ⟨-, rfl⟩
        · omega
        · rw [zero_add, Nat.mul_div_cancel _ (pos_of_ne_zero hzero)] at hinlineDef
          exact lt_of_lt_of_eq hk hinlineDef
      have hcode := hrecord.codes k (fileId w.layout.rearrange map n) hkw
        (by rw [getElem?_map, hn]; rfl)
      have hnb : w.files.pqNbytes = d.pqNbytes := by rw [hf]; rfl
      rw [hnb] at hcode
      rw [hp.readCode hf (hnbr n (mem_of_getElem? hn)) hcode]
      have hk1 : (k + 1) * d.pqNbytes ≤ inline * d.pqNbytes := mul_le_mul_right _ hk
      rw [Nat.succ_mul] at hk1
      have hcodes : w.codesOffset = w.auxOffset + ridLen w.layout.rearrange := rfl
      have hin : slice data.aisaqData (ridLen w.layout.rearrange + k * d.pqNbytes) d.pqNbytes =
          slice (slice file.bytes (w.layout.nodeOffset i) w.layout.recordLen)
            (w.auxOffset + (ridLen w.layout.rearrange + k * d.pqNbytes)) d.pqNbytes := by
        rw [haux]
        exact slice_slice (by omega)
      rw [hcodes, add_assoc, ← hin]
      rfl

theorem readNode_twoPoints : ∃ file ix data, load twoPointsEnv file = .ok ix ∧
    ix.readNode file 1 = some data ∧ data.nbrs = [0] := by
  obtain ⟨file, hfile⟩ := twoPoints_written
  obtain ⟨room, -, -, mk, -, hload⟩ := load_createDiskLayout decideLayout_twoPoints hfile
    (Or.inl rfl) twoPointsEnv_matches (fun _ => rfl) (by decide)
  obtain ⟨-, hall⟩ := readNode_createDiskLayout decideLayout_twoPoints hfile (Or.inl rfl)
    twoPointsEnv_matches (fun _ => rfl) hload
  obtain ⟨rid, nbrs, coords, data, hid, hnhood, -, hdata, -, hnbrs, -⟩ := hall 1 (by decide)
  have hrid : rid = 1 := hid
  subst hrid
  cases hnhood
  exact ⟨file, _, data, hload, hdata, hnbrs⟩

end DiskANNEval.AiSAQ.DiskLayout
