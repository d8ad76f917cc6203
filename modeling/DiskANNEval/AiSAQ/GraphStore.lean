import DiskANNEval.Lib.Streams
import DiskANNEval.Lib.While
import Mathlib

/-!
# GraphStore — the graph file of `InMemGraphStore`, byte for byte

`save_graph` leaves room for the size of the file and the largest degree in the header, writes a
record for each point and goes back to fill them in; `load_impl` reads records until it has seen the
number of bytes that the header gives.  Both loops are brought to a closed form first
(`foldl_saveNode`, `readNodes_records`): what one writes is what the other takes off again.
-/

namespace DiskANNEval.AiSAQ

open Lib List

structure InMemGraphStore where
  graph : List (List UInt32)
  totalPoints : ℕ
  maxRangeOfGraph : ℕ
  maxObservedDegree : ℕ

/-- The neighbours as they stand in the file. -/
def neighbourBytes (l : List UInt32) : List UInt8 := leList 4 (l.map UInt32.toNat)

/-- `k` neighbours from the bytes of the file. -/
def neighboursOf (k : ℕ) (bs : List UInt8) : List UInt32 :=
  (List.range k).map fun i => UInt32.ofNat (leNat (slice bs (i * 4) 4))

theorem length_neighbourBytes (l : List UInt32) : (neighbourBytes l).length = 4 * l.length := by
  rw [neighbourBytes, length_leList, length_map, Nat.mul_comm]

theorem neighboursOf_neighbourBytes (l : List UInt32) :
    neighboursOf l.length (neighbourBytes l) = l := by
  have hslice : slice (neighbourBytes l) 0 ((l.map UInt32.toNat).length * 4) =
      leList 4 (l.map UInt32.toNat) := by
    rw [← length_leList, neighbourBytes, slice_zero_length]
  have hlt : ∀ n ∈ l.map UInt32.toNat, n < 256 ^ 4 := by
    intro n hn
    obtain ⟨x, -, rfl⟩ := mem_map.1 hn
    exact x.toNat_lt
  have hread := map_leNat_eq hslice hlt
  rw [length_map] at hread
  have hmap := congrArg (List.map UInt32.ofNat) hread
  rw [map_map, map_map] at hmap
  simp only [Nat.zero_add] at hmap
  calc neighboursOf l.length (neighbourBytes l)
    _ = l.map (UInt32.ofNat ∘ UInt32.toNat) := hmap
    _ = l := by
      conv_rhs => rw [← map_id l]
      exact map_congr_left fun x _ => UInt32.ofNat_toNat

namespace InMemGraphStore

/-! ### `save_graph` -/

/-- The loop over the points: the stream, `index_size` and `max_degree`. -/
structure SaveState where
  out : OutStream
  indexSize : ℕ
  maxDegree : ℕ

/-- `GK` and `GK + 1` are `uint32_t`s. -/
def saveNode (st : SaveState) (l : List UInt32) : SaveState :=
  let gk := l.length % 2 ^ 32
  { out := (st.out.write (leBytes 4 gk)).write (neighbourBytes (l.take gk))
    indexSize := st.indexSize + 4 * ((gk + 1) % 2 ^ 32)
    maxDegree := if st.maxDegree < l.length then gk else st.maxDegree }

/-- The header as it is written first, with no size and an old degree. -/
def saveHeader (out : OutStream) (maxObservedDegree : ℕ) (start : UInt32) (numFrozenPts : UInt64) :
    OutStream :=
  (((out.write (leBytes 8 24)).write (leBytes 4 maxObservedDegree)).write
    (leBytes 4 start.toNat)).write (leBytes 8 numFrozenPts.toNat)

/-- All records after the header.  `old`: what the file holds, if it is there, since
`open_file_to_write` does not empty it. -/
def saveRecords (old : List UInt8) (lists : List (List UInt32)) (maxObservedDegree : ℕ)
    (start : UInt32) (numFrozenPts : UInt64) : SaveState :=
  lists.foldl saveNode
    ⟨saveHeader ⟨old, 0⟩ maxObservedDegree start numFrozenPts, 24, 0⟩

/-- The size and the degree are filled in. -/
def patchHeader (st : SaveState) : OutStream :=
  ((st.out.seek 0).write (leBytes 8 st.indexSize)).write (leBytes 4 st.maxDegree)

/-- The file and the returned `int`; `none`: there is no list for one of the points. -/
def saveGraph (old : List UInt8) (numPoints : ℕ) (numFrozenPts : UInt64) (start : UInt32)
    (g : InMemGraphStore) : Option (List UInt8 × ℤ) :=
  ((List.range numPoints).mapM (g.graph[·]?)).map fun lists =>
    let st := saveRecords old lists g.maxObservedDegree start numFrozenPts
    ((patchHeader st).file, (BitVec.ofNat 32 st.indexSize).toInt)

/-! ### `load_impl` -/

structure GraphHeader where
  expectedFileSize : ℕ
  maxObservedDegree : ℕ
  start : UInt32
  fileFrozenPts : UInt64

/-- The header, and the stream behind it; a read past the end throws. -/
def readHeader (input : InStream) : Option (GraphHeader × InStream) :=
  (input.read 8).bind fun size =>
    (size.2.read 4).bind fun degree =>
      (degree.2.read 4).bind fun start =>
        (start.2.read 8).map fun frozen =>
          (⟨leNat size.1, leNat degree.1, UInt32.ofNat (leNat start.1),
            UInt64.ofNat (leNat frozen.1)⟩, frozen.2)

def resizeGraph (newSize : ℕ) (g : InMemGraphStore) : InMemGraphStore :=
  { g with
    graph := (g.graph.take newSize) ++ List.replicate (newSize - g.graph.length) []
    totalPoints := newSize }

/-- The loop over the records. -/
structure LoadState where
  input : InStream
  bytesRead : ℕ
  nodesRead : ℕ
  graph : List (List UInt32)
  maxRangeOfGraph : ℕ

/-- `none`: the stream throws, or `_graph` has no list for the point. -/
def readNode (st : LoadState) : Option LoadState :=
  (st.input.read 4).bind fun degree =>
    let k := leNat degree.1
    (degree.2.read (4 * k)).bind fun nbrs =>
      if st.nodesRead < st.graph.length then
        some {
          input := nbrs.2
          bytesRead := st.bytesRead + 4 * (k + 1)
          nodesRead := st.nodesRead + 1
          graph := st.graph.set st.nodesRead (neighboursOf k nbrs.1)
          maxRangeOfGraph := if st.maxRangeOfGraph < k then k else st.maxRangeOfGraph }
      else none

/-- Every record has at least its degree, so the length of the file is fuel enough. -/
def readNodes (expectedFileSize : ℕ) (st : LoadState) : Option LoadState :=
  whileM (fun st => st.bytesRead != expectedFileSize) readNode st.input.file.length st

/-- The state of the loop when it is left, and the header. -/
def loadLoop (file : List UInt8) (expectedNumPoints : ℕ) (g : InMemGraphStore) :
    Option (GraphHeader × LoadState) :=
  (readHeader ⟨file, 0⟩).bind fun header =>
    let g := if g.totalPoints < expectedNumPoints then g.resizeGraph expectedNumPoints else g
    (readNodes header.1.expectedFileSize ⟨header.2, 24, 0, g.graph, g.maxRangeOfGraph⟩).map fun st =>
      (header.1, st)

/-- The number of nodes, the start and the frozen points, and the store. -/
def loadImpl (file : List UInt8) (expectedNumPoints : ℕ) (g : InMemGraphStore) :
    Option ((ℕ × UInt32 × UInt64) × InMemGraphStore) :=
  (loadLoop file expectedNumPoints g).map fun r =>
    ((r.2.nodesRead, r.1.start, r.1.fileFrozenPts),
      { graph := r.2.graph
        totalPoints := max g.totalPoints expectedNumPoints
        maxRangeOfGraph := r.2.maxRangeOfGraph
        maxObservedDegree := r.1.maxObservedDegree })

/-! ### The records -/

/-- The record of a point: its degree, then its neighbours. -/
def recordBytes (l : List UInt32) : List UInt8 := leBytes 4 l.length ++ neighbourBytes l

def records (lists : List (List UInt32)) : List UInt8 := lists.flatMap recordBytes

theorem length_recordBytes (l : List UInt32) : (recordBytes l).length = 4 * (l.length + 1) := by
  rw [recordBytes, length_append, length_leBytes, length_neighbourBytes]
  ring

theorem records_cons (l : List UInt32) (lists : List (List UInt32)) :
    records (l :: lists) = recordBytes l ++ records lists := rfl

theorem length_records_cons (l : List UInt32) (lists : List (List UInt32)) :
    (records (l :: lists)).length = 4 * (l.length + 1) + (records lists).length := by
  rw [records_cons, length_append, length_recordBytes]

theorem length_le_records (lists : List (List UInt32)) : lists.length ≤ (records lists).length := by
  induction lists with
  | nil => exact Nat.zero_le _
  | cons l lists ih =>
    rw [length_records_cons, length_cons]
    omega

/-- What the fields of the file can hold: a point and a degree are `uint32_t`s, and so is `GK + 1`;
the size of the file is a `size_t`. -/
structure Fits (lists : List (List UInt32)) : Prop where
  points : lists.length < 2 ^ 32
  degrees : ∀ l ∈ lists, l.length + 1 < 2 ^ 32
  size : 24 + (records lists).length < 2 ^ 64

theorem saveNode_eq {st : SaveState} (hok : st.out.Ok) {l : List UInt32}
    (hl : l.length + 1 < 2 ^ 32) :
    (saveNode st l).out = st.out.write (recordBytes l) ∧
      (saveNode st l).indexSize = st.indexSize + (recordBytes l).length := by
  have hgk : l.length % 2 ^ 32 = l.length := Nat.mod_eq_of_lt (by omega)
  unfold saveNode
  dsimp only
  rw [hgk, Nat.mod_eq_of_lt hl, take_length, length_recordBytes, recordBytes,
    OutStream.write_append hok]
  exact ⟨rfl, rfl⟩

theorem foldl_saveNode {st : SaveState} (hok : st.out.Ok) {lists : List (List UInt32)}
    (hlists : ∀ l ∈ lists, l.length + 1 < 2 ^ 32) :
    (lists.foldl saveNode st).out = st.out.write (records lists) ∧
      (lists.foldl saveNode st).indexSize = st.indexSize + (records lists).length := by
  induction lists generalizing st with
  | nil => exact ⟨(OutStream.write_nil _).symm, rfl⟩
  | cons l lists ih =>
    obtain ⟨hout, hsize⟩ := saveNode_eq hok (hlists l mem_cons_self)
    have hok' : (saveNode st l).out.Ok := hout ▸ hok.write _
    obtain ⟨hout', hsize'⟩ := ih hok' fun l' hl' => hlists l' (mem_cons_of_mem _ hl')
    rw [foldl_cons, hout', hsize', hout, hsize, records_cons, OutStream.write_append hok,
      length_append, Nat.add_assoc]
    exact ⟨rfl, rfl⟩

/-- The header. -/
def headerBytes (size degree : ℕ) (start : UInt32) (numFrozenPts : UInt64) : List UInt8 :=
  leBytes 8 size ++ (leBytes 4 degree ++ (leBytes 4 start.toNat ++ leBytes 8 numFrozenPts.toNat))

theorem length_headerBytes (size degree : ℕ) (start : UInt32) (numFrozenPts : UInt64) :
    (headerBytes size degree start numFrozenPts).length = 24 := by
  simp [headerBytes]

theorem saveHeader_eq {out : OutStream} (hok : out.Ok) (degree : ℕ) (start : UInt32)
    (numFrozenPts : UInt64) :
    saveHeader out degree start numFrozenPts =
      out.write (headerBytes 24 degree start numFrozenPts) := by
  rw [saveHeader, headerBytes, OutStream.write_append hok, OutStream.write_append (hok.write _),
    OutStream.write_append ((hok.write _).write _)]

variable {old : List UInt8} {lists : List (List UInt32)} {degree : ℕ} {start : UInt32}
  {numFrozenPts : UInt64}

theorem saveRecords_eq (hlists : ∀ l ∈ lists, l.length + 1 < 2 ^ 32) :
    (saveRecords old lists degree start numFrozenPts).out =
        ⟨headerBytes 24 degree start numFrozenPts ++ records lists ++
          old.drop (24 + (records lists).length), 24 + (records lists).length⟩ ∧
      (saveRecords old lists degree start numFrozenPts).indexSize =
        24 + (records lists).length := by
  have hok : (OutStream.mk old 0).Ok := Nat.zero_le _
  unfold saveRecords
  rw [saveHeader_eq hok]
  obtain ⟨hout, hsize⟩ := @foldl_saveNode
    ⟨(OutStream.mk old 0).write (headerBytes 24 degree start numFrozenPts), 24, 0⟩ (hok.write _)
    lists hlists
  refine ⟨?_, hsize⟩
  rw [hout, ← OutStream.write_append hok, OutStream.write]
  simp only [take_zero, nil_append, Nat.zero_add, length_append, length_headerBytes]

theorem patchHeader_file (hlists : ∀ l ∈ lists, l.length + 1 < 2 ^ 32) :
    ∃ maxDegree, (patchHeader (saveRecords old lists degree start numFrozenPts)).file =
      headerBytes (24 + (records lists).length) maxDegree start numFrozenPts ++
        (records lists ++ old.drop (24 + (records lists).length)) := by
  obtain ⟨hout, hsize⟩ := @saveRecords_eq old lists degree start numFrozenPts hlists
  refine ⟨(saveRecords old lists degree start numFrozenPts).maxDegree, ?_⟩
  have hfront := fun m r => @OutStream.write_front
    (leBytes 8 (24 + (records lists).length) ++ leBytes 4 m) (leBytes 8 24 ++ leBytes 4 degree) r
    (by simp)
  unfold patchHeader
  rw [← OutStream.write_append (OutStream.ok_seek_zero _), hsize, hout, OutStream.seek]
  simp only [headerBytes, append_assoc] at hfront ⊢
  rw [hfront]

/-! ### Reading back -/

theorem leNat_leBytes_of_lt {w n : ℕ} (h : n < 256 ^ w) : leNat (leBytes w n) = n := by
  rw [leNat_leBytes, Nat.mod_eq_of_lt h]

theorem readHeader_headerBytes {size degree : ℕ} {start : UInt32} {numFrozenPts : UInt64}
    {body : List UInt8} (hsize : size < 2 ^ 64) :
    ∃ degree', readHeader ⟨headerBytes size degree start numFrozenPts ++ body, 0⟩ =
      some (⟨size, degree', start, numFrozenPts⟩,
        ⟨headerBytes size degree start numFrozenPts ++ body, 24⟩) := by
  have hfile : headerBytes size degree start numFrozenPts ++ body = leBytes 8 size ++
      (leBytes 4 degree ++ (leBytes 4 start.toNat ++ (leBytes 8 numFrozenPts.toNat ++ body))) := by
    simp only [headerBytes, append_assoc]
  obtain ⟨h1, d1⟩ := @InStream.read_of_drop
    ⟨headerBytes size degree start numFrozenPts ++ body, 0⟩ 8 _ _ hfile (length_leBytes 8 _).symm
  obtain ⟨h2, d2⟩ := @InStream.read_of_drop
    ⟨headerBytes size degree start numFrozenPts ++ body, 0 + 8⟩ 4 _ _ d1 (length_leBytes 4 _).symm
  obtain ⟨h3, d3⟩ := @InStream.read_of_drop
    ⟨headerBytes size degree start numFrozenPts ++ body, 0 + 8 + 4⟩ 4 _ _ d2
    (length_leBytes 4 _).symm
  obtain ⟨h4, -⟩ := @InStream.read_of_drop
    ⟨headerBytes size degree start numFrozenPts ++ body, 0 + 8 + 4 + 4⟩ 8 _ _ d3
    (length_leBytes 8 _).symm
  refine ⟨leNat (leBytes 4 degree), ?_⟩
  unfold readHeader
  rw [h1, Option.bind_some, h2, Option.bind_some, h3, Option.bind_some, h4, Option.map_some,
    @leNat_leBytes_of_lt 8 size hsize, @leNat_leBytes_of_lt 4 _ start.toNat_lt,
    @leNat_leBytes_of_lt 8 _ numFrozenPts.toNat_lt, UInt32.ofNat_toNat, UInt64.ofNat_toNat]

theorem readNode_recordBytes {st : LoadState} {l : List UInt32} {post : List UInt8}
    (hl : l.length + 1 < 2 ^ 32) (hroom : st.nodesRead < st.graph.length)
    (hdrop : st.input.file.drop st.input.pos = recordBytes l ++ post) :
    ∃ maxRange, readNode st = some
        ⟨{ st.input with pos := st.input.pos + (recordBytes l).length },
          st.bytesRead + (recordBytes l).length, st.nodesRead + 1, st.graph.set st.nodesRead l,
          maxRange⟩ ∧
      st.input.file.drop (st.input.pos + (recordBytes l).length) = post := by
  rw [recordBytes, append_assoc] at hdrop
  obtain ⟨h1, d1⟩ := InStream.read_of_drop hdrop (length_leBytes 4 _).symm
  obtain ⟨h2, d2⟩ := @InStream.read_of_drop { st.input with pos := st.input.pos + 4 }
    (4 * l.length) _ _ d1 (length_neighbourBytes l).symm
  have hlen : st.input.pos + (recordBytes l).length = st.input.pos + 4 + 4 * l.length := by
    rw [length_recordBytes]
    ring
  refine ⟨if st.maxRangeOfGraph < l.length then l.length else st.maxRangeOfGraph, ?_, ?_⟩
  · unfold readNode
    rw [h1, Option.bind_some]
    dsimp only
    rw [leNat_leBytes_of_lt (by omega), h2, Option.bind_some, if_pos hroom,
      neighboursOf_neighbourBytes, hlen, length_recordBytes]
  · rw [hlen]
    exact d2

/-- The lists `lists` in place of those from `n` on. -/
def putLists (graph : List (List UInt32)) (n : ℕ) (lists : List (List UInt32)) :
    List (List UInt32) :=
  graph.take n ++ lists ++ graph.drop (n + lists.length)

theorem putLists_set {graph : List (List UInt32)} {n : ℕ} (hn : n < graph.length) (l : List UInt32)
    (lists : List (List UInt32)) :
    putLists (graph.set n l) (n + 1) lists = putLists graph n (l :: lists) := by
  have htake : (graph.set n l).take (n + 1) = graph.take n ++ [l] := by
    rw [take_add_one, getElem?_set_self hn, take_set_of_le le_rfl]
    rfl
  have hdrop : (graph.set n l).drop (n + 1 + lists.length) =
      graph.drop (n + (l :: lists).length) := by
    rw [drop_set_of_lt (by omega), length_cons]
    congr 1
    omega
  rw [putLists, htake, hdrop, append_assoc (List.take n graph)]
  rfl

theorem getElem?_putLists {graph lists : List (List UInt32)} {i : ℕ} (hi : i < lists.length) :
    (putLists graph 0 lists)[i]? = lists[i]? := by
  rw [putLists, take_zero, nil_append, getElem?_append_left hi]

theorem readNodes_records {lists : List (List UInt32)}
    (hlists : ∀ l ∈ lists, l.length + 1 < 2 ^ 32) {expected fuel : ℕ} {st : LoadState}
    {post : List UInt8} (hexp : expected = st.bytesRead + (records lists).length)
    (hfuel : lists.length ≤ fuel) (hroom : st.nodesRead + lists.length ≤ st.graph.length)
    (hdrop : st.input.file.drop st.input.pos = records lists ++ post) :
    ∃ maxRange, whileM (fun st => st.bytesRead != expected) readNode fuel st = some
      ⟨{ st.input with pos := st.input.pos + (records lists).length }, expected,
        st.nodesRead + lists.length, putLists st.graph st.nodesRead lists, maxRange⟩ := by
  induction lists generalizing st fuel with
  | nil =>
    have hst : (st.bytesRead != expected) = false := by simp [hexp, records]
    have hwhile : whileM (fun st : LoadState => st.bytesRead != expected) readNode fuel st =
        some st :=
      @whileM_of_false _ (fun st : LoadState => st.bytesRead != expected) readNode st hst fuel
    rw [hwhile]
    exact ⟨st.maxRangeOfGraph, by simp [putLists, records, hexp]⟩
  | cons l lists ih =>
    have hlen := length_records_cons l lists
    rw [length_cons] at hfuel hroom
    obtain ⟨fuel, rfl⟩ : ∃ f, fuel = f + 1 := ⟨fuel - 1, by omega⟩
    rw [records_cons, append_assoc] at hdrop
    obtain ⟨m, hnode, hrest⟩ := readNode_recordBytes (hlists l mem_cons_self) (by omega) hdrop
    have hrec := length_recordBytes l
    have hne : (st.bytesRead != expected) = true := by
      rw [bne_iff_ne]
      omega
    rw [whileM, if_pos hne, hnode, Option.bind_some]
    obtain ⟨m', hloop⟩ := @ih (fun l' hl' => hlists l' (mem_cons_of_mem _ hl')) fuel
      ⟨{ st.input with pos := st.input.pos + (recordBytes l).length },
        st.bytesRead + (recordBytes l).length, st.nodesRead + 1, st.graph.set st.nodesRead l, m⟩
      (by dsimp only; omega) (by omega) (by dsimp only; rw [length_set]; omega) hrest
    refine ⟨m', hloop.trans ?_⟩
    dsimp only
    rw [putLists_set (by omega), length_cons]
    congr 2
    · congr 1
      omega
    · omega

theorem readNodes_saved {lists : List (List UInt32)} (hfits : Fits lists) {header rest : List UInt8}
    (hheader : header.length = 24) {graph : List (List UInt32)} {maxRange : ℕ}
    (hroom : lists.length ≤ graph.length) :
    ∃ maxRange', readNodes (24 + (records lists).length)
        ⟨⟨header ++ (records lists ++ rest), 24⟩, 24, 0, graph, maxRange⟩ =
      some ⟨⟨header ++ (records lists ++ rest), 24 + (records lists).length⟩,
        24 + (records lists).length, lists.length, putLists graph 0 lists, maxRange'⟩ := by
  have hle := length_le_records lists
  obtain ⟨m, hloop⟩ := @readNodes_records lists hfits.degrees _
    (header ++ (records lists ++ rest)).length
    ⟨⟨header ++ (records lists ++ rest), 24⟩, 24, 0, graph, maxRange⟩ rest rfl
    (by simp only [length_append]; omega) (by simpa using hroom)
    (by rw [← hheader]; exact drop_left)
  refine ⟨m, hloop.trans ?_⟩
  simp

/-! ### The round trip -/

/-- The number of bytes that `save_graph` writes. -/
def bytesWritten (st : SaveState) : ℕ := st.out.pos

theorem length_resizeGraph (n : ℕ) (g : InMemGraphStore) : (g.resizeGraph n).graph.length = n := by
  simp only [resizeGraph, length_append, List.length_take, length_replicate]
  omega

theorem mapM_getElem? (g : InMemGraphStore) {n : ℕ} (hn : n ≤ g.graph.length) :
    (List.range n).mapM (g.graph[·]?) = some (g.graph.take n) := by
  have hlen : (g.graph.take n).length = n := by
    rw [List.length_take]
    exact Nat.min_eq_left hn
  have hmap := @mapM_range_of_getElem? _ (g.graph[·]?) (g.graph.take n) fun i hi =>
    (getElem?_take_of_lt (by omega)).symm
  rwa [hlen] at hmap

/-- The loop on a file that has been saved, in a store that makes room for its points. -/
theorem loadLoop_saved {lists : List (List UInt32)} (hfits : Fits lists) (rest : List UInt8)
    {g : InMemGraphStore} (hg : g.graph.length = g.totalPoints) {expected : ℕ}
    (hexp : lists.length ≤ max g.totalPoints expected) :
    ∃ header last, g.loadLoop (headerBytes (24 + (records lists).length) degree start numFrozenPts ++
        (records lists ++ rest)) expected = some (header, last) ∧
      header.expectedFileSize = 24 + (records lists).length ∧ header.start = start ∧
      header.fileFrozenPts = numFrozenPts ∧ last.input.pos = 24 + (records lists).length ∧
      last.nodesRead = lists.length ∧ ∀ i < lists.length, last.graph[i]? = lists[i]? := by
  have hroom : lists.length ≤ (if g.totalPoints < expected
      then g.resizeGraph expected else g).graph.length := by
    split_ifs with h
    · rw [length_resizeGraph]
      omega
    · omega
  obtain ⟨degree', hread⟩ := @readHeader_headerBytes (24 + (records lists).length) degree start
    numFrozenPts (records lists ++ rest) hfits.size
  obtain ⟨maxRange, hnodes⟩ := @readNodes_saved lists hfits
    (headerBytes (24 + (records lists).length) degree start numFrozenPts) rest
    (length_headerBytes ..) _
    (if g.totalPoints < expected then g.resizeGraph expected else g).maxRangeOfGraph hroom
  unfold loadLoop
  rw [hread, Option.bind_some]
  dsimp only
  rw [hnodes]
  exact ⟨_, _, rfl, rfl, rfl, rfl, rfl, rfl, fun i hi => getElem?_putLists hi⟩

/-- The graph file is read back: by a store that has room, or is asked to make room, for the points.
The size in the header is the number of bytes written, and the loop over the records stops there;
that is the end of the file, unless a longer file was there before. -/
theorem load_saveGraph (g g₀ : InMemGraphStore) (old : List UInt8) (numPoints expected : ℕ)
    (numFrozenPts : UInt64) (start : UInt32) (hnum : numPoints ≤ g.graph.length)
    (hfits : Fits (g.graph.take numPoints)) (hg₀ : g₀.graph.length = g₀.totalPoints)
    (hexp : numPoints ≤ max g₀.totalPoints expected) :
    let saved := saveRecords old (g.graph.take numPoints) g.maxObservedDegree start numFrozenPts
    ∃ file ret header last g₁,
      g.saveGraph old numPoints numFrozenPts start = some (file, ret) ∧
      g₀.loadLoop file expected = some (header, last) ∧
      g₀.loadImpl file expected = some ((numPoints, start, numFrozenPts), g₁) ∧
      (∀ i < numPoints, g₁.graph[i]? = g.graph[i]?) ∧
      header.expectedFileSize = bytesWritten saved ∧
      last.input.pos = bytesWritten saved ∧
      (old.length ≤ bytesWritten saved → bytesWritten saved = file.length) := by
  intro saved
  have hlen : (g.graph.take numPoints).length = numPoints := by
    rw [List.length_take]
    exact Nat.min_eq_left hnum
  have hwritten : bytesWritten saved = 24 + (records (g.graph.take numPoints)).length :=
    congrArg OutStream.pos (saveRecords_eq hfits.degrees).1
  obtain ⟨degree, hfile⟩ := @patchHeader_file old (g.graph.take numPoints) g.maxObservedDegree start
    numFrozenPts hfits.degrees
  obtain ⟨header, last, hloop, hsize, hstart, hfrozen, hpos, hnodes, hgraph⟩ :=
    @loadLoop_saved degree start numFrozenPts _ hfits
      (old.drop (24 + (records (g.graph.take numPoints)).length)) g₀ hg₀ expected (by omega)
  rw [← hfile] at hloop
  have hgraph' : ∀ i < numPoints, last.graph[i]? = g.graph[i]? := by
    intro i hi
    rw [hgraph i (by omega), getElem?_take_of_lt hi]
  have hend : old.length ≤ bytesWritten saved →
      bytesWritten saved = (patchHeader saved).file.length := by
    intro hold
    rw [hfile, length_append, length_append, length_headerBytes, length_drop]
    omega
  unfold saveGraph loadImpl
  rw [mapM_getElem? g hnum, Option.map_some]
  refine ⟨_, _, header, last, ⟨last.graph, max g₀.totalPoints expected, last.maxRangeOfGraph,
    header.maxObservedDegree⟩, rfl, hloop, ?_, hgraph', hsize.trans hwritten.symm,
    hpos.trans hwritten.symm, hend⟩
  rw [hloop, Option.map_some, hnodes, hlen, hstart, hfrozen]

theorem load_saveGraph_two : ∃ file ret header last g₁,
    (InMemGraphStore.mk [[1], []] 2 1 1).saveGraph [] 2 1 1 = some (file, ret) ∧
    (InMemGraphStore.mk [] 0 0 0).loadLoop file 2 = some (header, last) ∧
    (InMemGraphStore.mk [] 0 0 0).loadImpl file 2 = some ((2, 1, 1), g₁) ∧
    last.input.pos = file.length := by
  obtain ⟨file, ret, header, last, g₁, hsave, hloop, hload, -, -, hpos, hend⟩ :=
    load_saveGraph ⟨[[1], []], 2, 1, 1⟩ ⟨[], 0, 0, 0⟩ [] 2 2 1 1 (by decide)
      ⟨by decide, by decide, by decide⟩ rfl (by decide)
  exact ⟨file, ret, header, last, g₁, hsave, hloop, hload, hpos.trans (hend (Nat.zero_le _))⟩

end InMemGraphStore

end DiskANNEval.AiSAQ
