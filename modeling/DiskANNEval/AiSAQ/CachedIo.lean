import DiskANNEval.Lib.Lockstep
import DiskANNEval.Lib.Streams
import Mathlib

/-!
# CachedIo — `cached_ifstream` and `cached_ofstream`

A reader that keeps the next block of its file in memory, and a writer that collects small blocks
before it writes them.  `Reads` and `Writes` say which plain stream a cached one stands for: the
reader's position is that of the file less what is still cached, the writer's file is what it will be
once the cache is written.  Each call keeps the relation and fails with the plain call.
-/

namespace DiskANNEval.AiSAQ

open Lib List

/-! ## `cached_ifstream` -/

structure CachedIfstream where
  reader : InStream
  cacheSize : ℕ
  cacheBuf : List UInt8
  curOff : ℕ
  fsize : ℕ

namespace CachedIfstream

/-- `open` -/
def openFile (file : List UInt8) (cacheSize : ℕ) : Option CachedIfstream :=
  let cacheSize := min cacheSize file.length
  ((⟨file, 0⟩ : InStream).read cacheSize).map fun r =>
    { reader := r.2, cacheSize, cacheBuf := r.1, curOff := 0, fsize := file.length }

/-- `none`: an exception. -/
def read (nBytes : ℕ) (s : CachedIfstream) : Option (List UInt8 × CachedIfstream) :=
  if nBytes ≤ s.cacheSize - s.curOff then
    some (slice s.cacheBuf s.curOff nBytes, { s with curOff := s.curOff + nBytes })
  else
    let cachedBytes := s.cacheSize - s.curOff
    -- behind the end of the file `fsize - reader.tellg()` wraps around, and the reader throws
    if s.reader.pos ≤ s.fsize ∧ s.fsize - s.reader.pos < nBytes - cachedBytes then none
    else
      (s.reader.read (nBytes - cachedBytes)).bind fun r =>
        let readBuf := slice s.cacheBuf s.curOff cachedBytes ++ r.1
        if s.cacheSize ≤ s.fsize - r.2.pos then
          (r.2.read s.cacheSize).map fun c =>
            (readBuf, { s with reader := c.2, cacheBuf := c.1, curOff := 0 })
        else some (readBuf, { s with reader := r.2, curOff := s.cacheSize })

def seek (pos : ℕ) (s : CachedIfstream) : CachedIfstream :=
  { s with reader := s.reader.seek pos, curOff := s.cacheSize }

/-- `fresh`: what the new buffer happens to hold. -/
def setCacheSize (cacheSize : ℕ) (fresh : List UInt8) (s : CachedIfstream) : CachedIfstream :=
  let newCacheSize := min cacheSize s.fsize
  { s with cacheSize := newCacheSize, cacheBuf := fresh, curOff := newCacheSize }

/-- `resize` is a `set_cache_size` with the `seek` that follows it. -/
inductive Call
  | read (nBytes : ℕ)
  | seek (pos : ℕ)
  | resize (cacheSize : ℕ) (fresh : List UInt8) (pos : ℕ)

/-- The bytes a call returns, and the stream after it. -/
def call (s : CachedIfstream) : Call → Option (List UInt8 × CachedIfstream)
  | .read nBytes => s.read nBytes
  | .seek pos => some ([], s.seek pos)
  | .resize cacheSize fresh pos => some ([], (s.setCacheSize cacheSize fresh).seek pos)

/-- The same call on the plain stream. -/
def plainCall (s : InStream) : Call → Option (List UInt8 × InStream)
  | .read nBytes => s.read nBytes
  | .seek pos => some ([], s.seek pos)
  | .resize _ _ pos => some ([], s.seek pos)

/-- `s` stands for the plain stream `p`: what is left in the cache comes next in the file. -/
structure Reads (s : CachedIfstream) (p : InStream) : Prop where
  file_eq : s.reader.file = p.file
  fsize_eq : s.fsize = p.file.length
  off_le : s.curOff ≤ s.cacheSize
  pos_eq : s.reader.pos = p.pos + (s.cacheSize - s.curOff)
  cached : slice s.cacheBuf s.curOff (s.cacheSize - s.curOff) =
    slice p.file p.pos (s.cacheSize - s.curOff)
  in_file : s.curOff < s.cacheSize → s.reader.pos ≤ p.file.length

variable {s : CachedIfstream} {p : InStream}

theorem reads_of_empty (hfile : s.reader.file = p.file) (hsize : s.fsize = p.file.length)
    (hoff : s.curOff = s.cacheSize) (hpos : s.reader.pos = p.pos) : Reads s p where
  file_eq := hfile
  fsize_eq := hsize
  off_le := hoff.le
  pos_eq := by rw [hoff, Nat.sub_self, hpos, Nat.add_zero]
  cached := by rw [hoff, Nat.sub_self, slice, slice, take_zero, take_zero]
  in_file h := absurd h (by omega)

theorem reads_of_full {file : List UInt8} {pos cacheSize fsize : ℕ} (hsize : fsize = file.length)
    (hfit : pos + cacheSize ≤ file.length) :
    Reads ⟨⟨file, pos + cacheSize⟩, cacheSize, slice file pos cacheSize, 0, fsize⟩ ⟨file, pos⟩ where
  file_eq := rfl
  fsize_eq := hsize
  off_le := Nat.zero_le _
  pos_eq := rfl
  cached := by
    show slice (slice file pos cacheSize) 0 (cacheSize - 0) = slice file pos (cacheSize - 0)
    rw [slice_slice (by omega), Nat.add_zero]
  in_file _ := hfit

theorem openFile_reads (file : List UInt8) (cacheSize : ℕ) :
    ∃ s, openFile file cacheSize = some s ∧ Reads s ⟨file, 0⟩ := by
  have hle : min cacheSize file.length ≤ file.length := Nat.min_le_right _ _
  have hfit : 0 + min cacheSize file.length ≤ file.length := by omega
  unfold openFile
  dsimp only
  rw [InStream.read_of_le hle]
  exact ⟨_, rfl, reads_of_full rfl hfit⟩

theorem Reads.read_cached (h : Reads s p) {n : ℕ} (hn : n ≤ s.cacheSize - s.curOff) :
    p.read n = some (slice s.cacheBuf s.curOff n, { p with pos := p.pos + n }) ∧
      Reads { s with curOff := s.curOff + n } { p with pos := p.pos + n } := by
  have hpos := h.pos_eq
  have hin : n ≤ p.file.length - p.pos := by
    by_cases h0 : n = 0
    · omega
    · have := h.in_file (by omega)
      omega
  have hsub : s.cacheSize - (s.curOff + n) = s.cacheSize - s.curOff - n := by omega
  have hbytes := congrArg (fun b => slice b 0 n) h.cached
  have hrest := congrArg (fun b => slice b n (s.cacheSize - s.curOff - n)) h.cached
  rw [slice_slice (by omega), slice_slice (by omega), Nat.add_zero, Nat.add_zero] at hbytes
  rw [slice_slice (by omega), slice_slice (by omega)] at hrest
  constructor
  · rw [InStream.read_of_le hin, hbytes]
  · refine ⟨h.file_eq, h.fsize_eq, ?_, ?_, ?_, ?_⟩
    · show s.curOff + n ≤ s.cacheSize
      have := h.off_le
      omega
    · show s.reader.pos = p.pos + n + (s.cacheSize - (s.curOff + n))
      omega
    · show slice s.cacheBuf (s.curOff + n) (s.cacheSize - (s.curOff + n)) =
        slice p.file (p.pos + n) (s.cacheSize - (s.curOff + n))
      rw [hsub]
      exact hrest
    · intro hlt
      apply h.in_file
      dsimp only at hlt
      omega

theorem Reads.cached_append (h : Reads s p) {n : ℕ} (hn : s.cacheSize - s.curOff ≤ n) :
    slice s.cacheBuf s.curOff (s.cacheSize - s.curOff) ++
      slice s.reader.file s.reader.pos (n - (s.cacheSize - s.curOff)) = slice p.file p.pos n := by
  rw [h.cached, h.file_eq, h.pos_eq, ← slice_add]
  congr 1
  omega

theorem Reads.read (h : Reads s p) (n : ℕ) :
    s.read n = none ∧ p.read n = none ∨
      ∃ bs s' p', s.read n = some (bs, s') ∧ p.read n = some (bs, p') ∧ Reads s' p' := by
  have hpos := h.pos_eq
  have hsize := h.fsize_eq
  unfold CachedIfstream.read
  by_cases hn : n ≤ s.cacheSize - s.curOff
  · rw [if_pos hn]
    obtain ⟨hread, hreads⟩ := h.read_cached hn
    exact Or.inr ⟨_, _, _, rfl, hread, hreads⟩
  · rw [if_neg hn]
    by_cases hend : n ≤ p.file.length - p.pos
    · -- the file has the bytes
      have hle : n - (s.cacheSize - s.curOff) ≤ s.reader.file.length - s.reader.pos := by
        rw [h.file_eq]
        omega
      rw [if_neg (by omega), InStream.read_of_le hle, Option.bind_some]
      rw [h.cached_append (by omega)]
      right
      have hnext : s.reader.pos + (n - (s.cacheSize - s.curOff)) = p.pos + n := by omega
      rw [hnext, h.file_eq]
      by_cases hleft : s.cacheSize ≤ s.fsize - (p.pos + n)
      · have hfit : s.cacheSize ≤ p.file.length - (p.pos + n) := hsize ▸ hleft
        have hfull : p.pos + n + s.cacheSize ≤ p.file.length := by omega
        rw [if_pos hleft, InStream.read_of_le hfit]
        exact ⟨_, _, _, rfl, InStream.read_of_le hend, reads_of_full hsize hfull⟩
      · rw [if_neg hleft]
        exact ⟨_, _, _, rfl, InStream.read_of_le hend, reads_of_empty rfl hsize rfl rfl⟩
    · left
      refine ⟨?_, InStream.read_of_lt (by omega)⟩
      by_cases hbeyond : s.reader.pos ≤ s.fsize
      · rw [if_pos (by omega)]
      · have hlt : s.reader.file.length - s.reader.pos < n - (s.cacheSize - s.curOff) := by
          rw [h.file_eq]
          omega
        rw [if_neg (by omega), InStream.read_of_lt hlt, Option.bind_none]

theorem Reads.seek (h : Reads s p) (pos : ℕ) : Reads (s.seek pos) (p.seek pos) :=
  reads_of_empty h.file_eq h.fsize_eq rfl rfl

theorem Reads.setCacheSize_seek (h : Reads s p) (cacheSize : ℕ) (fresh : List UInt8) (pos : ℕ) :
    Reads ((s.setCacheSize cacheSize fresh).seek pos) (p.seek pos) :=
  reads_of_empty h.file_eq h.fsize_eq rfl rfl

theorem Reads.call (s : CachedIfstream) (p : InStream) (c : Call) (h : Reads s p) :
    s.call c = none ∧ plainCall p c = none ∨
      ∃ bs s' p', s.call c = some (bs, s') ∧ plainCall p c = some (bs, p') ∧ Reads s' p' := by
  cases c with
  | read n => exact h.read n
  | seek pos => exact Or.inr ⟨_, _, _, rfl, rfl, h.seek pos⟩
  | resize cacheSize fresh pos =>
    exact Or.inr ⟨_, _, _, rfl, rfl, h.setCacheSize_seek cacheSize fresh pos⟩

end CachedIfstream

/-! ## `cached_ofstream` -/

/-- `cacheBuf` is `none` once `close` has freed it. -/
structure CachedOfstream where
  writer : OutStream
  cacheSize : ℕ
  cacheBuf : Option (List UInt8)
  curOff : ℕ
  fsize : ℕ

namespace CachedOfstream

/-- The constructor, on a file that it empties; `fresh`: what the buffer happens to hold. -/
def new (cacheSize : ℕ) (fresh : ℕ → UInt8) : CachedOfstream where
  writer := ⟨[], 0⟩
  cacheSize := cacheSize
  cacheBuf := some ((List.range cacheSize).map fresh)
  curOff := 0
  fsize := 0

/-- `none`: the assertion `cache_buf != nullptr` fails. -/
def flushCache (s : CachedOfstream) : Option CachedOfstream :=
  s.cacheBuf.map fun cacheBuf =>
    { s with
      writer := s.writer.write (cacheBuf.take s.curOff)
      fsize := s.fsize + s.curOff
      cacheBuf := some (List.replicate s.cacheSize 0)
      curOff := 0 }

/-- `none`: the assertion fails, or the bytes are copied past the end of the buffer. -/
def write (writeBuf : List UInt8) (s : CachedOfstream) : Option CachedOfstream :=
  s.cacheBuf.bind fun cacheBuf =>
    if writeBuf.length ≤ s.cacheSize - s.curOff then
      (Lib.write cacheBuf s.curOff writeBuf).map fun cacheBuf =>
        { s with cacheBuf := some cacheBuf, curOff := s.curOff + writeBuf.length }
    else
      some { s with
        writer := (s.writer.write (cacheBuf.take s.curOff)).write writeBuf
        fsize := s.fsize + s.curOff + writeBuf.length
        cacheBuf := some (List.replicate s.cacheSize 0)
        curOff := 0 }

def reset (s : CachedOfstream) : Option CachedOfstream :=
  s.flushCache.map fun s => { s with writer := s.writer.seek 0 }

def close (s : CachedOfstream) : Option CachedOfstream :=
  (if 0 < s.curOff then s.flushCache else some s).map fun s => { s with cacheBuf := none }

inductive Call
  | write (writeBuf : List UInt8)
  | flushCache
  | reset
  | close

def call (s : CachedOfstream) : Call → Option CachedOfstream
  | .write writeBuf => s.write writeBuf
  | .flushCache => s.flushCache
  | .reset => s.reset
  | .close => s.close

/-- The file after the calls and the destructor. -/
def fileLeft (s : CachedOfstream) (calls : List Call) : List UInt8 :=
  let s := left call s calls
  (s.close.getD s).writer.file

end CachedOfstream

/-- A plain stream, which `close` may have closed. -/
structure PlainOfstream where
  writer : OutStream
  isOpen : Bool

namespace PlainOfstream

/-- Calls on a closed stream fail, except `close`. -/
def call (p : PlainOfstream) : CachedOfstream.Call → Option PlainOfstream
  | .write writeBuf => if p.isOpen then some { p with writer := p.writer.write writeBuf } else none
  | .flushCache => if p.isOpen then some p else none
  | .reset => if p.isOpen then some { p with writer := p.writer.seek 0 } else none
  | .close => some { p with isOpen := false }

def fileLeft (p : PlainOfstream) (calls : List CachedOfstream.Call) : List UInt8 :=
  (left call p calls).writer.file

end PlainOfstream

namespace CachedOfstream

/-- `s` stands for `p`, whose file already has what is cached. -/
structure Holds (s : CachedOfstream) (buf : List UInt8) (p : PlainOfstream) : Prop where
  cacheBuf_eq : s.cacheBuf = some buf
  length_eq : buf.length = s.cacheSize
  off_le : s.curOff ≤ s.cacheSize
  writer_ok : s.writer.Ok
  plain_eq : p = ⟨s.writer.write (buf.take s.curOff), true⟩

/-- An open stream, or one that has been closed. -/
def Writes (s : CachedOfstream) (p : PlainOfstream) : Prop :=
  (∃ buf, Holds s buf p) ∨ s.cacheBuf = none ∧ s.curOff = 0 ∧ p = ⟨s.writer, false⟩

variable {s : CachedOfstream} {p : PlainOfstream} {buf : List UInt8}

theorem holds_of_empty {writer : OutStream} {cacheSize fsize : ℕ} (hlen : buf.length = cacheSize)
    (hok : writer.Ok) : Holds ⟨writer, cacheSize, some buf, 0, fsize⟩ buf ⟨writer, true⟩ where
  cacheBuf_eq := rfl
  length_eq := hlen
  off_le := Nat.zero_le _
  writer_ok := hok
  plain_eq := by
    show _ = PlainOfstream.mk (writer.write (buf.take 0)) true
    rw [take_zero, OutStream.write_nil]

theorem writes_new (cacheSize : ℕ) (fresh : ℕ → UInt8) :
    Writes (new cacheSize fresh) ⟨⟨[], 0⟩, true⟩ :=
  Or.inl ⟨_, holds_of_empty (by simp) le_rfl⟩

theorem Holds.flushCache (h : Holds s buf p) : ∃ s', s.flushCache = some s' ∧
    s'.writer = p.writer ∧ s'.curOff = 0 ∧ Holds s' (replicate s.cacheSize 0) p := by
  have hp := h.plain_eq
  subst hp
  unfold CachedOfstream.flushCache
  rw [h.cacheBuf_eq]
  exact ⟨_, rfl, rfl, rfl, holds_of_empty (length_replicate ..) (h.writer_ok.write _)⟩

theorem Holds.write (h : Holds s buf p) (bs : List UInt8) : ∃ s' buf', s.write bs = some s' ∧
    Holds s' buf' ⟨p.writer.write bs, true⟩ := by
  have hp := h.plain_eq
  have hoff := h.off_le
  have hlen := h.length_eq
  subst hp
  unfold CachedOfstream.write
  rw [h.cacheBuf_eq, Option.bind_some]
  by_cases hfit : bs.length ≤ s.cacheSize - s.curOff
  · obtain ⟨buf', hw⟩ := @write_isSome buf bs s.curOff (by omega)
    rw [if_pos hfit, hw]
    refine ⟨_, buf', rfl, rfl, ?_, ?_, h.writer_ok, ?_⟩
    · rw [length_write hw, hlen]
    · show s.curOff + bs.length ≤ s.cacheSize
      omega
    · -- the buffer begins with what was cached and the new bytes
      have htake : buf'.take (s.curOff + bs.length) = buf.take s.curOff ++ bs := by
        rw [(write_eq_some hw).2]
        apply take_left'
        rw [length_append, List.length_take]
        omega
      show _ = PlainOfstream.mk (s.writer.write (buf'.take (s.curOff + bs.length))) true
      rw [htake, OutStream.write_append h.writer_ok]
  · rw [if_neg hfit]
    exact ⟨_, _, rfl, holds_of_empty (length_replicate ..)
      ((h.writer_ok.write _).write _)⟩

theorem Holds.reset (h : Holds s buf p) : ∃ s' buf', s.reset = some s' ∧
    Holds s' buf' ⟨p.writer.seek 0, true⟩ := by
  obtain ⟨s', hs', hwriter, hoff, h'⟩ := h.flushCache
  unfold CachedOfstream.reset
  rw [hs']
  refine ⟨_, _, rfl, h'.cacheBuf_eq, h'.length_eq, h'.off_le, OutStream.ok_seek_zero _, ?_⟩
  show _ = PlainOfstream.mk ((s'.writer.seek 0).write (List.take s'.curOff _)) true
  rw [hoff, take_zero, OutStream.write_nil, hwriter]

theorem Writes.close (h : Writes s p) : ∃ s', s.close = some s' ∧
    s'.writer = p.writer ∧ Writes s' { p with isOpen := false } := by
  unfold CachedOfstream.close
  rcases h with ⟨buf, h⟩ | ⟨hbuf, hoff, rfl⟩
  · by_cases hpos : 0 < s.curOff
    · obtain ⟨s', hs', hwriter, hoff, -⟩ := h.flushCache
      rw [if_pos hpos, hs']
      exact ⟨_, rfl, hwriter, Or.inr ⟨rfl, hoff, by rw [hwriter]⟩⟩
    · have hoff : s.curOff = 0 := by omega
      have hwriter : s.writer = p.writer := by
        rw [h.plain_eq, hoff, take_zero, OutStream.write_nil]
      rw [if_neg hpos]
      exact ⟨_, rfl, hwriter, Or.inr ⟨rfl, hoff, by rw [hwriter]⟩⟩
  · rw [if_neg (by omega)]
    exact ⟨_, rfl, rfl, Or.inr ⟨rfl, hoff, rfl⟩⟩

theorem Writes.call (s : CachedOfstream) (p : PlainOfstream) (c : Call) (h : Writes s p) :
    s.call c = none ∧ p.call c = none ∨
      ∃ s' p', s.call c = some s' ∧ p.call c = some p' ∧ Writes s' p' := by
  cases c with
  | close =>
    obtain ⟨s', hs', -, h'⟩ := h.close
    exact Or.inr ⟨s', _, hs', rfl, h'⟩
  | write bs =>
    rcases h with ⟨buf, h⟩ | ⟨hbuf, -, rfl⟩
    · obtain ⟨s', buf', hs', h'⟩ := h.write bs
      rw [h.plain_eq] at h' ⊢
      exact Or.inr ⟨s', _, hs', rfl, Or.inl ⟨buf', h'⟩⟩
    · exact Or.inl ⟨by show s.write bs = none; rw [CachedOfstream.write, hbuf]; rfl, rfl⟩
  | flushCache =>
    rcases h with ⟨buf, h⟩ | ⟨hbuf, -, rfl⟩
    · obtain ⟨s', hs', -, -, h'⟩ := h.flushCache
      rw [h.plain_eq] at h' ⊢
      exact Or.inr ⟨s', _, hs', rfl, Or.inl ⟨_, h'⟩⟩
    · exact Or.inl ⟨by show s.flushCache = none; rw [CachedOfstream.flushCache, hbuf]; rfl, rfl⟩
  | reset =>
    rcases h with ⟨buf, h⟩ | ⟨hbuf, -, rfl⟩
    · obtain ⟨s', buf', hs', h'⟩ := h.reset
      rw [h.plain_eq] at h' ⊢
      exact Or.inr ⟨s', _, hs', rfl, Or.inl ⟨buf', h'⟩⟩
    · refine Or.inl ⟨?_, rfl⟩
      show s.reset = none
      rw [CachedOfstream.reset, CachedOfstream.flushCache, hbuf]
      rfl

end CachedOfstream

/-- A cached reader hands out what the plain stream does and fails when it does, and a cached writer
leaves the file that the plain stream leaves. -/
theorem cachedStreams_refine :
    (∀ (file : List UInt8) (cacheSize : ℕ) (calls : List CachedIfstream.Call),
      (CachedIfstream.openFile file cacheSize).map (fun s => trace CachedIfstream.call s calls) =
        some (trace CachedIfstream.plainCall ⟨file, 0⟩ calls)) ∧
    ∀ (cacheSize : ℕ) (fresh : ℕ → UInt8) (calls : List CachedOfstream.Call),
      (CachedOfstream.new cacheSize fresh).fileLeft calls =
        (PlainOfstream.mk ⟨[], 0⟩ true).fileLeft calls := by
  constructor
  · intro file cacheSize calls
    obtain ⟨s, hs, hreads⟩ := CachedIfstream.openFile_reads file cacheSize
    rw [hs, Option.map_some, trace_eq CachedIfstream.Reads.call hreads]
  · intro cacheSize fresh calls
    have h := left_rel CachedOfstream.Writes.call (CachedOfstream.writes_new cacheSize fresh) calls
    obtain ⟨s', hs', hwriter, -⟩ := h.close
    unfold CachedOfstream.fileLeft PlainOfstream.fileLeft
    dsimp only
    rw [hs', Option.getD_some, hwriter]

end DiskANNEval.AiSAQ
