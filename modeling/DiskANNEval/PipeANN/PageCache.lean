import DiskANNEval.Lib.Run
import DiskANNEval.PipeANN.LockTable
import Mathlib.Data.List.Sort
import Mathlib.Data.List.Dedup
import Mathlib.Data.Fintype.Basic
import Mathlib.Data.Fintype.Prod

/-!
# PageCache — the page cache under concurrent `insert_in_place` calls

A call reads pages without their locks (`read_alloc`), locks the pages it writes, puts the new bytes
into the cache (`wbc_write`) and leaves the write to the disk to a task in the background, which
unlocks the pages afterwards.  `read_alloc` reads the pages that are missing from the disk and then
puts them into the cache, whatever the cache holds by then.

Offsets and lengths are in sectors: all requests are aligned, and `read_alloc` crashes if one is not.
What a call computes from the pages it has read is left open: it may write any bytes.
-/

namespace DiskANNEval.PipeANN.PageCache

open Lib List Function

variable {B : Type}

/-- `PageCacheItem`, with the bytes of a sector. -/
structure Item (B : Type) where
  buf : B
  refCnt : ℕ

abbrev Cache (B : Type) := ℕ → Option (Item B)

namespace Cache

/-- What a lookup of a block finds. -/
def buf (c : Cache B) (blockNo : ℕ) : Option B := (c blockNo).map Item.buf

def get (c : Cache B) (blockNo : ℕ) (ref : Bool) : Cache B × Option B :=
  match c blockNo with
  | none => (c, none)
  | some v =>
    (Function.update c blockNo (some { v with refCnt := v.refCnt + if ref then 1 else 0 }),
      some v.buf)

def put (c : Cache B) (blockNo : ℕ) (value : B) (ref : Bool) : Cache B :=
  let refCnt := ((c blockNo).map Item.refCnt).getD 0
  Function.update c blockNo (some ⟨value, refCnt + if ref then 1 else 0⟩)

def deref (c : Cache B) (blockNo : ℕ) : Cache B :=
  match c blockNo with
  | none => c
  | some v =>
    Function.update c blockNo
      (if v.refCnt - 1 = 0 then none else some { v with refCnt := v.refCnt - 1 })

variable (c : Cache B) (P Q : ℕ)

theorem get_snd (ref : Bool) : (c.get P ref).2 = c.buf P := by
  unfold get buf
  split <;> simp [*]

theorem get_buf (ref : Bool) : (c.get P ref).1.buf Q = c.buf Q := by
  unfold get
  split
  · rfl
  · rename_i v hv
    by_cases hQ : Q = P
    · simp [buf, hQ, hv]
    · simp [buf, update_of_ne hQ]

theorem put_buf (value : B) (ref : Bool) :
    (c.put P value ref).buf Q = if Q = P then some value else c.buf Q := by
  by_cases hQ : Q = P
  · simp [put, buf, hQ]
  · simp [put, buf, hQ]

theorem deref_buf : (c.deref P).buf Q = c.buf Q ∨ (c.deref P).buf Q = none := by
  unfold deref
  split
  · exact .inl rfl
  · rename_i v hv
    by_cases hQ : Q = P
    · subst hQ
      by_cases h0 : v.refCnt - 1 = 0
      · simp [buf, h0]
      · simp [buf, h0, hv]
    · simp [buf, update_of_ne hQ]

end Cache

/-! ### Requests -/

structure IORequest where
  offset : ℕ
  len : ℕ
  deriving DecidableEq

def IORequest.sectors (req : IORequest) : List ℕ := (List.range req.len).map (req.offset + ·)

/-- What `meta_` says of the nodes on disk; `nodeSectors` is `max_node_len` in sectors. -/
structure Layout where
  nnodesPerSector : ℕ
  nodeSectors : ℕ

def Layout.sizePerIo (m : Layout) : ℕ := if 0 < m.nnodesPerSector then 1 else m.nodeSectors

def Layout.locSectorNo (m : Layout) (loc : ℕ) : ℕ :=
  1 + if 0 < m.nnodesPerSector then loc / m.nnodesPerSector else loc * m.nodeSectors

/-- `pages_to_rmw_set`, a `std::set` -/
def Layout.pagesToRmwSet (m : Layout) (locs : List ℕ) : List ℕ :=
  (locs.map m.locSectorNo).dedup.insertionSort (· ≤ ·)

def Layout.pagesToRmw (m : Layout) (locs : List ℕ) : List IORequest :=
  (m.pagesToRmwSet locs).map fun pageNo => ⟨pageNo, m.sizePerIo⟩

/-- The loop that makes continuous writes of writes of `io` sectors: `n` writes from `start` on, the
last one at `curOff`. -/
def continuousWrites (io start n curOff : ℕ) : List ℕ → List IORequest
  | [] => [⟨start, io * n⟩]
  | off :: offs =>
    if off ≠ curOff + io then ⟨start, io * n⟩ :: continuousWrites io off 1 off offs
    else continuousWrites io start (n + 1) off offs

def Layout.writes (m : Layout) (locs : List ℕ) : List IORequest :=
  match m.pagesToRmwSet locs with
  | [] => []
  | off :: offs => continuousWrites m.sizePerIo off 1 off offs

/-- The keys `lockReqs` locks, in order. -/
def lockReqs (reqs : List IORequest) : List ℕ :=
  (reqs.flatMap IORequest.sectors).dedup.insertionSort (· ≤ ·)

variable {P : ℕ}

theorem mem_sectors {req : IORequest} :
    P ∈ req.sectors ↔ req.offset ≤ P ∧ P < req.offset + req.len := by
  simp only [IORequest.sectors, mem_map, List.mem_range]
  constructor
  · rintro ⟨i, hi, rfl⟩
    omega
  · rintro ⟨h1, h2⟩
    exact ⟨P - req.offset, by omega, by omega⟩

theorem mem_continuousWrites {io start n curOff : ℕ} {offs : List ℕ}
    (hcur : curOff + io = start + io * n)
    (hP : P ∈ (continuousWrites io start n curOff offs).flatMap IORequest.sectors) :
    (start ≤ P ∧ P < curOff + io) ∨ ∃ off ∈ offs, off ≤ P ∧ P < off + io := by
  induction offs generalizing start n curOff with
  | nil =>
    rw [continuousWrites, flatMap_singleton, mem_sectors] at hP
    exact .inl (hcur ▸ hP)
  | cons off offs ih =>
    rw [continuousWrites] at hP
    split_ifs at hP with hoff
    · rw [flatMap_cons, mem_append, mem_sectors] at hP
      obtain hP | hP := hP
      · exact .inl (hcur ▸ hP)
      · obtain h | ⟨o, ho, h⟩ := ih (by omega) hP
        · exact .inr ⟨off, mem_cons_self, h⟩
        · exact .inr ⟨o, mem_cons_of_mem _ ho, h⟩
    · have hoff : off = curOff + io := not_not.1 hoff
      have hnext : off + io = start + io * (n + 1) := by
        rw [Nat.mul_add]
        omega
      obtain h | ⟨o, ho, h⟩ := ih hnext hP
      · by_cases hlt : P < off
        · exact .inl ⟨h.1, by omega⟩
        · exact .inr ⟨off, mem_cons_self, by omega⟩
      · exact .inr ⟨o, mem_cons_of_mem _ ho, h⟩

theorem mem_lockReqs_of_mem_writes {m : Layout} {locs : List ℕ}
    (hP : P ∈ (m.writes locs).flatMap IORequest.sectors) : P ∈ lockReqs (m.pagesToRmw locs) := by
  have hmem : ∃ off ∈ m.pagesToRmwSet locs, off ≤ P ∧ P < off + m.sizePerIo := by
    unfold Layout.writes at hP
    split at hP
    · simp at hP
    · rename_i off offs heq
      rw [heq]
      obtain h | ⟨o, ho, h⟩ := mem_continuousWrites (by omega) hP
      · exact ⟨off, mem_cons_self, h⟩
      · exact ⟨o, mem_cons_of_mem _ ho, h⟩
  obtain ⟨off, hoff, h⟩ := hmem
  rw [lockReqs, mem_insertionSort, mem_dedup, mem_flatMap]
  exact ⟨⟨off, m.sizePerIo⟩, mem_map_of_mem hoff, mem_sectors.2 h⟩

/-! ### The calls -/

/-- Where `read_alloc` is: at sector `pos` of the first of the requests `todo`, with the requests
`diskReadReqs` missed so far; or at the disk reads and the puts that follow them. -/
inductive ReadPhase (B : Type)
  | lookup (pos : ℕ) (todo diskReadReqs : List IORequest)
  | fill (ios : List (ℕ × Option B))

structure ReadAlloc (B : Type) where
  reqs : List IORequest
  phase : ReadPhase B

/-- Where a call is; `todo` are the sectors it still has to work on.  From `write` on the task in the
background is at work. -/
inductive Phase
  | idle
  | search
  | lock (todo : List ℕ)
  | reread
  | wbc (todo : List ℕ)
  | release
  | write (todo : List ℕ)
  | unlock
  | deref

/-- A call of `insert_in_place`: `locked` are the pages it has locked, and `buf` its `update_buf` by
page. -/
structure Insert (B : Type) where
  phase : Phase
  reading : Option (ReadAlloc B)
  pageRef : List ℕ
  locked : List ℕ
  writes : List IORequest
  buf : ℕ → B
  writePageRef : List ℕ

/-- `latest` are the bytes of the last `wbc_write` of each page, and `dirty` the pages whose last
`wbc_write` is not on the disk. -/
structure State (ι B : Type) where
  cache : Cache B
  disk : ℕ → B
  pageLockTable : LockTable ℕ
  inserts : ι → Insert B
  latest : ℕ → Option B
  dirty : ℕ → Bool

namespace Insert

/-- The pages of the call's writes. -/
def pages (a : Insert B) : List ℕ := a.writes.flatMap IORequest.sectors

/-- The disk reads of a `read_alloc` under way, with the bytes that have come back. -/
def ios (a : Insert B) : List (ℕ × Option B) :=
  match a.reading with
  | some ⟨_, .fill ios⟩ => ios
  | _ => []

/-- The page `wbc_write` puts next. -/
def nextPut (a : Insert B) : Option ℕ :=
  match a.phase with
  | .wbc (P :: _) => some P
  | _ => none

end Insert

variable {ι : Type} [DecidableEq ι]

/-- A page of a `wbc_write`. -/
def State.wbcPut (s : State ι B) (P : ℕ) (value : B) : State ι B :=
  { s with
    cache := s.cache.put P value true
    latest := Function.update s.latest P (some value)
    dirty := Function.update s.dirty P true }

def State.setInsert (s : State ι B) (i : ι) (a : Insert B) : State ι B :=
  { s with inserts := Function.update s.inserts i a }

inductive Act (ι B : Type)
  | start (i : ι)
  | readAlloc (i : ι) (reqs : List IORequest)
  | lookup (i : ι)
  | diskRead (i : ι) (n : ℕ)
  | put (i : ι)
  | allocLoc (i : ι) (locs : List ℕ)
  | lock (i : ι)
  | wbcWrite (i : ι) (buf : ℕ → B)
  | wbcPut (i : ι)
  | unlock (i : ι)
  | deref (i : ι)
  | diskWrite (i : ι) (P : ℕ)
  | written (i : ι)
  | derefWrite (i : ι)

/-- One lookup of `read_from_cache` in `read_alloc`: the requests whose sectors are all found are
done, and one that misses is read from the disk, with all of its sectors. -/
def lookupStep (c : Cache B) (pos : ℕ) (diskReadReqs : List IORequest) :
    List IORequest → Cache B × ReadPhase B
  | [] => (c, .fill ((diskReadReqs.flatMap IORequest.sectors).map fun P => (P, none)))
  | req :: todo =>
    if pos < req.len then
      match c.get (req.offset + pos) true with
      | (c', some _) => (c', .lookup (pos + 1) (req :: todo) diskReadReqs)
      | (c', none) => (c', .lookup 0 todo (diskReadReqs ++ [req]))
    else (c, .lookup 0 todo diskReadReqs)

/-- One step of one call; `none`: the call is not there, or waits. -/
def step (m : Layout) (s : State ι B) : Act ι B → Option (State ι B)
  | .start i =>
    let a := s.inserts i
    match a.phase, a.pageRef with
    | .idle, [] => some (s.setInsert i ⟨.search, none, [], [], [], a.buf, []⟩)
    | _, _ => none
  | .readAlloc i reqs =>
    let a := s.inserts i
    match a.phase, a.reading with
    | .search, none | .reread, none =>
      some (s.setInsert i { a with reading := some ⟨reqs, .lookup 0 reqs []⟩ })
    | _, _ => none
  | .lookup i =>
    let a := s.inserts i
    match a.reading with
    | some ⟨reqs, .lookup pos todo diskReadReqs⟩ =>
      let (cache, phase) := lookupStep s.cache pos diskReadReqs todo
      some ({ s with cache }.setInsert i { a with reading := some ⟨reqs, phase⟩ })
    | _ => none
  | .diskRead i n =>
    let a := s.inserts i
    match a.reading with
    | some ⟨reqs, .fill ios⟩ =>
      match ios[n]? with
      | some (P, none) =>
        some (s.setInsert i { a with reading := some ⟨reqs, .fill (ios.set n (P, some (s.disk P)))⟩ })
      | _ => none
    | _ => none
  | .put i =>
    let a := s.inserts i
    match a.reading with
    | some ⟨reqs, .fill []⟩ =>
      some (s.setInsert i { a with
        reading := none
        pageRef := a.pageRef ++ reqs.flatMap IORequest.sectors })
    | some ⟨reqs, .fill ((P, some b) :: ios)⟩ =>
      -- the disk reads have all come back
      if ∀ io ∈ ios, io.2.isSome then
        some ({ s with cache := s.cache.put P b true }.setInsert i
          { a with reading := some ⟨reqs, .fill ios⟩ })
      else none
    | _ => none
  | .allocLoc i locs =>
    let a := s.inserts i
    match a.phase, a.reading with
    | .search, none =>
      some (s.setInsert i { a with
        phase := .lock (lockReqs (m.pagesToRmw locs))
        writes := m.writes locs })
    | _, _ => none
  | .lock i =>
    let a := s.inserts i
    match a.phase with
    | .lock [] => some (s.setInsert i { a with phase := .reread })
    | .lock (P :: todo) =>
      match s.pageLockTable.trywrlock P with
      | (pageLockTable, true) =>
        some ({ s with pageLockTable }.setInsert i
          { a with phase := .lock todo, locked := a.locked ++ [P] })
      | (_, false) => none
    | _ => none
  | .wbcWrite i buf =>
    let a := s.inserts i
    match a.phase, a.reading with
    | .reread, none => some (s.setInsert i { a with phase := .wbc a.pages, buf })
    | _, _ => none
  | .wbcPut i =>
    let a := s.inserts i
    match a.phase with
    | .wbc (P :: todo) =>
      some ((s.wbcPut P (a.buf P)).setInsert i { a with phase := .wbc todo })
    | .wbc [] =>
      -- without pages to `deref` there is no task, and the pages are unlocked at once
      some (s.setInsert i { a with
        writePageRef := a.pages
        phase := if a.pageRef ≠ [] then .write a.pages else .release })
    | _ => none
  | .unlock i =>
    let a := s.inserts i
    match a.phase, a.locked with
    | .release, P :: locked | .unlock, P :: locked =>
      (s.pageLockTable.unlock P).map fun pageLockTable =>
        { s with pageLockTable }.setInsert i { a with locked }
    | .release, [] => some (s.setInsert i { a with phase := .idle })
    | .unlock, [] => some (s.setInsert i { a with phase := .deref })
    | _, _ => none
  | .deref i =>
    let a := s.inserts i
    match a.phase, a.pageRef with
    | .write _, P :: pageRef | .unlock, P :: pageRef | .deref, P :: pageRef | .idle, P :: pageRef =>
      some ({ s with cache := s.cache.deref P }.setInsert i { a with pageRef })
    | _, _ => none
  | .diskWrite i P =>
    let a := s.inserts i
    match a.phase with
    | .write todo =>
      if P ∈ todo then
        some ({ s with
          disk := Function.update s.disk P (a.buf P)
          dirty := Function.update s.dirty P false }.setInsert i
            { a with phase := .write (todo.erase P) })
      else none
    | _ => none
  | .written i =>
    let a := s.inserts i
    match a.phase with
    | .write [] => some (s.setInsert i { a with phase := .unlock })
    | _ => none
  | .derefWrite i =>
    let a := s.inserts i
    match a.phase, a.writePageRef with
    | .deref, P :: writePageRef =>
      some ({ s with cache := s.cache.deref P }.setInsert i { a with writePageRef })
    | .deref, [] => some (s.setInsert i { a with phase := .idle })
    | _, _ => none

/-- No call is under way, and the cache is empty. -/
def Init (s : State ι B) : Prop :=
  (∀ P, s.cache P = none) ∧ (∀ P, s.pageLockTable P = none) ∧
    (∀ i, (s.inserts i).phase = .idle ∧ (s.inserts i).reading = none ∧ (s.inserts i).locked = []) ∧
    (∀ P, s.latest P = none) ∧ ∀ P, s.dirty P = false

/-- A lookup of a page that finds it returns the bytes of its last `wbc_write`. -/
def Coherent (s : State ι B) : Prop :=
  ∀ P ref v b, s.latest P = some v → (s.cache.get P ref).2 = some b → b = v

/-- `read_alloc` reads no page from the disk while a `wbc_write` of it is not on the disk, and
`wbc_write` puts no page that a `read_alloc` has read from the disk and not put yet. -/
def Calm (s : State ι B) : Act ι B → Prop
  | .diskRead i n => ∀ io ∈ ((s.inserts i).ios)[n]?, s.dirty io.1 = false
  | .wbcPut i => ∀ P ∈ (s.inserts i).nextPut, ∀ j, ∀ io ∈ (s.inserts j).ios, io.1 = P → io.2.isNone
  | _ => True

instance [Fintype ι] (s : State ι B) : (a : Act ι B) → Decidable (Calm s a)
  | .diskRead i n => inferInstanceAs
      (Decidable (∀ io ∈ ((s.inserts i).ios)[n]?, s.dirty io.1 = false))
  | .wbcPut i => inferInstanceAs (Decidable
      (∀ P ∈ (s.inserts i).nextPut, ∀ j, ∀ io ∈ (s.inserts j).ios, io.1 = P → io.2.isNone))
  | .start _ | .readAlloc .. | .lookup _ | .put _ | .allocLoc .. | .lock _ | .wbcWrite .. |
    .unlock _ | .deref _ | .diskWrite .. | .written _ | .derefWrite _ => isTrue trivial

/-! ### The invariant -/

/-- What a call holds, by where it is: the pages it writes are locked from before its `wbc_write` on
until they are on the disk, and the bytes it has put are the last ones. -/
def Insert.PhaseOk (latest : ℕ → Option B) (a : Insert B) : Prop :=
  match a.phase with
  | .idle | .deref => a.locked = []
  | .lock todo => ∀ P ∈ a.pages, P ∈ todo ∨ P ∈ a.locked
  | .reread => ∀ P ∈ a.pages, P ∈ a.locked
  | .wbc todo => (∀ P ∈ todo, P ∈ a.pages) ∧
      ∀ P ∈ a.pages, P ∈ a.locked ∧ (P ∈ todo ∨ latest P = some (a.buf P))
  | .write todo => ∀ P ∈ todo, P ∈ a.locked ∧ latest P = some (a.buf P)
  | _ => True

structure Insert.Ok (latest : ℕ → Option B) (a : Insert B) : Prop where
  nodup : a.locked.Nodup
  phase : a.PhaseOk latest
  ios : ∀ io ∈ a.ios, ∀ b v, io.2 = some b → latest io.1 = some v → b = v

structure Inv (s : State ι B) : Prop where
  locks : LockTable.Owned s.pageLockTable fun i P => P ∈ (s.inserts i).locked
  inserts : ∀ i, (s.inserts i).Ok s.latest
  disk : ∀ P v, s.dirty P = false → s.latest P = some v → s.disk P = v
  coherent : ∀ P v b, s.latest P = some v → s.cache.buf P = some b → b = v

variable {s s' : State ι B} {m : Layout} {i j : ι} {a : Insert B}

omit [DecidableEq ι] in
theorem Init.inv (h : Init s) : Inv s := by
  obtain ⟨hcache, htable, hidle, hlatest, hdirty⟩ := h
  refine ⟨⟨fun i j P hi => ?_, fun i P hi => ?_, fun P hP => absurd (htable P) hP⟩,
    fun i => ⟨?_, ?_, fun io hio => ?_⟩, fun P v _ hv => ?_, fun P v b hv => ?_⟩
  · rw [(hidle i).2.2] at hi
    exact absurd hi not_mem_nil
  · rw [(hidle i).2.2] at hi
    exact absurd hi not_mem_nil
  · rw [(hidle i).2.2]
    exact nodup_nil
  · rw [Insert.PhaseOk, (hidle i).1]
    exact (hidle i).2.2
  · rw [Insert.ios, (hidle i).2.1] at hio
    exact absurd hio not_mem_nil
  · rw [hlatest P] at hv
    cases hv
  · rw [hlatest P] at hv
    cases hv

omit [DecidableEq ι] in
theorem Inv.toCoherent (h : Inv s) : Coherent s := by
  intro P ref v b hv hb
  rw [Cache.get_snd] at hb
  exact h.coherent P v b hv hb

variable {v : B}

theorem Insert.Ok.update {latest : ℕ → Option B} (h : a.Ok latest) (hP : P ∉ a.locked)
    (hios : ∀ io ∈ a.ios, io.1 = P → io.2.isNone) : a.Ok (Function.update latest P (some v)) := by
  have hne : ∀ Q, Q ∈ a.locked → Function.update latest P (some v) Q = latest Q := by
    intro Q hQ
    exact update_of_ne (ne_of_mem_of_not_mem hQ hP) ..
  refine ⟨h.nodup, ?_, fun io hio b w hb hw => ?_⟩
  · have hphase := h.phase
    unfold Insert.PhaseOk at hphase ⊢
    split at hphase
    · exact hphase
    · exact hphase
    · exact hphase
    · exact hphase
    · refine ⟨hphase.1, fun Q hQ => ?_⟩
      rw [hne Q (hphase.2 Q hQ).1]
      exact hphase.2 Q hQ
    · intro Q hQ
      rw [hne Q (hphase Q hQ).1]
      exact hphase Q hQ
    · trivial
  · have hio1 : io.1 ≠ P := by
      intro he
      have := hios io hio he
      rw [hb] at this
      cases this
    rw [update_of_ne hio1] at hw
    exact h.ios io hio b w hb hw

/-! ### Steps of one call -/

theorem setInsert_self (s : State ι B) (i : ι) (a : Insert B) : (s.setInsert i a).inserts i = a :=
  update_self ..

theorem setInsert_of_ne (s : State ι B) (a : Insert B) (hj : j ≠ i) :
    (s.setInsert i a).inserts j = s.inserts j :=
  update_of_ne hj ..

theorem owned_setInsert {t : LockTable ℕ}
    (h : LockTable.Owned t fun j P => P ∈ (s.inserts j).locked)
    (hlocked : a.locked = (s.inserts i).locked) :
    LockTable.Owned t fun j P => P ∈ ((s.setInsert i a).inserts j).locked := by
  have hfun : (fun j P => P ∈ ((s.setInsert i a).inserts j).locked) =
      fun j P => P ∈ (s.inserts j).locked := by
    funext j P
    by_cases hj : j = i
    · rw [hj, setInsert_self, hlocked]
    · rw [setInsert_of_ne s a hj]
  exact hfun ▸ h

/-- A step of one call that keeps its locks, and changes the cache to hold nothing that is not in
accord with the last `wbc_write`s. -/
theorem Inv.setInsert (h : Inv s) {cache : Cache B} (ha : a.Ok s.latest)
    (hlocked : a.locked = (s.inserts i).locked)
    (hcache : ∀ P v b, s.latest P = some v → cache.buf P = some b → b = v) :
    Inv ({ s with cache }.setInsert i a) := by
  refine ⟨owned_setInsert h.locks hlocked, fun j => ?_, h.disk, hcache⟩
  by_cases hj : j = i
  · rw [hj, setInsert_self]
    exact ha
  · rw [setInsert_of_ne _ a hj]
    exact h.inserts j

theorem Inv.setLocked (h : Inv s) {pageLockTable : LockTable ℕ} (ha : a.Ok s.latest)
    (hlocks : LockTable.Owned pageLockTable fun j P => P ∈ ((s.setInsert i a).inserts j).locked) :
    Inv ({ s with pageLockTable }.setInsert i a) := by
  refine ⟨hlocks, fun j => ?_, h.disk, h.coherent⟩
  by_cases hj : j = i
  · rw [hj, setInsert_self]
    exact ha
  · rw [setInsert_of_ne _ a hj]
    exact h.inserts j

omit [DecidableEq ι] in
theorem Inv.lookupStep (h : Inv s) {pos : ℕ} {diskReadReqs todo : List IORequest} {b : B}
    (hv : s.latest P = some v) (hb : (lookupStep s.cache pos diskReadReqs todo).1.buf P = some b) :
    b = v := by
  unfold PageCache.lookupStep at hb
  split at hb
  · exact h.coherent P v b hv hb
  · split_ifs at hb
    · split at hb
      · rename_i c' _ hget
        have hc' : c' = (s.cache.get _ true).1 := (congrArg Prod.fst hget).symm
        simp only [hc', Cache.get_buf] at hb
        exact h.coherent P v b hv hb
      · rename_i c' hget
        have hc' : c' = (s.cache.get _ true).1 := (congrArg Prod.fst hget).symm
        simp only [hc', Cache.get_buf] at hb
        exact h.coherent P v b hv hb
    · exact h.coherent P v b hv hb

theorem lookupStep_ios {c : Cache B} {pos : ℕ} {diskReadReqs todo : List IORequest}
    {ios : List (ℕ × Option B)} (h : (lookupStep c pos diskReadReqs todo).2 = .fill ios) :
    ∀ io ∈ ios, io.2 = none := by
  unfold lookupStep at h
  split at h
  · cases h
    intro io hio
    obtain ⟨P, -, rfl⟩ := mem_map.1 hio
    rfl
  · split_ifs at h
    · split at h <;> cases h

omit [DecidableEq ι] in
theorem Inv.deref (h : Inv s) {Q : ℕ} {b : B} (hv : s.latest P = some v)
    (hb : (s.cache.deref Q).buf P = some b) : b = v := by
  obtain he | he := s.cache.deref_buf Q P
  · exact h.coherent P v b hv (he ▸ hb)
  · rw [he] at hb
    cases hb

/-! ### The steps -/

theorem Inv.move (h : Inv s) (ha : a.Ok s.latest) (hlocked : a.locked = (s.inserts i).locked) :
    Inv (s.setInsert i a) :=
  h.setInsert ha hlocked h.coherent

theorem Inv.start (h : Inv s) (hs : step m s (.start i) = some s') : Inv s' := by
  simp only [step] at hs
  split at hs
  · rename_i hphase _
    cases hs
    have hlocked : (s.inserts i).locked = [] := by
      have := (h.inserts i).phase
      rwa [Insert.PhaseOk, hphase] at this
    exact h.move ⟨nodup_nil, trivial, fun _ hio => absurd hio not_mem_nil⟩ hlocked.symm
  · cases hs

theorem Inv.readAlloc (h : Inv s) {reqs : List IORequest}
    (hs : step m s (.readAlloc i reqs) = some s') : Inv s' := by
  simp only [step] at hs
  split at hs
  all_goals cases hs
  all_goals
    exact h.move ⟨(h.inserts i).nodup, (h.inserts i).phase,
      fun _ hio => absurd hio not_mem_nil⟩ rfl

theorem Inv.lookup (h : Inv s) (hs : step m s (.lookup i) = some s') : Inv s' := by
  simp only [step] at hs
  split at hs
  · rename_i reqs pos todo diskReadReqs hreading
    cases hs
    refine h.setInsert ⟨(h.inserts i).nodup, (h.inserts i).phase, fun io hio b v hb => ?_⟩ rfl
      fun P v b hv hb => h.lookupStep hv hb
    unfold Insert.ios at hio
    split at hio
    · rename_i ios heq
      obtain ⟨-, hfill⟩ := ReadAlloc.mk.inj (Option.some.inj heq)
      rw [lookupStep_ios hfill io hio] at hb
      cases hb
    · exact absurd hio not_mem_nil
  · cases hs

theorem Inv.diskRead (h : Inv s) {n : ℕ} (hcalm : Calm s (.diskRead i n))
    (hs : step m s (.diskRead i n) = some s') : Inv s' := by
  simp only [step] at hs
  split at hs
  · rename_i reqs ios hreading
    have hios : (s.inserts i).ios = ios := by rw [Insert.ios, hreading]
    split at hs
    · rename_i P hn
      cases hs
      refine h.move ⟨(h.inserts i).nodup, (h.inserts i).phase, fun io hio b v hb hv => ?_⟩ rfl
      obtain hio | rfl := mem_or_eq_of_mem_set hio
      · exact (h.inserts i).ios io (hios ▸ hio) b v hb hv
      · have hdirty : s.dirty P = false := hcalm (P, none) (by rw [hios, hn]; rfl)
        rw [← Option.some.inj hb]
        exact h.disk P v hdirty hv
    · cases hs
  · cases hs

theorem Inv.put (h : Inv s) (hs : step m s (.put i) = some s') : Inv s' := by
  simp only [step] at hs
  split at hs
  · cases hs
    exact h.move ⟨(h.inserts i).nodup, (h.inserts i).phase,
      fun _ hio => absurd hio not_mem_nil⟩ rfl
  · rename_i reqs P b ios hreading
    have hios : (s.inserts i).ios = (P, some b) :: ios := by rw [Insert.ios, hreading]
    split_ifs at hs
    cases hs
    refine h.setInsert ⟨(h.inserts i).nodup, (h.inserts i).phase, fun io hio => ?_⟩ rfl
      fun Q v b' hv hb => ?_
    · exact (h.inserts i).ios io (hios ▸ mem_cons_of_mem _ hio)
    · rw [Cache.put_buf] at hb
      split_ifs at hb with hQ
      · rw [← Option.some.inj hb]
        exact (h.inserts i).ios (P, some b) (hios ▸ mem_cons_self) b v rfl (hQ ▸ hv)
      · exact h.coherent Q v b' hv hb
  · cases hs

theorem Inv.allocLoc (h : Inv s) {locs : List ℕ} (hs : step m s (.allocLoc i locs) = some s') :
    Inv s' := by
  simp only [step] at hs
  split at hs
  · rename_i hreading
    cases hs
    exact h.move ⟨(h.inserts i).nodup, fun P hP => .inl (mem_lockReqs_of_mem_writes hP),
      fun io hio => (h.inserts i).ios io hio⟩ rfl
  · cases hs

theorem Inv.lock (h : Inv s) (hs : step m s (.lock i) = some s') : Inv s' := by
  simp only [step] at hs
  split at hs
  · rename_i hphase
    cases hs
    have hpages := (h.inserts i).phase
    rw [Insert.PhaseOk, hphase] at hpages
    exact h.move ⟨(h.inserts i).nodup, fun P hP => (hpages P hP).resolve_left not_mem_nil,
      fun io hio => (h.inserts i).ios io hio⟩ rfl
  · rename_i P todo hphase
    have hpages := (h.inserts i).phase
    rw [Insert.PhaseOk, hphase] at hpages
    split at hs
    · rename_i pageLockTable htry
      cases hs
      obtain ⟨hfree, rfl⟩ := h.locks.acquire htry
      have hnot : P ∉ (s.inserts i).locked := by
        intro hP
        have := h.locks.held i P hP
        rw [hfree] at this
        cases this
      refine h.setLocked ⟨?_, fun Q hQ => ?_, fun io hio => (h.inserts i).ios io hio⟩
        (h.locks.take (i := i) hfree fun j Q => ?_)
      · exact nodup_append.2 ⟨(h.inserts i).nodup, nodup_singleton P, fun Q hQ R hR => by
          rw [mem_singleton.1 hR]
          exact ne_of_mem_of_not_mem hQ hnot⟩
      · obtain hQ | hQ := hpages Q hQ
        · obtain rfl | hQ := mem_cons.1 hQ
          · exact .inr (mem_append_right _ (mem_singleton_self Q))
          · exact .inl hQ
        · exact .inr (mem_append_left _ hQ)
      · by_cases hj : j = i
        · subst hj
          rw [setInsert_self]
          simp
        · rw [setInsert_of_ne _ _ hj]
          simp [hj]
    · cases hs
  · cases hs

theorem Inv.wbcWrite (h : Inv s) {buf : ℕ → B} (hs : step m s (.wbcWrite i buf) = some s') :
    Inv s' := by
  simp only [step] at hs
  split at hs
  · rename_i hphase hreading
    cases hs
    have hpages := (h.inserts i).phase
    rw [Insert.PhaseOk, hphase] at hpages
    exact h.move ⟨(h.inserts i).nodup,
      ⟨fun P hP => hP, fun P hP => ⟨hpages P hP, .inl hP⟩⟩,
      fun io hio => (h.inserts i).ios io hio⟩ rfl
  · cases hs

theorem Inv.putPage (h : Inv s) {todo : List ℕ} (hphase : (s.inserts i).phase = .wbc (P :: todo))
    (hios : ∀ j, ∀ io ∈ (s.inserts j).ios, io.1 = P → io.2.isNone) :
    Inv ((s.wbcPut P ((s.inserts i).buf P)).setInsert i { s.inserts i with phase := .wbc todo }) := by
  have hok := (h.inserts i).phase
  rw [Insert.PhaseOk, hphase] at hok
  have hP : P ∈ (s.inserts i).locked := (hok.2 P (hok.1 P mem_cons_self)).1
  have hne : ∀ j, ∀ io ∈ (s.inserts j).ios, ∀ b, io.2 = some b → io.1 ≠ P := by
    intro j io hio b hb he
    have := hios j io hio he
    rw [hb] at this
    cases this
  refine ⟨owned_setInsert h.locks rfl, fun j => ?_, fun Q v hdirty hv => ?_, fun Q v b hv hb => ?_⟩
  · by_cases hj : j = i
    · rw [hj, setInsert_self]
      refine ⟨(h.inserts i).nodup, ⟨fun Q hQ => hok.1 Q (mem_cons_of_mem _ hQ),
        fun Q hQ => ⟨(hok.2 Q hQ).1, ?_⟩⟩, fun io hio b v hb hv => ?_⟩
      · by_cases hQP : Q = P
        · subst hQP
          exact .inr (update_self ..)
        · refine (hok.2 Q hQ).2.imp (fun hQ' => ?_) fun hlatest => ?_
          · exact (mem_cons.1 hQ').resolve_left hQP
          · exact (update_of_ne hQP ..).trans hlatest
      · refine (h.inserts i).ios io hio b v hb ?_
        exact (update_of_ne (hne i io hio b hb) ..).symm.trans hv
    · rw [setInsert_of_ne _ _ hj]
      exact (h.inserts j).update (fun hj' => hj (h.locks.exclusive j i P hj' hP)) (hios j)
  · replace hdirty : Function.update s.dirty P true Q = false := hdirty
    have hQP : Q ≠ P := by
      intro he
      rw [he, update_self] at hdirty
      cases hdirty
    rw [update_of_ne hQP] at hdirty
    exact h.disk Q v hdirty ((update_of_ne hQP ..).symm.trans hv)
  · replace hb : (s.cache.put P ((s.inserts i).buf P) true).buf Q = some b := hb
    replace hv : Function.update s.latest P (some ((s.inserts i).buf P)) Q = some v := hv
    rw [Cache.put_buf] at hb
    split_ifs at hb with hQ
    · rw [hQ, update_self] at hv
      exact (Option.some.inj hb).symm.trans (Option.some.inj hv)
    · rw [update_of_ne hQ] at hv
      exact h.coherent Q v b hv hb

theorem Inv.wbcPut (h : Inv s) (hcalm : Calm s (.wbcPut i))
    (hs : PageCache.step m s (.wbcPut i) = some s') : Inv s' := by
  simp only [PageCache.step] at hs
  split at hs
  · rename_i P todo hphase
    cases hs
    exact h.putPage hphase (hcalm P (by rw [Insert.nextPut, hphase]; rfl))
  · rename_i hphase
    cases hs
    have hok := (h.inserts i).phase
    rw [Insert.PhaseOk, hphase] at hok
    refine h.move ⟨(h.inserts i).nodup, ?_, fun io hio => (h.inserts i).ios io hio⟩ rfl
    unfold Insert.PhaseOk
    split_ifs
    · exact fun P hP => ⟨(hok.2 P hP).1, (hok.2 P hP).2.resolve_left not_mem_nil⟩
    · trivial
  · cases hs

theorem Inv.unlockPage (h : Inv s) {locked : List ℕ} {phase : Phase}
    (hphase : (s.inserts i).phase = phase) (hidle : phase = .release ∨ phase = .unlock)
    (hlocked : (s.inserts i).locked = P :: locked)
    (hs : (s.pageLockTable.unlock P).map (fun pageLockTable => { s with pageLockTable }.setInsert i { s.inserts i with locked }) = some s') :
    Inv s' := by
  obtain ⟨pageLockTable, hunlock, rfl⟩ := Option.map_eq_some_iff.1 hs
  have hnodup := (h.inserts i).nodup
  rw [hlocked] at hnodup
  obtain ⟨hnot, hnodup⟩ := nodup_cons.1 hnodup
  have hmem : P ∈ (s.inserts i).locked := hlocked ▸ mem_cons_self
  obtain ⟨heq, howned⟩ := @LockTable.Owned.release _ _ _ _ _ (fun j Q =>
      Q ∈ ((s.setInsert i { s.inserts i with locked }).inserts j).locked) _ _ h.locks hmem fun j Q => by
    by_cases hj : j = i
    · subst hj
      rw [setInsert_self, hlocked, mem_cons]
      constructor
      · exact fun hQ => ⟨.inr hQ, fun he => hnot (he.2 ▸ hQ)⟩
      · exact fun hQ => hQ.1.resolve_left fun he => hQ.2 ⟨rfl, he⟩
    · rw [setInsert_of_ne _ _ hj]
      simp [hj]
  rw [heq] at hunlock
  cases hunlock
  refine h.setLocked ⟨hnodup, ?_, fun io hio => (h.inserts i).ios io hio⟩ howned
  obtain rfl | rfl := hidle
  all_goals
    dsimp only
    rw [hphase]
    trivial

theorem Inv.unlock (h : Inv s) (hs : step m s (.unlock i) = some s') : Inv s' := by
  simp only [step] at hs
  split at hs
  · rename_i P locked hphase hlocked
    exact h.unlockPage hphase (.inl rfl) hlocked hs
  · rename_i P locked hphase hlocked
    exact h.unlockPage hphase (.inr rfl) hlocked hs
  · rename_i hphase hlocked
    cases hs
    exact h.move ⟨(h.inserts i).nodup, hlocked, fun io hio => (h.inserts i).ios io hio⟩ rfl
  · rename_i hphase hlocked
    cases hs
    exact h.move ⟨(h.inserts i).nodup, hlocked, fun io hio => (h.inserts i).ios io hio⟩ rfl
  · cases hs

theorem Inv.derefPage (h : Inv s) (hs : step m s (.deref i) = some s') : Inv s' := by
  simp only [step] at hs
  split at hs
  all_goals cases hs
  all_goals
    exact h.setInsert ⟨(h.inserts i).nodup, (h.inserts i).phase,
      fun io hio => (h.inserts i).ios io hio⟩ rfl fun P v b hv hb => h.deref hv hb

theorem Inv.diskWrite (h : Inv s) (hs : step m s (.diskWrite i P) = some s') : Inv s' := by
  simp only [step] at hs
  split at hs
  · rename_i todo hphase
    split_ifs at hs with hP
    cases hs
    have hok := (h.inserts i).phase
    rw [Insert.PhaseOk, hphase] at hok
    have hinv : Inv (s.setInsert i { s.inserts i with phase := .write (todo.erase P) }) :=
      h.move ⟨(h.inserts i).nodup, fun Q hQ => hok Q (mem_of_mem_erase hQ),
        fun io hio => (h.inserts i).ios io hio⟩ rfl
    refine ⟨hinv.locks, hinv.inserts, fun Q v hdirty hv => ?_, h.coherent⟩
    by_cases hQ : Q = P
    · subst hQ
      have := (hok Q hP).2.symm.trans hv
      exact (update_self ..).trans (Option.some.inj this)
    · refine (update_of_ne hQ ..).trans (h.disk Q v ?_ hv)
      exact (update_of_ne hQ ..).symm.trans hdirty
  · cases hs

theorem Inv.written (h : Inv s) (hs : step m s (.written i) = some s') : Inv s' := by
  simp only [step] at hs
  split at hs
  · cases hs
    exact h.move ⟨(h.inserts i).nodup, trivial, fun io hio => (h.inserts i).ios io hio⟩ rfl
  · cases hs

theorem Inv.derefWrite (h : Inv s) (hs : step m s (.derefWrite i) = some s') : Inv s' := by
  simp only [step] at hs
  split at hs
  · cases hs
    exact h.setInsert ⟨(h.inserts i).nodup, (h.inserts i).phase,
      fun io hio => (h.inserts i).ios io hio⟩ rfl fun P v b hv hb => h.deref hv hb
  · rename_i hphase _
    cases hs
    have hlocked := (h.inserts i).phase
    rw [Insert.PhaseOk, hphase] at hlocked
    exact h.move ⟨(h.inserts i).nodup, hlocked, fun io hio => (h.inserts i).ios io hio⟩ rfl
  · cases hs

theorem Inv.step (h : Inv s) {act : Act ι B} (hcalm : Calm s act)
    (hs : PageCache.step m s act = some s') : Inv s' := by
  match act with
  | .start i => exact h.start hs
  | .readAlloc i reqs => exact h.readAlloc hs
  | .lookup i => exact h.lookup hs
  | .diskRead i n => exact h.diskRead hcalm hs
  | .put i => exact h.put hs
  | .allocLoc i locs => exact h.allocLoc hs
  | .lock i => exact h.lock hs
  | .wbcWrite i buf => exact h.wbcWrite hs
  | .wbcPut i => exact h.wbcPut hcalm hs
  | .unlock i => exact h.unlock hs
  | .deref i => exact h.derefPage hs
  | .diskWrite i P => exact h.diskWrite hs
  | .written i => exact h.written hs
  | .derefWrite i => exact h.derefWrite hs

/-- In every run in which no `wbc_write` of a page comes between the disk read of `read_alloc` and
its put, and none that is not on the disk comes before the read, the cache is coherent. -/
theorem coherent_of_calm (h : Reach Init (guarded Calm (ofFn (step m))) s) : Coherent s :=
  Inv.toCoherent (Reach.invariant (P := Inv) (fun _ hs => hs.inv)
    (fun _ _ _ hi hs => hi.step hs.1 hs.2) h)

/-- No call is under way and the disk holds `disk`. -/
def State.load (disk : ℕ → B) : State ι B where
  cache := fun _ => none
  disk := disk
  pageLockTable := fun _ => none
  inserts := fun _ => ⟨.idle, none, [], [], [], disk, []⟩
  latest := fun _ => none
  dirty := fun _ => false

omit [DecidableEq ι] in
theorem init_load (disk : ℕ → B) : Init (State.load disk : State ι B) :=
  ⟨fun _ => rfl, fun _ => rfl, fun _ => ⟨rfl, rfl, rfl⟩, fun _ => rfl, fun _ => rfl⟩

/-- A call that reads page `6` and writes it, with the bytes `1`. -/
def writeRun : List (Act Bool ℕ) :=
  [.start true, .readAlloc true [⟨6, 1⟩], .lookup true, .lookup true, .diskRead true 0, .put true,
    .put true, .allocLoc true [5], .lock true, .lock true, .wbcWrite true fun _ => 1,
    .wbcPut true, .wbcPut true]

/-- A whole call, its task, and another call that reads the page from the disk. -/
theorem coherent_of_write : ∃ s : State Bool ℕ,
    s.latest 6 = some 1 ∧ (s.cache.get 6 false).2 = some 1 ∧ Coherent s := by
  have hrun : (runsGuarded Calm (step ⟨1, 1⟩) (State.load fun _ => 0)
      (writeRun ++ [.diskWrite true 6, .written true, .unlock true, .unlock true, .deref true,
        .derefWrite true, .derefWrite true, .start false, .readAlloc false [⟨6, 1⟩], .lookup false,
        .lookup false, .diskRead false 0, .put false, .put false])).map
      (fun s => (s.latest 6, (s.cache.get 6 false).2)) = some (some 1, some 1) := by decide
  obtain ⟨s, hs, hv⟩ := Option.map_eq_some_iff.mp hrun
  simp only [Prod.mk.injEq] at hv
  exact ⟨s, hv.1, hv.2, coherent_of_calm (reach_of_runsGuarded (init_load _) hs)⟩

/-- A call has read page `6` from the disk; before it puts the page into the cache another call
writes it, and the bytes from the disk replace those of the `wbc_write`. -/
theorem stale_page : ∃ s : State Bool ℕ, Reach Init (ofFn (step ⟨1, 1⟩)) s ∧
    s.latest 6 = some 1 ∧ (s.cache.get 6 true).2 = some 0 ∧ ¬ Coherent s := by
  have hrun : (runs (step ⟨1, 1⟩) (State.load fun _ => 0)
      ([.start false, .readAlloc false [⟨6, 1⟩], .lookup false, .lookup false, .diskRead false 0] ++
        writeRun ++ [.put false])).map
      (fun s => (s.latest 6, (s.cache.get 6 true).2)) = some (some 1, some 0) := by decide
  obtain ⟨s, hs, hv⟩ := Option.map_eq_some_iff.mp hrun
  simp only [Prod.mk.injEq] at hv
  refine ⟨s, reach_of_runs (.start (init_load _)) hs, hv.1, hv.2, fun hc => ?_⟩
  exact absurd (hc 6 true 1 0 hv.1 hv.2) (by decide)

end DiskANNEval.PipeANN.PageCache
