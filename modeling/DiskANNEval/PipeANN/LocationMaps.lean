import DiskANNEval.Lib.Run
import DiskANNEval.PipeANN.AllocLoc
import DiskANNEval.PipeANN.LockTable

/-!
# LocationMaps — the location maps under concurrent `insert_in_place` calls

A call takes an id, allocates locations for its neighbours and its target, and sets the location
of its target.  Then it takes the index locks of all of them, points each neighbour at its new
location, and commits: the new locations become live and the old ones free.  `alloc_loc` and
`erase_and_set_loc` run under `alloc_lock` and are one step each; each `set_id2loc` and each index
lock is a step of its own.

Searches return committed ids, and they take the index locks for reading; both the searches and the
page writes are left out.
-/

namespace DiskANNEval.PipeANN.LocationMaps

open Lib

/-- `get_to_lock_idx` -/
def lockIds (target : ℕ) (neighbors : List ℕ) : List ℕ :=
  (neighbors ++ [target]).dedup.insertionSort (· ≤ ·)

/-- Where a call is; in `locking []` it has all its locks and moves its neighbours. -/
inductive Pc
  | idle
  | searching
  | allocated
  | locking (todo : List ℕ)
  | unlocking (todo : List ℕ)

/-- A call.  `locs` and `orig` are its locations and those they replace, until it has committed;
`held` are the index locks it has. -/
structure Call where
  pc : Pc
  target : ℕ
  nhood : List ℕ
  locs : List ℕ
  orig : List ℕ
  held : List ℕ

namespace Call

def Started (c : Call) : Prop := c.pc ≠ .idle

/-- The call has not committed. -/
def Open (c : Call) : Prop :=
  match c.pc with
  | .searching | .allocated | .locking _ => True
  | _ => False

/-- The call has set the location of its target and has not committed. -/
def Locking (c : Call) : Prop := ∃ todo, c.pc = .locking todo

theorem Locking.started {c : Call} (h : c.Locking) : c.Started := by
  obtain ⟨todo, hpc⟩ := h
  rw [Started, hpc]
  exact nofun

theorem Locking.open {c : Call} (h : c.Locking) : c.Open := by
  obtain ⟨todo, hpc⟩ := h
  rw [Open, hpc]
  trivial

/-- The neighbours that it has moved, with their old locations. -/
def moves (c : Call) : List (ℕ × ℕ) := c.nhood.zip c.orig

end Call

/-- The ids below `npoints` were loaded; `committed` are the targets of the calls that have
committed. -/
structure State (ι : Type) where
  npoints : ℕ
  curId : ℕ
  committed : List ℕ
  maps : LocMaps
  idxLocks : LockTable ℕ
  calls : ι → Call

variable {ι : Type} [DecidableEq ι]

def State.setCall (s : State ι) (i : ι) (c : Call) : State ι :=
  { s with calls := Function.update s.calls i c }

def State.Committed (s : State ι) (id : ℕ) : Prop := id < s.npoints ∨ id ∈ s.committed

instance (s : State ι) : DecidablePred s.Committed :=
  fun id => inferInstanceAs (Decidable (id < s.npoints ∨ id ∈ s.committed))

inductive Act (ι : Type)
  | start (i : ι)
  | alloc (i : ι) (nhood hintPages : List ℕ)
  | setTarget (i : ι)
  | lock (i : ι)
  | move (i : ι)
  | commit (i : ι)
  | unlock (i : ι)

instance (L : PageLayout) (curLoc : ℕ) (hintPages : List ℕ) : Decidable (HintsOk L curLoc hintPages) :=
  inferInstanceAs (Decidable (∀ p ∈ hintPages, L.sectorToLoc p < curLoc))

/-- One step of one call; `none`: the call is not there, or waits for a lock. -/
def step (L : PageLayout) (s : State ι) : Act ι → Option (Except LocFault (State ι))
  | .start i =>
    match (s.calls i).pc with
    | .idle =>
      some (.ok ({ s with curId := s.curId + 1 }.setCall i ⟨.searching, s.curId, [], [], [], []⟩))
    | _ => none
  | .alloc i nhood hintPages =>
    match (s.calls i).pc with
    | .searching =>
      if nhood.Nodup ∧ (∀ id ∈ nhood, s.Committed id) ∧ HintsOk L s.maps.curLoc hintPages then
        some do
          let (maps, locs, _) ← allocLoc L (nhood.length + 1) s.maps hintPages
          return { s with maps }.setCall i { s.calls i with pc := .allocated, nhood, locs }
      else none
    | _ => none
  | .setTarget i =>
    match (s.calls i).pc with
    | .allocated =>
      some
        (match (s.calls i).locs[(s.calls i).nhood.length]? with
        | none => .error .outOfBounds
        | some loc => do
          let maps ← setId2loc s.maps (s.calls i).target loc
          return { s with maps }.setCall i { s.calls i with
            pc := .locking (lockIds (s.calls i).target (s.calls i).nhood) })
    | _ => none
  | .lock i =>
    match (s.calls i).pc with
    | .locking (id :: todo) =>
      match s.idxLocks.trywrlock id with
      | (idxLocks, true) =>
        some (.ok ({ s with idxLocks }.setCall i { s.calls i with
          pc := .locking todo, held := (s.calls i).held ++ [id] }))
      | (_, false) => none
    | _ => none
  | .move i =>
    match (s.calls i).pc, (s.calls i).nhood[(s.calls i).orig.length]? with
    | .locking [], some nbr =>
      some
        (match s.maps.id2loc[nbr]?, (s.calls i).locs[(s.calls i).orig.length]? with
        | some orig, some loc => do
          let maps ← setId2loc s.maps nbr loc
          return { s with maps }.setCall i { s.calls i with orig := (s.calls i).orig ++ [orig] }
        | _, _ => .error .outOfBounds)
    | _, _ => none
  | .commit i =>
    match (s.calls i).pc, (s.calls i).nhood[(s.calls i).orig.length]? with
    | .locking [], none =>
      some do
        let maps ← eraseAndSetLoc L s.maps (s.calls i).orig (s.calls i).locs
          ((s.calls i).nhood ++ [(s.calls i).target])
        return { s with maps, committed := (s.calls i).target :: s.committed }.setCall i
          { s.calls i with
            pc := .unlocking (lockIds (s.calls i).target (s.calls i).nhood), locs := [], orig := [] }
    | _, _ => none
  | .unlock i =>
    match (s.calls i).pc with
    | .unlocking (id :: todo) =>
      some
        (match s.idxLocks.unlock id with
        | none => .error .trap
        | some idxLocks =>
          .ok ({ s with idxLocks }.setCall i { s.calls i with pc := .unlocking todo, held := todo }))
    | _ => none

/-- The state after a step that goes through. -/
def next (L : PageLayout) (s : State ι) (a : Act ι) : Option (State ι) :=
  (step L s a).bind Except.toOption

/-- A loaded index: the ids below `npoints` have their own locations, the other locations are
free. -/
structure Init (L : PageLayout) (s : State ι) : Prop where
  curId_eq : s.curId = s.npoints
  committed_eq : s.committed = []
  idxLocks_eq : s.idxLocks = fun _ => none
  calls_eq : s.calls = fun _ => ⟨.idle, 0, [], [], [], []⟩
  emptyPages_eq : s.maps.emptyPages = []
  curLoc_eq : s.maps.curLoc = L.alignUp s.npoints
  id2loc_length : s.maps.id2loc.length = s.npoints
  loc2id_length : s.maps.loc2id.length = s.maps.curLoc
  located : ∀ id < s.npoints, ∃ loc, s.maps.id2loc[id]? = some loc ∧
    s.maps.loc2id[loc]? = some (.id id)
  live : ∀ loc id : ℕ, s.maps.loc2id[loc]? = some (.id id) → id < s.npoints ∧
    s.maps.id2loc[id]? = some loc
  not_allocated : ∀ loc : ℕ, s.maps.loc2id[loc]? ≠ some Slot.allocated

/-- The location holds a record. -/
def State.Live (s : State ι) (loc : ℕ) : Prop :=
  loc < s.maps.curLoc ∧ ∃ id, s.maps.loc2id[loc]? = some (.id id)

/-- The maps are inverse to each other, but for the ids that a call moves under their locks; the
queue holds free pages; and every allocation gets locations that nothing else has. -/
structure MapsOk (L : PageLayout) (s : State ι) : Prop where
  no_fault : ∀ a f, step L s a ≠ some (.error f)
  id_loc : ∀ id, s.Committed id → s.idxLocks id = none →
    ∃ loc, s.maps.id2loc[id]? = some loc ∧ s.maps.loc2id[loc]? = some (.id id)
  loc_id : ∀ loc < s.maps.curLoc, ∀ id, s.maps.loc2id[loc]? = some (.id id) →
    s.Committed id ∧ (s.idxLocks id = none → s.maps.id2loc[id]? = some loc)
  empty_pages : ∀ p ∈ s.maps.emptyPages, ∀ loc ∈ L.pageLocs p,
    s.maps.loc2id[loc]? = some .invalid
  alloc : ∀ n hintPages, 0 < n → HintsOk L s.maps.curLoc hintPages →
    ∃ maps locs reads, allocLoc L n s.maps hintPages = .ok (maps, locs, reads) ∧
      locs.length = n ∧ locs.Nodup ∧
      ∀ loc ∈ locs, ¬ s.Live loc ∧ (∀ i, loc ∉ (s.calls i).locs) ∧
        ∀ id, s.Committed id → s.maps.id2loc[id]? ≠ some loc

end DiskANNEval.PipeANN.LocationMaps
