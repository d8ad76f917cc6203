import DiskANNEval.DGAI.BlockCache

/-!
# BlockCacheTables — what ties the tables of the block cache together

`Inv` holds while the owner of `hand_mtx` is anywhere in its critical section: `blockOf` is the
block a slot is mapped from, which differs from the slot's own id only between two writes of the
owner; the pin count of a slot is the number of requests that have pinned it, or -1 while the
owner evicts it.  `Inv.setThread`, `Inv.setPinned`, `Inv.setHand` and `Inv.next` are the four ways
in which a step can keep it.
-/

namespace DiskANNEval.DGAI.BlockCache

open Lib Option Function Finset

variable {Θ α : Type} {n : ℕ}

/-- The request a thread has pinned a slot for before its call returns. -/
def Pc.requests : Pc n → List (ℤ × Fin n)
  | .recheckId b cb _ => [(b, cb)]
  | .fetchRef b cb => [(b, cb)]
  | _ => []

def Thread.requests (th : Thread n) : List (ℤ × Fin n) := th.pc.requests ++ th.held

/-- The requests of a list that are for slot `i`. -/
def onSlot (i : Fin n) (l : List (ℤ × Fin n)) : ℕ := l.countP fun p => p.2 = i

theorem onSlot_cons (i : Fin n) (p : ℤ × Fin n) (l : List (ℤ × Fin n)) :
    onSlot i (p :: l) = onSlot i l + if p.2 = i then 1 else 0 := by
  simp [onSlot, List.countP_cons]

variable {i : Fin n}

@[simp] theorem onSlot_nil (i : Fin n) : onSlot i [] = 0 := rfl

theorem onSlot_pos {l : List (ℤ × Fin n)} : 0 < onSlot i l ↔ ∃ p ∈ l, p.2 = i := by
  simp [onSlot, List.countP_pos_iff]

theorem onSlot_erase {l : List (ℤ × Fin n)} {p : ℤ × Fin n} (hp : p ∈ l) (i : Fin n) :
    onSlot i (l.erase p) + (if p.2 = i then 1 else 0) = onSlot i l := by
  rw [← onSlot_cons]
  exact (List.perm_cons_erase hp).symm.countP_eq _

namespace Hand

variable (l : Hand Θ n)

def requests : List (ℤ × Fin n) :=
  match l.pc with
  | .fetchRef cb => [(l.blockId, cb)]
  | .storeRef _ cb => [(l.blockId, cb)]
  | .storeStatus _ cb => [(l.blockId, cb)]
  | .moveHand cb => [(l.blockId, cb)]
  | _ => []

/-- The block slot `i` is mapped from, where the owner's writes have not all been made. -/
def entry (i : Fin n) : Option (Option ℤ) :=
  match l.pc with
  | .emplace _ cb => if cb = i then some none else none
  | .writeId _ cb => if cb = i then some (some l.blockId) else none
  | .storePin _ cb => if cb = i then some (some l.blockId) else none
  | .storeRef _ cb => if cb = i then some (some l.blockId) else none
  | .storeStatus _ cb => if cb = i then some (some l.blockId) else none
  | _ => none

/-- The owner has marked slot `i` with -1. -/
def Evicting (i : Fin n) : Prop :=
  match l.pc with
  | .erase cb => cb = i
  | .emplace false cb => cb = i
  | .writeId false cb => cb = i
  | .storePin false cb => cb = i
  | _ => False

/-- The owner has mapped its block to the free slot `i` and not pinned it. -/
def Opening (i : Fin n) : Prop :=
  match l.pc with
  | .writeId true cb => cb = i
  | .storePin true cb => cb = i
  | _ => False

/-- The owner has counted a free slot off and not marked it as used. -/
def taken : ℕ :=
  match l.pc with
  | .scanFree _ => 1
  | .emplace true _ => 1
  | .writeId true _ => 1
  | .storePin true _ => 1
  | .storeRef true _ => 1
  | .storeStatus true _ => 1
  | _ => 0

/-- The owner's position leaves slot `i` alone. -/
structure Off (i : Fin n) : Prop where
  entry : l.entry i = none
  evicting : ¬ l.Evicting i
  opening : ¬ l.Opening i
  requests : onSlot i l.requests = 0

end Hand

/-- The slot at which the owner of `hand_mtx` is. -/
def MissPc.slot : MissPc n → Option (Fin n)
  | .lookup => none
  | .fetchPin cb => some cb
  | .fetchRef cb => some cb
  | .takeFree => none
  | .scanFree cb => some cb
  | .checkPinned cb => some cb
  | .dropRef cb => some cb
  | .swapEvict cb => some cb
  | .erase cb => some cb
  | .emplace _ cb => some cb
  | .writeId _ cb => some cb
  | .storePin _ cb => some cb
  | .storeRef _ cb => some cb
  | .storeStatus _ cb => some cb
  | .moveHand cb => some cb

theorem Hand.off {l : Hand Θ n} (h : l.pc.slot ≠ some i) : l.Off i := by
  obtain ⟨o, b, pc⟩ := l
  cases pc with
  | emplace fresh cb =>
    have hi : cb ≠ i := fun he => h (congrArg some he)
    cases fresh <;> constructor <;>
      simp [Hand.entry, Hand.Evicting, Hand.Opening, Hand.requests, hi]
  | writeId fresh cb =>
    have hi : cb ≠ i := fun he => h (congrArg some he)
    cases fresh <;> constructor <;>
      simp [Hand.entry, Hand.Evicting, Hand.Opening, Hand.requests, hi]
  | storePin fresh cb =>
    have hi : cb ≠ i := fun he => h (congrArg some he)
    cases fresh <;> constructor <;>
      simp [Hand.entry, Hand.Evicting, Hand.Opening, Hand.requests, hi]
  | lookup => constructor <;> simp [Hand.entry, Hand.Evicting, Hand.Opening, Hand.requests]
  | takeFree => constructor <;> simp [Hand.entry, Hand.Evicting, Hand.Opening, Hand.requests]
  | storeRef fresh cb =>
    have hi : cb ≠ i := fun he => h (congrArg some he)
    constructor <;>
      simp [Hand.entry, Hand.Evicting, Hand.Opening, Hand.requests, onSlot_cons, hi]
  | storeStatus fresh cb =>
    have hi : cb ≠ i := fun he => h (congrArg some he)
    constructor <;>
      simp [Hand.entry, Hand.Evicting, Hand.Opening, Hand.requests, onSlot_cons, hi]
  | _ cb =>
    have hi : cb ≠ i := fun he => h (congrArg some he)
    constructor <;>
      simp [Hand.entry, Hand.Evicting, Hand.Opening, Hand.requests, onSlot_cons, hi]

theorem Hand.off_of_slot {l : Hand Θ n} {cb : Fin n} (h : l.pc.slot = some cb) (i : Fin n)
    (hi : i ≠ cb) : l.Off i := by
  apply Hand.off
  rw [h]
  exact fun he => hi (Option.some.inj he).symm

namespace State

variable (s : State Θ α n)

def handRequests : List (ℤ × Fin n) := s.handMtx.elim [] Hand.requests

def settled (i : Fin n) : Option ℤ :=
  if s.cacheStatus i = .invalid then none else some (s.cachedBlockId i)

/-- The block the map has for slot `i`. -/
def blockOf (i : Fin n) : Option ℤ :=
  (s.handMtx.bind fun l => l.entry i).getD (s.settled i)

def Evicting (i : Fin n) : Prop := s.handMtx.elim False fun l => l.Evicting i

def Opening (i : Fin n) : Prop := s.handMtx.elim False fun l => l.Opening i

def taken : ℕ := s.handMtx.elim 0 Hand.taken

/-- Slot `i` is mapped from a block, or was before the owner of `hand_mtx` evicted it. -/
def Used (i : Fin n) : Prop := s.blockOf i ≠ none ∨ s.Evicting i

variable [Fintype Θ]

/-- The requests that have pinned slot `i` and have not released it. -/
def outstanding (i : Fin n) : ℕ :=
  onSlot i s.handRequests + ∑ t, onSlot i (s.threads t).requests

end State

variable [Fintype Θ]

theorem outstanding_setHand (s : State Θ α n) (l : Option (Hand Θ n)) (i : Fin n) :
    (s.setHand l).outstanding i + onSlot i s.handRequests
      = s.outstanding i + onSlot i (l.elim [] Hand.requests) := by
  simp only [State.outstanding, State.setHand, State.handRequests]
  omega

theorem sum_update [DecidableEq Θ] (f : Θ → ℕ) (g : Thread n → ℕ) (th : Θ → Thread n) (t : Θ) (x : Thread n)
    (hf : ∀ u, f u = g (th u)) :
    (∑ u, g (Function.update th t x u)) + g (th t) = (∑ u, f u) + g x := by
  rw [← add_sum_erase _ _ (mem_univ t), ← add_sum_erase _ f (mem_univ t)]
  rw [update_self, hf t]
  have h : ∑ u ∈ univ.erase t, g (Function.update th t x u)
      = ∑ u ∈ univ.erase t, f u := by
    apply sum_congr rfl
    intro u hu
    rw [update_of_ne (ne_of_mem_erase hu), hf u]
  omega

theorem outstanding_setThread [DecidableEq Θ] (s : State Θ α n) (t : Θ) (th : Thread n) (i : Fin n) :
    (s.setThread t th).outstanding i + onSlot i (s.threads t).requests
      = s.outstanding i + onSlot i th.requests := by
  have h := sum_update _ (fun th => onSlot i th.requests) s.threads t th fun _ => rfl
  simp only [State.outstanding, State.setThread, State.handRequests] at h ⊢
  omega

/-- The slot of a pinned request is mapped from its block and carries its id. -/
def State.Assigned (s : State Θ α n) (p : ℤ × Fin n) : Prop :=
  s.blockOf p.2 = some p.1 ∧ s.cachedBlockId p.2 = p.1

/-- Slot `cb` was found in the map for block `b`. -/
def State.Found (s : State Θ α n) (b : ℤ) (cb : Fin n) : Prop :=
  s.Used cb ∧ (s.Opening cb → s.blockOf cb = some b)

/-- What a position of a thread says about the tables. -/
def PcOk (s : State Θ α n) : Pc n → Prop
  | .loadPin b cb => s.Found b cb
  | .checkId b cb _ => s.Found b cb
  | .swapPin b cb val => s.Found b cb ∧ val ≠ -1
  | .getRead _ cb => s.cacheStatus cb ≠ .invalid
  | .getFinish _ cb => s.cacheStatus cb ≠ .invalid
  | _ => True

/-- What a position of the owner of `hand_mtx` says about the tables. -/
def HandOk (s : State Θ α n) (b : ℤ) : MissPc n → Prop
  | .lookup => True
  | .fetchPin cb => s.cachePhMap b = some cb
  | .fetchRef cb => s.cachePhMap b = some cb ∧ s.cachedBlockId cb = b
  | .takeFree => s.cachePhMap b = none ∧ 0 < s.numFreeBlocks
  | .scanFree _ => s.cachePhMap b = none
  | .checkPinned _ => s.cachePhMap b = none ∧ s.numFreeBlocks = 0
  | .dropRef _ => s.cachePhMap b = none ∧ s.numFreeBlocks = 0
  | .swapEvict _ => s.cachePhMap b = none ∧ s.numFreeBlocks = 0
  | .erase cb => s.cachePhMap b = none ∧ s.cacheStatus cb ≠ .invalid
  | .emplace fresh cb => s.cachePhMap b = none ∧ (s.cacheStatus cb = .invalid ↔ fresh = true)
  | .writeId fresh cb => s.cacheStatus cb = .invalid ↔ fresh = true
  | .storePin fresh cb =>
    s.cachedBlockId cb = b ∧ (s.cacheStatus cb = .invalid ↔ fresh = true)
  | .storeRef fresh cb =>
    s.cachedBlockId cb = b ∧ (s.cacheStatus cb = .invalid ↔ fresh = true)
  | .storeStatus fresh cb =>
    s.cachedBlockId cb = b ∧ (s.cacheStatus cb = .invalid ↔ fresh = true)
  | .moveHand cb => s.cachedBlockId cb = b ∧ s.cacheStatus cb ≠ .invalid

structure Inv (s : State Θ α n) : Prop where
  owner : ∀ l, s.handMtx = some l → (s.threads l.owner).pc = .miss l.blockId
  map : ∀ b i, s.cachePhMap b = some i ↔ s.blockOf i = some b
  free : s.numFreeBlocks + s.taken = (Finset.univ.filter fun i => s.cacheStatus i = .invalid).card
  pinned : ∀ i, ¬ s.Evicting i → s.cachePinnedCount i = s.outstanding i
  evicting : ∀ i, s.Evicting i → s.cachePinnedCount i = -1 ∧ s.outstanding i = 0
  assigned : ∀ t, ∀ p ∈ (s.threads t).requests, s.Assigned p
  hand : ∀ l, s.handMtx = some l → HandOk s l.blockId l.pc
  pcs : ∀ t, PcOk s (s.threads t).pc

variable {s : State Θ α n}

omit [Fintype Θ] in
theorem PcOk.mono {s' : State Θ α n} (hf : ∀ b cb, s.Found b cb → s'.Found b cb)
    (hs : ∀ cb, s.cacheStatus cb ≠ .invalid → s'.cacheStatus cb ≠ .invalid) {pc : Pc n}
    (h : PcOk s pc) : PcOk s' pc := by
  cases pc with
  | loadPin b cb => exact hf b cb h
  | checkId b cb val => exact hf b cb h
  | swapPin b cb val => exact ⟨hf b cb h.1, h.2⟩
  | getRead b cb => exact hs cb h
  | getFinish b cb => exact hs cb h
  | _ => trivial

omit [Fintype Θ] in
theorem HandOk.congr {s' : State Θ α n} (hm : s'.cachePhMap = s.cachePhMap)
    (hid : s'.cachedBlockId = s.cachedBlockId)
    (hst : ∀ i, s'.cacheStatus i = .invalid ↔ s.cacheStatus i = .invalid)
    (hn : s'.numFreeBlocks = s.numFreeBlocks) {b : ℤ} {pc : MissPc n} (h : HandOk s b pc) :
    HandOk s' b pc := by
  cases pc with
  | lookup => trivial
  | _ => simpa only [HandOk, hm, hid, hst, hn, ne_eq] using h

theorem outstanding_eq_zero_of (h0 : onSlot i s.handRequests = 0)
    (h : ∀ t, ∀ p ∈ (s.threads t).requests, p.2 ≠ i) : s.outstanding i = 0 := by
  rw [State.outstanding, h0, Nat.zero_add]
  apply sum_eq_zero
  intro t _
  by_contra hne
  obtain ⟨p, hp, hpi⟩ := onSlot_pos.mp (Nat.pos_of_ne_zero hne)
  exact h t p hp hpi

theorem exists_request (h : 0 < s.outstanding i) :
    (∃ p ∈ s.handRequests, p.2 = i) ∨ ∃ t, ∃ p ∈ (s.threads t).requests, p.2 = i := by
  by_contra hne
  push Not at hne
  have h0 : onSlot i s.handRequests = 0 := by
    by_contra h1
    obtain ⟨p, hp, hpi⟩ := onSlot_pos.mp (Nat.pos_of_ne_zero h1)
    exact hne.1 p hp hpi
  rw [outstanding_eq_zero_of h0 hne.2] at h
  exact absurd h (lt_irrefl 0)

theorem onSlot_le_outstanding (s : State Θ α n) (t : Θ) (i : Fin n) :
    onSlot i (s.threads t).requests ≤ s.outstanding i := by
  have h := single_le_sum (fun u _ => Nat.zero_le (onSlot i (s.threads u).requests))
    (mem_univ t)
  rw [State.outstanding]
  omega

omit [Fintype Θ] in
theorem blockOf_setHand (s : State Θ α n) (l : Option (Hand Θ n)) (i : Fin n) :
    (s.setHand l).blockOf i = (l.bind fun l => l.entry i).getD (s.settled i) := rfl

namespace Inv

variable {s : State Θ α n} (h : Inv s)
include h

theorem setThread [DecidableEq Θ] (t : Θ) (th : Thread n)
    (hown : ∀ l, s.handMtx = some l → l.owner = t → th.pc = .miss l.blockId)
    (hn : ∀ i, onSlot i th.requests = onSlot i (s.threads t).requests)
    (hr : ∀ p ∈ th.requests, s.Assigned p) (hp : PcOk s th.pc) : Inv (s.setThread t th) := by
  have hout : ∀ i, (s.setThread t th).outstanding i = s.outstanding i := by
    intro i
    have h1 := outstanding_setThread s t th i
    rw [hn i] at h1
    omega
  refine ⟨?_, h.map, h.free, ?_, ?_, ?_, h.hand, ?_⟩
  · intro l hl
    by_cases ht : l.owner = t
    · simpa [State.setThread, ht] using hown l hl ht
    · simpa [State.setThread, ht] using h.owner l hl
  · intro i hi
    rw [hout i]
    exact h.pinned i hi
  · intro i hi
    rw [hout i]
    exact h.evicting i hi
  · intro u p hpm
    by_cases hu : u = t
    · subst hu
      simp only [State.setThread, update_self] at hpm
      exact hr p hpm
    · simp only [State.setThread, update_of_ne hu] at hpm
      exact h.assigned u p hpm
  · intro u
    by_cases hu : u = t
    · subst hu
      simp only [State.setThread, update_self]
      exact hp.mono (fun _ _ hf => hf) fun _ hs => hs
    · simp only [State.setThread, update_of_ne hu]
      exact (h.pcs u).mono (fun _ _ hf => hf) fun _ hs => hs

theorem setHand (l' : Option (Hand Θ n))
    (hb : ∀ i, (s.setHand l').blockOf i = s.blockOf i)
    (he : ∀ i, (s.setHand l').Evicting i ↔ s.Evicting i)
    (ho : ∀ i, (s.setHand l').Opening i ↔ s.Opening i)
    (ht : (s.setHand l').taken = s.taken) (hr : (s.setHand l').handRequests = s.handRequests)
    (hown : ∀ l, l' = some l → (s.threads l.owner).pc = .miss l.blockId)
    (hok : ∀ l, l' = some l → HandOk s l.blockId l.pc) : Inv (s.setHand l') := by
  have hout : ∀ i, (s.setHand l').outstanding i = s.outstanding i := by
    intro i
    rw [State.outstanding, hr]
    rfl
  refine ⟨hown, ?_, ?_, ?_, ?_, ?_, ?_, ?_⟩
  · intro b i
    rw [hb i]
    exact h.map b i
  · rw [ht]
    exact h.free
  · intro i hi
    rw [hout i]
    exact h.pinned i (mt (he i).mpr hi)
  · intro i hi
    rw [hout i]
    exact h.evicting i ((he i).mp hi)
  · intro t p hp
    obtain ⟨h1, h2⟩ := h.assigned t p hp
    exact ⟨(hb p.2).trans h1, h2⟩
  · intro l hl
    exact (hok l hl).congr rfl rfl (fun _ => Iff.rfl) rfl
  · intro t
    show PcOk (s.setHand l') (s.threads t).pc
    apply PcOk.mono _ _ (h.pcs t)
    · rintro b cb ⟨hu, hop⟩
      refine ⟨?_, ?_⟩
      · rw [State.Used, hb cb, he cb]
        exact hu
      · rw [hb cb, ho cb]
        exact hop
    · intro _ hs
      exact hs

theorem id_of_blockOf {i : Fin n} {b : ℤ} (hb : s.blockOf i = some b) (he : ¬ s.Evicting i)
    (ho : ¬ s.Opening i) : s.cachedBlockId i = b := by
  have hset : s.settled i = some b → s.cachedBlockId i = b := by
    intro hs
    unfold State.settled at hs
    split_ifs at hs
    exact Option.some.inj hs
  cases hl : s.handMtx with
  | none => exact hset (by simpa [State.blockOf, hl] using hb)
  | some l =>
    have hok := h.hand l hl
    simp only [State.blockOf, State.Evicting, State.Opening, hl, bind_some,
      elim_some] at hb he ho
    unfold Hand.entry at hb
    unfold Hand.Evicting at he
    unfold Hand.Opening at ho
    cases hpc : l.pc with
    | emplace fresh cb =>
      rw [hpc] at hb
      by_cases hcb : cb = i
      · simp [hcb] at hb
      · exact hset (by simpa [hcb] using hb)
    | writeId fresh cb =>
      rw [hpc] at hb he ho
      by_cases hcb : cb = i
      · cases fresh
        · exact absurd hcb he
        · exact absurd hcb ho
      · exact hset (by simpa [hcb] using hb)
    | storePin fresh cb =>
      rw [hpc] at hb he ho
      by_cases hcb : cb = i
      · cases fresh
        · exact absurd hcb he
        · exact absurd hcb ho
      · exact hset (by simpa [hcb] using hb)
    | storeRef fresh cb =>
      rw [hpc] at hb hok
      by_cases hcb : cb = i
      · have hbb : l.blockId = b := by simpa [hcb] using hb
        exact hbb ▸ hcb ▸ hok.1
      · exact hset (by simpa [hcb] using hb)
    | storeStatus fresh cb =>
      rw [hpc] at hb hok
      by_cases hcb : cb = i
      · have hbb : l.blockId = b := by simpa [hcb] using hb
        exact hbb ▸ hcb ▸ hok.1
      · exact hset (by simpa [hcb] using hb)
    | _ =>
      rw [hpc] at hb
      exact hset (by simpa using hb)

/-- A slot found in the map that is not being evicted and still has the id is mapped from the
block that was looked up. -/
theorem assigned_of_found {cb : Fin n} {b : ℤ} (hf : s.Found b cb) (he : ¬ s.Evicting cb)
    (hid : s.cachedBlockId cb = b) : s.Assigned (b, cb) := by
  refine ⟨?_, hid⟩
  by_cases ho : s.Opening cb
  · exact hf.2 ho
  · obtain ⟨b', hb'⟩ := ne_none_iff_exists'.mp (hf.1.resolve_right he)
    rw [hb', ← hid, h.id_of_blockOf hb' he ho]

theorem setPinned [DecidableEq Θ] (t : Θ) (th : Thread n) (cb : Fin n) (val : ℤ)
    (hown : ∀ l, s.handMtx = some l → l.owner ≠ t)
    (hn : ∀ i, i ≠ cb → onSlot i th.requests = onSlot i (s.threads t).requests)
    (hr : ∀ p ∈ th.requests, s.Assigned p) (hp : PcOk s th.pc) (he : ¬ s.Evicting cb)
    (hval : val + onSlot cb (s.threads t).requests = s.cachePinnedCount cb + onSlot cb th.requests) :
    Inv ((s.setPinned cb val).setThread t th) := by
  have hout : ∀ i, i ≠ cb → (s.setThread t th).outstanding i = s.outstanding i := by
    intro i hi
    have h1 := outstanding_setThread s t th i
    rw [hn i hi] at h1
    omega
  have hcb : val = (s.setThread t th).outstanding cb := by
    have h1 := outstanding_setThread s t th cb
    rw [h.pinned cb he] at hval
    omega
  refine ⟨?_, h.map, h.free, ?_, ?_, ?_, ?_, ?_⟩
  · intro l hl
    simp only [State.setThread, update_of_ne (hown l hl)]
    exact h.owner l hl
  · intro i hi
    show Function.update s.cachePinnedCount cb val i = ((s.setThread t th).outstanding i : ℤ)
    by_cases hicb : i = cb
    · rw [hicb, update_self, hcb]
    · rw [update_of_ne hicb, hout i hicb]
      exact h.pinned i hi
  · intro i hi
    have hicb : i ≠ cb := by
      rintro rfl
      exact he hi
    show Function.update s.cachePinnedCount cb val i = -1 ∧ (s.setThread t th).outstanding i = 0
    rw [update_of_ne hicb, hout i hicb]
    exact h.evicting i hi
  · intro u p hpm
    by_cases hu : u = t
    · subst hu
      simp only [State.setThread, update_self] at hpm
      exact hr p hpm
    · simp only [State.setThread, update_of_ne hu] at hpm
      exact h.assigned u p hpm
  · intro l hl
    exact (h.hand l hl).congr rfl rfl (fun _ => Iff.rfl) rfl
  · intro u
    by_cases hu : u = t
    · subst hu
      simp only [State.setThread, update_self]
      exact hp.mono (fun _ _ hf => hf) fun _ hs => hs
    · simp only [State.setThread, update_of_ne hu]
      exact (h.pcs u).mono (fun _ _ hf => hf) fun _ hs => hs

variable {s' : State Θ α n}

theorem of_tables (hm : s'.cachePhMap = s.cachePhMap) (hid : s'.cachedBlockId = s.cachedBlockId)
    (hp : s'.cachePinnedCount = s.cachePinnedCount)
    (hst : ∀ i, s'.cacheStatus i = .invalid ↔ s.cacheStatus i = .invalid)
    (hn : s'.numFreeBlocks = s.numFreeBlocks) (hh : s'.handMtx = s.handMtx)
    (ht : s'.threads = s.threads) : Inv s' := by
  have hset : ∀ i, s'.settled i = s.settled i := by
    intro i
    simp only [State.settled, hst, hid]
  have hb : ∀ i, s'.blockOf i = s.blockOf i := by
    intro i
    simp only [State.blockOf, hh, hset]
  have hout : ∀ i, s'.outstanding i = s.outstanding i := by
    intro i
    simp only [State.outstanding, State.handRequests, hh, ht]
  have hev : ∀ i, s'.Evicting i ↔ s.Evicting i := by
    intro i
    simp only [State.Evicting, hh]
  refine ⟨?_, ?_, ?_, ?_, ?_, ?_, ?_, ?_⟩
  · rw [hh, ht]
    exact h.owner
  · intro b i
    rw [hm, hb]
    exact h.map b i
  · simp only [hn, State.taken, hh, hst]
    exact h.free
  · intro i hi
    rw [hp, hout]
    exact h.pinned i (mt (hev i).mpr hi)
  · intro i hi
    rw [hp, hout]
    exact h.evicting i ((hev i).mp hi)
  · intro t p hpm
    rw [ht] at hpm
    obtain ⟨h1, h2⟩ := h.assigned t p hpm
    exact ⟨(hb _).trans h1, (congrFun hid _).trans h2⟩
  · intro l hl
    rw [hh] at hl
    exact (h.hand l hl).congr hm hid hst hn
  · intro t
    rw [ht]
    apply PcOk.mono _ _ (h.pcs t)
    · rintro b cb ⟨hu, hop⟩
      refine ⟨?_, ?_⟩
      · rw [State.Used, hb, hev]
        exact hu
      · simp only [State.Opening, hh, hb]
        exact hop
    · intro cb hs
      exact mt (hst cb).mp hs

theorem ne_of_outstanding {cb : Fin n} (h0 : s.outstanding cb = 0) (t : Θ) {p : ℤ × Fin n}
    (hp : p ∈ (s.threads t).requests) : p.2 ≠ cb := by
  intro hpc
  have h1 := onSlot_le_outstanding s t cb
  have h2 : 0 < onSlot cb (s.threads t).requests := onSlot_pos.mpr ⟨p, hp, hpc⟩
  omega

variable {l l' : Hand Θ n}

theorem giveOut [DecidableEq Θ] (hl : s.handMtx = some l) (cb : Fin n)
    (hpc : l.pc = .fetchRef cb ∨ l.pc = .moveHand cb) :
    Inv ((s.setHand none).giveOut l.owner l.blockId cb) := by
  have hreq : l.requests = [(l.blockId, cb)] := by
    rcases hpc with hpc | hpc <;> simp [Hand.requests, hpc]
  have hentry : ∀ i, l.entry i = none := by
    rcases hpc with hpc | hpc <;> simp [Hand.entry, hpc]
  have hev : ∀ i, ¬ l.Evicting i := by
    rcases hpc with hpc | hpc <;> simp [Hand.Evicting, hpc]
  have htaken : l.taken = 0 := by
    rcases hpc with hpc | hpc <;> simp [Hand.taken, hpc]
  have hb : ∀ i, s.blockOf i = s.settled i := by
    intro i
    simp [State.blockOf, hl, hentry i]
  have hown := h.owner l hl
  have hold : (s.threads l.owner).requests = (s.threads l.owner).held := by
    simp [Thread.requests, hown, Pc.requests]
  have hout : ∀ i, ((s.setHand none).giveOut l.owner l.blockId cb).outstanding i
      = s.outstanding i := by
    intro i
    have h1 := outstanding_setHand s none i
    have h2 := outstanding_setThread (s.setHand none) l.owner
      ⟨.idle, (l.blockId, cb) :: (s.threads l.owner).held⟩ i
    have h3 : ((s.setHand none).threads l.owner).requests = (s.threads l.owner).held := hold
    have h4 : onSlot i s.handRequests = onSlot i [(l.blockId, cb)] := by
      simp [State.handRequests, hl, hreq]
    have h5 : (⟨.idle, (l.blockId, cb) :: (s.threads l.owner).held⟩ : Thread n).requests
        = (l.blockId, cb) :: (s.threads l.owner).held := rfl
    rw [h3, h5, onSlot_cons] at h2
    rw [h4, onSlot_cons] at h1
    simp only [elim_none] at h1 h2
    change ((s.setHand none).giveOut l.owner l.blockId cb).outstanding i + _ = _ at h2
    omega
  have hcb : s.Assigned (l.blockId, cb) := by
    have hok := h.hand l hl
    rcases hpc with hpc | hpc
    · rw [hpc] at hok
      exact ⟨(h.map _ _).mp hok.1, hok.2⟩
    · rw [hpc] at hok
      refine ⟨?_, hok.1⟩
      rw [hb, State.settled, if_neg hok.2, hok.1]
  refine ⟨?_, ?_, ?_, ?_, ?_, ?_, ?_, ?_⟩
  · intro l' hl'
    cases hl'
  · intro b i
    exact (h.map b i).trans (iff_of_eq (congrArg (· = some b) (hb i)))
  · have h1 := h.free
    simp only [State.taken, hl, elim_some, htaken] at h1
    exact h1
  · intro i _
    rw [hout i]
    refine h.pinned i ?_
    simp only [State.Evicting, hl]
    exact hev i
  · intro i hi
    exact hi.elim
  · intro u p hp
    suffices hs : s.Assigned p from ⟨(hb p.2).symm.trans hs.1, hs.2⟩
    by_cases hu : u = l.owner
    · subst hu
      simp only [State.giveOut, State.setThread, update_self, Thread.requests,
        Pc.requests, List.nil_append, List.mem_cons] at hp
      rcases hp with rfl | hp
      · exact hcb
      · exact h.assigned l.owner p (hold ▸ hp)
    · simp only [State.giveOut, State.setThread, update_of_ne hu] at hp
      exact h.assigned u p hp
  · intro l' hl'
    cases hl'
  · intro u
    by_cases hu : u = l.owner
    · subst hu
      simp [State.giveOut, State.setThread, PcOk]
    · simp only [State.giveOut, State.setThread, update_of_ne hu]
      apply PcOk.mono _ _ (h.pcs u)
      · rintro b' cb' ⟨hus, -⟩
        refine ⟨Or.inl ?_, False.elim⟩
        rcases hus with hus | hus
        · rwa [hb] at hus
        · simp only [State.Evicting, hl] at hus
          exact absurd hus (hev cb')
      · intro _ hs
        exact hs

omit h in
theorem outstanding_next {t : State Θ α n} (hl : s.handMtx = some l) (hl' : t.handMtx = some l')
    (hth : t.threads = s.threads) (i : Fin n) :
    t.outstanding i + onSlot i l.requests = s.outstanding i + onSlot i l'.requests := by
  simp only [State.outstanding, State.handRequests, hl, hl', hth, elim_some]
  omega

theorem next (hl : s.handMtx = some l) (hl' : s'.handMtx = some l') (cb : Fin n)
    (hth : s'.threads = s.threads) (hown : l'.owner = l.owner ∧ l'.blockId = l.blockId)
    (hoff : ∀ i, i ≠ cb → l.Off i) (hoff' : ∀ i, i ≠ cb → l'.Off i)
    (hsame : ∀ i, i ≠ cb → s'.cacheStatus i = s.cacheStatus i ∧ s'.cachedBlockId i = s.cachedBlockId i ∧ s'.cachePinnedCount i = s.cachePinnedCount i)
    (hmap : ∀ b i, i ≠ cb → (s'.cachePhMap b = some i ↔ s.cachePhMap b = some i))
    (hmapcb : ∀ b, s'.cachePhMap b = some cb ↔ s'.blockOf cb = some b)
    (hfree : s'.numFreeBlocks + s'.taken = (univ.filter fun i => s'.cacheStatus i = .invalid).card)
    (hpin : ¬ s'.Evicting cb → s'.cachePinnedCount cb = s'.outstanding cb)
    (hev : s'.Evicting cb → s'.cachePinnedCount cb = -1 ∧ s'.outstanding cb = 0)
    (hasg : ∀ t, ∀ p ∈ (s.threads t).requests, p.2 = cb → s'.Assigned p)
    (hok : HandOk s' l'.blockId l'.pc) (hfound : ∀ b, s.Found b cb → s'.Found b cb)
    (hst : s.cacheStatus cb ≠ .invalid → s'.cacheStatus cb ≠ .invalid) : Inv s' := by
  have hblock : ∀ i, i ≠ cb → s'.blockOf i = s.blockOf i := by
    intro i hi
    simp only [State.blockOf, hl, hl', bind_some, (hoff i hi).entry, (hoff' i hi).entry,
      State.settled, (hsame i hi).1, (hsame i hi).2.1]
  have hevi : ∀ i, i ≠ cb → ¬ s'.Evicting i ∧ ¬ s.Evicting i := by
    intro i hi
    simp only [State.Evicting, hl, hl']
    exact ⟨(hoff' i hi).evicting, (hoff i hi).evicting⟩
  have hout : ∀ i, i ≠ cb → s'.outstanding i = s.outstanding i := by
    intro i hi
    have h1 := outstanding_next hl hl' hth i
    rw [(hoff i hi).requests, (hoff' i hi).requests] at h1
    omega
  refine ⟨?_, ?_, hfree, ?_, ?_, ?_, ?_, ?_⟩
  · intro m hm
    have hm' : m = l' := Option.some.inj (hm.symm.trans hl')
    rw [hm', hth, hown.1, hown.2]
    exact h.owner l hl
  · intro b i
    by_cases hi : i = cb
    · rw [hi]
      exact hmapcb b
    · rw [hmap b i hi, hblock i hi]
      exact h.map b i
  · intro i hi
    by_cases hicb : i = cb
    · subst hicb
      exact hpin hi
    · rw [(hsame i hicb).2.2, hout i hicb]
      exact h.pinned i (hevi i hicb).2
  · intro i hi
    by_cases hicb : i = cb
    · subst hicb
      exact hev hi
    · exact absurd hi (hevi i hicb).1
  · intro t p hp
    rw [hth] at hp
    by_cases hpcb : p.2 = cb
    · exact hasg t p hp hpcb
    · obtain ⟨h1, h2⟩ := h.assigned t p hp
      exact ⟨(hblock _ hpcb).trans h1, (hsame _ hpcb).2.1.trans h2⟩
  · intro m hm
    have hm' : m = l' := Option.some.inj (hm.symm.trans hl')
    rw [hm']
    exact hok
  · intro t
    rw [hth]
    apply PcOk.mono _ _ (h.pcs t)
    · intro b i hf
      by_cases hi : i = cb
      · subst hi
        exact hfound b hf
      · refine ⟨?_, ?_⟩
        · rcases hf.1 with hu | hu
          · left
            rwa [hblock i hi]
          · exact absurd hu (hevi i hi).2
        · intro ho
          simp only [State.Opening, hl'] at ho
          exact absurd ho (hoff' i hi).opening
    · intro i hs
      by_cases hi : i = cb
      · subst hi
        exact hst hs
      · rwa [(hsame i hi).1]

theorem next_of_blockOf (hl : s.handMtx = some l) (hl' : s'.handMtx = some l') (cb : Fin n)
    (hth : s'.threads = s.threads) (hown : l'.owner = l.owner ∧ l'.blockId = l.blockId)
    (hoff : ∀ i, i ≠ cb → l.Off i) (hoff' : ∀ i, i ≠ cb → l'.Off i)
    (hsame : ∀ i, i ≠ cb → s'.cacheStatus i = s.cacheStatus i ∧ s'.cachePinnedCount i = s.cachePinnedCount i)
    (hmap : s'.cachePhMap = s.cachePhMap) (hid : s'.cachedBlockId = s.cachedBlockId)
    (hblock : s'.blockOf cb = s.blockOf cb)
    (hfree : s'.numFreeBlocks + s'.taken = (univ.filter fun i => s'.cacheStatus i = .invalid).card)
    (hpin : ¬ s'.Evicting cb → s'.cachePinnedCount cb = s'.outstanding cb)
    (hev : s'.Evicting cb → s'.cachePinnedCount cb = -1 ∧ s'.outstanding cb = 0)
    (hok : HandOk s' l'.blockId l'.pc) (hevi : s.Evicting cb → s'.Used cb) (hop : ¬ s'.Opening cb)
    (hst : s.cacheStatus cb ≠ .invalid → s'.cacheStatus cb ≠ .invalid) : Inv s' := by
  refine h.next hl hl' cb hth hown hoff hoff' ?_ ?_ ?_ hfree hpin hev ?_ hok ?_ hst
  · intro i hi
    exact ⟨(hsame i hi).1, congrFun hid i, (hsame i hi).2⟩
  · intro b i _
    rw [hmap]
  · intro b
    rw [hmap, hblock]
    exact h.map b cb
  · intro t p hp hpcb
    obtain ⟨h1, h2⟩ := h.assigned t p hp
    refine ⟨?_, (congrFun hid _).trans h2⟩
    rw [hpcb, hblock, ← hpcb]
    exact h1
  · rintro b ⟨hu, -⟩
    refine ⟨?_, fun ho => absurd ho hop⟩
    rcases hu with hu | hu
    · left
      rwa [hblock]
    · exact hevi hu

end Inv

end DiskANNEval.DGAI.BlockCache
