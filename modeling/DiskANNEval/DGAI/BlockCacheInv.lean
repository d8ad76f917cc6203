import DiskANNEval.DGAI.BlockCacheTables

/-!
# BlockCacheInv — pins, map entries and ids of the block cache over every interleaving

One lemma for each kind of step, and `Inv.step`, the one case analysis over the steps.  `NoRace`
names the two steps that break the invariant: a compare-and-swap on a slot that has been given to
another block since it was checked, and the `store(1)` into a free slot that another thread has
pinned since it was mapped.
-/

namespace DiskANNEval.DGAI.BlockCache

open Lib Option Function Finset

variable {Θ α : Type} {n : ℕ} [Fintype Θ]

namespace Inv

variable {s : State Θ α n} (h : Inv s) {o : Θ} {b : ℤ}
include h

variable {cb : Fin n}

theorem fetchPin (hl : s.handMtx = some ⟨o, b, .fetchPin cb⟩)
    (hlt : s.cachePinnedCount cb < 2147483647) :
    Inv ((s.addPinned cb 1).setHand (some ⟨o, b, .fetchRef cb⟩)) := by
  have hmap : s.cachePhMap b = some cb := h.hand _ hl
  have hb : s.blockOf cb = s.settled cb := by simp [State.blockOf, hl, Hand.entry]
  have hev : ¬ s.Evicting cb := by simp [State.Evicting, hl, Hand.Evicting]
  have hop : ¬ s.Opening cb := by simp [State.Opening, hl, Hand.Opening]
  have hid : s.cachedBlockId cb = b := h.id_of_blockOf ((h.map b cb).mp hmap) hev hop
  have hout := outstanding_next (t := (s.addPinned cb 1).setHand (some ⟨o, b, .fetchRef cb⟩))
    hl rfl rfl cb
  have hpin := h.pinned cb hev
  refine h.next_of_blockOf hl rfl cb rfl ⟨rfl, rfl⟩ (Hand.off_of_slot rfl) (Hand.off_of_slot rfl)
    ?_ rfl rfl hb.symm ?_ ?_ False.elim ⟨hmap, hid⟩ (fun he => absurd he hev) id id
  · intro i hi
    exact ⟨rfl, update_of_ne hi _ _⟩
  · have h1 := h.free
    simp only [State.taken, hl] at h1
    exact h1
  · intro _
    simp only [Hand.requests, onSlot_cons] at hout
    show Function.update s.cachePinnedCount cb (wrap32 (s.cachePinnedCount cb + 1)) cb = _
    rw [update_self, wrap32_of_lt (by omega) (by omega)]
    simp only [if_true] at hout
    omega

theorem takeFree (hl : s.handMtx = some ⟨o, b, .takeFree⟩) :
    Inv ({ s with numFreeBlocks := s.numFreeBlocks - 1 }.setHand
      (some ⟨o, b, .scanFree cb⟩)) := by
  obtain ⟨hmap, hpos⟩ := h.hand _ hl
  have hb : s.blockOf cb = s.settled cb := by simp [State.blockOf, hl, Hand.entry]
  have hev : ¬ s.Evicting cb := by simp [State.Evicting, hl, Hand.Evicting]
  have hout := outstanding_next (t := { s with numFreeBlocks := s.numFreeBlocks - 1 }.setHand
    (some ⟨o, b, .scanFree cb⟩)) hl rfl rfl cb
  refine h.next_of_blockOf hl rfl cb rfl ⟨rfl, rfl⟩ (fun i _ => Hand.off (by simp [MissPc.slot]))
    (Hand.off_of_slot rfl) (fun _ _ => ⟨rfl, rfl⟩) rfl rfl hb.symm ?_ ?_ False.elim hmap
    (fun he => absurd he hev) id id
  · have h1 := h.free
    simp only [State.taken, hl] at h1
    show s.numFreeBlocks - 1 + 1 = _
    rw [Nat.sub_add_cancel hpos]
    exact h1
  · intro _
    rw [show State.outstanding _ cb = s.outstanding cb from hout]
    exact h.pinned cb hev

theorem swapEvict (hl : s.handMtx = some ⟨o, b, .swapEvict cb⟩) (h0 : s.cachePinnedCount cb = 0) :
    Inv ((s.setPinned cb (-1)).setHand (some ⟨o, b, .erase cb⟩)) := by
  obtain ⟨hmap, hfree⟩ := h.hand _ hl
  have hb : s.blockOf cb = s.settled cb := by simp [State.blockOf, hl, Hand.entry]
  have hev : ¬ s.Evicting cb := by simp [State.Evicting, hl, Hand.Evicting]
  have hout := outstanding_next (t := (s.setPinned cb (-1)).setHand (some ⟨o, b, .erase cb⟩))
    hl rfl rfl cb
  have hpin := h.pinned cb hev
  have hf := h.free
  simp only [State.taken, hl, elim_some, Hand.taken] at hf
  have hst : s.cacheStatus cb ≠ .invalid := by
    intro hs
    have h1 : cb ∈ univ.filter fun i => s.cacheStatus i = .invalid := by simp [hs]
    have h2 := card_pos.mpr ⟨cb, h1⟩
    omega
  refine h.next_of_blockOf hl rfl cb rfl ⟨rfl, rfl⟩ (Hand.off_of_slot rfl) (Hand.off_of_slot rfl)
    ?_ rfl rfl hb.symm hf (fun he => absurd rfl he) ?_ ⟨hmap, hst⟩ (fun _ => Or.inr rfl) id id
  · intro i hi
    exact ⟨rfl, update_of_ne hi _ _⟩
  · intro _
    refine ⟨update_self _ _ _, ?_⟩
    simp only [Hand.requests, onSlot_nil] at hout
    omega

theorem erase (hl : s.handMtx = some ⟨o, b, .erase cb⟩) :
    Inv ({ s with cachePhMap := eraseIf s.cachePhMap (s.cachedBlockId cb) cb }.setHand
      (some ⟨o, b, .emplace false cb⟩)) := by
  obtain ⟨hmap, hst⟩ := h.hand _ hl
  have hb : s.blockOf cb = some (s.cachedBlockId cb) := by
    simp [State.blockOf, hl, Hand.entry, State.settled, hst]
  have hev : s.Evicting cb := by simp [State.Evicting, hl, Hand.Evicting]
  have hold : s.cachePhMap (s.cachedBlockId cb) = some cb := (h.map _ _).mpr hb
  have hnew : eraseIf s.cachePhMap (s.cachedBlockId cb) cb
      = Function.update s.cachePhMap (s.cachedBlockId cb) none := if_pos hold
  have hout := outstanding_next
    (t := { s with cachePhMap := eraseIf s.cachePhMap (s.cachedBlockId cb) cb }.setHand
      (some ⟨o, b, .emplace false cb⟩)) hl rfl rfl cb
  refine h.next hl rfl cb rfl ⟨rfl, rfl⟩ (Hand.off_of_slot rfl) (Hand.off_of_slot rfl) ?_ ?_ ?_ ?_
    ?_ ?_ ?_ ⟨?_, ?_⟩ ?_ ?_
  · intro i hi
    exact ⟨rfl, rfl, rfl⟩
  · intro b' i hi
    show eraseIf s.cachePhMap (s.cachedBlockId cb) cb b' = some i ↔ _
    rw [hnew]
    by_cases hb' : b' = s.cachedBlockId cb
    · rw [hb', hold]
      simp [Ne.symm hi]
    · rw [update_of_ne hb']
  · intro b'
    have h1 : State.blockOf ({ s with cachePhMap := eraseIf s.cachePhMap (s.cachedBlockId cb) cb
        }.setHand (some ⟨o, b, .emplace false cb⟩)) cb = none := by
      simp [State.blockOf, State.setHand, Hand.entry]
    rw [h1]
    show eraseIf s.cachePhMap (s.cachedBlockId cb) cb b' = some cb ↔ _
    rw [hnew]
    by_cases hb' : b' = s.cachedBlockId cb
    · simp [hb']
    · rw [update_of_ne hb', h.map b' cb, hb]
      simp [Ne.symm hb']
  · have hf := h.free
    simp only [State.taken, hl] at hf
    exact hf
  · intro he
    exact absurd rfl he
  · intro _
    refine ⟨(h.evicting cb hev).1, ?_⟩
    rw [show State.outstanding _ cb = s.outstanding cb from hout]
    exact (h.evicting cb hev).2
  · intro t p hp hpcb
    exact absurd hpcb (h.ne_of_outstanding (h.evicting cb hev).2 t hp)
  · show eraseIf s.cachePhMap (s.cachedBlockId cb) cb b = none
    rw [hnew]
    by_cases hbb : b = s.cachedBlockId cb
    · rw [hbb, update_self]
    · rw [update_of_ne hbb, hmap]
  · exact iff_of_false hst Bool.false_ne_true
  · rintro b' -
    exact ⟨Or.inr rfl, False.elim⟩
  · exact fun hs => hs

variable {fresh : Bool}

theorem emplace (hl : s.handMtx = some ⟨o, b, .emplace fresh cb⟩) :
    Inv ({ s with cachePhMap := tryEmplace s.cachePhMap b cb }.setHand
      (some ⟨o, b, .writeId fresh cb⟩)) := by
  obtain ⟨hmap, hst⟩ := h.hand _ hl
  have hb : s.blockOf cb = none := by simp [State.blockOf, hl, Hand.entry]
  have hnew : tryEmplace s.cachePhMap b cb = Function.update s.cachePhMap b (some cb) :=
    if_pos hmap
  have hout := outstanding_next
    (t := { s with cachePhMap := tryEmplace s.cachePhMap b cb }.setHand
      (some ⟨o, b, .writeId fresh cb⟩)) hl rfl rfl cb
  have hb' : State.blockOf ({ s with cachePhMap := tryEmplace s.cachePhMap b cb }.setHand
      (some ⟨o, b, .writeId fresh cb⟩)) cb = some b := by
    simp [State.blockOf, State.setHand, Hand.entry]
  have hevi : s.Evicting cb ↔ fresh = false := by
    cases fresh <;> simp [State.Evicting, hl, Hand.Evicting]
  have hevi' : State.Evicting ({ s with cachePhMap := tryEmplace s.cachePhMap b cb }.setHand
      (some ⟨o, b, .writeId fresh cb⟩)) cb ↔ fresh = false := by
    cases fresh <;> simp [State.Evicting, State.setHand, Hand.Evicting]
  refine h.next hl rfl cb rfl ⟨rfl, rfl⟩ (Hand.off_of_slot rfl) (Hand.off_of_slot rfl)
    (fun _ _ => ⟨rfl, rfl, rfl⟩) ?_ ?_ ?_ ?_ ?_ ?_ hst ?_ id
  · intro b' i hi
    show tryEmplace s.cachePhMap b cb b' = some i ↔ _
    rw [hnew]
    by_cases hbb : b' = b
    · rw [hbb, hmap]
      simp [Ne.symm hi]
    · rw [update_of_ne hbb]
  · intro b'
    rw [hb']
    show tryEmplace s.cachePhMap b cb b' = some cb ↔ _
    rw [hnew]
    by_cases hbb : b' = b
    · simp [hbb]
    · rw [update_of_ne hbb, h.map b' cb, hb]
      simp [Ne.symm hbb]
  · have hf := h.free
    simp only [State.taken, hl] at hf
    cases fresh <;> exact hf
  · intro he
    rw [show State.outstanding _ cb = s.outstanding cb from hout]
    exact h.pinned cb (mt (fun h1 => hevi'.mpr (hevi.mp h1)) he)
  · intro he
    rw [show State.outstanding _ cb = s.outstanding cb from hout]
    exact h.evicting cb (hevi.mpr (hevi'.mp he))
  · intro t p hp hpcb
    have h1 := (h.assigned t p hp).1
    rw [hpcb, hb] at h1
    cases h1
  · rintro b' ⟨hu, -⟩
    refine ⟨Or.inl ?_, ?_⟩
    · rw [hb']
      exact some_ne_none b
    · intro ho
      -- a slot opened now was neither mapped nor evicted, so no thread has found it
      rcases hu with hu | hu
      · exact absurd hb hu
      · rw [hevi.mp hu] at ho
        exact ho.elim

theorem writeId (hl : s.handMtx = some ⟨o, b, .writeId fresh cb⟩) :
    Inv ({ s with cachedBlockId := Function.update s.cachedBlockId cb b }.setHand
      (some ⟨o, b, .storePin fresh cb⟩)) := by
  have hst : s.cacheStatus cb = .invalid ↔ fresh = true := h.hand _ hl
  have hb : s.blockOf cb = some b := by simp [State.blockOf, hl, Hand.entry]
  have hout := outstanding_next
    (t := { s with cachedBlockId := Function.update s.cachedBlockId cb b }.setHand
      (some ⟨o, b, .storePin fresh cb⟩)) hl rfl rfl cb
  have hb' : State.blockOf ({ s with cachedBlockId := Function.update s.cachedBlockId cb b }.setHand
      (some ⟨o, b, .storePin fresh cb⟩)) cb = some b := by
    simp [State.blockOf, State.setHand, Hand.entry]
  have hevi : s.Evicting cb ↔ fresh = false := by
    cases fresh <;> simp [State.Evicting, hl, Hand.Evicting]
  have hevi' : State.Evicting ({ s with cachedBlockId := Function.update s.cachedBlockId cb b
      }.setHand (some ⟨o, b, .storePin fresh cb⟩)) cb ↔ fresh = false := by
    cases fresh <;> simp [State.Evicting, State.setHand, Hand.Evicting]
  refine h.next hl rfl cb rfl ⟨rfl, rfl⟩ (Hand.off_of_slot rfl) (Hand.off_of_slot rfl)
    ?_ (fun _ _ _ => Iff.rfl) ?_ ?_ ?_ ?_ ?_ ⟨update_self _ _ _, hst⟩ ?_ id
  · intro i hi
    exact ⟨rfl, update_of_ne hi _ _, rfl⟩
  · intro b'
    rw [hb', ← hb]
    exact h.map b' cb
  · have hf := h.free
    simp only [State.taken, hl] at hf
    cases fresh <;> exact hf
  · intro he
    rw [show State.outstanding _ cb = s.outstanding cb from hout]
    exact h.pinned cb (mt (fun h1 => hevi'.mpr (hevi.mp h1)) he)
  · intro he
    rw [show State.outstanding _ cb = s.outstanding cb from hout]
    exact h.evicting cb (hevi.mpr (hevi'.mp he))
  · intro t p hp hpcb
    have h1 := (h.assigned t p hp).1
    rw [hpcb, hb] at h1
    refine ⟨?_, ?_⟩
    · rw [hpcb, hb', h1]
    · rw [hpcb]
      exact (update_self _ _ _).trans (Option.some.inj h1)
  · rintro b' ⟨-, hop⟩
    refine ⟨Or.inl ?_, ?_⟩
    · rw [hb']
      exact some_ne_none b
    · intro ho
      rw [hb', ← hb]
      refine hop ?_
      cases fresh
      · exact ho.elim
      · simp [State.Opening, hl, Hand.Opening]

theorem storePin (hl : s.handMtx = some ⟨o, b, .storePin fresh cb⟩)
    (h0 : fresh = true → s.cachePinnedCount cb = 0) :
    Inv ((s.setPinned cb 1).setHand (some ⟨o, b, .storeRef fresh cb⟩)) := by
  obtain ⟨hid, hst⟩ := h.hand _ hl
  have hb : s.blockOf cb = some b := by simp [State.blockOf, hl, Hand.entry]
  have hout := outstanding_next (t := (s.setPinned cb 1).setHand (some ⟨o, b, .storeRef fresh cb⟩))
    hl rfl rfl cb
  simp only [Hand.requests, onSlot_cons, onSlot_nil, Nat.add_zero] at hout
  have hzero : s.outstanding cb = 0 := by
    cases fresh with
    | false => exact (h.evicting cb (by simp [State.Evicting, hl, Hand.Evicting])).2
    | true =>
      have h1 := h.pinned cb (by simp [State.Evicting, hl, Hand.Evicting])
      rw [h0 rfl] at h1
      omega
  have hb' : ((s.setPinned cb 1).setHand (some ⟨o, b, .storeRef fresh cb⟩)).blockOf cb = some b := by
    simp [State.blockOf, State.setHand, Hand.entry]
  refine h.next_of_blockOf hl rfl cb rfl ⟨rfl, rfl⟩ (Hand.off_of_slot rfl) (Hand.off_of_slot rfl)
    ?_ rfl rfl (hb'.trans hb.symm) ?_ ?_ False.elim ⟨hid, hst⟩ (fun _ => Or.inl ?_) id id
  · intro i hi
    exact ⟨rfl, update_of_ne hi _ _⟩
  · have hf := h.free
    simp only [State.taken, hl] at hf
    cases fresh <;> exact hf
  · intro _
    rw [hout, hzero]
    exact update_self _ _ _
  · rw [hb']
    exact some_ne_none b

theorem storeStatus (hl : s.handMtx = some ⟨o, b, .storeStatus fresh cb⟩) :
    Inv ((s.setStatus cb .allocated).setHand (some ⟨o, b, .moveHand cb⟩)) := by
  obtain ⟨hid, hst⟩ := h.hand _ hl
  have hb : s.blockOf cb = some b := by simp [State.blockOf, hl, Hand.entry]
  have hev : ¬ s.Evicting cb := by simp [State.Evicting, hl, Hand.Evicting]
  have hout := outstanding_next (t := (s.setStatus cb .allocated).setHand
    (some ⟨o, b, .moveHand cb⟩)) hl rfl rfl cb
  have hb' : ((s.setStatus cb .allocated).setHand (some ⟨o, b, .moveHand cb⟩)).blockOf cb
      = some b := by
    simp [State.blockOf, State.setHand, State.setStatus, Hand.entry, State.settled, hid]
  have hstat : ((s.setStatus cb .allocated).setHand (some ⟨o, b, .moveHand cb⟩)).cacheStatus cb
      ≠ .invalid := by
    simp [State.setHand, State.setStatus]
  refine h.next_of_blockOf hl rfl cb rfl ⟨rfl, rfl⟩ (Hand.off_of_slot rfl) (Hand.off_of_slot rfl)
    ?_ rfl rfl (hb'.trans hb.symm) ?_ ?_ False.elim ⟨hid, hstat⟩ (fun he => absurd he hev) id
    (fun _ => hstat)
  · intro i hi
    exact ⟨update_of_ne hi _ _, rfl⟩
  · have hf := h.free
    simp only [State.taken, hl] at hf
    cases fresh with
    | false =>
      have hne : s.cacheStatus cb ≠ .invalid := fun h1 => Bool.false_ne_true (hst.mp h1)
      refine Eq.trans hf (congrArg Finset.card (filter_congr ?_))
      intro i _
      by_cases hi : i = cb
      · rw [hi]
        exact iff_of_false hne hstat
      · exact iff_of_eq (congrArg (· = Status.invalid) (update_of_ne hi _ _).symm)
    | true =>
      have hmem : cb ∈ univ.filter fun i => s.cacheStatus i = .invalid := by
        simp [hst.mpr rfl]
      have hset : (univ.filter fun i => Function.update s.cacheStatus cb .allocated i
          = .invalid) = (univ.filter fun i => s.cacheStatus i = .invalid).erase cb := by
        ext i
        by_cases hi : i = cb
        · simp [hi]
        · simp [hi]
      have hcard := card_erase_of_mem hmem
      rw [← hset] at hcard
      show s.numFreeBlocks + 0 = _
      have hf' : s.numFreeBlocks + 1 = _ := hf
      exact (by omega : s.numFreeBlocks + 0 = _ - 1).trans hcard.symm
  · intro _
    rw [show State.outstanding _ cb = s.outstanding cb from Nat.add_right_cancel hout]
    exact h.pinned cb hev

theorem move {l l' : Hand Θ n} (hl : s.handMtx = some l)
    (hown : l'.owner = l.owner ∧ l'.blockId = l.blockId) (hentry : l'.entry = l.entry)
    (hev : l'.Evicting = l.Evicting) (hop : l'.Opening = l.Opening) (htk : l'.taken = l.taken)
    (hreq : l'.requests = l.requests) (hok : HandOk s l'.blockId l'.pc) :
    Inv (s.setHand (some l')) := by
  refine h.setHand (some l') ?_ ?_ ?_ ?_ ?_ ?_ ?_
  · intro i
    rw [blockOf_setHand]
    simp [State.blockOf, hl, hentry]
  · intro i
    simp [State.Evicting, State.setHand, hl, hev]
  · intro i
    simp [State.Opening, State.setHand, hl, hop]
  · simp [State.taken, State.setHand, hl, htk]
  · simp [State.handRequests, State.setHand, hl, hreq]
  · rintro m ⟨⟩
    rw [hown.1, hown.2]
    exact h.owner l hl
  · rintro m ⟨⟩
    exact hok

theorem addRef (cb : Fin n) (d : ℤ) : Inv (s.addRef cb d) :=
  h.of_tables rfl rfl rfl (fun _ => Iff.rfl) rfl rfl rfl

theorem acquire {t : Θ} (hl : s.handMtx = none) (ht : (s.threads t).pc = .miss b) :
    Inv (s.setHand (some ⟨t, b, .lookup⟩)) := by
  refine h.setHand _ ?_ ?_ ?_ ?_ ?_ ?_ ?_
  · intro i
    rw [blockOf_setHand]
    simp [State.blockOf, hl, Hand.entry]
  · intro i
    simp [State.Evicting, State.setHand, hl, Hand.Evicting]
  · intro i
    simp [State.Opening, State.setHand, hl, Hand.Opening]
  · simp [State.taken, State.setHand, hl, Hand.taken]
  · simp [State.handRequests, State.setHand, hl, Hand.requests]
  · rintro m ⟨⟩
    exact ht
  · rintro m ⟨⟩
    trivial

theorem foundFree (hl : s.handMtx = some ⟨o, b, .scanFree cb⟩) (hst : s.cacheStatus cb = .invalid) :
    Inv (s.setHand (some ⟨o, b, .emplace true cb⟩)) := by
  refine h.setHand _ ?_ ?_ ?_ ?_ ?_ ?_ ?_
  · intro i
    rw [blockOf_setHand]
    by_cases hi : cb = i
    · subst hi
      simp [State.blockOf, State.settled, hl, Hand.entry, hst]
    · simp [State.blockOf, hl, Hand.entry, hi]
  · intro i
    simp [State.Evicting, State.setHand, hl, Hand.Evicting]
  · intro i
    simp [State.Opening, State.setHand, hl, Hand.Opening]
  · simp [State.taken, State.setHand, hl, Hand.taken]
  · simp [State.handRequests, State.setHand, hl, Hand.requests]
  · rintro m ⟨⟩
    exact h.owner ⟨o, b, .scanFree cb⟩ hl
  · rintro m ⟨⟩
    exact ⟨h.hand ⟨o, b, .scanFree cb⟩ hl, iff_of_true hst rfl⟩

end Inv

/-- The owner of `hand_mtx` fills a free slot before anyone else has pinned it. -/
def MissPc.NoRace (s : State Θ α n) : MissPc n → Prop
  | .fetchPin cb => s.cachePinnedCount cb < 2147483647
  | .storePin fresh cb => fresh = true → s.cachePinnedCount cb = 0
  | _ => True

/-- The compare-and-swap pins the slot of the block that was asked for. -/
def Pc.NoRace (s : State Θ α n) : Pc n → Prop
  | .swapPin b cb val => s.cachePinnedCount cb = val →
      s.cachedBlockId cb = b ∧ s.cachePinnedCount cb < 2147483647
  | .miss _ => ∀ l ∈ s.handMtx, l.pc.NoRace s
  | _ => True

def NoRace (s : State Θ α n) : Act Θ n → Prop
  | .run t => (s.threads t).pc.NoRace s
  | _ => True

instance (s : State Θ α n) (pc : MissPc n) : Decidable (pc.NoRace s) :=
  match pc with
  | .fetchPin cb => inferInstanceAs (Decidable (s.cachePinnedCount cb < 2147483647))
  | .storePin fresh cb => inferInstanceAs (Decidable (fresh = true → s.cachePinnedCount cb = 0))
  | .lookup | .fetchRef _ | .takeFree | .scanFree _ | .checkPinned _ | .dropRef _ | .swapEvict _
  | .erase _ | .emplace _ _ | .writeId _ _ | .storeRef _ _ | .storeStatus _ _ | .moveHand _ =>
    inferInstanceAs (Decidable True)

instance (s : State Θ α n) (pc : Pc n) : Decidable (pc.NoRace s) :=
  match pc with
  | .swapPin b cb val => inferInstanceAs (Decidable (s.cachePinnedCount cb = val →
      s.cachedBlockId cb = b ∧ s.cachePinnedCount cb < 2147483647))
  | .miss _ => inferInstanceAs (Decidable (∀ l ∈ s.handMtx, l.pc.NoRace s))
  | .idle | .lookup _ | .loadPin _ _ | .checkId _ _ _ | .recheckId _ _ _ | .fetchRef _ _
  | .getStatus _ _ | .getLock _ _ | .getRecheck _ _ | .getRead _ _ | .getFinish _ _
  | .getUnlock _ _ => inferInstanceAs (Decidable True)

instance (s : State Θ α n) (a : Act Θ n) : Decidable (NoRace s a) :=
  match a with
  | .run t => inferInstanceAs (Decidable ((s.threads t).pc.NoRace s))
  | .request _ _ | .get _ _ _ | .release _ _ _ => inferInstanceAs (Decidable True)

namespace Inv

variable [DecidableEq Θ] [NeZero n] {s : State Θ α n} (h : Inv s)
include h

theorem missStep {l : Hand Θ n} (hl : s.handMtx = some l)
    (hrace : l.pc.NoRace s) : Inv (missStep s l.owner l.blockId l.pc) := by
  obtain ⟨o, b, pc⟩ := l
  have hok := h.hand _ hl
  cases pc with
  | lookup =>
    unfold BlockCache.missStep
    cases hm : s.cachePhMap b with
    | some cb => exact h.move hl ⟨rfl, rfl⟩ rfl rfl rfl rfl rfl hm
    | none =>
      split_ifs with hn
      · exact h.move hl ⟨rfl, rfl⟩ rfl rfl rfl rfl rfl ⟨hm, hn⟩
      · exact h.move hl ⟨rfl, rfl⟩ rfl rfl rfl rfl rfl ⟨hm, Nat.eq_zero_of_not_pos hn⟩
  | fetchPin cb => exact h.fetchPin hl hrace
  | fetchRef cb => exact (h.addRef cb 1).giveOut hl cb (Or.inl rfl)
  | takeFree => exact h.takeFree hl
  | scanFree cb =>
    unfold BlockCache.missStep
    simp only
    split_ifs with hst
    · exact h.foundFree hl hst
    · exact h.move hl ⟨rfl, rfl⟩ rfl rfl rfl rfl rfl hok
  | checkPinned cb =>
    unfold BlockCache.missStep
    simp only
    split_ifs with h0
    · exact h.move hl ⟨rfl, rfl⟩ rfl rfl rfl rfl rfl hok
    · exact h.move hl ⟨rfl, rfl⟩ rfl rfl rfl rfl rfl hok
  | dropRef cb =>
    unfold BlockCache.missStep
    simp only
    split_ifs with h0
    · exact (h.addRef cb (-1)).move hl ⟨rfl, rfl⟩ rfl rfl rfl rfl rfl hok
    · exact (h.addRef cb (-1)).move hl ⟨rfl, rfl⟩ rfl rfl rfl rfl rfl hok
  | swapEvict cb =>
    unfold BlockCache.missStep
    simp only
    split_ifs with h0
    · exact h.swapEvict hl h0
    · exact h.move hl ⟨rfl, rfl⟩ rfl rfl rfl rfl rfl hok
  | erase cb => exact h.erase hl
  | emplace fresh cb => exact h.emplace hl
  | writeId fresh cb => exact h.writeId hl
  | storePin fresh cb => exact h.storePin hl hrace
  | storeRef fresh cb =>
    have h1 : Inv ({ s with cacheRefCount := Function.update s.cacheRefCount cb 1 }) :=
      h.of_tables rfl rfl rfl (fun _ => Iff.rfl) rfl rfl rfl
    refine h1.move hl ⟨rfl, rfl⟩ rfl ?_ ?_ ?_ rfl hok
    · cases fresh <;> rfl
    · cases fresh <;> rfl
    · cases fresh <;> rfl
  | storeStatus fresh cb => exact h.storeStatus hl
  | moveHand cb =>
    have h1 : Inv ({ s with clockHand := cb + 1 }) :=
      h.of_tables rfl rfl rfl (fun _ => Iff.rfl) rfl rfl rfl
    exact h1.giveOut hl cb (Or.inr rfl)

variable {t : Θ}

omit [NeZero n] [DecidableEq Θ] in
theorem owner_ne (hm : ∀ b, (s.threads t).pc ≠ .miss b) (l : Hand Θ n) (hl : s.handMtx = some l) :
    l.owner ≠ t := by
  rintro rfl
  exact hm _ (h.owner l hl)

omit [NeZero n] in
theorem setPc (pc : Pc n) (hm : ∀ b, (s.threads t).pc ≠ .miss b)
    (hreq : pc.requests = (s.threads t).pc.requests) (hp : PcOk s pc) : Inv (s.setPc t pc) := by
  have hth : (⟨pc, (s.threads t).held⟩ : Thread n).requests = (s.threads t).requests := by
    rw [Thread.requests, Thread.requests, hreq]
  refine h.setThread t ⟨pc, (s.threads t).held⟩ ?_ ?_ ?_ hp
  · intro l hl ht
    exact absurd ht (h.owner_ne hm l hl)
  · intro i
    rw [hth]
  · intro p hpm
    rw [hth] at hpm
    exact h.assigned t p hpm

variable {b : ℤ} {cb : Fin n}

omit [NeZero n] in
theorem swapPin {val : ℤ} (hpc : (s.threads t).pc = .swapPin b cb val)
    (hv : s.cachePinnedCount cb = val) (hid : s.cachedBlockId cb = b) (hlt : val < 2147483647) :
    Inv ((s.addPinned cb 1).setPc t (.recheckId b cb val)) := by
  have hok : PcOk s (.swapPin b cb val) := hpc ▸ h.pcs t
  have he : ¬ s.Evicting cb := fun he => hok.2 (hv ▸ (h.evicting cb he).1)
  have hpin := h.pinned cb he
  have hold : (s.threads t).requests = (s.threads t).held := by
    simp [Thread.requests, hpc, Pc.requests]
  have hnew : (⟨.recheckId b cb val, (s.threads t).held⟩ : Thread n).requests
      = (b, cb) :: (s.threads t).held := rfl
  refine h.setPinned t ⟨.recheckId b cb val, (s.threads t).held⟩ cb
    (wrap32 (s.cachePinnedCount cb + 1)) ?_ ?_ ?_ trivial he ?_
  · exact h.owner_ne fun b' hb' => by simp [hpc] at hb'
  · intro i hi
    rw [hold, hnew, onSlot_cons, if_neg (Ne.symm hi), Nat.add_zero]
  · intro p hp
    rw [hnew, List.mem_cons] at hp
    rcases hp with rfl | hp
    · exact h.assigned_of_found hok.1 he hid
    · exact h.assigned t p (hold ▸ hp)
  · rw [hold, hnew, onSlot_cons, if_pos rfl, wrap32_of_lt (by omega) (by omega)]
    push_cast
    ring

omit [NeZero n] in
theorem fetchRef (hpc : (s.threads t).pc = .fetchRef b cb) : Inv (s.giveOut t b cb) := by
  have hreq : (s.threads t).requests = (b, cb) :: (s.threads t).held := by
    simp [Thread.requests, hpc, Pc.requests]
  refine h.setThread t ⟨.idle, (b, cb) :: (s.threads t).held⟩ ?_ ?_ ?_ trivial
  · intro l hl ht
    exact absurd ht (h.owner_ne (fun b' hb' => by simp [hpc] at hb') l hl)
  · intro i
    rw [hreq]
    rfl
  · intro p hp
    exact h.assigned t p (hreq ▸ hp)

omit [NeZero n] [DecidableEq Θ] in
theorem pinned_of_held (hmem : (b, cb) ∈ (s.threads t).held) :
    ¬ s.Evicting cb ∧ 0 < s.cachePinnedCount cb := by
  have h1 : 0 < onSlot cb (s.threads t).requests :=
    onSlot_pos.mpr ⟨(b, cb), List.mem_append_right _ hmem, rfl⟩
  have h2 := onSlot_le_outstanding s t cb
  have he : ¬ s.Evicting cb := by
    intro he
    have h3 := (h.evicting cb he).2
    omega
  refine ⟨he, ?_⟩
  rw [h.pinned cb he]
  omega

omit [NeZero n] in
theorem release (hpc : (s.threads t).pc = .idle) (hmem : (b, cb) ∈ (s.threads t).held)
    (hlt : s.cachePinnedCount cb < 2147483648) : Inv (releaseCacheBlock s t b cb) := by
  obtain ⟨he, hpos⟩ := h.pinned_of_held hmem
  have hold : (s.threads t).requests = (s.threads t).held := by
    simp [Thread.requests, hpc, Pc.requests]
  have hnew : (⟨.idle, (s.threads t).held.erase (b, cb)⟩ : Thread n).requests
      = (s.threads t).held.erase (b, cb) := rfl
  have hers := onSlot_erase hmem
  have h1 := h.setPinned t ⟨.idle, (s.threads t).held.erase (b, cb)⟩ cb
    (wrap32 (s.cachePinnedCount cb + -1)) (h.owner_ne fun b' hb' => by simp [hpc] at hb') ?_ ?_
    trivial he ?_
  · exact h1.of_tables rfl rfl rfl (fun _ => Iff.rfl) rfl rfl rfl
  · intro i hi
    have h2 := hers i
    rw [if_neg (Ne.symm hi)] at h2
    rw [hold]
    exact h2
  · intro p hp
    exact h.assigned t p (hold ▸ List.mem_of_mem_erase hp)
  · have h2 := hers cb
    rw [if_pos rfl] at h2
    rw [hold, hnew, wrap32_of_lt (by omega) (by omega)]
    omega

theorem runStep {readBlock : ℤ → α} {s' : State Θ α n} (hok : (s.threads t).pc.NoRace s)
    (hs : runStep readBlock s t = some s') : Inv s' := by
  unfold BlockCache.runStep at hs
  have hp := h.pcs t
  cases hpc : (s.threads t).pc with
  | idle => simp [hpc] at hs
  | lookup b =>
    simp only [hpc] at hs
    have hm : ∀ b, (s.threads t).pc ≠ .miss b := by simp [hpc]
    cases hmap : s.cachePhMap b with
    | none =>
      simp only [hmap, Option.some.injEq] at hs
      subst hs
      exact h.setPc (.miss b) hm (by rw [hpc]; rfl) trivial
    | some cb =>
      simp only [hmap, Option.some.injEq] at hs
      subst hs
      have hb : s.blockOf cb = some b := (h.map b cb).mp hmap
      refine h.setPc (.loadPin b cb) hm (by rw [hpc]; rfl) ⟨Or.inl ?_, fun _ => hb⟩
      rw [hb]
      exact some_ne_none b
  | loadPin b cb =>
    simp only [hpc, Option.some.injEq] at hs hp
    subst hs
    exact h.setPc (.checkId b cb _) (by simp [hpc]) (by rw [hpc]; rfl) hp
  | checkId b cb val =>
    simp only [hpc] at hs hp
    split_ifs at hs with hv
    · cases hs
      exact h.setPc (.miss b) (by simp [hpc]) (by rw [hpc]; rfl) trivial
    · cases hs
      push Not at hv
      exact h.setPc (.swapPin b cb val) (by simp [hpc]) (by rw [hpc]; rfl) ⟨hp, hv.1⟩
  | swapPin b cb val =>
    simp only [hpc] at hs hp
    rw [hpc] at hok
    split_ifs at hs with hv
    · cases hs
      obtain ⟨hid, hlt⟩ := hok hv
      exact h.swapPin hpc hv hid (hv ▸ hlt)
    · cases hs
      exact h.setPc (.checkId b cb _) (by simp [hpc]) (by rw [hpc]; rfl) hp.1
  | recheckId b cb val =>
    simp only [hpc] at hs
    have hreq : (b, cb) ∈ (s.threads t).requests := by
      simp [Thread.requests, hpc, Pc.requests]
    rw [if_pos (h.assigned t _ hreq).2] at hs
    cases hs
    exact h.setPc (.fetchRef b cb) (by simp [hpc]) (by rw [hpc]; rfl) trivial
  | fetchRef b cb =>
    simp only [hpc, Option.some.injEq] at hs
    subst hs
    exact (h.addRef cb 1).fetchRef hpc
  | miss b =>
    simp only [hpc] at hs
    rw [hpc] at hok
    cases hl : s.handMtx with
    | none =>
      simp only [hl, Option.some.injEq] at hs
      subst hs
      exact h.acquire hl hpc
    | some l =>
      simp only [hl] at hs
      split_ifs at hs with ho
      cases hs
      rw [← ho]
      exact h.missStep hl (hok l hl)
  | getStatus b cb =>
    simp only [hpc] at hs
    split_ifs at hs <;> cases hs
    · exact h.setPc (.getLock b cb) (by simp [hpc]) (by rw [hpc]; rfl) trivial
    · exact h.setPc .idle (by simp [hpc]) (by rw [hpc]; rfl) trivial
  | getLock b cb =>
    simp only [hpc] at hs
    split_ifs at hs
    cases hs
    have h1 := h.setPc (t := t) (.getRecheck b cb) (by simp [hpc]) (by rw [hpc]; rfl) trivial
    exact h1.of_tables rfl rfl rfl (fun _ => Iff.rfl) rfl rfl rfl
  | getRecheck b cb =>
    simp only [hpc] at hs
    split_ifs at hs with hst <;> cases hs
    · refine h.setPc (.getRead b cb) (by simp [hpc]) (by rw [hpc]; rfl) ?_
      simp [PcOk, hst]
    · exact h.setPc (.getUnlock b cb) (by simp [hpc]) (by rw [hpc]; rfl) trivial
  | getRead b cb =>
    simp only [hpc, Option.some.injEq] at hs hp
    subst hs
    have h1 := h.setPc (t := t) (.getFinish b cb) (by simp [hpc]) (by rw [hpc]; rfl) hp
    exact h1.of_tables rfl rfl rfl (fun _ => Iff.rfl) rfl rfl rfl
  | getFinish b cb =>
    simp only [hpc, Option.some.injEq] at hs hp
    subst hs
    have h1 := h.setPc (t := t) (.getUnlock b cb) (by simp [hpc]) (by rw [hpc]; rfl) trivial
    refine h1.of_tables rfl rfl rfl ?_ rfl rfl rfl
    intro i
    show Function.update s.cacheStatus cb .finished i = .invalid ↔ s.cacheStatus i = .invalid
    by_cases hi : i = cb
    · rw [hi]
      exact iff_of_false (by simp) hp
    · rw [update_of_ne hi]
  | getUnlock b cb =>
    simp only [hpc, Option.some.injEq] at hs
    subst hs
    have h1 := h.setPc (t := t) .idle (by simp [hpc]) (by rw [hpc]; rfl) trivial
    exact h1.of_tables rfl rfl rfl (fun _ => Iff.rfl) rfl rfl rfl

end Inv

theorem wrap32_lt (x : ℤ) : wrap32 x < 2147483648 := by
  unfold wrap32 Int.bmod
  simp only
  omega

/-- Every pin count is an `int`. -/
def Bounded (s : State Θ α n) : Prop := ∀ i, s.cachePinnedCount i < 2147483648

omit [Fintype Θ] in
theorem Bounded.update {s : State Θ α n} (h : Bounded s) (cb : Fin n) {val : ℤ}
    (hval : val < 2147483648) (i : Fin n) :
    Function.update s.cachePinnedCount cb val i < 2147483648 := by
  by_cases hi : i = cb
  · rw [hi, update_self]
    exact hval
  · rw [update_of_ne hi]
    exact h i

section Step

variable [DecidableEq Θ] [NeZero n] {readBlock : ℤ → α} {s s' : State Θ α n}

section

omit [Fintype Θ]

theorem Bounded.missStep (h : Bounded s) (t : Θ) (b : ℤ) (pc : MissPc n) :
    Bounded (missStep s t b pc) := by
  cases pc with
  | fetchPin cb => exact fun i => h.update cb (wrap32_lt _) i
  | storePin fresh cb => exact fun i => h.update cb (by norm_num) i
  | swapEvict cb =>
    unfold BlockCache.missStep
    simp only
    split_ifs
    · exact fun i => h.update cb (by norm_num) i
    · exact h
  | lookup =>
    unfold BlockCache.missStep
    cases s.cachePhMap b with
    | some cb => exact h
    | none =>
      split_ifs <;> exact h
  | scanFree cb =>
    unfold BlockCache.missStep
    simp only
    split_ifs <;> exact h
  | checkPinned cb =>
    unfold BlockCache.missStep
    simp only
    split_ifs <;> exact h
  | dropRef cb =>
    unfold BlockCache.missStep
    simp only
    split_ifs <;> exact h
  | _ => exact h

theorem Bounded.runStep {t : Θ} (h : Bounded s) (hs : runStep readBlock s t = some s') :
    Bounded s' := by
  unfold BlockCache.runStep at hs
  cases hpc : (s.threads t).pc with
  | swapPin b cb val =>
    simp only [hpc] at hs
    split_ifs at hs <;> cases hs
    · exact fun i => h.update cb (wrap32_lt _) i
    · exact h
  | lookup b =>
    simp only [hpc] at hs
    cases hm : s.cachePhMap b <;> simp only [hm, Option.some.injEq] at hs <;> subst hs <;> exact h
  | miss b =>
    simp only [hpc] at hs
    cases hl : s.handMtx with
    | none =>
      simp only [hl, Option.some.injEq] at hs
      subst hs
      exact h
    | some l =>
      simp only [hl] at hs
      split_ifs at hs
      cases hs
      exact h.missStep t l.blockId l.pc
  | idle => simp [hpc] at hs
  | _ =>
    simp only [hpc, Option.some.injEq] at hs
    first
    | (subst hs; exact h)
    | (split_ifs at hs <;> cases hs <;> exact h)

theorem Bounded.step {a : Act Θ n} (h : Bounded s) (hs : step readBlock s a = some s') :
    Bounded s' := by
  unfold BlockCache.step at hs
  split_ifs at hs
  cases a with
  | run t => exact h.runStep hs
  | release t b cb =>
    simp only at hs
    split_ifs at hs
    cases hs
    exact fun i => h.update cb (wrap32_lt _) i
  | request t b =>
    simp only at hs
    split_ifs at hs
    cases hs
    exact h
  | get t b cb =>
    simp only at hs
    split_ifs at hs
    cases hs
    exact h

end

theorem Inv.step {a : Act Θ n} (h : Inv s) (hb : Bounded s) (hok : NoRace s a)
    (hs : step readBlock s a = some s') : Inv s' := by
  unfold BlockCache.step at hs
  split_ifs at hs
  cases a with
  | run t => exact h.runStep hok hs
  | request t b =>
    simp only at hs
    split_ifs at hs with hpc
    cases hs
    exact h.setPc (.lookup b) (by simp [hpc]) (by rw [hpc]; rfl) trivial
  | get t b cb =>
    simp only at hs
    split_ifs at hs with hpc
    cases hs
    exact h.setPc (.getStatus b cb) (by simp [hpc]) (by rw [hpc.1]; rfl) trivial
  | release t b cb =>
    simp only at hs
    split_ifs at hs with hpc
    cases hs
    exact h.release hpc.1 hpc.2 (hb cb)

omit [DecidableEq Θ] in
theorem inv_clear (block : Fin n → α) : Inv (State.clear block : State Θ α n) := by
  have hout : ∀ i, (State.clear block : State Θ α n).outstanding i = 0 := by
    simp [State.outstanding, State.clear, State.handRequests, Thread.requests, Pc.requests]
  refine ⟨?_, ?_, ?_, ?_, ?_, ?_, ?_, ?_⟩
  · rintro l ⟨⟩
  · intro b i
    simp [State.clear, State.blockOf, State.settled]
  · simp [State.clear, State.taken]
  · intro i _
    rw [hout]
    rfl
  · intro i hi
    exact hi.elim
  · intro t p hp
    simp [State.clear, Thread.requests, Pc.requests] at hp
  · rintro l ⟨⟩
  · intro t
    trivial

theorem inv_of_reach (h : Reach Init (guarded NoRace (ofFn (BlockCache.step readBlock))) s) :
    Inv s ∧ Bounded s := by
  refine h.invariant (P := fun s => Inv s ∧ Bounded s) ?_ ?_
  · rintro s ⟨block, rfl⟩
    exact ⟨inv_clear block, fun i => by simp [State.clear]⟩
  · rintro s a s' ⟨hi, hb⟩ ⟨hok, hs⟩
    exact ⟨hi.step hb hok hs, hb.step hs⟩

end Step

end DiskANNEval.DGAI.BlockCache
