import DiskANNEval.AiSAQ.FilteredRuns

/-!
# InsertAtomic — what a failed `insert_point` leaves behind

A filtered insert writes the labels of the slot and registers new labels before it looks at the tag,
and gives the slot back without taking this back; and the exception for want of a frozen point does not
even give the slot back.  So a failure leaves the index as it was exactly when there was nothing to
write (`insertPoint_unchanged_iff`).
-/

namespace DiskANNEval.AiSAQ

open Lib

variable {Vec Tag Label D : Type} [LinearOrder Label]

namespace FilteredIndex

variable [DecidableEq Tag] [Zero Tag] {cfg : FilterConfig Vec D}
  {s s' : FilteredIndex Vec Tag Label} {point : Vec} {tag : Tag} {labels : List Label} {k fuel : ℕ}
  {out : Outcome Tag}

omit [DecidableEq Tag] [Zero Tag] in
theorem registerLabels_reserved {e : NaturalNumberSet} (h : ∀ label ∈ labels, label ∈ s.labels) :
    registerLabels cfg point labels (reserved cfg labels k e s) =
      some (none, reserved cfg labels k e s) :=
  registerLabels_of_known h

omit [LinearOrder Label] [DecidableEq Tag] [Zero Tag] in
theorem givenBack_eq_self_iff {e : NaturalNumberSet} (hf : cfg.filteredIndex = true)
    (hk : k < s.locationToLabels.length) :
    ({ reserved cfg labels k e s with toIndex := { (reserved cfg labels k e s).toIndex with
        emptySlots := s.emptySlots, nd := s.nd } } : FilteredIndex Vec Tag Label) = s ↔
      s.locationToLabels[k]? = some labels := by
  have hset : ({ reserved cfg labels k e s with toIndex := { (reserved cfg labels k e s).toIndex with
      emptySlots := s.emptySlots, nd := s.nd } } : FilteredIndex Vec Tag Label) =
        { s with locationToLabels := s.locationToLabels.set k labels } := by
    rw [reserved, if_pos hf]
  rw [hset]
  constructor
  · intro heq
    have hlabels : s.locationToLabels.set k labels = s.locationToLabels :=
      congrArg FilteredIndex.locationToLabels heq
    rw [← hlabels, List.getElem?_set_self hk]
  · intro hget
    obtain ⟨hlt, rfl⟩ := List.getElem?_eq_some_iff.1 hget
    rw [List.set_getElem_self]

/-- When `insert_point` fails the index is as before if there was nothing to write: no labels are
used, or the tag or the labels are refused at once, or no label is new and the slot that was reserved
still had these labels. -/
theorem insertPoint_unchanged_iff (h : Reachable cfg s)
    (hi : s.insertPoint cfg point tag labels fuel = some (out, s')) (hout : out.failed = true) :
    s' = s ↔ cfg.filteredIndex = false ∨ tag = 0 ∨ labels = [] ∨
      (∀ label ∈ labels, label ∈ s.labels) ∧
        ∀ k e, s.emptySlots.popAny = some (k, e) → s.locationToLabels[k]? = some labels := by
  obtain ⟨⟨held, hslots⟩, hlen, hstart⟩ := Inv.of_reachable h
  cases insertResult hslots hstart hi with
  | unchanged hout hc =>
    apply iff_of_true rfl
    tauto
  | noFrozenPoint hf h0 hl hpop hreg =>
    refine iff_of_false ?_ ?_
    · -- the slot is still reserved
      rintro rfl
      have hnd := congrArg Index.nd (registered_registerLabels hreg).toIndex_eq
      exact absurd hnd (Nat.succ_ne_self _).symm
    · rintro (hf' | h0' | hl' | ⟨hknown, -⟩)
      · rw [hf] at hf'
        cases hf'
      · exact h0 h0'
      · exact hl hl'
      · rw [registerLabels_reserved hknown] at hreg
        cases hreg
  | @tagTaken k e s1 hf h0 hl hpop hreg ht =>
    have hmem : k ∈ s.emptySlots.valuesVector := by
      rw [(hslots.emptyOk.popAny hpop).2]
      exact List.mem_cons_self
    have hk : k < s.locationToLabels.length := by
      rw [hlen hf]
      exact (hslots.empty_lt k hmem).trans_le (Nat.le_add_right _ _)
    by_cases hknown : ∀ label ∈ labels, label ∈ s.labels
    · rw [registerLabels_reserved hknown] at hreg
      cases hreg
      rw [givenBack_eq_self_iff hf hk]
      constructor
      · intro hget
        refine Or.inr (Or.inr (Or.inr ⟨hknown, ?_⟩))
        intro k' e' hpop'
        rw [hpop] at hpop'
        cases hpop'
        exact hget
      · rintro (hf' | h0' | hl' | ⟨-, hget⟩)
        · rw [hf] at hf'
          cases hf'
        · exact absurd h0' h0
        · exact absurd hl' hl
        · exact hget k e hpop
    · refine iff_of_false ?_ ?_
      · -- a new label has taken a frozen point
        intro heq
        push Not at hknown
        rcases used_lt_of_new hreg hknown with hlt | hmsg
        · have hused := congrArg FilteredIndex.frozenPtsUsed heq
          exact absurd hused hlt.ne'
        · cases hmsg
      · rintro (hf' | h0' | hl' | ⟨hknown', -⟩)
        · rw [hf] at hf'
          cases hf'
        · exact h0 h0'
        · exact hl hl'
        · exact hknown hknown'
  | inserted h0 hpop hreg ht hm => cases hout

/-- A second point without labels is refused, and the index is as before. -/
theorem insertPoint_unchanged_noLabels : ∃ s s' : FilteredIndex ℕ ℕ ℕ, ∃ out : Outcome ℕ,
    s.nd = 1 ∧ s.insertPoint labelConfig 8 6 [] 20 = some (out, s') ∧ out.failed = true ∧ s' = s := by
  have h : ((init labelConfig id false 0 : FilteredIndex ℕ ℕ ℕ).insertPoint labelConfig 7 5 [1] 20).map
      (fun r => (r.2.nd, (r.2.insertPoint labelConfig 8 6 [] 20).map fun r' => r'.1.failed)) =
        some (1, some true) := by decide +kernel
  obtain ⟨⟨out, s⟩, hs, hv⟩ := Option.map_eq_some_iff.1 h
  obtain ⟨hnd, hv⟩ := Prod.mk.inj hv
  obtain ⟨⟨out', s'⟩, hi, hout⟩ := Option.map_eq_some_iff.1 hv
  have hr : Reachable labelConfig s :=
    .next (a := .insertPoint 7 5 [1] 20) (.start ⟨id, false, 0, rfl⟩) ⟨out, hs⟩
  exact ⟨s, s', out', hnd, hi, hout,
    (insertPoint_unchanged_iff hr hi hout).2 (Or.inr (Or.inr (Or.inl rfl)))⟩

/-- A second point with a second label: the exception leaves its slot reserved. -/
theorem insertPoint_keeps_slot : ∃ s s' : FilteredIndex ℕ ℕ ℕ, ∃ out : Outcome ℕ,
    Reachable labelConfig s ∧ s.insertPoint labelConfig 8 6 [2] 20 = some (out, s') ∧
      out.failed = true ∧ s.nd = 1 ∧ s'.nd = 2 ∧ s'.tagToLocation.lookup 6 = none := by
  have h : ((init labelConfig id false 0 : FilteredIndex ℕ ℕ ℕ).insertPoint labelConfig 7 5 [1] 20).map
      (fun r => (r.2.nd, (r.2.insertPoint labelConfig 8 6 [2] 20).map fun r' =>
        (r'.1.failed, r'.2.nd, r'.2.tagToLocation.lookup 6))) = some (1, some (true, 2, none)) := by
    decide +kernel
  obtain ⟨⟨out, s⟩, hs, hv⟩ := Option.map_eq_some_iff.1 h
  obtain ⟨hnd, hv⟩ := Prod.mk.inj hv
  obtain ⟨⟨out', s'⟩, hi, hv⟩ := Option.map_eq_some_iff.1 hv
  simp only [Prod.mk.injEq] at hv
  have hr : Reachable labelConfig s :=
    .next (a := .insertPoint 7 5 [1] 20) (.start ⟨id, false, 0, rfl⟩) ⟨out, hs⟩
  exact ⟨s, s', out', hr, hi, hv.1, hnd, hv.2.1, hv.2.2⟩

end FilteredIndex

end DiskANNEval.AiSAQ
