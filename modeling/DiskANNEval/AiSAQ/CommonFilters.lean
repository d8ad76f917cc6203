import DiskANNEval.AiSAQ.FilteredRuns

/-!
# CommonFilters — whether a point is found under its labels

`insert_point` stores the labels of a point as they are given, `detect_common_filters` walks them as a
sorted range.  In every run of inserts the labels of a point are still stored as they were given, so a
filter label finds the point unless a larger label was given before it
(`detectCommonFilters_correct_iff`).
-/

namespace DiskANNEval.AiSAQ

open Lib List

variable {Vec Tag Label D : Type} [LinearOrder Label]

namespace FilteredIndex

/-! ### One label among others -/

/-- No label that is not smaller stands before the first `f`. -/
def ComesFirst (f : Label) (labels : List Label) : Prop :=
  ∃ pre post, labels = pre ++ f :: post ∧ ∀ x ∈ pre, x < f

theorem head?_dropWhile_iff (f : Label) (labels : List Label) :
    (labels.dropWhile (· < f)).head? = some f ↔ ComesFirst f labels := by
  constructor
  · intro h
    obtain ⟨post, hpost⟩ := head?_eq_some_iff.1 h
    refine ⟨labels.takeWhile (· < f), post, ?_, ?_⟩
    · rw [← hpost, takeWhile_append_dropWhile]
    · intro x hx
      simpa using mem_takeWhile_imp hx
  · rintro ⟨pre, post, rfl, hpre⟩
    rw [dropWhile_append_of_pos fun x hx => decide_eq_true (hpre x hx),
      dropWhile_cons_of_neg (by simp)]
    rfl

variable {labels : List Label}

theorem ComesFirst.mem {f : Label} (h : ComesFirst f labels) : f ∈ labels := by
  obtain ⟨pre, post, rfl, -⟩ := h
  exact mem_append_right _ mem_cons_self

theorem commonFilters_singleton (universal : Option Label) (f : Label) (labels : List Label) :
    Filtered.commonFilters universal true [f] labels = true ↔
      ComesFirst f labels ∨ ∃ u ∈ labels, universal = some u := by
  unfold Filtered.commonFilters
  rw [← head?_dropWhile_iff, ← Filtered.setIntersection_singleton]
  by_cases hpos : 0 < (Filtered.setIntersection [f] labels).length
  · rw [if_pos hpos]
    exact iff_of_true rfl (Or.inl hpos)
  · rw [if_neg hpos]
    cases universal with
    | none => simp [hpos]
    | some u => simp [hpos]

/-! ### Runs of inserts -/

variable [DecidableEq Tag] [Zero Tag]

/-- One `insert_point`, on the index and the list of the points inserted so far. -/
def insertStep (cfg : FilterConfig Vec D) (st : FilteredIndex Vec Tag Label × List (Tag × List Label))
    (a : Vec × Tag × List Label × ℕ) (st' : FilteredIndex Vec Tag Label × List (Tag × List Label)) :
    Prop :=
  ∃ out, st.1.insertPoint cfg a.1 a.2.1 a.2.2.1 a.2.2.2 = some (out, st'.1) ∧
    st'.2 = if out.failed then st.2 else (a.2.1, a.2.2.1) :: st.2

/-- The states after any number of `insert_point`s on a new index. -/
def InsertRun (cfg : FilterConfig Vec D) :
    FilteredIndex Vec Tag Label × List (Tag × List Label) → Prop :=
  Reach (fun st => (∃ points useUniversal universal,
    st.1 = init cfg points useUniversal universal) ∧ st.2 = []) (insertStep cfg)

variable {cfg : FilterConfig Vec D} {s s' : FilteredIndex Vec Tag Label}
  {log log' : List (Tag × List Label)}

/-- The labels of every inserted point are stored as they were given. -/
def Stored (s : FilteredIndex Vec Tag Label) (log : List (Tag × List Label)) : Prop :=
  ∀ tag labels, (tag, labels) ∈ log →
    ∃ p, s.tagToLocation.lookup tag = some p ∧ s.locationToLabels[p]? = some labels

omit [LinearOrder Label] [DecidableEq Tag] [Zero Tag] in
theorem getElem?_reserved {k j : ℕ} {e : NaturalNumberSet} (hjk : j ≠ k) :
    (reserved cfg labels k e s).locationToLabels[j]? = s.locationToLabels[j]? := by
  show (if _ then _ else _ : List (List Label))[j]? = _
  split_ifs
  · exact getElem?_set_ne (Ne.symm hjk)
  · rfl

theorem Registered.labels_live {held : Finset ℕ} (h : Index.Slots cfg.toConfig held s.toIndex)
    {k : ℕ} {e : NaturalNumberSet} {s1 : FilteredIndex Vec Tag Label}
    (hpop : s.emptySlots.popAny = some (k, e))
    (hreg : Registered cfg (reserved cfg labels k e s) s1) {tag : Tag} {p : ℕ}
    (hp : s.tagToLocation.lookup tag = some p) :
    s1.locationToLabels[p]? = s.locationToLabels[p]? := by
  have hl : s.toIndex.Live p := (Index.live_iff _ _).2 ⟨tag, (h.inverse tag p).1 hp⟩
  have hempty : k ∈ s.emptySlots.valuesVector := by
    rw [(h.emptyOk.popAny hpop).2]
    exact mem_cons_self
  have hpk : p ≠ k := by
    rintro rfl
    exact (h.live_free p hl).2 hempty
  rw [hreg.labels_eq p (h.live_lt p hl), getElem?_reserved hpk]

theorem Stored.step (hf : cfg.filteredIndex = true) (hinv : Inv cfg s) (h : Stored s log)
    {a : Vec × Tag × List Label × ℕ} (hstep : insertStep cfg (s, log) a (s', log')) :
    Stored s' log' := by
  obtain ⟨point, tag, labels, fuel⟩ := a
  obtain ⟨out, hi, hlog⟩ := hstep
  obtain ⟨⟨held, hslots⟩, hlen, hstart⟩ := hinv
  dsimp only at hi hlog
  cases insertResult hslots hstart hi with
  | unchanged hout hc =>
    rw [hlog, if_pos hout]
    exact h
  | noFrozenPoint hf' h0 hl hpop hreg =>
    rw [hlog]
    intro t ls hmem
    obtain ⟨p, hp, hls⟩ := h t ls hmem
    have hr := registered_registerLabels hreg
    refine ⟨p, ?_, ?_⟩
    · show s'.toIndex.tagToLocation.lookup t = some p
      rw [hr.toIndex_eq]
      exact hp
    · rw [hr.labels_live hslots hpop hp, hls]
  | @tagTaken k e s1 hf' h0 hl hpop hreg ht =>
    rw [hlog]
    intro t ls hmem
    obtain ⟨p, hp, hls⟩ := h t ls hmem
    have hr := registered_registerLabels hreg
    refine ⟨p, ?_, ?_⟩
    · show s1.tagToLocation.lookup t = some p
      rw [hr.toIndex_eq]
      exact hp
    · rw [hr.labels_live hslots hpop hp, hls]
  | @inserted k e s1 graph m h0 hpop hreg ht hm =>
    rw [hlog]
    have htags : s1.tagToLocation = s.tagToLocation := by
      rw [hreg.toIndex_eq]
      rfl
    intro t ls hmem
    show ∃ p, (s1.tagToLocation.insert tag k).lookup t = some p ∧ s1.locationToLabels[p]? = some ls
    rw [htags]
    rcases mem_cons.1 hmem with heq | hmem
    · cases heq
      have hk : k < cfg.maxPoints := hslots.empty_lt k (by
        rw [(hslots.emptyOk.popAny hpop).2]
        exact mem_cons_self)
      refine ⟨k, AList.lookup_insert _, ?_⟩
      rw [hreg.labels_eq k hk, reserved, if_pos hf]
      apply getElem?_set_self
      rw [hlen hf]
      exact hk.trans_le (Nat.le_add_right _ _)
    · obtain ⟨p, hp, hls⟩ := h t ls hmem
      have hne : t ≠ tag := by
        rintro rfl
        rw [ht] at hp
        cases hp
      exact ⟨p, by rw [AList.lookup_insert_ne hne, hp], by
        rw [hreg.labels_live hslots hpop hp, hls]⟩

theorem inv_stored (hf : cfg.filteredIndex = true)
    {st : FilteredIndex Vec Tag Label × List (Tag × List Label)} (h : InsertRun cfg st) :
    Inv cfg st.1 ∧ Stored st.1 st.2 := by
  refine Reach.invariant (P := fun st => Inv cfg st.1 ∧ Stored st.1 st.2) ?_ ?_ h
  · rintro ⟨s, log⟩ ⟨⟨points, useUniversal, universal, hs⟩, hlog⟩
    rw [hs, hlog]
    exact ⟨Inv.init points useUniversal universal, fun t ls hmem => absurd hmem not_mem_nil⟩
  · rintro ⟨s, log⟩ a ⟨s', log'⟩ ⟨hinv, hst⟩ hstep
    refine ⟨?_, hst.step hf hinv hstep⟩
    obtain ⟨out, hi, -⟩ := hstep
    exact hinv.insertPoint hi

/-- A filter label finds a point as the labels that it was inserted with say, exactly when the label
was not among them, or no larger label was given before it, or the universal label was among them. -/
theorem detectCommonFilters_correct_iff (hf : cfg.filteredIndex = true) (h : InsertRun cfg (s, log))
    {tag : Tag} {labels : List Label} (hmem : (tag, labels) ∈ log) :
    ∃ p, s.tagToLocation.lookup tag = some p ∧ ∀ f,
      ((s.detectCommonFilters p true [f] = some true ↔
          f ∈ labels ∨ ∃ u ∈ labels, s.universal = some u) ↔
        (f ∈ labels → ComesFirst f labels ∨ ∃ u ∈ labels, s.universal = some u)) := by
  obtain ⟨p, hp, hls⟩ := (inv_stored hf h).2 tag labels hmem
  refine ⟨p, hp, ?_⟩
  intro f
  have hdetect : s.detectCommonFilters p true [f] = some true ↔
      ComesFirst f labels ∨ ∃ u ∈ labels, s.universal = some u := by
    unfold detectCommonFilters
    rw [hls, Option.map_some, Option.some.injEq, commonFilters_singleton]
  rw [hdetect]
  constructor
  · intro hiff hfl
    exact hiff.2 (Or.inl hfl)
  · intro himp
    constructor
    · rintro (hfirst | hu)
      · exact Or.inl hfirst.mem
      · exact Or.inr hu
    · rintro (hfl | hu)
      · exact himp hfl
      · exact Or.inr hu

/-- A point inserted with the labels `2` and `1`, in this order, and what the two labels find. -/
theorem insertRun_two_one : ∃ s : FilteredIndex ℕ ℕ ℕ, InsertRun twoLabelConfig (s, [(5, [2, 1])]) ∧
    s.tagToLocation.lookup 5 = some 1 ∧ s.universal = none ∧
      s.detectCommonFilters 1 true [2] = some true ∧
        s.detectCommonFilters 1 true [1] = some false := by
  have h : ((init twoLabelConfig id false 0 : FilteredIndex ℕ ℕ ℕ).insertPoint twoLabelConfig 7 5
      [2, 1] 20).map (fun r => (r.1.failed, r.2.tagToLocation.lookup 5, r.2.universal,
        r.2.detectCommonFilters 1 true [2], r.2.detectCommonFilters 1 true [1])) =
          some (false, some 1, none, some true, some false) := by decide +kernel
  obtain ⟨⟨out, s⟩, hi, hv⟩ := Option.map_eq_some_iff.1 h
  simp only [Prod.mk.injEq] at hv
  have hstep : insertStep twoLabelConfig (init twoLabelConfig id false 0, []) (7, 5, [2, 1], 20)
      (s, [(5, [2, 1])]) := by
    refine ⟨out, hi, ?_⟩
    rw [hv.1]
    rfl
  exact ⟨s, .next (.start ⟨⟨id, false, 0, rfl⟩, rfl⟩) hstep, hv.2⟩

/-- The point with the labels `2` and `1`: the label `2` finds it. -/
theorem detectCommonFilters_correct_first : ∃ s : FilteredIndex ℕ ℕ ℕ, ∃ p,
    InsertRun twoLabelConfig (s, [(5, [2, 1])]) ∧ s.tagToLocation.lookup 5 = some p ∧
      s.detectCommonFilters p true [2] = some true := by
  obtain ⟨s, hrun, -⟩ := insertRun_two_one
  obtain ⟨p, hp, hcorrect⟩ := detectCommonFilters_correct_iff rfl hrun mem_cons_self
  have hfirst : ComesFirst 2 [2, 1] := ⟨[], [1], rfl, fun x hx => absurd hx not_mem_nil⟩
  exact ⟨s, p, hrun, hp, ((hcorrect 2).2 fun _ => Or.inl hfirst).2 (Or.inl mem_cons_self)⟩

/-- The label `1`, given after the label `2`, does not find the point, and no universal label is in
use. -/
theorem detectCommonFilters_misses_label : ∃ s : FilteredIndex ℕ ℕ ℕ, ∃ p,
    InsertRun twoLabelConfig (s, [(5, [2, 1])]) ∧ s.tagToLocation.lookup 5 = some p ∧
      s.universal = none ∧ 1 ∈ [2, 1] ∧ s.detectCommonFilters p true [1] = some false := by
  obtain ⟨s, hrun, hp, hu, -, h1⟩ := insertRun_two_one
  exact ⟨s, 1, hrun, hp, hu, by simp, h1⟩

end FilteredIndex

end DiskANNEval.AiSAQ
