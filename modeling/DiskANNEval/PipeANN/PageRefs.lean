import DiskANNEval.PipeANN.PageCache
import Mathlib

/-!
# PageRefs — the reference counts of the page cache

`read_alloc` and `wbc_write` take a reference to each page they write down in the page list of the
caller, who hands the list to `deref` later.  A request of `read_alloc` that misses has taken
references to the pages before the one it missed, and it takes them again when its pages are put:
these are in no list, and nothing gives them back (`refs_run`).
-/

namespace DiskANNEval.PipeANN.PageRefs

open Lib PageCache List

variable {B : Type}

/-- A write with its bytes, sector by sector. -/
structure WriteRequest (B : Type) extends IORequest where
  buf : ℕ → B

def WriteRequest.pages (req : WriteRequest B) : List (ℕ × B) :=
  (List.range req.len).map fun i => (req.offset + i, req.buf i)

/-- `read_from_cache` with `ref`, of the sectors of a request. -/
def readFromCache (c : Cache B) : List ℕ → Cache B × Bool
  | [] => (c, true)
  | P :: Ps =>
    match c.get P true with
    | (c, some _) => readFromCache c Ps
    | (c, none) => (c, false)

/-- The lookups of `read_alloc`, with `disk_read_reqs`. -/
def lookups (c : Cache B) : List IORequest → Cache B × List IORequest
  | [] => (c, [])
  | req :: reqs =>
    let (c, hit) := readFromCache c req.sectors
    let (c, diskReadReqs) := lookups c reqs
    (c, if hit then diskReadReqs else req :: diskReadReqs)

def putAll (c : Cache B) (pages : List (ℕ × B)) : Cache B :=
  pages.foldl (fun c page => c.put page.1 page.2 true) c

/-- The cache after `read_alloc`, where `disk` is what the reads bring. -/
def readAlloc (c : Cache B) (reqs : List IORequest) (disk : ℕ → B) : Cache B :=
  let (c, diskReadReqs) := lookups c reqs
  putAll c ((diskReadReqs.flatMap IORequest.sectors).map fun P => (P, disk P))

/-- The cache after `wbc_write`. -/
def wbcWrite (c : Cache B) (reqs : List (WriteRequest B)) : Cache B :=
  putAll c (reqs.flatMap WriteRequest.pages)

/-- `pageRefs` are the page lists of the callers. -/
structure State (B : Type) where
  cache : Cache B
  pageRefs : List (List ℕ)

/-- `n` is the number of the caller's list. -/
inductive Call (B : Type)
  | newList
  | readAlloc (n : ℕ) (reqs : List IORequest) (disk : ℕ → B)
  | wbcWrite (n : ℕ) (reqs : List (WriteRequest B))
  | deref (n : ℕ)

/-- `none`: there is no such list. -/
def step (s : State B) : Call B → Option (State B)
  | .newList => some { s with pageRefs := s.pageRefs ++ [[]] }
  | .readAlloc n reqs disk =>
    if n < s.pageRefs.length then
      some ⟨readAlloc s.cache reqs disk,
        s.pageRefs.modify n (· ++ reqs.flatMap IORequest.sectors)⟩
    else none
  | .wbcWrite n reqs =>
    if n < s.pageRefs.length then
      some ⟨wbcWrite s.cache reqs,
        s.pageRefs.modify n (· ++ reqs.flatMap fun req => req.sectors)⟩
    else none
  | .deref n =>
    match s.pageRefs[n]? with
    | some pageRef => some ⟨pageRef.foldl Cache.deref s.cache, s.pageRefs.eraseIdx n⟩
    | none => none

def State.empty : State B := ⟨fun _ => none, []⟩

/-- How often a page is in the lists. -/
def State.listed (s : State B) (P : ℕ) : ℕ := s.pageRefs.flatten.count P

/-- The count of a cached page is the number of its occurrences in the lists, and the cached pages are
the listed ones. -/
structure RefsOk (s : State B) : Prop where
  refCnt : ∀ P v, s.cache P = some v → v.refCnt = s.listed P
  cached : ∀ P, (s.cache P).isSome = true ↔ 0 < s.listed P

/-- The pages of the request are all cached, or the first one is not. -/
def Whole (c : Cache B) (req : IORequest) : Prop :=
  (∀ P ∈ req.sectors, (c P).isSome = true) ∨ ∀ P ∈ req.sectors.head?, c P = none

/-- No request of `read_alloc` hits on its first pages and misses on a later one. -/
def Calm (s : State B) : Call B → Prop
  | .readAlloc _ reqs _ => ∀ req ∈ reqs, Whole s.cache req
  | .newList | .wbcWrite .. | .deref _ => True

instance (c : Cache B) (req : IORequest) : Decidable (Whole c req) :=
  have : Decidable (∀ P ∈ req.sectors.head?, c P = none) :=
    decidable_of_iff (∀ P ∈ req.sectors.head?, (c P).isNone = true) (by simp)
  inferInstanceAs (Decidable (_ ∨ _))

instance (s : State B) : (call : Call B) → Decidable (Calm s call)
  | .readAlloc _ reqs _ => inferInstanceAs (Decidable (∀ req ∈ reqs, Whole s.cache req))
  | .newList | .wbcWrite .. | .deref _ => isTrue trivial

/-! ### Counts -/

/-- The count of a page, `0` for one that is not cached. -/
def refs (c : Cache B) (P : ℕ) : ℕ := ((c P).map Item.refCnt).getD 0

/-- A cached page has a reference. -/
def Held (c : Cache B) : Prop := ∀ P v, c P = some v → 0 < v.refCnt

variable {c c' : Cache B} {P Q : ℕ}

theorem Held.isSome_iff (h : Held c) : (c P).isSome = true ↔ 0 < refs c P := by
  rw [refs]
  cases hP : c P with
  | none => simp
  | some v => simp [h P v hP]

theorem get_refs (c : Cache B) (P Q : ℕ) :
    refs (c.get P true).1 Q = refs c Q + if Q = P ∧ (c P).isSome then 1 else 0 := by
  unfold Cache.get
  cases hP : c P with
  | none => simp
  | some v =>
    by_cases hQ : Q = P
    · simp [refs, hQ, hP]
    · simp [refs, hQ]

theorem get_isSome (c : Cache B) (P Q : ℕ) : ((c.get P true).1 Q).isSome = (c Q).isSome := by
  have := congrArg Option.isSome (c.get_buf P Q true)
  simpa only [Cache.buf, Option.isSome_map] using this

theorem Held.get (h : Held c) (P : ℕ) : Held (c.get P true).1 := by
  unfold Cache.get
  cases hP : c P with
  | none => exact h
  | some v =>
    intro Q w hw
    by_cases hQ : Q = P
    · subst hQ
      simp only [Function.update_self, Option.some.injEq] at hw
      simp [← hw]
    · exact h Q w (by simpa [hQ] using hw)

theorem put_refs (c : Cache B) (P : ℕ) (value : B) (Q : ℕ) :
    refs (c.put P value true) Q = refs c Q + if Q = P then 1 else 0 := by
  by_cases hQ : Q = P
  · simp [refs, Cache.put, hQ]
  · simp [refs, Cache.put, hQ]

theorem Held.put (h : Held c) (P : ℕ) (value : B) : Held (c.put P value true) := by
  intro Q w hw
  by_cases hQ : Q = P
  · subst hQ
    simp only [Cache.put, Function.update_self, Option.some.injEq] at hw
    simp [← hw]
  · exact h Q w (by simpa [Cache.put, hQ] using hw)

theorem deref_refs (c : Cache B) (P Q : ℕ) :
    refs (c.deref P) Q = refs c Q - if Q = P then 1 else 0 := by
  unfold Cache.deref
  cases hP : c P with
  | none =>
    by_cases hQ : Q = P
    · simp [refs, hQ, hP]
    · simp [hQ]
  | some v =>
    by_cases hQ : Q = P
    · subst hQ
      simp only [refs, Function.update_self, hP]
      split_ifs with h0
      · simp [h0]
      · rfl
    · simp [refs, hQ]

theorem Held.deref (h : Held c) (P : ℕ) : Held (c.deref P) := by
  unfold Cache.deref
  cases hP : c P with
  | none => exact h
  | some v =>
    intro Q w hw
    by_cases hQ : Q = P
    · subst hQ
      simp only [Function.update_self] at hw
      split_ifs at hw with h0
      cases hw
      exact Nat.pos_of_ne_zero h0
    · exact h Q w (by simpa [hQ] using hw)

theorem count_cons_ite (P Q : ℕ) (Ps : List ℕ) :
    (P :: Ps).count Q = Ps.count Q + if Q = P then 1 else 0 := by
  by_cases hQ : Q = P
  · simp [hQ]
  · simp [hQ, Ne.symm hQ]

theorem putAll_refs (c : Cache B) (pages : List (ℕ × B)) (Q : ℕ) :
    refs (putAll c pages) Q = refs c Q + (pages.map Prod.fst).count Q := by
  induction pages generalizing c with
  | nil => rfl
  | cons page pages ih =>
    rw [putAll, foldl_cons, ← putAll, ih, put_refs, map_cons, count_cons_ite]
    omega

theorem Held.putAll (h : Held c) (pages : List (ℕ × B)) : Held (putAll c pages) :=
  foldlRecOn (motive := Held) pages _ h fun _ hc page _ => hc.put page.1 page.2

theorem derefAll_refs (c : Cache B) (pageRef : List ℕ) (Q : ℕ) :
    refs (pageRef.foldl Cache.deref c) Q = refs c Q - pageRef.count Q := by
  induction pageRef generalizing c with
  | nil => rfl
  | cons P pageRef ih =>
    rw [foldl_cons, ih, deref_refs, count_cons_ite]
    omega

theorem Held.derefAll (h : Held c) (pageRef : List ℕ) : Held (pageRef.foldl Cache.deref c) :=
  foldlRecOn (motive := Held) pageRef _ h fun _ hc P _ => hc.deref P

/-! ### The lookups -/

/-- The pages of a request before the first one that is missing. -/
def hits (c : Cache B) (Ps : List ℕ) : List ℕ := Ps.takeWhile fun P => (c P).isSome

theorem hits_congr (hc : ∀ P, (c' P).isSome = (c P).isSome) (Ps : List ℕ) : hits c' Ps = hits c Ps := by
  rw [hits, hits, funext hc]

/-- A request takes a reference to each of its pages before the first one that is missing. -/
theorem readFromCache_spec (h : Held c) (Ps : List ℕ) :
    Held (readFromCache c Ps).1 ∧ (∀ P, ((readFromCache c Ps).1 P).isSome = (c P).isSome) ∧
      (∀ Q, refs (readFromCache c Ps).1 Q = refs c Q + (hits c Ps).count Q) ∧
      ((readFromCache c Ps).2 = true ↔ ∀ P ∈ Ps, (c P).isSome = true) := by
  induction Ps generalizing c with
  | nil => exact ⟨h, fun _ => rfl, fun _ => rfl, by simp [readFromCache]⟩
  | cons P Ps ih =>
    have hrefs := get_refs c P
    have hsome := get_isSome c P
    have hheld := h.get P
    have hsnd := c.get_snd P true
    rw [readFromCache]
    generalize c.get P true = r at hrefs hsome hheld hsnd
    obtain ⟨c₁, found⟩ := r
    cases hP : c P with
    | none =>
      obtain rfl : found = none := by simpa [Cache.buf, hP] using hsnd
      refine ⟨hheld, hsome, fun Q => ?_, by simp [hP]⟩
      simpa [hits, hP] using hrefs Q
    | some v =>
      obtain rfl : found = some v.buf := by simpa [Cache.buf, hP] using hsnd
      obtain ⟨h1, h2, h3, h4⟩ := ih hheld
      refine ⟨h1, fun R => (h2 R).trans (hsome R), fun Q => ?_, ?_⟩
      · have hcons : hits c (P :: Ps) = P :: hits c Ps := by simp [hits, hP]
        have hQ := hrefs Q
        simp only [hP, Option.isSome_some, and_true] at hQ
        rw [h3, hits_congr hsome, hQ, hcons, count_cons_ite]
        omega
      · rw [h4]
        simp [hsome, hP]

/-- The references of a `read_alloc` that are in no list: those of the requests that miss. -/
def leaked (c : Cache B) (reqs : List IORequest) : List ℕ :=
  reqs.flatMap fun req =>
    if ∀ P ∈ req.sectors, (c P).isSome = true then [] else hits c req.sectors

theorem leaked_congr (hc : ∀ P, (c' P).isSome = (c P).isSome) (reqs : List IORequest) :
    leaked c' reqs = leaked c reqs := by
  simp only [leaked, hc, hits_congr hc]

theorem whole_iff {req : IORequest} :
    Whole c req ↔ (∀ P ∈ req.sectors, (c P).isSome = true) ∨ hits c req.sectors = [] := by
  refine or_congr Iff.rfl ?_
  cases req.sectors with
  | nil => simp [hits]
  | cons P Ps => cases hP : c P <;> simp [hits, hP]

theorem leaked_eq_nil_iff {reqs : List IORequest} :
    leaked c reqs = [] ↔ ∀ req ∈ reqs, Whole c req := by
  rw [leaked, flatMap_eq_nil_iff]
  refine forall₂_congr fun req _ => ?_
  rw [whole_iff]
  split_ifs with hall
  · exact iff_of_true rfl (.inl hall)
  · exact (or_iff_right hall).symm

/-- With the puts of the requests that miss, each page of a request has its reference, and the leaked
ones are more. -/
theorem lookups_spec (h : Held c) (reqs : List IORequest) :
    Held (lookups c reqs).1 ∧ (∀ P, ((lookups c reqs).1 P).isSome = (c P).isSome) ∧
      ∀ Q, refs (lookups c reqs).1 Q + ((lookups c reqs).2.flatMap IORequest.sectors).count Q =
        refs c Q + (reqs.flatMap IORequest.sectors).count Q + (leaked c reqs).count Q := by
  induction reqs generalizing c with
  | nil => exact ⟨h, fun _ => rfl, fun _ => rfl⟩
  | cons req reqs ih =>
    obtain ⟨h1, h2, h3, h4⟩ := readFromCache_spec h req.sectors
    rw [lookups]
    generalize readFromCache c req.sectors = r at h1 h2 h3 h4
    obtain ⟨c₁, hit⟩ := r
    obtain ⟨k1, k2, k3⟩ := ih h1
    refine ⟨k1, fun P => (k2 P).trans (h2 P), fun Q => ?_⟩
    dsimp only at k3 h2 h3 h4 ⊢
    have hQ := k3 Q
    rw [leaked_congr h2, h3] at hQ
    have hleak : leaked c (req :: reqs) =
        (if ∀ P ∈ req.sectors, (c P).isSome = true then [] else hits c req.sectors) ++
          leaked c reqs := rfl
    rw [hleak, flatMap_cons, count_append, count_append]
    by_cases hall : ∀ P ∈ req.sectors, (c P).isSome = true
    · have hhits : hits c req.sectors = req.sectors := takeWhile_eq_self_iff.2 hall
      rw [if_pos hall]
      rw [hhits] at hQ
      simp only [h4.2 hall, if_true, count_nil]
      omega
    · have hmiss : hit = false := Bool.eq_false_of_not_eq_true fun hhit => hall (h4.1 hhit)
      rw [if_neg hall]
      simp only [hmiss, Bool.false_eq_true, if_false, flatMap_cons, count_append]
      omega

/-! ### Runs -/

variable {s s' : State B}

/-- The counts, where `leak` are the references that no list has. -/
structure Counted (leak : List ℕ) (s : State B) : Prop where
  held : Held s.cache
  refs : ∀ P, refs s.cache P = s.listed P + leak.count P

theorem counted_empty : Counted [] (State.empty : State B) :=
  ⟨fun _ _ h => (by cases h), fun _ => rfl⟩

variable {leak : List ℕ}

theorem Counted.refsOk_iff (h : Counted leak s) : RefsOk s ↔ leak = [] := by
  constructor
  · intro hok
    refine eq_nil_iff_forall_not_mem.2 fun P hP => ?_
    have hcount : 0 < leak.count P := count_pos_iff.2 hP
    have href := h.refs P
    have hsome : (s.cache P).isSome = true := h.held.isSome_iff.2 (by omega)
    obtain ⟨v, hv⟩ := Option.isSome_iff_exists.1 hsome
    have hv' := hok.refCnt P v hv
    simp only [PageRefs.refs, hv, Option.map_some, Option.getD_some] at href
    omega
  · rintro rfl
    have href : ∀ P, PageRefs.refs s.cache P = s.listed P := fun P => by
      simpa only [count_nil, Nat.add_zero] using h.refs P
    refine ⟨fun P v hv => ?_, fun P => ?_⟩
    · rw [← href P, PageRefs.refs, hv]
      rfl
    · rw [← href P]
      exact h.held.isSome_iff

theorem count_flatten_modify {ls : List (List ℕ)} {n : ℕ} (hn : n < ls.length) (l : List ℕ) (P : ℕ) :
    (ls.modify n (· ++ l)).flatten.count P = ls.flatten.count P + l.count P := by
  induction ls generalizing n with
  | nil => exact absurd hn (Nat.not_lt_zero n)
  | cons a ls ih =>
    cases n with
    | zero =>
      rw [modify_zero_cons, flatten_cons, flatten_cons]
      simp only [count_append]
      omega
    | succ n =>
      rw [modify_succ_cons, flatten_cons, flatten_cons, count_append,
        count_append, ih (Nat.lt_of_succ_lt_succ hn), Nat.add_assoc]

theorem count_flatten_eraseIdx {ls : List (List ℕ)} {n : ℕ} {l : List ℕ} (hn : ls[n]? = some l)
    (P : ℕ) : (ls.eraseIdx n).flatten.count P + l.count P = ls.flatten.count P := by
  induction ls generalizing n with
  | nil => cases hn
  | cons a ls ih =>
    cases n with
    | zero =>
      rw [getElem?_cons_zero, Option.some.injEq] at hn
      subst hn
      rw [eraseIdx_zero, tail_cons, flatten_cons, count_append, Nat.add_comm]
    | succ n =>
      rw [eraseIdx_cons_succ, flatten_cons, flatten_cons, count_append,
        count_append, Nat.add_assoc, ih hn]

/-- What a call leaks. -/
def leakOf (s : State B) : Call B → List ℕ
  | .readAlloc _ reqs _ => leaked s.cache reqs
  | .newList | .wbcWrite .. | .deref _ => []

theorem leakOf_eq_nil_iff (s : State B) (call : Call B) : leakOf s call = [] ↔ Calm s call := by
  cases call with
  | readAlloc n reqs disk => exact leaked_eq_nil_iff
  | newList => exact iff_of_true rfl trivial
  | wbcWrite n reqs => exact iff_of_true rfl trivial
  | deref n => exact iff_of_true rfl trivial

theorem map_fst_pages (reqs : List (WriteRequest B)) :
    (reqs.flatMap WriteRequest.pages).map Prod.fst = reqs.flatMap fun req => req.sectors := by
  rw [map_flatMap]
  congr 1
  funext req
  rw [WriteRequest.pages, map_map]
  rfl

theorem Counted.step (h : Counted leak s) {call : Call B} (hs : step s call = some s') :
    Counted (leakOf s call ++ leak) s' := by
  cases call with
  | newList =>
    cases hs
    refine ⟨h.held, fun P => (h.refs P).trans ?_⟩
    simp [State.listed, leakOf]
  | readAlloc n reqs disk =>
    rw [PageRefs.step] at hs
    split_ifs at hs with hn
    cases hs
    obtain ⟨h1, -, h3⟩ := lookups_spec h.held reqs
    have hfst : ∀ Ps : List ℕ, (Ps.map fun P => (P, disk P)).map Prod.fst = Ps := fun Ps => by
      rw [map_map]
      exact map_id Ps
    refine ⟨h1.putAll _, fun P => ?_⟩
    rw [readAlloc, putAll_refs, hfst, h3, h.refs, State.listed, State.listed,
      count_flatten_modify hn, leakOf, count_append]
    omega
  | wbcWrite n reqs =>
    rw [PageRefs.step] at hs
    split_ifs at hs with hn
    cases hs
    refine ⟨h.held.putAll _, fun P => ?_⟩
    rw [wbcWrite, putAll_refs, map_fst_pages, h.refs, State.listed, State.listed,
      count_flatten_modify hn, leakOf, nil_append]
    omega
  | deref n =>
    rw [PageRefs.step] at hs
    split at hs
    · rename_i pageRef hn
      cases hs
      refine ⟨h.held.derefAll _, fun P => ?_⟩
      have herase := count_flatten_eraseIdx hn P
      have href := h.refs P
      rw [State.listed] at href
      rw [derefAll_refs, State.listed, leakOf, nil_append]
      dsimp only
      omega
    · cases hs

/-- The references that a run leaks, and that it leaks none exactly if its calls are calm. -/
theorem refs_run (h : Counted leak s) {calls : List (Call B)} (hs : runs step s calls = some s') :
    ∃ more, Counted (more ++ leak) s' ∧
      (more = [] ↔ runsGuarded Calm step s calls = some s') := by
  induction calls generalizing s leak with
  | nil =>
    cases hs
    exact ⟨[], h, iff_of_true rfl rfl⟩
  | cons call calls ih =>
    obtain ⟨s₁, hs₁, hs⟩ := Option.bind_eq_some_iff.1 hs
    obtain ⟨more, hmore, hiff⟩ := ih (h.step hs₁) hs
    refine ⟨more ++ leakOf s call, by rwa [append_assoc], ?_⟩
    rw [append_eq_nil_iff, hiff, leakOf_eq_nil_iff]
    show _ ↔ (if Calm s call then step s call else none).bind
      (fun s₁ => runsGuarded Calm step s₁ calls) = some s'
    by_cases hcalm : Calm s call
    · rw [if_pos hcalm, hs₁]
      exact and_iff_left hcalm
    · rw [if_neg hcalm]
      exact iff_of_false (fun hc => hcalm hc.2) (by simp)

/-- After a run of calls the counts are right exactly if none of its `read_alloc`s has had a request
that hits on its first pages and misses on a later one. -/
theorem refsOk_iff_calm (calls : List (Call B)) (s : State B)
    (hs : runs step State.empty calls = some s) :
    RefsOk s ↔ runsGuarded Calm step State.empty calls = some s := by
  obtain ⟨leak, hleak, hiff⟩ := refs_run counted_empty hs
  rw [List.append_nil] at hleak
  rw [hleak.refsOk_iff, hiff]

/-- A page is written and given back, and read by two callers, the second of which is still at work. -/
def calmCalls : List (Call ℕ) :=
  [.newList, .wbcWrite 0 [⟨⟨6, 2⟩, fun _ => 1⟩], .deref 0, .newList, .newList,
    .readAlloc 0 [⟨6, 2⟩] fun _ => 1, .readAlloc 1 [⟨6, 2⟩] fun _ => 1, .deref 0]

theorem refsOk_iff_calm_calls : ∃ s : State ℕ, runs step State.empty calmCalls = some s ∧
    s.listed 6 = 1 ∧ (RefsOk s ↔ runsGuarded Calm step State.empty calmCalls = some s) := by
  have hrun : (runs step State.empty calmCalls).map (fun s => s.listed 6) = some 1 := by
    decide +kernel
  obtain ⟨s, hs, hlisted⟩ := Option.map_eq_some_iff.1 hrun
  exact ⟨s, hs, hlisted, refsOk_iff_calm calmCalls s hs⟩

/-- A request of two pages, the first of which is cached.  All lists are given back, and the page
stays. -/
theorem page_stays : ∃ s : State ℕ,
    runs step State.empty [.newList, .newList, .readAlloc 0 [⟨6, 1⟩] fun _ => 0,
      .readAlloc 1 [⟨6, 2⟩] fun _ => 0, .deref 0, .deref 0] = some s ∧
    s.pageRefs = [] ∧ (s.cache 6).isSome = true ∧ ¬ RefsOk s := by
  have hrun : (runs step (State.empty : State ℕ) [.newList, .newList,
      .readAlloc 0 [⟨6, 1⟩] fun _ => 0, .readAlloc 1 [⟨6, 2⟩] fun _ => 0, .deref 0,
      .deref 0]).map (fun s => (s.pageRefs, (s.cache 6).isSome)) = some ([], true) := by
    decide +kernel
  obtain ⟨s, hs, hv⟩ := Option.map_eq_some_iff.1 hrun
  obtain ⟨hlists, hcached⟩ := Prod.mk.inj hv
  refine ⟨s, hs, hlists, hcached, fun hok => ?_⟩
  have hlisted := (hok.cached 6).1 hcached
  rw [State.listed, hlists] at hlisted
  exact absurd hlisted (Nat.lt_irrefl 0)

end DiskANNEval.PipeANN.PageRefs
