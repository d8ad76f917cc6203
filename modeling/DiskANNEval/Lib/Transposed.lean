import Mathlib

/-!
# Lib.Transposed — adjacency lists and the lists of the other ends

`out a` lists the ends of the edges of `a`, and `inn b` the starts of the edges to `b`, both with
multiplicities.  `Mirrored out inn a b`: they agree about the edges from `a` to `b`.  The lists of
the other ends are changed one element at a time (`eraseEach`, `removeEach`, `appendEach`,
`insertEach`); a vertex whose list is replaced in both graphs is `Mirrored.relist`, and a vertex that
is taken out of both is a `Dropped` one.
-/

namespace DiskANNEval.Lib

open List Function

variable {α : Type*} [DecidableEq α]

/-- The edges from `a` to `b`. -/
def Mirrored (out inn : α → List α) (a b : α) : Prop := (inn b).count a = (out a).count b

/-- One `a` less in the list of each of `bs`. -/
def eraseEach (inn : α → List α) (a : α) (bs : List α) : α → List α :=
  bs.foldl (fun inn b => Function.update inn b ((inn b).erase a)) inn

/-- No `a` in the list of each of `bs`. -/
def removeEach (inn : α → List α) (a : α) (bs : List α) : α → List α :=
  bs.foldl (fun inn b => Function.update inn b ((inn b).filter (· ≠ a))) inn

/-- One `a` more in the list of each of `bs`. -/
def appendEach (inn : α → List α) (a : α) (bs : List α) : α → List α :=
  bs.foldl (fun inn b => Function.update inn b (inn b ++ [a])) inn

/-- `a` in the list of each of `bs`. -/
def insertEach (inn : α → List α) (a : α) (bs : List α) : α → List α :=
  bs.foldl (fun inn b => if a ∈ inn b then inn else Function.update inn b (inn b ++ [a])) inn

variable {out inn : α → List α} {a b x y : α} {bs new : List α}

/-! ### How often an element is in a list -/

theorem count_eraseEach :
    (eraseEach inn a bs x).count y =
      if y = a then (inn x).count a - bs.count x else (inn x).count y := by
  induction bs generalizing inn with
  | nil =>
    show (inn x).count y = _
    split_ifs with hy
    · rw [hy]
      rfl
    · rfl
  | cons b bs ih =>
    show (eraseEach (Function.update inn b ((inn b).erase a)) a bs x).count y = _
    rw [ih, count_cons]
    by_cases hx : x = b
    · subst hx
      rw [update_self]
      by_cases hy : y = a
      · rw [if_pos hy, if_pos hy, count_erase_self]
        simp only [beq_self_eq_true, if_true]
        omega
      · rw [if_neg hy, if_neg hy, count_erase_of_ne hy]
    · have hb : ¬ b = x := fun h => hx h.symm
      simp [update_of_ne hx, hb]

theorem count_removeEach :
    (removeEach inn a bs x).count y = if y = a ∧ x ∈ bs then 0 else (inn x).count y := by
  induction bs generalizing inn with
  | nil => simp [removeEach]
  | cons b bs ih =>
    show (removeEach (Function.update inn b ((inn b).filter (· ≠ a))) a bs x).count y = _
    rw [ih]
    by_cases hx : x = b
    · subst hx
      rw [update_self]
      by_cases hy : y = a
      · subst hy
        have h0 : ((inn x).filter (· ≠ y)).count y = 0 := by
          rw [count_eq_zero]
          simp
        rw [h0, ite_self, if_pos ⟨rfl, mem_cons_self⟩]
      · have hk : ((inn x).filter (· ≠ a)).count y = (inn x).count y :=
          count_filter (by simpa using hy)
        rw [hk, if_neg fun h => hy h.1, if_neg fun h => hy h.1]
    · simp [hx]

theorem count_appendEach :
    (appendEach inn a bs x).count y = (inn x).count y + if y = a then bs.count x else 0 := by
  induction bs generalizing inn with
  | nil => simp [appendEach]
  | cons b bs ih =>
    show (appendEach (Function.update inn b (inn b ++ [a])) a bs x).count y = _
    rw [ih]
    by_cases hx : x = b
    · subst hx
      by_cases hy : y = a
      · subst hy
        simp
        omega
      · have ha : ¬ a = y := fun h => hy h.symm
        simp [hy, ha]
    · have hb : ¬ b = x := fun h => hx h.symm
      simp [update_of_ne hx, hb]

theorem insertEach_eq_appendEach (hbs : bs.Nodup) (hnew : ∀ b ∈ bs, a ∉ inn b) :
    insertEach inn a bs = appendEach inn a bs := by
  induction bs generalizing inn with
  | nil => rfl
  | cons b bs ih =>
    obtain ⟨hb, hbs⟩ := nodup_cons.1 hbs
    have h : ∀ b' ∈ bs, a ∉ Function.update inn b (inn b ++ [a]) b' := by
      intro b' hb'
      have hne : b' ≠ b := fun he => hb (he ▸ hb')
      rw [update_of_ne hne]
      exact hnew b' (mem_cons_of_mem _ hb')
    show insertEach (if a ∈ inn b then inn else Function.update inn b (inn b ++ [a])) a bs = _
    rw [if_neg (hnew b mem_cons_self), ih hbs h]
    rfl

/-! ### Edges -/

theorem Mirrored.mem_iff (h : Mirrored out inn x y) : x ∈ inn y ↔ y ∈ out x := by
  rw [← count_pos_iff, ← count_pos_iff, h]

theorem Mirrored.push (h : Mirrored out inn x y) :
    Mirrored (Function.update out a (out a ++ [b])) (Function.update inn b (inn b ++ [a])) x y := by
  have hout : (Function.update out a (out a ++ [b]) x).count y =
      (out x).count y + if x = a ∧ y = b then 1 else 0 := by
    by_cases hx : x = a
    · subst hx
      have hb : b = y ↔ y = b := ⟨Eq.symm, Eq.symm⟩
      simp [count_cons, hb]
    · simp [hx]
  have hinn : (Function.update inn b (inn b ++ [a]) y).count x =
      (inn y).count x + if x = a ∧ y = b then 1 else 0 := by
    by_cases hy : y = b
    · subst hy
      have ha : a = x ↔ x = a := ⟨Eq.symm, Eq.symm⟩
      simp [count_cons, ha]
    · simp [hy]
  rw [Mirrored, hout, hinn, h]

theorem Mirrored.relist (h : Mirrored out inn x y) :
    Mirrored (Function.update out a new) (appendEach (eraseEach inn a (out a)) a new) x y := by
  rw [Mirrored, count_appendEach, count_eraseEach]
  by_cases hx : x = a
  · subst hx
    rw [if_pos rfl, if_pos rfl, update_self, h]
    omega
  · rw [if_neg hx, if_neg hx, update_of_ne hx, h]
    rfl

theorem Mirrored.relist_remove (h : Mirrored out inn x y) :
    Mirrored (Function.update out a new) (appendEach (removeEach inn a (out a)) a new) x y := by
  rw [Mirrored, count_appendEach, count_removeEach]
  by_cases hx : x = a
  · subst hx
    rw [if_pos rfl, update_self]
    by_cases hy : y ∈ out x
    · rw [if_pos ⟨rfl, hy⟩, Nat.zero_add]
    · rw [if_neg fun hc => hy hc.2, h, count_eq_zero_of_not_mem hy, Nat.zero_add]
  · rw [if_neg fun hc => hx hc.1, if_neg hx, update_of_ne hx, h]
    rfl

/-! ### A vertex without edges -/

/-- No list of another vertex has `d`, whose own edges are not counted. -/
structure Dropped (out inn : α → List α) (d x y : α) : Prop where
  mirrored : x ≠ d → y ≠ d → Mirrored out inn x y
  inn_count : y ≠ d → (inn y).count d = 0
  out_count : x ≠ d → (out x).count d = 0

theorem Mirrored.dropped {d : α} (h : ∀ y, Mirrored out inn x y) (hd : Mirrored out inn d y) :
    Dropped (fun i => if i ∈ eraseEach inn d (out d) d then (out i).filter (· ≠ d) else out i)
      (eraseEach inn d (out d)) d x y := by
  refine ⟨fun hx hy => ?_, fun hy => ?_, fun hx => ?_⟩
  · have hk : ((out x).filter (· ≠ d)).count y = (out x).count y :=
      count_filter (by simpa using hy)
    rw [Mirrored, count_eraseEach, if_neg hx, h y]
    split_ifs
    · rw [hk]
    · rfl
  · rw [count_eraseEach, if_pos rfl, hd]
    exact Nat.sub_self _
  · have hmem : x ∈ eraseEach inn d (out d) d ↔ d ∈ out x := by
      rw [← (h d).mem_iff, ← count_pos_iff, ← count_pos_iff, count_eraseEach, if_neg hx]
    rw [count_eq_zero]
    split_ifs with hc
    · simp
    · exact fun hm => hc (hmem.2 hm)

theorem Dropped.relist {d : α} (h : Dropped out inn d x y) (ha : a ≠ d) (hnew : d ∉ new) :
    Dropped (Function.update out a new) (appendEach (eraseEach inn a (out a)) a new) d x y := by
  refine ⟨fun hx hy => (h.mirrored hx hy).relist, fun hy => ?_, fun hx => ?_⟩
  · rw [count_appendEach, count_eraseEach, if_neg ha.symm, if_neg ha.symm, h.inn_count hy]
  · by_cases hxa : x = a
    · rw [hxa, update_self]
      exact count_eq_zero_of_not_mem hnew
    · rw [update_of_ne hxa]
      exact h.out_count hx

theorem Dropped.clear {d : α} (h : Dropped out inn d x y) :
    Mirrored (Function.update out d []) (Function.update inn d []) x y := by
  rw [Mirrored]
  by_cases hx : x = d
  · subst hx
    rw [update_self]
    by_cases hy : y = x
    · rw [hy, update_self]
    · rw [update_of_ne hy, h.inn_count hy, count_nil]
  · rw [update_of_ne hx]
    by_cases hy : y = d
    · rw [hy, update_self, h.out_count hx]
      rfl
    · rw [update_of_ne hy]
      exact h.mirrored hx hy

/-! ### The lists of the other ends of a graph -/

/-- The starts of the edges to `b`, for the vertices `as`. -/
def startsOf (out : α → List α) (as : List α) (b : α) : List α :=
  as.flatMap fun a => ((out a).filter (· = b)).map fun _ => a

theorem mirrored_startsOf {as : List α} (has : as.Nodup) (hx : x ∈ as) :
    Mirrored out (startsOf out as) x y := by
  have hcount : ∀ a, (((out a).filter (· = y)).map fun _ => a).count x =
      if a = x then (out x).count y else 0 := by
    intro a
    split_ifs with ha
    · subst ha
      rw [map_const', count_replicate_self, List.count_eq_length_filter]
      congr 1
    · rw [map_const', count_replicate, if_neg (by simpa using ha)]
  rw [Mirrored, startsOf, count_flatMap]
  have hsum : (as.map (List.count x ∘ fun a => ((out a).filter (· = y)).map fun _ => a)) =
      as.map fun a => if a = x then (out x).count y else 0 := by
    apply map_congr_left
    intro a _
    exact hcount a
  rw [hsum]
  clear hsum
  induction as with
  | nil => exact absurd hx not_mem_nil
  | cons a as ih =>
    obtain ⟨ha, has⟩ := nodup_cons.1 has
    rw [map_cons, sum_cons]
    obtain rfl | hx := mem_cons.1 hx
    · have h0 : (as.map fun a => if a = x then (out x).count y else 0).sum = 0 := by
        apply sum_eq_zero
        intro n hn
        obtain ⟨b, hb, rfl⟩ := mem_map.1 hn
        have hne : b ≠ x := fun he => ha (he ▸ hb)
        exact if_neg hne
      rw [if_pos rfl, h0, Nat.add_zero]
    · have hne : a ≠ x := fun he => ha (he ▸ hx)
      rw [if_neg hne, Nat.zero_add]
      exact ih has hx

end DiskANNEval.Lib
