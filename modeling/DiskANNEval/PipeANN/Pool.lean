import Mathlib

/-!
# Pool — `InsertIntoPool`

The list of candidates is the first `K` elements of an array.  An insertion shifts the elements from
its place on by one, so the element that was behind the list is lost and the last one moves there.
-/

namespace DiskANNEval.PipeANN

open List

variable {D : Type}

/-- `flag`: no read has been issued. -/
structure Neighbor (D : Type) where
  id : ℕ
  distance : D
  flag : Bool
  visited : Bool
  deriving DecidableEq

instance [Zero D] : Inhabited (Neighbor D) := ⟨⟨0, 0, false, false⟩⟩

/-- `Neighbor(id, distance, f)` -/
def Neighbor.new (id : ℕ) (distance : D) (f : Bool) : Neighbor D := ⟨id, distance, f, false⟩

/-- `memmove` of the elements of the list from `p` on, and the assignment. -/
def putAt (addr : List (Neighbor D)) (K p : ℕ) (nn : Neighbor D) : List (Neighbor D) :=
  addr.take p ++ nn :: ((addr.drop p).take (K - p) ++ addr.drop (K + 1))

variable [LinearOrder D] [Zero D]

/-- The binary search. -/
def bisect (addr : List (Neighbor D)) (distance : D) (left right : ℕ) : ℕ × ℕ :=
  if 1 < right ∧ left < right - 1 then
    let mid := (left + right) / 2
    if distance < (addr.getD mid default).distance then bisect addr distance left mid
    else bisect addr distance mid right
  else (left, right)
termination_by right - left
decreasing_by all_goals omega

/-- The search for an equal id among the elements of the same distance. -/
def equalId (addr : List (Neighbor D)) (nn : Neighbor D) (right : ℕ) : ℕ → Bool
  | 0 => (addr.getD 0 default).id = nn.id || (addr.getD right default).id = nn.id
  | left + 1 =>
    if (addr.getD (left + 1) default).distance < nn.distance then
      (addr.getD (left + 1) default).id = nn.id || (addr.getD right default).id = nn.id
    else if (addr.getD (left + 1) default).id = nn.id then true
    else equalId addr nn right left

/-- The array, and the position of the new element (`K + 1`: it is in the list already). -/
def insertIntoPool (addr : List (Neighbor D)) (K : ℕ) (nn : Neighbor D) : List (Neighbor D) × ℕ :=
  if nn.distance < (addr.getD 0 default).distance then (putAt addr K 0 nn, 0)
  else if (addr.getD (K - 1) default).distance < nn.distance then (putAt addr K K nn, K)
  else
    let (left, right) := bisect addr nn.distance 0 (K - 1)
    if equalId addr nn right left then (addr, K + 1) else (putAt addr K right nn, right)

/-! ### What an insertion does to the list -/

variable {addr : List (Neighbor D)} {K p : ℕ} {nn e : Neighbor D}

section

omit [LinearOrder D] [Zero D]

theorem putAt_length (hp : p ≤ K) (hK : K < addr.length) :
    (putAt addr K p nn).length = addr.length := by
  simp only [putAt, length_append, length_cons, List.length_take, length_drop]
  omega

theorem take_putAt (hp : p ≤ K) (hK : K ≤ addr.length) : (putAt addr K p nn).take (K + 1) =
      (addr.take K).take p ++ nn :: (addr.take K).drop p := by
  have hdrop : (addr.drop p).take (K - p) = (addr.take K).drop p := drop_take.symm
  have hlen : ((addr.take K).take p ++ nn :: (addr.take K).drop p).length = K + 1 := by
    simp only [length_append, length_cons, List.length_take, length_drop]
    omega
  rw [putAt, hdrop, show addr.take p = (addr.take K).take p by rw [take_take, Nat.min_eq_left hp],
    ← cons_append, ← append_assoc, take_append_of_le_length (Nat.le_of_eq hlen.symm),
    take_of_length_le (Nat.le_of_eq hlen)]

end

theorem bisect_le {distance : D} {left right : ℕ} (h : left ≤ right) :
    (bisect addr distance left right).1 ≤ (bisect addr distance left right).2 ∧
      (bisect addr distance left right).2 ≤ right := by
  fun_induction bisect addr distance left right with
  | case1 left right hlt mid hd ih =>
    obtain ⟨h1, h2⟩ := ih (by omega)
    exact ⟨h1, by omega⟩
  | case2 left right hlt mid hd ih => exact ih (by omega)
  | case3 left right hlt => exact ⟨h, Nat.le_refl _⟩

theorem equalId_eq_false {right left : ℕ} (hleft : ∀ i ≤ left, (addr.getD i default).id ≠ nn.id)
    (hright : (addr.getD right default).id ≠ nn.id) : equalId addr nn right left = false := by
  induction left with
  | zero => simp only [equalId, hleft 0 (Nat.le_refl _), hright, decide_false, Bool.or_self]
  | succ left ih =>
    rw [equalId, if_neg (hleft _ (Nat.le_refl _)), ih fun i hi => hleft i (Nat.le_succ_of_le hi)]
    simp only [hleft _ (Nat.le_refl _), hright, decide_false, Bool.or_self, ite_self]

theorem insertIntoPool_eq (hK : 0 < K) (hlen : K ≤ addr.length)
    (hnew : nn.id ∉ (addr.take K).map Neighbor.id) :
    ∃ p ≤ K, insertIntoPool addr K nn = (putAt addr K p nn, p) := by
  have hne : ∀ i < K, (addr.getD i default).id ≠ nn.id := by
    intro i hi he
    refine hnew (mem_map.2 ⟨addr.getD i default, ?_, he⟩)
    have hil : i < addr.length := Nat.lt_of_lt_of_le hi hlen
    rw [getD_eq_getElem _ _ hil]
    exact mem_take_iff_getElem.2 ⟨i, by omega, rfl⟩
  unfold insertIntoPool
  split_ifs with h0 hlast
  · exact ⟨0, Nat.zero_le _, rfl⟩
  · exact ⟨K, Nat.le_refl _, rfl⟩
  · obtain ⟨h1, h2⟩ := @bisect_le _ _ _ addr nn.distance _ _ (Nat.zero_le (K - 1))
    generalize bisect addr nn.distance 0 (K - 1) = b at h1 h2
    obtain ⟨left, right⟩ := b
    have hfalse : equalId addr nn right left = false :=
      equalId_eq_false (fun i hi => hne i (by simp only at h1 h2; omega)) (hne right (by simp only at h2; omega))
    refine ⟨right, by simp only at h2; omega, ?_⟩
    simp only [hfalse, Bool.false_eq_true, if_false]

/-! ### The place of a new element -/

theorem bisect_spec {distance : D} {left right : ℕ}
    (hleft : (addr.getD left default).distance ≤ distance)
    (hright : distance ≤ (addr.getD right default).distance) :
    (addr.getD (bisect addr distance left right).1 default).distance ≤ distance ∧
      distance ≤ (addr.getD (bisect addr distance left right).2 default).distance ∧
      (bisect addr distance left right).2 ≤ (bisect addr distance left right).1 + 1 := by
  fun_induction bisect addr distance left right with
  | case1 left right hlt mid hd ih => exact ih hleft hd.le
  | case2 left right hlt mid hd ih => exact ih (not_lt.1 hd) hright
  | case3 left right hlt => exact ⟨hleft, hright, by omega⟩

omit [LinearOrder D] in
theorem mem_take_iff_getD (hlen : K ≤ addr.length) :
    e ∈ addr.take K ↔ ∃ i < K, addr.getD i default = e := by
  rw [mem_take_iff_getElem]
  constructor
  · rintro ⟨i, hi, rfl⟩
    exact ⟨i, by omega, getD_eq_getElem _ _ (by omega)⟩
  · rintro ⟨i, hi, rfl⟩
    have hil : i < addr.length := by omega
    exact ⟨i, by omega, (getD_eq_getElem _ _ hil).symm⟩

omit [LinearOrder D] in
theorem mem_drop_take_iff_getD (hlen : K ≤ addr.length) :
    e ∈ (addr.take K).drop p ↔ ∃ i, p ≤ i ∧ i < K ∧ addr.getD i default = e := by
  rw [mem_iff_getElem]
  constructor
  · rintro ⟨i, hi, rfl⟩
    rw [length_drop, List.length_take] at hi
    refine ⟨p + i, by omega, by omega, ?_⟩
    rw [getElem_drop, getElem_take, getD_eq_getElem]
  · rintro ⟨i, hp, hi, rfl⟩
    have hil : i < addr.length := by omega
    refine ⟨i - p, by rw [length_drop, List.length_take]; omega, ?_⟩
    rw [getElem_drop, getElem_take, getD_eq_getElem _ _ hil]
    congr 1
    omega

theorem getD_le_getD (hlen : K ≤ addr.length)
    (hsorted : (addr.take K).Pairwise fun a b => a.distance ≤ b.distance) {i j : ℕ} (hij : i ≤ j)
    (hj : j < K) : (addr.getD i default).distance ≤ (addr.getD j default).distance := by
  rcases hij.eq_or_lt with rfl | hij
  · exact le_refl _
  · have hlt := pairwise_iff_getElem.1 hsorted i j (by rw [List.length_take]; omega)
      (by rw [List.length_take]; omega) hij
    rw [getElem_take, getElem_take] at hlt
    rw [getD_eq_getElem, getD_eq_getElem]
    exact hlt

/-- In a sorted list a new element comes behind those that are nearer and before those that are
farther away, and to the end only behind all. -/
theorem insertIntoPool_place (hK : 0 < K) (hlen : K ≤ addr.length)
    (hnew : nn.id ∉ (addr.take K).map Neighbor.id)
    (hsorted : (addr.take K).Pairwise fun a b => a.distance ≤ b.distance) :
    ∃ p ≤ K, insertIntoPool addr K nn = (putAt addr K p nn, p) ∧
      (∀ e ∈ (addr.take K).take p, e.distance ≤ nn.distance) ∧
      (∀ e ∈ (addr.take K).drop p, nn.distance ≤ e.distance) ∧
      (p = K ↔ (addr.getD (K - 1) default).distance < nn.distance) := by
  have hmono : ∀ {i j : ℕ}, i ≤ j → j < K →
      (addr.getD i default).distance ≤ (addr.getD j default).distance :=
    fun hij hj => getD_le_getD hlen hsorted hij hj
  -- what an element at or before a position, and one at or behind it, has for a distance
  have hbefore : ∀ {p : ℕ}, p ≤ K → (∀ i < p, (addr.getD i default).distance ≤ nn.distance) →
      ∀ e ∈ (addr.take K).take p, e.distance ≤ nn.distance := by
    intro p hp hall e he
    rw [take_take, Nat.min_eq_left hp] at he
    obtain ⟨i, hi, rfl⟩ := (mem_take_iff_getD (by omega)).1 he
    exact hall i hi
  have hbehind : ∀ {p : ℕ}, (∀ i, p ≤ i → i < K → nn.distance ≤ (addr.getD i default).distance) →
      ∀ e ∈ (addr.take K).drop p, nn.distance ≤ e.distance := by
    intro p hall e he
    obtain ⟨i, hp, hi, rfl⟩ := (mem_drop_take_iff_getD hlen).1 he
    exact hall i hp hi
  obtain ⟨p, hp, heq⟩ := insertIntoPool_eq hK hlen hnew
  refine ⟨p, hp, heq, ?_⟩
  unfold insertIntoPool at heq
  split_ifs at heq with h0 hlast
  · obtain rfl : 0 = p := congrArg Prod.snd heq
    have hfirst : nn.distance ≤ (addr.getD (K - 1) default).distance :=
      h0.le.trans (hmono (Nat.zero_le _) (by omega))
    refine ⟨hbefore hp fun i hi => absurd hi (Nat.not_lt_zero i),
      hbehind fun i _ hi => h0.le.trans (hmono (Nat.zero_le i) hi), ?_⟩
    exact ⟨fun h => absurd h (by omega), fun h => absurd hfirst (not_le.2 h)⟩
  · obtain rfl : K = p := congrArg Prod.snd heq
    refine ⟨hbefore hp fun i hi => (hmono (by omega) (by omega)).trans hlast.le,
      hbehind fun i hi hlt => absurd hlt (by omega), ?_⟩
    exact ⟨fun _ => hlast, fun _ => rfl⟩
  · obtain ⟨hl, hr, hnext⟩ := bisect_spec (not_lt.1 h0) (not_lt.1 hlast)
    obtain ⟨hle, hright⟩ := @bisect_le _ _ _ addr nn.distance _ _ (Nat.zero_le (K - 1))
    generalize bisect addr nn.distance 0 (K - 1) = b at heq hl hr hnext hle hright
    obtain ⟨left, right⟩ := b
    simp only at heq hl hr hnext hle hright
    split_ifs at heq with hid
    · have hlt : K + 1 = p := congrArg Prod.snd heq
      omega
    · obtain rfl : right = p := congrArg Prod.snd heq
      refine ⟨hbefore hp fun i hi => (hmono (by omega) (by omega)).trans hl,
        hbehind fun i hi hlt => hr.trans (hmono hi hlt), ?_⟩
      exact ⟨fun h => by omega, fun h => absurd h hlast⟩

/-! ### A sorted list -/

theorem bisect_right (addr : List (Neighbor D)) (distance : D) (left right : ℕ) :
    (bisect addr distance left right).2 = right ∨
      distance < (addr.getD (bisect addr distance left right).2 default).distance := by
  fun_induction bisect addr distance left right with
  | case1 left right hlt mid hd ih =>
    rcases ih with h | h
    · rw [h]
      exact .inr hd
    · exact .inr h
  | case2 left right hlt mid hd ih => exact ih
  | case3 left right hlt => exact .inl rfl

theorem equalId_of_right {right : ℕ} (h : (addr.getD right default).id = nn.id) (left : ℕ) :
    equalId addr nn right left = true := by
  induction left with
  | zero => simp only [equalId, h, decide_true, Bool.or_true]
  | succ left ih =>
    rw [equalId, ih]
    simp only [h, decide_true, Bool.or_true, ite_self]

/-- The search goes down to an element with the id, as long as no element on its way is nearer. -/
theorem equalId_of_le {right left i : ℕ} (hi : i ≤ left) (hid : (addr.getD i default).id = nn.id)
    (hdist : ∀ j, i ≤ j → j ≤ left → nn.distance ≤ (addr.getD j default).distance) :
    equalId addr nn right left = true := by
  induction left with
  | zero =>
    obtain rfl := Nat.le_zero.1 hi
    simp only [equalId, hid, decide_true, Bool.true_or]
  | succ left ih =>
    rw [equalId, if_neg (not_lt.2 (hdist (left + 1) hi (Nat.le_refl _)))]
    rcases Nat.of_le_succ hi with hle | rfl
    · rw [ih hle fun j hj hjl => hdist j hj (Nat.le_succ_of_le hjl), ite_self]
    · rw [if_pos hid]

theorem insertIntoPool_of_mem (hlen : K ≤ addr.length)
    (hsorted : (addr.take K).Pairwise fun a b => a.distance ≤ b.distance) (he : e ∈ addr.take K)
    (hid : e.id = nn.id) (hdist : e.distance = nn.distance) :
    insertIntoPool addr K nn = (addr, K + 1) := by
  obtain ⟨i, hi, rfl⟩ := (mem_take_iff_getD hlen).1 he
  have hmono : ∀ {i j : ℕ}, i ≤ j → j < K →
      (addr.getD i default).distance ≤ (addr.getD j default).distance :=
    fun hij hj => getD_le_getD hlen hsorted hij hj
  have hfirst : ¬ nn.distance < (addr.getD 0 default).distance :=
    not_lt.2 (hdist ▸ hmono (Nat.zero_le i) hi)
  have hlast : ¬ (addr.getD (K - 1) default).distance < nn.distance :=
    not_lt.2 (hdist ▸ hmono (by omega) (by omega))
  rw [insertIntoPool, if_neg hfirst, if_neg hlast]
  obtain ⟨-, -, hnext⟩ := bisect_spec (not_lt.1 hfirst) (not_lt.1 hlast)
  obtain ⟨hle, hrightK⟩ := @bisect_le _ _ _ addr nn.distance _ _ (Nat.zero_le (K - 1))
  have hright := bisect_right addr nn.distance 0 (K - 1)
  generalize bisect addr nn.distance 0 (K - 1) = b at hnext hle hrightK hright
  obtain ⟨left, right⟩ := b
  dsimp only at hnext hle hrightK hright ⊢
  have hfound : equalId addr nn right left = true := by
    by_cases hil : i ≤ left
    · refine equalId_of_le hil hid fun j hij hjl => ?_
      exact hdist ▸ hmono hij (by omega)
    · -- only the last element lies behind `left` and is not farther away
      rcases hright with hr | hr
      · obtain rfl : i = right := by omega
        exact equalId_of_right hid left
      · have hnear := hmono (show right ≤ i by omega) hi
        rw [hdist] at hnear
        exact absurd hr (not_lt.2 hnear)
  rw [if_pos hfound]

omit [LinearOrder D] [Zero D] in
theorem drop_putAt (hp : p ≤ K) (hK : K ≤ addr.length) :
    (putAt addr K p nn).drop (K + 1) = addr.drop (K + 1) := by
  have hsplit : putAt addr K p nn =
      (addr.take p ++ nn :: (addr.drop p).take (K - p)) ++ addr.drop (K + 1) := by
    rw [putAt, ← cons_append, append_assoc]
  have hlen : (addr.take p ++ nn :: (addr.drop p).take (K - p)).length = K + 1 := by
    simp only [length_append, length_cons, List.length_take, length_drop]
    omega
  rw [hsplit, ← hlen, drop_left]

/-- `InsertIntoPool` and a sorted list of `K` elements in which an element with the new id has its
distance: such an element is found, and `K + 1` is returned; without one the new element comes to a
place of the list that is returned, the list stays sorted, and what is behind it, but for the
element that has to make room, is as it was. -/
theorem insertIntoPool_spec {addr : List (Neighbor D)} {K : ℕ} {nn : Neighbor D} (hK : 1 ≤ K)
    (hlen : K ≤ addr.length)
    (hsorted : (addr.take K).Pairwise fun a b => a.distance ≤ b.distance)
    (hdist : ∀ e ∈ addr.take K, e.id = nn.id → e.distance = nn.distance) :
    ((insertIntoPool addr K nn).2 = K + 1 ↔ ∃ e ∈ addr.take K, e.id = nn.id) ∧
      ((∃ e ∈ addr.take K, e.id = nn.id) → insertIntoPool addr K nn = (addr, K + 1)) ∧
      ((¬ ∃ e ∈ addr.take K, e.id = nn.id) → ∃ p ≤ K, (insertIntoPool addr K nn).2 = p ∧
        (insertIntoPool addr K nn).1.take (K + 1) =
          (addr.take K).take p ++ nn :: (addr.take K).drop p ∧
        ((insertIntoPool addr K nn).1.take (K + 1)).Pairwise (fun a b => a.distance ≤ b.distance) ∧
        (insertIntoPool addr K nn).1.drop (K + 1) = addr.drop (K + 1)) := by
  have hfound : (∃ e ∈ addr.take K, e.id = nn.id) → insertIntoPool addr K nn = (addr, K + 1) := by
    rintro ⟨e, he, hid⟩
    exact insertIntoPool_of_mem hlen hsorted he hid (hdist e he hid)
  have hplace : (¬ ∃ e ∈ addr.take K, e.id = nn.id) → ∃ p ≤ K,
      insertIntoPool addr K nn = (putAt addr K p nn, p) ∧
        (∀ e ∈ (addr.take K).take p, e.distance ≤ nn.distance) ∧
        ∀ e ∈ (addr.take K).drop p, nn.distance ≤ e.distance := by
    intro hnot
    have hnew : nn.id ∉ (addr.take K).map Neighbor.id := by
      intro hmem
      obtain ⟨e, he, hid⟩ := mem_map.1 hmem
      exact hnot ⟨e, he, hid⟩
    obtain ⟨p, hp, heq, hbefore, hbehind, -⟩ := insertIntoPool_place hK hlen hnew hsorted
    exact ⟨p, hp, heq, hbefore, hbehind⟩
  refine ⟨⟨fun h => ?_, fun h => congrArg Prod.snd (hfound h)⟩, hfound, fun hnot => ?_⟩
  · by_contra hnot
    obtain ⟨p, hp, heq, -, -⟩ := hplace hnot
    rw [heq] at h
    dsimp only at h
    omega
  · obtain ⟨p, hp, heq, hbefore, hbehind⟩ := hplace hnot
    rw [heq]
    refine ⟨p, hp, rfl, take_putAt hp hlen, ?_, drop_putAt hp hlen⟩
    rw [take_putAt hp hlen, pairwise_append, pairwise_cons]
    refine ⟨hsorted.sublist (take_sublist _ _), ⟨hbehind, hsorted.sublist (drop_sublist _ _)⟩,
      fun a ha b hb => ?_⟩
    rcases mem_cons.1 hb with rfl | hb
    · exact hbefore a ha
    · exact (hbefore a ha).trans (hbehind b hb)

/-- Two elements at one distance, and a new one at the same distance. -/
theorem insertIntoPool_spec_ties :
    insertIntoPool [.new 4 1 true, .new 5 1 true, default] 2 (.new 5 1 true : Neighbor ℕ) =
      ([.new 4 1 true, .new 5 1 true, default], 3) ∧
    ∃ p ≤ 2, (insertIntoPool [.new 4 1 true, .new 5 1 true, default] 2
      (.new 6 1 true : Neighbor ℕ)).2 = p :=
  ⟨(insertIntoPool_spec (by decide) (by decide) (by decide) (by decide)).2.1
      ⟨.new 5 1 true, by decide, rfl⟩,
    by
      obtain ⟨p, hp, hr, -⟩ := (@insertIntoPool_spec ℕ _ _ [.new 4 1 true, .new 5 1 true, default] 2
        (.new 6 1 true) (by decide) (by decide) (by decide) (by decide)).2.2 (by decide)
      exact ⟨p, hp, hr⟩⟩

end DiskANNEval.PipeANN
