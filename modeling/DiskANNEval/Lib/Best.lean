import Mathlib.Data.List.Nodup
import Mathlib.Data.List.Perm.Subperm
import Mathlib.Tactic.SplitIfs

/-!
# Lib.Best — the least elements, kept in a sorted list

`Best r L ins l`: of the elements `ins` the list `l` holds the `L` least by `r`, in order, or all of
them when there are at most `L`.  A new element is put at its place and the last one falls out when
there are too many; an element that is behind a full list is one that would fall out.
-/

namespace DiskANNEval.Lib

open List

variable {α : Type*}

structure Best (r : α → α → Prop) (L : ℕ) (ins l : List α) : Prop where
  sorted : l.Pairwise r
  length : l.length ≤ L
  mem : ∀ x ∈ l, x ∈ ins
  least : ∀ x ∈ ins, x ∉ l → l.length = L ∧ ∀ y ∈ l, r y x

variable {r : α → α → Prop} {L : ℕ} {ins l : List α} {x : α}

theorem Best.nil (r : α → α → Prop) (L : ℕ) : Best r L [] [] :=
  ⟨Pairwise.nil, Nat.zero_le L, fun _ h => h, fun _ h => absurd h not_mem_nil⟩

theorem Best.nodup (h : Best r L ins l) (hirr : ∀ x, ¬ r x x) : l.Nodup :=
  h.sorted.imp fun {a b} hab (he : a = b) => hirr b (by rwa [he] at hab)

theorem Best.congr (h : Best r L ins l) {ins' : List α} (hins : ∀ x, x ∈ ins' ↔ x ∈ ins) :
    Best r L ins' l :=
  ⟨h.sorted, h.length, fun x hx => (hins x).2 (h.mem x hx), fun x hx => h.least x ((hins x).1 hx)⟩

theorem Best.cons_of_mem (h : Best r L ins l) (hx : x ∈ l) : Best r L (x :: ins) l := by
  refine ⟨h.sorted, h.length, fun y hy => mem_cons_of_mem _ (h.mem y hy), fun y hy hyl => ?_⟩
  obtain rfl | hy := mem_cons.1 hy
  · exact absurd hx hyl
  · exact h.least y hy hyl

variable {last : α}

theorem Best.cons_of_last (h : Best r L ins l) (htrans : ∀ x y z, r x y → r y z → r x z)
    (hfull : l.length = L) (hlast : l.getLast? = some last) (hx : r last x) :
    Best r L (x :: ins) l := by
  refine ⟨h.sorted, h.length, fun y hy => mem_cons_of_mem _ (h.mem y hy), fun y hy hyl => ?_⟩
  obtain rfl | hy := mem_cons.1 hy
  · refine ⟨hfull, fun z hz => ?_⟩
    obtain ⟨init, rfl⟩ := getLast?_eq_some_iff.1 hlast
    obtain hz | hz := mem_append.1 hz
    · exact htrans z last _ ((pairwise_append.1 h.sorted).2.2 z hz last (mem_singleton_self _)) hx
    · rw [mem_singleton.1 hz]
      exact hx
  · exact h.least y hy hyl

variable {lo : ℕ}

theorem pairwise_place (htrans : ∀ x y z, r x y → r y z → r x z) (h : l.Pairwise r)
    (hbefore : ∀ y ∈ l.take lo, r y x) (hafter : ∀ y ∈ l.drop lo, r x y) :
    (l.take lo ++ x :: l.drop lo).Pairwise r := by
  refine pairwise_append.2 ⟨h.sublist (take_sublist lo l),
    pairwise_cons.2 ⟨hafter, h.sublist (drop_sublist lo l)⟩, fun y hy z hz => ?_⟩
  obtain rfl | hz := mem_cons.1 hz
  · exact hbefore y hy
  · exact htrans y x z (hbefore y hy) (hafter z hz)

theorem length_place (hlo : lo ≤ l.length) :
    (l.take lo ++ x :: l.drop lo).length = l.length + 1 := by
  rw [length_append, length_cons, List.length_take, length_drop]
  omega

theorem mem_place (lo : ℕ) {y : α} : y ∈ l.take lo ++ x :: l.drop lo ↔ y = x ∨ y ∈ l := by
  rw [mem_append, mem_cons, or_left_comm, ← mem_append, take_append_drop]

theorem getElem?_place (hlo : lo ≤ l.length) (i : ℕ) : (l.take lo ++ x :: l.drop lo)[i]? =
      if i < lo then l[i]? else if i = lo then some x else l[i - 1]? := by
  have hlen : (l.take lo).length = lo := by rw [List.length_take, Nat.min_eq_left hlo]
  split_ifs with hlt heq
  · rw [getElem?_append_left (by omega), getElem?_take_of_lt hlt]
  · rw [heq, getElem?_append_right (by omega), hlen, Nat.sub_self, getElem?_cons_zero]
  · rw [getElem?_append_right (by omega), hlen, getElem?_cons, if_neg (by omega),
      getElem?_drop, show lo + (i - lo - 1) = i - 1 by omega]

theorem Best.place (h : Best r L ins l) (htrans : ∀ x y z, r x y → r y z → r x z)
    (hlo : lo ≤ l.length) (hloL : lo < L) (hbefore : ∀ y ∈ l.take lo, r y x)
    (hafter : ∀ y ∈ l.drop lo, r x y) :
    Best r L (x :: ins) ((l.take lo ++ x :: l.drop lo).take L) := by
  have hpair := pairwise_place htrans h.sorted hbefore hafter
  have hlen := length_place (x := x) hlo
  refine ⟨hpair.sublist (take_sublist _ _), ?_, fun y hy => ?_, fun y hy hyl => ?_⟩
  · rw [List.length_take]
    exact Nat.min_le_left _ _
  · obtain rfl | hy := (mem_place lo).1 (mem_of_mem_take hy)
    · exact mem_cons_self
    · exact mem_cons_of_mem _ (h.mem y hy)
  · by_cases hfall : y ∈ l.take lo ++ x :: l.drop lo
    · -- the one that falls out
      rw [← take_append_drop L (l.take lo ++ x :: l.drop lo)] at hfall hpair
      obtain hin | hout := mem_append.1 hfall
      · exact absurd hin hyl
      · have hpos := length_pos_of_mem hout
        rw [length_drop] at hpos
        rw [List.length_take]
        exact ⟨by omega, fun z hz => (pairwise_append.1 hpair).2.2 z hz y hout⟩
    · have hne : y ≠ x := fun he => hfall ((mem_place lo).2 (Or.inl he))
      have hyl' : y ∉ l := fun hm => hfall ((mem_place lo).2 (Or.inr hm))
      obtain ⟨hfull, hall⟩ := h.least y ((mem_cons.1 hy).resolve_left hne) hyl'
      refine ⟨by rw [List.length_take]; omega, fun z hz => ?_⟩
      obtain rfl | hz := (mem_place lo).1 (mem_of_mem_take hz)
      · have hlt : lo < l.length := by omega
        have hnext : l[lo] ∈ l.drop lo := by
          rw [drop_eq_getElem_cons hlt]
          exact mem_cons_self
        exact htrans z _ y (hafter _ hnext) (hall _ (mem_of_mem_drop hnext))
      · exact hall z hz

theorem place_eq_concat (hlo : lo < l.length) (hlast : l.getLast? = some last) :
    l.take lo ++ x :: l.drop lo = (l.take lo ++ x :: l.drop lo).take l.length ++ [last] := by
  obtain ⟨init, rfl⟩ := getLast?_eq_some_iff.1 hlast
  rw [length_append, length_singleton] at hlo ⊢
  have hle : lo ≤ init.length := by omega
  have hsplit : (init ++ [last]).take lo ++ x :: (init ++ [last]).drop lo =
      (init.take lo ++ x :: init.drop lo) ++ [last] := by
    rw [take_append_of_le_length hle, drop_append_of_le_length hle, append_assoc]
    rfl
  have hlen := length_place (x := x) hle
  rw [hsplit, take_append_of_le_length (Nat.le_of_eq hlen.symm),
    take_of_length_le (Nat.le_of_eq hlen)]

theorem mem_not_mem_take_iff {n : ℕ} {y : α} (h : l = l.take n ++ [last]) (hnodup : l.Nodup) :
    y ∈ l ∧ y ∉ l.take n ↔ y = last := by
  have hlast : last ∈ l := by
    rw [h]
    exact mem_append_right _ (mem_singleton_self last)
  constructor
  · rintro ⟨hy, hnot⟩
    rw [h] at hy
    exact mem_singleton.1 ((mem_append.1 hy).resolve_left hnot)
  · rintro rfl
    rw [h] at hnodup
    exact ⟨hlast, fun hy => disjoint_of_nodup_append hnodup hy (mem_singleton_self y)⟩

theorem Best.mem_of_not_last (h : Best r L ins l) (hL : 0 < L) (hx : x ∈ ins)
    (hlast : ∀ last, l.length = L → l.getLast? = some last → ¬ r last x) : x ∈ l := by
  by_contra hxl
  obtain ⟨hfull, hall⟩ := h.least x hx hxl
  have hne : l ≠ [] := ne_nil_of_length_pos (by omega)
  exact hlast _ hfull (getLast?_eq_some_getLast hne) (hall _ (getLast_mem hne))

theorem Best.unique {l' : List α} (h : Best r L ins l) (h' : Best r L ins l') (hirr : ∀ x, ¬ r x x)
    (htrans : ∀ x y z, r x y → r y z → r x z) : l = l' := by
  have hsub : ∀ {l l' : List α}, Best r L ins l → Best r L ins l' → ∀ x ∈ l, x ∈ l' := by
    intro l l' h h' x hx
    by_contra hnot
    obtain ⟨hfull, hall⟩ := h'.least x (h.mem x hx) hnot
    -- some element of the other list is missing as well
    obtain ⟨y, hy, hyl⟩ : ∃ y ∈ l', y ∉ l := by
      by_contra hnone
      have hin : ∀ y ∈ l', y ∈ l := fun y hy => by_contra fun hn => hnone ⟨y, hy, hn⟩
      have hperm := (subperm_of_subset (h'.nodup hirr) hin).perm_of_length_le
        (hfull ▸ h.length)
      exact hnot (hperm.mem_iff.2 hx)
    exact hirr x (htrans x y x ((h.least y (h'.mem y hy) hyl).2 x hx) (hall y hy))
  have hperm : l.Perm l' := (perm_ext_iff_of_nodup (h.nodup hirr) (h'.nodup hirr)).2 fun x =>
    ⟨hsub h h' x, hsub h' h x⟩
  refine hperm.eq_of_pairwise (fun a b _ _ hab hba => ?_) h.sorted h'.sorted
  exact absurd (htrans a b a hab hba) (hirr a)

end DiskANNEval.Lib
