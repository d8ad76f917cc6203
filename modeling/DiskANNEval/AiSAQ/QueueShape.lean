import DiskANNEval.AiSAQ.PriorityQueueRuns

/-!
# QueueShape — what the calls of the queue do, whatever the distances are

A new id is put somewhere, and the last element falls out of a queue that is full;
`insert_with_rem_info` names an element that falls out.  No law of the distances is used, so this
holds in the presence of `NaN`.
-/

namespace DiskANNEval.AiSAQ.PriorityQueue

open Lib List Option

variable {D : Type} {fl : FloatOps D} {q q' : PriorityQueue D} {nbr : Neighbor D}

/-- The cells are there, the ids differ, and `cur` is the first unexpanded element. -/
structure Shape (q : PriorityQueue D) : Prop where
  capacity : 0 < q.capacity
  cells : q.data.length = q.capacity + 1
  size : q.size ≤ q.capacity
  nodup : q.ids.Nodup
  cur_le : q.cur ≤ q.size
  expanded : ∀ i n, i < q.cur → q.held[i]? = some n → n.expanded = true
  unexpanded : ∀ n, q.held[q.cur]? = some n → n.expanded = false

theorem Shape.length_held (h : q.Shape) : q.held.length = q.size := by
  have hcells := h.cells
  have hsize := h.size
  rw [held, List.length_take]
  omega

theorem Shape.length_ids (h : q.Shape) : q.ids.length = q.size := by
  rw [ids, length_map, h.length_held]

theorem shape_new (fl : FloatOps D) {L : ℕ} (hL : 0 < L) : (new fl L).Shape := by
  refine ⟨hL, length_replicate, Nat.zero_le L, nodup_nil, Nat.le_refl 0, ?_, ?_⟩
  · exact fun i n hi => absurd hi (Nat.not_lt_zero i)
  · intro n hn
    cases hn

/-! ### Insertion -/

theorem findIndex_le (fl : FloatOps D) (data : List (Neighbor D)) (nbr : Neighbor D)
    {fuel lo hi : ℕ} (hlo : lo ≤ hi) :
    (∃ i m, i < hi ∧ data[i]? = some m ∧ m.id = nbr.id) ∨
      ∃ p, NeighborPriorityQueue.findIndex fl data nbr fuel lo hi = some p ∧ p ≤ hi := by
  induction fuel generalizing lo hi with
  | zero => exact Or.inr ⟨lo, rfl, hlo⟩
  | succ fuel ih =>
    rw [NeighborPriorityQueue.findIndex]
    by_cases hlt : lo < hi
    · rw [if_pos hlt]
      have hmid : (lo + hi) / 2 < hi := by omega
      rcases hm : data[(lo + hi) / 2]? with _ | m
      · simp only [hm]
        exact Or.inr ⟨lo, rfl, hlo⟩
      · simp only [hm]
        split_ifs with hless hid
        · rcases ih (by omega : lo ≤ (lo + hi) / 2) with ⟨i, m, hi, hget, hid⟩ | ⟨p, hp, hle⟩
          · exact Or.inl ⟨i, m, hi.trans hmid, hget, hid⟩
          · exact Or.inr ⟨p, hp, hle.trans hmid.le⟩
        · exact Or.inl ⟨_, m, hmid, hm, hid⟩
        · exact ih (by omega)
    · rw [if_neg hlt]
      exact Or.inr ⟨lo, rfl, hlo⟩

/-- The elements with a new one at `lo`. -/
def placed (q : PriorityQueue D) (nbr : Neighbor D) (lo : ℕ) : List (Neighbor D) :=
  q.held.take lo ++ .new nbr.id nbr.distance :: q.held.drop lo

/-- What an insertion of a new id does; `rem` is the id that is said to be removed. -/
structure Inserted (q q' : PriorityQueue D) (nbr : Neighbor D) (rem : Option ℕ) (lo : ℕ) : Prop where
  le : lo ≤ q.size
  held : q'.held = (q.placed nbr lo).take q.capacity
  lost : ∀ id ∈ q.ids, id ∉ q'.ids → rem = some id
  capacity : q'.capacity = q.capacity
  cells : q'.data.length = q.data.length
  size : q'.size = min (q.size + 1) q.capacity
  cur : q'.cur = min q.cur lo

theorem Shape.length_placed (h : q.Shape) (nbr : Neighbor D) {lo : ℕ} (hlo : lo ≤ q.size) :
    (q.placed nbr lo).length = q.size + 1 := by
  rw [placed, length_place (h.length_held.symm ▸ hlo), h.length_held]

theorem ids_placed (q : PriorityQueue D) (nbr : Neighbor D) (lo : ℕ) :
    (q.placed nbr lo).map (·.id) = q.ids.take lo ++ nbr.id :: q.ids.drop lo := by
  rw [placed, map_append, map_take, map_cons, map_drop]
  rfl

variable {id : ℕ}

theorem Shape.lost_of_full (h : q.Shape) (hfull : q.size = q.capacity) {lo : ℕ} (hlo : lo < q.size)
    (hid : id ∈ q.ids) (hnot : id ∉ ((q.placed nbr lo).take q.capacity).map (·.id)) :
    q.data[q.size - 1]?.map (·.id) = some id := by
  have hlen := h.length_held
  have hlast : q.held.getLast? = q.data[q.size - 1]? := by
    rw [getLast?_eq_getElem?, hlen, getElem?_held (by omega)]
  rw [← hlast]
  obtain ⟨last, hget⟩ : ∃ last, q.held.getLast? = some last := by
    rw [getLast?_eq_getElem?]
    exact ⟨_, getElem?_eq_getElem (by omega)⟩
  have hconcat := place_eq_concat (x := Neighbor.new nbr.id nbr.distance)
    (by omega : lo < q.held.length) hget
  rw [hget]
  have hmem : id ∈ (q.placed nbr lo).map (·.id) := by
    rw [ids_placed]
    exact (mem_place lo).2 (Or.inr hid)
  rw [placed, hconcat, map_append, hlen, hfull] at hmem
  rcases mem_append.1 hmem with hmem | hmem
  · exact absurd hmem hnot
  · exact congrArg some (mem_singleton.1 hmem).symm

theorem Shape.insertWithRemInfo (h : q.Shape) (fl : FloatOps D) (hnew : nbr.id ∉ q.ids) :
    ∃ lo, Inserted q (q.insertWithRemInfo fl nbr).1 nbr (q.insertWithRemInfo fl nbr).2 lo := by
  have hlen := h.length_held
  have hcells := h.cells
  have hsize := h.size
  -- an element that is put behind the end does not change a full queue
  have hend : q.size = q.capacity → (q.placed nbr q.size).take q.capacity = q.held := by
    intro hfull
    rw [placed, ← hlen, take_length, take_append_of_le_length (by omega),
      take_of_length_le (by omega)]
  rw [PriorityQueue.insertWithRemInfo]
  by_cases hrej : q.rejects fl nbr = true
  · rw [if_pos hrej]
    have hfull : q.size = q.capacity := by
      rw [rejects, Bool.and_eq_true, beq_iff_eq] at hrej
      exact hrej.1
    refine ⟨q.size, le_rfl, (hend hfull).symm, fun id hid hnot => absurd hid hnot, rfl, rfl, ?_, ?_⟩
    · change q.size = _
      omega
    · exact (Nat.min_eq_left h.cur_le).symm
  · rw [if_neg hrej]
    rcases findIndex_le fl q.data nbr (Nat.zero_le q.size) with ⟨i, m, hi, hget, hid⟩ | ⟨lo, hlo, hle⟩
    · refine absurd ?_ hnew
      rw [← hid]
      rw [← getElem?_held hi] at hget
      exact mem_map_of_mem (mem_of_getElem? hget)
    · rw [hlo]
      have hcur : (q.place nbr lo).cur = min q.cur lo := by
        change (if lo < q.cur then lo else q.cur) = _
        split_ifs
        all_goals omega
      have hsize' : (q.place nbr lo).size = min (q.size + 1) q.capacity := by
        change (if q.size < q.capacity then q.size + 1 else q.size) = _
        split_ifs
        all_goals omega
      by_cases hroom : lo < q.capacity
      · have hheld : (q.place nbr lo).held = (q.placed nbr lo).take q.capacity :=
          held_place hcells hsize nbr hle hroom
        refine ⟨lo, hle, hheld, ?_, rfl, ?_, hsize', hcur⟩
        · intro id hid hnot
          rw [ids, hheld] at hnot
          by_cases hfull : q.size = q.capacity
          · rw [if_pos hfull]
            exact h.lost_of_full hfull (by omega) hid hnot
          · refine absurd ?_ hnot
            rw [take_of_length_le (by rw [h.length_placed nbr hle]; omega), ids_placed]
            exact (mem_place lo).2 (Or.inr hid)
        · change (List.set (if lo < q.capacity then q.shift lo else q.data) lo _).length = _
          rw [if_pos hroom, length_set, shift, length_append, length_append,
            List.length_take, List.length_take, length_drop, length_drop]
          omega
      · have hfull : q.size = q.capacity := by omega
        obtain rfl : lo = q.size := by omega
        have hheld : (q.place nbr q.size).held = q.held := by
          change (List.set (if q.size < q.capacity then q.shift q.size else q.data) q.size _).take
            (if q.size < q.capacity then q.size + 1 else q.size) = q.data.take q.size
          rw [if_neg hroom, if_neg hroom, take_set_of_le le_rfl]
        refine ⟨q.size, le_rfl, hheld.trans (hend hfull).symm, ?_, rfl, ?_, hsize', hcur⟩
        · intro id hid hnot
          rw [ids, hheld] at hnot
          exact absurd hid hnot
        · change (List.set (if q.size < q.capacity then q.shift q.size else q.data) q.size _).length = _
          rw [if_neg hroom, length_set]

variable {rem : Option ℕ} {lo : ℕ}

variable {n : Neighbor D}

theorem Inserted.mem_held (hi : Inserted q q' nbr rem lo) (hn : n ∈ q'.held) :
    n = .new nbr.id nbr.distance ∨ n ∈ q.held := by
  rw [hi.held] at hn
  exact (mem_place lo).1 (mem_of_mem_take hn)

theorem Inserted.mem_ids (hi : Inserted q q' nbr rem lo) (hid : id ∈ q'.ids) :
    id = nbr.id ∨ id ∈ q.ids := by
  obtain ⟨n, hn, rfl⟩ := mem_map.1 hid
  rcases hi.mem_held hn with rfl | hn
  · exact Or.inl rfl
  · exact Or.inr (mem_map_of_mem hn)

theorem Inserted.full (hi : Inserted q q' nbr rem lo) (h : q.Shape) (hid : id = nbr.id ∨ id ∈ q.ids)
    (hnot : id ∉ q'.ids) : q'.size = q'.capacity := by
  rw [hi.capacity, hi.size]
  by_contra hne
  refine hnot ?_
  rw [ids, hi.held, take_of_length_le (by rw [h.length_placed nbr hi.le]; omega), ids_placed]
  exact (mem_place lo).2 hid

theorem Shape.inserted (h : q.Shape) (hi : Inserted q q' nbr rem lo) (hnew : nbr.id ∉ q.ids) :
    q'.Shape := by
  have hle := hi.le
  have hlen := h.length_held
  have hsize := h.size
  have hget : ∀ i, i < lo → ∀ n, q'.held[i]? = some n → q.held[i]? = some n := by
    intro i hlt n hn
    rw [hi.held, getElem?_take] at hn
    split_ifs at hn
    rw [placed, getElem?_place (by omega), if_pos hlt] at hn
    exact hn
  refine ⟨hi.capacity ▸ h.capacity, ?_, ?_, ?_, ?_, ?_, ?_⟩
  · rw [hi.cells, hi.capacity, h.cells]
  · rw [hi.size, hi.capacity]
    exact Nat.min_le_right _ _
  · have hids : q'.ids = (q.ids.take lo ++ nbr.id :: q.ids.drop lo).take q.capacity := by
      rw [ids, hi.held, map_take, ids_placed]
    rw [hids]
    refine Nodup.sublist (take_sublist _ _) ?_
    rw [perm_middle.nodup_iff, take_append_drop, nodup_cons]
    exact ⟨hnew, h.nodup⟩
  · rw [hi.cur, hi.size]
    omega
  · intro i n hlt hn
    rw [hi.cur] at hlt
    exact h.expanded i n (by omega) (hget i (by omega) n hn)
  · intro n hn
    rw [hi.cur] at hn
    by_cases hlt : q.cur < lo
    · rw [Nat.min_eq_left hlt.le] at hn
      exact h.unexpanded n (hget _ hlt n hn)
    · rw [Nat.min_eq_right (not_lt.1 hlt), hi.held, getElem?_take] at hn
      split_ifs at hn
      rw [placed, getElem?_place (by omega), if_neg (Nat.lt_irrefl _), if_pos rfl] at hn
      rw [← Option.some.inj hn]
      rfl

/-! ### Marking an element -/

/-- The element at `p` is marked as expanded. -/
structure Marks (q q' : PriorityQueue D) (p : ℕ) : Prop where
  held : ∀ i, q'.held[i]? = q.held[i]?.map fun n => if p = i then { n with expanded := true } else n
  capacity : q'.capacity = q.capacity
  size : q'.size = q.size

variable {p : ℕ}

theorem Marks.ids (hm : Marks q q' p) : q'.ids = q.ids := by
  apply ext_getElem?
  intro i
  rw [getElem?_ids, getElem?_ids, hm.held, Option.map_map]
  congr 1
  funext n
  split_ifs
  · rfl
  · rfl

theorem Marks.getElem? (hm : Marks q q' p) {i : ℕ} (hn : q'.held[i]? = some n) :
    ∃ m, q.held[i]? = some m ∧ n.id = m.id ∧ (p = i → n.expanded = true) ∧
      (p ≠ i → n = m) := by
  rw [hm.held] at hn
  obtain ⟨m, hm, rfl⟩ := map_eq_some_iff.1 hn
  refine ⟨m, hm, ?_⟩
  by_cases hp : p = i
  · rw [if_pos hp]
    exact ⟨rfl, fun _ => rfl, fun hne => absurd hp hne⟩
  · rw [if_neg hp]
    exact ⟨rfl, fun he => absurd he hp, fun _ => rfl⟩

theorem marks_expand (q : PriorityQueue D) (p c : ℕ) : Marks q { q.expand p with cur := c } p :=
  ⟨getElem?_held_expand q p, rfl, rfl⟩

theorem Shape.expand (h : q.Shape) {p c : ℕ} (hc : c ≤ q.size)
    (hexp : ∀ i n, i < c → i ≠ p → q.held[i]? = some n → n.expanded = true)
    (hun : ∀ n, (q.expand p).held[c]? = some n → n.expanded = false) :
    Shape { q.expand p with cur := c } := by
  have hm := marks_expand q p c
  refine ⟨h.capacity, ?_, h.size, ?_, hc, ?_, hun⟩
  · change (modify _ _ _).length = _
    rw [length_modify]
    exact h.cells
  · rw [hm.ids]
    exact h.nodup
  · intro i n hi hn
    obtain ⟨m, hget, -, heq, hne⟩ := hm.getElem? hn
    by_cases hp : p = i
    · exact heq hp
    · rw [hne hp]
      exact hexp i m hi (Ne.symm hp) hget

theorem Shape.closestUnexpanded (h : q.Shape) (hlt : q.cur < q.size) :
    q.closestUnexpanded.1.Shape ∧ Marks q q.closestUnexpanded.1 q.cur ∧
      ∃ n, q.held[q.cur]? = some n ∧ n.expanded = false ∧
        q.closestUnexpanded.2 = some { n with expanded := true } := by
  have hlen := h.length_held
  obtain ⟨-, hexp, hun, hle⟩ := skipExpanded_spec (q.expand q.cur) q.cur
  have hlen' : (q.expand q.cur).held.length = q.size := by
    have hids := congrArg List.length (ids_expand q q.cur)
    rw [ids, ids, length_map, length_map, hlen] at hids
    exact hids
  obtain ⟨n, hn⟩ : ∃ n, q.held[q.cur]? = some n := ⟨_, getElem?_eq_getElem (by omega)⟩
  refine ⟨h.expand ?_ ?_ hun, marks_expand q q.cur _, n, hn, h.unexpanded n hn, ?_⟩
  · rw [← hlen']
    exact hle (by omega)
  · intro i m hi hne hm
    by_cases hic : i < q.cur
    · exact h.expanded i m hic hm
    · refine hexp i m (by omega) hi ?_
      rw [getElem?_held_expand, hm, map_some, if_neg (Ne.symm hne)]
  · change (modify _ _ _)[q.cur]? = _
    rw [getElem?_modify, ← getElem?_held hlt, hn]
    change some (if q.cur = q.cur then _ else _) = _
    rw [if_pos rfl]

theorem Shape.getNextUnexpandedPosition (h : q.Shape) (position : ℕ) (e : Bool) :
    (q.getNextUnexpandedPosition position e).1.Shape ∧
      ((q.getNextUnexpandedPosition position e).2.2 = true →
        ∃ n, q.held[(q.getNextUnexpandedPosition position e).2.1]? = some n ∧
          n.expanded = false) ∧
      if (q.getNextUnexpandedPosition position e).2.2 = true ∧ e = true then
        Marks q (q.getNextUnexpandedPosition position e).1
          (q.getNextUnexpandedPosition position e).2.1
      else (q.getNextUnexpandedPosition position e).1 = q := by
  have hlen := h.length_held
  obtain ⟨-, -, hun, -⟩ := skipExpanded_spec q ((position + 1) % 2 ^ 64)
  rw [PriorityQueue.getNextUnexpandedPosition]
  change (∀ n, q.held[q.nextPosition position]? = some n → n.expanded = false) at hun
  generalize q.nextPosition position = p at hun
  by_cases hp : p < q.size
  · obtain ⟨n, hn⟩ : ∃ n, q.held[p]? = some n := ⟨_, getElem?_eq_getElem (by omega)⟩
    simp only [if_pos hp]
    cases e with
    | false => exact ⟨h, fun _ => ⟨n, hn, hun n hn⟩, rfl⟩
    | true =>
      by_cases hcur : p = q.cur
      · subst hcur
        obtain ⟨hshape, hmarks, -⟩ := h.closestUnexpanded hp
        simp only [if_true]
        exact ⟨hshape, fun _ => ⟨n, hn, hun n hn⟩, hmarks⟩
      · simp only [if_neg hcur]
        refine ⟨?_, fun _ => ⟨n, hn, hun n hn⟩, marks_expand q p q.cur⟩
        -- the first one stays
        refine h.expand h.cur_le (fun i m hi _ hm => h.expanded i m hi hm) fun m hm => ?_
        obtain ⟨m', hm', -, -, hne⟩ := (marks_expand q p q.cur).getElem? hm
        rw [hne hcur]
        exact h.unexpanded m' hm'
  · simp only [if_neg hp]
    exact ⟨h, fun hfalse => absurd hfalse (by simp), by simp⟩

theorem lt_nextPosition {position : ℕ} (q : PriorityQueue D) (hlt : position + 1 < 2 ^ 64) :
    position < q.nextPosition position := by
  rw [nextPosition, Nat.mod_eq_of_lt hlt]
  exact Nat.lt_of_succ_le (skipExpanded_spec q (position + 1)).1

theorem getNextUnexpandedPosition_position (q : PriorityQueue D) (position : ℕ) (e : Bool) :
    (q.getNextUnexpandedPosition position e).2.1 = q.nextPosition position ∧
      ((q.getNextUnexpandedPosition position e).2.2 = true → q.nextPosition position < q.size) := by
  rw [PriorityQueue.getNextUnexpandedPosition]
  by_cases hlt : q.nextPosition position < q.size
  · simp only [if_pos hlt]
    exact ⟨trivial, fun _ => hlt⟩
  · simp only [if_neg hlt]
    exact ⟨trivial, fun hfalse => absurd hfalse (by simp)⟩

/-! ### The ids that wait -/

/-- The id of an element that has not been expanded. -/
def Waiting (q : PriorityQueue D) (id : ℕ) : Prop := ∃ n ∈ q.held, n.id = id ∧ n.expanded = false

theorem Waiting.mem_ids (h : q.Waiting id) : id ∈ q.ids := by
  obtain ⟨n, hn, rfl, -⟩ := h
  exact mem_map_of_mem hn

theorem Shape.eq_of_id (h : q.Shape) {m : Neighbor D} (hn : n ∈ q.held) (hm : m ∈ q.held)
    (hid : n.id = m.id) : n = m :=
  inj_on_of_nodup_map h.nodup hn hm hid

theorem Marks.waiting_iff (hm : Marks q q' p) (h : q.Shape) (hn : q.held[p]? = some n) (id : ℕ) :
    q'.Waiting id ↔ q.Waiting id ∧ id ≠ n.id := by
  constructor
  · rintro ⟨m, hmem, rfl, hun⟩
    obtain ⟨i, hi⟩ := mem_iff_getElem?.1 hmem
    obtain ⟨m', hm', hid, heq, hne⟩ := hm.getElem? hi
    by_cases hp : p = i
    · rw [heq hp] at hun
      cases hun
    · obtain rfl := hne hp
      refine ⟨⟨m, mem_of_getElem? hm', rfl, hun⟩, fun hid => hp ?_⟩
      have hget : q.ids[p]? = q.ids[i]? := by
        rw [getElem?_ids, getElem?_ids, hn, hm', map_some, map_some, hid]
      have hlt : p < q.ids.length := by
        rw [PriorityQueue.ids, length_map]
        exact (List.getElem?_eq_some_iff.1 hn).1
      exact (getElem?_inj hlt h.nodup).1 hget
  · rintro ⟨⟨m, hmem, rfl, hun⟩, hne⟩
    obtain ⟨i, hi⟩ := mem_iff_getElem?.1 hmem
    refine ⟨m, mem_of_getElem? (i := i) ?_, rfl, hun⟩
    rw [hm.held, hi, map_some, if_neg]
    rintro rfl
    rw [hn] at hi
    exact hne (congrArg Neighbor.id (Option.some.inj hi)).symm

theorem Inserted.waiting_iff (hi : Inserted q q' nbr rem lo) (h : q.Shape) (hnew : nbr.id ∉ q.ids)
    (id : ℕ) : q'.Waiting id ↔ id ∈ q'.ids ∧ (id = nbr.id ∨ q.Waiting id) := by
  constructor
  · rintro ⟨n, hn, rfl, hun⟩
    refine ⟨mem_map_of_mem hn, ?_⟩
    rcases hi.mem_held hn with rfl | hn
    · exact Or.inl rfl
    · exact Or.inr ⟨n, hn, rfl, hun⟩
  · rintro ⟨hid, hor⟩
    obtain ⟨n, hn, rfl⟩ := mem_map.1 hid
    refine ⟨n, hn, rfl, ?_⟩
    rcases hi.mem_held hn with rfl | hold
    · rfl
    · rcases hor with heq | ⟨m, hm, hid, hun⟩
      · exact absurd (heq ▸ mem_map_of_mem hold) hnew
      · rw [h.eq_of_id hold hm hid.symm]
        exact hun

theorem Shape.hasUnexpandedNode_iff (h : q.Shape) :
    q.hasUnexpandedNode = true ↔ ∃ id, q.Waiting id := by
  have hlen := h.length_held
  constructor
  · intro hlt
    have hlt : q.cur < q.size := of_decide_eq_true hlt
    obtain ⟨n, hn⟩ : ∃ n, q.held[q.cur]? = some n := ⟨_, getElem?_eq_getElem (by omega)⟩
    exact ⟨n.id, n, mem_of_getElem? hn, rfl, h.unexpanded n hn⟩
  · rintro ⟨id, n, hn, -, hun⟩
    obtain ⟨i, hi⟩ := mem_iff_getElem?.1 hn
    refine decide_eq_true ?_
    by_contra hle
    have hlt := (List.getElem?_eq_some_iff.1 hi).1
    rw [h.expanded i n (by omega) hi] at hun
    cases hun

end DiskANNEval.AiSAQ.PriorityQueue
