import DiskANNEval.AiSAQ.Index
import DiskANNEval.AiSAQ.PriorityQueue

/-!
# PriorityQueueRuns — the queue holds the closest elements, whatever is called

Where the distances are ordered, `operator<` orders the ids, and the binary search finds the place of
an id in the sorted array.  So after any calls the queue holds the closest of the ids inserted so far
(`Lib.Best`), `_cur` is the first unexpanded element, and an id that was handed out belongs to an
expanded element or has left the queue for good (`Held`).  `closest_unexpanded` of a queue without an
unexpanded element returns a cell that is not an element, whose id may be one that was handed out.
-/

namespace DiskANNEval.AiSAQ

open Lib List

variable {D : Type} {fl : FloatOps D} {S : D → Prop} {dist : ℕ → D}

/-! ### The order of the ids -/

/-- `<` and `==` on the distances in `S` are those of an order, as they are for floats that are not
`NaN`. -/
structure FloatOps.OrderedOn (fl : FloatOps D) (S : D → Prop) : Prop where
  asymm : ∀ a b, S a → S b → fl.lt a b = true → fl.lt b a = false
  connected : ∀ a b c, S a → S b → S c → fl.lt a c = true → fl.lt a b = true ∨ fl.lt b c = true
  eq_iff : ∀ a b, S a → S b → (fl.eq a b = true ↔ fl.lt a b = false ∧ fl.lt b a = false)

/-- `operator<` on the ids, each with its distance. -/
def Before (fl : FloatOps D) (dist : ℕ → D) (i j : ℕ) : Prop :=
  fl.lt (dist i) (dist j) = true ∨ fl.eq (dist i) (dist j) = true ∧ i < j

theorem Neighbor.lt_iff {a b : Neighbor D} (ha : a.distance = dist a.id)
    (hb : b.distance = dist b.id) : a.lt fl b = true ↔ Before fl dist a.id b.id := by
  rw [Neighbor.lt, Bool.or_eq_true, Bool.and_eq_true, decide_eq_true_iff, ha, hb]
  rfl

theorem before_irrefl (hfl : fl.OrderedOn S) (hdist : ∀ i, S (dist i)) (i : ℕ) :
    ¬ Before fl dist i i := by
  rintro (h | ⟨-, h⟩)
  · have := hfl.asymm _ _ (hdist i) (hdist i) h
    rw [h] at this
    cases this
  · exact lt_irrefl i h

theorem before_trans (hfl : fl.OrderedOn S) (hdist : ∀ i, S (dist i)) (i j k : ℕ)
    (hij : Before fl dist i j) (hjk : Before fl dist j k) : Before fl dist i k := by
  obtain hij | ⟨hij, hlt⟩ := hij
  · -- `i` is closer than `j`, and `k` is not
    obtain h | h := hfl.connected _ _ _ (hdist i) (hdist k) (hdist j) hij
    · exact Or.inl h
    · obtain hjk | ⟨hjk, -⟩ := hjk
      · rw [hfl.asymm _ _ (hdist j) (hdist k) hjk] at h
        cases h
      · rw [((hfl.eq_iff _ _ (hdist j) (hdist k)).1 hjk).2] at h
        cases h
  · have hij' := (hfl.eq_iff _ _ (hdist i) (hdist j)).1 hij
    obtain hjk | ⟨hjk, hlt'⟩ := hjk
    · obtain h | h := hfl.connected _ _ _ (hdist j) (hdist i) (hdist k) hjk
      · rw [hij'.2] at h
        cases h
      · exact Or.inl h
    · have hjk' := (hfl.eq_iff _ _ (hdist j) (hdist k)).1 hjk
      refine Or.inr ⟨(hfl.eq_iff _ _ (hdist i) (hdist k)).2 ⟨?_, ?_⟩, hlt.trans hlt'⟩
      · by_contra h
        obtain h | h := hfl.connected _ _ _ (hdist i) (hdist j) (hdist k) (by simpa using h)
        · rw [hij'.1] at h
          cases h
        · rw [hjk'.1] at h
          cases h
      · by_contra h
        obtain h | h := hfl.connected _ _ _ (hdist k) (hdist j) (hdist i) (by simpa using h)
        · rw [hjk'.2] at h
          cases h
        · rw [hij'.2] at h
          cases h

theorem before_of_not_before (hfl : fl.OrderedOn S) (hdist : ∀ i, S (dist i)) {i j : ℕ}
    (h : ¬ Before fl dist i j) (hne : i ≠ j) : Before fl dist j i := by
  have hlt : fl.lt (dist i) (dist j) = false := by
    by_contra hne
    exact h (Or.inl (by simpa using hne))
  by_cases hji : fl.lt (dist j) (dist i) = true
  · exact Or.inl hji
  · have hji' : fl.lt (dist j) (dist i) = false := by simpa using hji
    have hle : ¬ i < j := fun hij =>
      h (Or.inr ⟨(hfl.eq_iff _ _ (hdist i) (hdist j)).2 ⟨hlt, hji'⟩, hij⟩)
    exact Or.inr ⟨(hfl.eq_iff _ _ (hdist j) (hdist i)).2 ⟨hji', hlt⟩, by omega⟩

/-! ### The binary search -/

theorem findIndex_spec (hfl : fl.OrderedOn S) (hdist : ∀ i, S (dist i)) {data : List (Neighbor D)}
    {nbr : Neighbor D} {n : ℕ} (hnbr : nbr.distance = dist nbr.id) (hn : n ≤ data.length)
    (hd : ∀ i m, i < n → data[i]? = some m → m.distance = dist m.id)
    (hsorted : ∀ i j m m', i < j → j < n → data[i]? = some m → data[j]? = some m' →
      Before fl dist m.id m'.id) {fuel lo hi : ℕ} (hfuel : hi - lo ≤ fuel) (hlo : lo ≤ hi)
    (hhi : hi ≤ n)
    (hbefore : ∀ i m, i < lo → data[i]? = some m → Before fl dist m.id nbr.id)
    (hafter : ∀ i m, hi ≤ i → i < n → data[i]? = some m → Before fl dist nbr.id m.id) :
    (NeighborPriorityQueue.findIndex fl data nbr fuel lo hi = none ∧
      ∃ i m, i < n ∧ data[i]? = some m ∧ m.id = nbr.id) ∨
    ∃ r ≤ n, NeighborPriorityQueue.findIndex fl data nbr fuel lo hi = some r ∧
      (∀ i m, i < r → data[i]? = some m → Before fl dist m.id nbr.id) ∧
      ∀ i m, r ≤ i → i < n → data[i]? = some m → Before fl dist nbr.id m.id := by
  induction fuel generalizing lo hi with
  | zero =>
    obtain rfl : lo = hi := by omega
    exact Or.inr ⟨lo, hhi, rfl, hbefore, hafter⟩
  | succ fuel ih =>
    rw [NeighborPriorityQueue.findIndex]
    by_cases hlt : lo < hi
    · rw [if_pos hlt]
      have hmid : (lo + hi) / 2 < data.length := by omega
      have hget := getElem?_eq_getElem hmid
      set m := data[(lo + hi) / 2] with hm
      have hmd : m.distance = dist m.id := hd _ m (by omega) hget
      dsimp only
      rw [hget]
      dsimp only
      by_cases hlt' : nbr.lt fl m = true
      · rw [if_pos hlt']
        have hnm := (Neighbor.lt_iff hnbr hmd).1 hlt'
        refine ih (by omega) (by omega) (by omega) hbefore fun i m' hi hin hm' => ?_
        obtain rfl | hgt := Nat.eq_or_lt_of_le hi
        · rw [hget] at hm'
          cases hm'
          exact hnm
        · exact before_trans hfl hdist _ _ _ hnm (hsorted _ _ _ _ hgt hin hget hm')
      · rw [if_neg hlt']
        by_cases hid : m.id = nbr.id
        · rw [if_pos hid]
          exact Or.inl ⟨rfl, _, m, by omega, hget, hid⟩
        · rw [if_neg hid]
          have hmn : Before fl dist m.id nbr.id := before_of_not_before hfl hdist
            (fun h => hlt' ((Neighbor.lt_iff hnbr hmd).2 h)) fun he => hid he.symm
          refine ih (by omega) (by omega) (by omega) (fun i m' hi hm' => ?_) hafter
          obtain rfl | hle := Nat.eq_or_lt_of_le (Nat.le_of_lt_succ hi)
          · rw [hget] at hm'
            cases hm'
            exact hmn
          · exact before_trans hfl hdist _ _ _ (hsorted _ _ _ _ hle (by omega) hm' hget) hmn
    · rw [if_neg hlt]
      obtain rfl : lo = hi := by omega
      exact Or.inr ⟨lo, hhi, rfl, hbefore, hafter⟩

namespace PriorityQueue

/-! ### The elements -/

/-- After the ids `ins` were inserted and the ids `out` handed out. -/
structure Holds (fl : FloatOps D) (dist : ℕ → D) (L : ℕ) (ins out : List ℕ) (q : PriorityQueue D) :
    Prop where
  capacity : q.capacity = L
  cells : q.data.length = L + 1
  size : q.size ≤ L
  best : Best (Before fl dist) L ins q.ids
  distance : ∀ n ∈ q.held, n.distance = dist n.id
  cur_le : q.cur ≤ q.size
  expanded : ∀ i n, i < q.cur → q.held[i]? = some n → n.expanded = true
  unexpanded : ∀ n, q.held[q.cur]? = some n → n.expanded = false
  out_inserted : ∀ i ∈ out, i ∈ ins
  out_expanded : ∀ n ∈ q.held, n.id ∈ out → n.expanded = true
  nodup : out.Nodup

variable {L : ℕ} {ins out : List ℕ} {q : PriorityQueue D} {nbr : Neighbor D}

theorem Holds.length_held (h : Holds fl dist L ins out q) : q.held.length = q.size := by
  have hcells := h.cells
  have hsize := h.size
  rw [held, List.length_take]
  omega

theorem Holds.length_ids (h : Holds fl dist L ins out q) : q.ids.length = q.size := by
  rw [ids, length_map, h.length_held]

theorem getElem?_held {i : ℕ} (hi : i < q.size) : q.held[i]? = q.data[i]? :=
  getElem?_take_of_lt hi

theorem getElem?_ids (i : ℕ) : q.ids[i]? = q.held[i]?.map (·.id) := getElem?_map

theorem holds_new (fl : FloatOps D) (dist : ℕ → D) (L : ℕ) : Holds fl dist L [] [] (new fl L) := by
  refine ⟨rfl, length_replicate, Nat.zero_le L, Best.nil _ L, fun n hn => ?_, le_rfl,
    fun i n hi => absurd hi (Nat.not_lt_zero i), fun n hn => ?_, fun i hi => hi, fun n hn => ?_,
    nodup_nil⟩
  · exact absurd hn not_mem_nil
  · cases hn
  · exact absurd hn not_mem_nil

theorem Holds.getLast?_ids (h : Holds fl dist L ins out q) (hL : 0 < L) (hfull : q.size = L) :
    ∃ last, q.data[q.size - 1]? = some last ∧ last.distance = dist last.id ∧
      q.ids.getLast? = some last.id := by
  have hlen := h.length_held
  obtain ⟨last, hlast⟩ : ∃ last, q.held[q.size - 1]? = some last :=
    ⟨_, getElem?_eq_getElem (by omega)⟩
  refine ⟨last, ?_, h.distance last (mem_of_getElem? hlast), ?_⟩
  · rw [← getElem?_held (by omega)]
    exact hlast
  · rw [getLast?_eq_getElem?, h.length_ids, getElem?_ids, hlast]
    rfl

theorem Holds.rejects_iff (h : Holds fl dist L ins out q) (hL : 0 < L)
    (hnbr : nbr.distance = dist nbr.id) :
    q.rejects fl nbr = true ↔
      q.size = L ∧ ∀ last, q.ids.getLast? = some last → Before fl dist last nbr.id := by
  rw [rejects, Bool.and_eq_true, beq_iff_eq, h.capacity]
  refine and_congr_right fun hfull => ?_
  obtain ⟨last, hget, hdist, hlast⟩ := h.getLast?_ids hL hfull
  rw [hget, hlast, Option.any_some, Neighbor.lt_iff hdist hnbr]
  exact ⟨fun hb i hi => Option.some.inj hi ▸ hb, fun hb => hb _ rfl⟩

theorem Holds.findIndex (h : Holds fl dist L ins out q) (hfl : fl.OrderedOn S)
    (hdist : ∀ i, S (dist i)) (hnbr : nbr.distance = dist nbr.id) :
    (NeighborPriorityQueue.findIndex fl q.data nbr q.size 0 q.size = none ∧ nbr.id ∈ q.ids) ∨
    ∃ lo ≤ q.size, NeighborPriorityQueue.findIndex fl q.data nbr q.size 0 q.size = some lo ∧
      (∀ i ∈ q.ids.take lo, Before fl dist i nbr.id) ∧
      ∀ i ∈ q.ids.drop lo, Before fl dist nbr.id i := by
  have hcells := h.cells
  have hsize := h.size
  have hid : ∀ {i m}, i < q.size → q.data[i]? = some m → q.ids[i]? = some m.id := by
    intro i m hi hm
    rw [getElem?_ids, getElem?_held hi, hm]
    rfl
  have hsorted : ∀ i j m m', i < j → j < q.size → q.data[i]? = some m → q.data[j]? = some m' →
      Before fl dist m.id m'.id := by
    intro i j m m' hij hj hm hm'
    obtain ⟨h₁, h₁'⟩ := List.getElem?_eq_some_iff.1 (hid (hij.trans hj) hm)
    obtain ⟨h₂, h₂'⟩ := List.getElem?_eq_some_iff.1 (hid hj hm')
    rw [← h₁', ← h₂']
    exact pairwise_iff_getElem.1 h.best.sorted i j h₁ h₂ hij
  obtain ⟨hnone, i, m, hi, hm, hmi⟩ | ⟨r, hr, hsome, hb, ha⟩ := findIndex_spec hfl hdist hnbr
    (by omega)
    (fun i m hi hm => h.distance m (mem_of_getElem? ((getElem?_held hi).trans hm)))
    hsorted (Nat.sub_le q.size 0) (Nat.zero_le _) le_rfl
    (fun i m hi => absurd hi (Nat.not_lt_zero i)) (fun i m hi hi' => absurd hi (by omega))
  · exact Or.inl ⟨hnone, hmi ▸ mem_of_getElem? (hid hi hm)⟩
  · have hdata : ∀ {i j}, q.ids[i]? = some j → ∃ m, q.data[i]? = some m ∧ m.id = j ∧ i < q.size := by
      intro i j hj
      have hi := (List.getElem?_eq_some_iff.1 hj).1
      rw [h.length_ids] at hi
      rw [getElem?_ids, getElem?_held hi] at hj
      obtain ⟨m, hm, hmj⟩ := Option.map_eq_some_iff.1 hj
      exact ⟨m, hm, hmj, hi⟩
    refine Or.inr ⟨r, hr, hsome, fun j hj => ?_, fun j hj => ?_⟩
    · obtain ⟨i, hi⟩ := mem_iff_getElem?.1 hj
      have hir : i < r := by
        have := (List.getElem?_eq_some_iff.1 hi).1
        rw [List.length_take] at this
        omega
      rw [getElem?_take_of_lt hir] at hi
      obtain ⟨m, hm, rfl, -⟩ := hdata hi
      exact hb i m hir hm
    · obtain ⟨i, hi⟩ := mem_iff_getElem?.1 hj
      rw [getElem?_drop] at hi
      obtain ⟨m, hm, rfl, hlt⟩ := hdata hi
      exact ha _ m (Nat.le_add_right r i) hlt hm

/-! ### A new element at its place -/

variable {lo : ℕ}

theorem held_place (hcells : q.data.length = q.capacity + 1) (hsize : q.size ≤ q.capacity)
    (nbr : Neighbor D) (hlo : lo ≤ q.size) (hlt : lo < q.capacity) : (q.place nbr lo).held =
      (q.held.take lo ++ .new nbr.id nbr.distance :: q.held.drop lo).take q.capacity := by
  have hlen : q.held.length = q.size := by
    rw [held, List.length_take]
    omega
  have hdata : (q.place nbr lo).data =
      (q.held.take lo ++ .new nbr.id nbr.distance :: q.held.drop lo) ++ q.data.drop (q.size + 1) := by
    have hlt' : lo < q.data.length := by omega
    show List.set (if lo < q.capacity then q.shift lo else q.data) lo _ = _
    rw [if_pos hlt, shift, held, take_take, Nat.min_eq_left hlo,
      drop_take, append_assoc, set_append_left _ _ (by rw [List.length_take]; omega),
      take_add_one, getElem?_eq_getElem hlt',
      set_append_right _ _ (by rw [List.length_take]; omega), List.length_take,
      Nat.min_eq_left (by omega), Nat.sub_self, append_assoc,
      append_assoc]
    rfl
  have hlen' := length_place (x := Neighbor.new nbr.id nbr.distance) (hlo.trans hlen.ge)
  rw [hlen] at hlen'
  show List.take (if q.size < q.capacity then q.size + 1 else q.size) (q.place nbr lo).data = _
  rw [hdata]
  by_cases hroom : q.size < q.capacity
  · rw [if_pos hroom, take_append_of_le_length hlen'.ge, take_of_length_le hlen'.le,
      take_of_length_le (hlen'.le.trans hroom)]
  · rw [if_neg hroom, take_append_of_le_length (by omega), show q.size = q.capacity by omega]

theorem Holds.held_place (h : Holds fl dist L ins out q) (nbr : Neighbor D) (hlo : lo ≤ q.size)
    (hloL : lo < L) : (q.place nbr lo).held =
      (q.held.take lo ++ .new nbr.id nbr.distance :: q.held.drop lo).take L := by
  have hcap := h.capacity
  subst hcap
  exact PriorityQueue.held_place h.cells h.size nbr hlo hloL

theorem Holds.ids_place (h : Holds fl dist L ins out q) (hlo : lo ≤ q.size) (hloL : lo < L) :
    (q.place nbr lo).ids = (q.ids.take lo ++ nbr.id :: q.ids.drop lo).take L := by
  rw [ids, h.held_place nbr hlo hloL, map_take, map_append, map_take, map_cons,
    map_drop]
  rfl

theorem Holds.place (h : Holds fl dist L ins out q) (hfl : fl.OrderedOn S) (hdist : ∀ i, S (dist i))
    (hnbr : nbr.distance = dist nbr.id) (hout : nbr.id ∉ out) (hlo : lo ≤ q.size) (hloL : lo < L)
    (hbefore : ∀ i ∈ q.ids.take lo, Before fl dist i nbr.id)
    (hafter : ∀ i ∈ q.ids.drop lo, Before fl dist nbr.id i) :
    Holds fl dist L (nbr.id :: ins) out (q.place nbr lo) := by
  have hcells := h.cells
  have hsize := h.size
  have hheld := h.held_place nbr hlo hloL
  have hlo' : lo ≤ q.held.length := by rwa [h.length_held]
  have hmem : ∀ n ∈ (q.place nbr lo).held, n = .new nbr.id nbr.distance ∨ n ∈ q.held := by
    intro n hn
    rw [hheld] at hn
    exact (mem_place lo).1 (mem_of_mem_take hn)
  have hget : ∀ i n, (q.place nbr lo).held[i]? = some n →
      (if i < lo then q.held[i]? else if i = lo then some (Neighbor.new nbr.id nbr.distance)
        else q.held[i - 1]?) = some n := by
    intro i n hn
    rw [hheld, getElem?_take] at hn
    split_ifs at hn
    rwa [← getElem?_place hlo']
  refine ⟨h.capacity, ?_, ?_, ?_, fun n hn => ?_, ?_, fun i n hi hn => ?_, fun n hn => ?_,
    fun i hi => mem_cons_of_mem _ (h.out_inserted i hi), fun n hn hno => ?_, h.nodup⟩
  · show (List.set (if lo < q.capacity then q.shift lo else q.data) lo _).length = L + 1
    rw [length_set, if_pos (by rw [h.capacity]; exact hloL), shift, length_append,
      length_append, List.length_take, List.length_take, length_drop, length_drop]
    omega
  · show (if q.size < q.capacity then q.size + 1 else q.size) ≤ L
    rw [h.capacity]
    split_ifs <;> omega
  · rw [h.ids_place hlo hloL]
    refine h.best.place (before_trans hfl hdist) ?_ hloL hbefore hafter
    rwa [h.length_ids]
  · obtain rfl | hn := hmem n hn
    · exact hnbr
    · exact h.distance n hn
  · show (if lo < q.cur then lo else q.cur) ≤ if q.size < q.capacity then q.size + 1 else q.size
    split_ifs <;> omega
  · have hi' : i < if lo < q.cur then lo else q.cur := hi
    have hn' := hget i n hn
    have hlt : i < lo ∧ i < q.cur := by
      split_ifs at hi' <;> omega
    rw [if_pos hlt.1] at hn'
    exact h.expanded i n hlt.2 hn'
  · have hn' : (q.place nbr lo).held[if lo < q.cur then lo else q.cur]? = some n := hn
    have hn'' := hget _ n hn'
    by_cases hlt : lo < q.cur
    · rw [if_pos hlt, if_neg (lt_irrefl lo), if_pos rfl] at hn''
      cases hn''
      rfl
    · rw [if_neg hlt] at hn''
      by_cases heq : q.cur = lo
      · rw [if_neg (by omega), if_pos heq] at hn''
        cases hn''
        rfl
      · rw [if_pos (by omega)] at hn''
        exact h.unexpanded n hn''
  · obtain rfl | hn := hmem n hn
    · exact absurd hno hout
    · exact h.out_expanded n hn hno

theorem Holds.cons_ins (h : Holds fl dist L ins out q) {i : ℕ}
    (hbest : Best (Before fl dist) L (i :: ins) q.ids) : Holds fl dist L (i :: ins) out q :=
  { h with
    best := hbest
    out_inserted := fun j hj => mem_cons_of_mem _ (h.out_inserted j hj) }

/-- Of the ids in the queue and the new one exactly those with `id` in `rem` have no place. -/
def RemOk (q q' : PriorityQueue D) (nbr : Neighbor D) (rem : Option ℕ) : Prop :=
  ∀ id, rem = some id ↔ (id = nbr.id ∨ id ∈ q.ids) ∧ id ∉ q'.ids

theorem Holds.insertWithRemInfo (h : Holds fl dist L ins out q) (hfl : fl.OrderedOn S)
    (hdist : ∀ i, S (dist i)) (hL : 0 < L) (hnbr : nbr.distance = dist nbr.id) :
    Holds fl dist L (nbr.id :: ins) out (q.insertWithRemInfo fl nbr).1 ∧
      RemOk q (q.insertWithRemInfo fl nbr).1 nbr (q.insertWithRemInfo fl nbr).2 := by
  have hirr := before_irrefl hfl hdist
  rw [PriorityQueue.insertWithRemInfo]
  by_cases hrej : q.rejects fl nbr = true
  · rw [if_pos hrej]
    obtain ⟨hfull, hlast⟩ := (h.rejects_iff hL hnbr).1 hrej
    obtain ⟨last, -, -, hget⟩ := h.getLast?_ids hL hfull
    have hnot : nbr.id ∉ q.ids := by
      intro hm
      obtain ⟨init, hinit⟩ := getLast?_eq_some_iff.1 hget
      have hsorted := h.best.sorted
      rw [hinit] at hm hsorted
      obtain hm | hm := mem_append.1 hm
      · exact hirr _ (before_trans hfl hdist _ _ _
          ((pairwise_append.1 hsorted).2.2 _ hm _ (mem_singleton_self _))
          (hlast _ hget))
      · rw [mem_singleton] at hm
        exact hirr nbr.id (by simpa only [← hm] using hlast _ hget)
    refine ⟨h.cons_ins (h.best.cons_of_last (before_trans hfl hdist) ?_ hget (hlast _ hget)),
      fun i => ⟨?_, ?_⟩⟩
    · rw [h.length_ids, hfull]
    · intro hi
      cases hi
      exact ⟨Or.inl rfl, hnot⟩
    · rintro ⟨rfl | hi, hi'⟩
      · rfl
      · exact absurd hi hi'
  · rw [if_neg hrej]
    obtain ⟨hnone, hmem⟩ | ⟨lo, hlo, hsome, hbefore, hafter⟩ := h.findIndex hfl hdist hnbr
    · rw [hnone]
      refine ⟨h.cons_ins (h.best.cons_of_mem hmem), fun i => ⟨fun hi => ?_, ?_⟩⟩
      · cases hi
      · rintro ⟨rfl | hi, hi'⟩
        · exact absurd hmem hi'
        · exact absurd hi hi'
    · rw [hsome]
      have hlen := h.length_ids
      have hsize := h.size
      have hnot : nbr.id ∉ q.ids := by
        intro hm
        rw [← take_append_drop lo q.ids] at hm
        obtain hm | hm := mem_append.1 hm
        · exact hirr _ (hbefore _ hm)
        · exact hirr _ (hafter _ hm)
      have hloL : lo < L := by
        by_contra hge
        refine hrej ((h.rejects_iff hL hnbr).2 ⟨by omega, fun last hl => hbefore last ?_⟩)
        rw [take_of_length_le (by omega)]
        exact mem_of_getLast? hl
      have hout : nbr.id ∉ out := by
        intro ho
        refine hnot (h.best.mem_of_not_last hL (h.out_inserted _ ho) fun last hfull hl hb => ?_)
        refine hrej ((h.rejects_iff hL hnbr).2 ⟨by omega, fun last' hl' => ?_⟩)
        rw [hl] at hl'
        exact Option.some.inj hl' ▸ hb
      refine ⟨h.place hfl hdist hnbr hout hlo hloL hbefore hafter, fun i => ?_⟩
      show (if q.size = q.capacity then q.data[q.size - 1]?.map (·.id) else none) = some i ↔
        (i = nbr.id ∨ i ∈ q.ids) ∧ i ∉ (q.place nbr lo).ids
      rw [h.ids_place hlo hloL, h.capacity]
      by_cases hfull : q.size = L
      · obtain ⟨last, hget, -, hlast⟩ := h.getLast?_ids hL hfull
        have hconcat := place_eq_concat (x := nbr.id) (by omega : lo < q.ids.length) hlast
        have hnodup := (pairwise_place (before_trans hfl hdist) h.best.sorted hbefore hafter).imp
          fun {a b} hab (he : a = b) => hirr b (by rwa [he] at hab)
        rw [hlen, hfull] at hconcat
        rw [if_pos hfull, hget, ← mem_place lo, mem_not_mem_take_iff hconcat hnodup]
        exact ⟨fun hi => (Option.some.inj hi).symm, fun hi => by rw [hi]; rfl⟩
      · have hlen' := length_place (x := nbr.id) (by omega : lo ≤ q.ids.length)
        rw [if_neg hfull, take_of_length_le (by omega), mem_place]
        exact ⟨fun hi => absurd hi (Option.some_ne_none i).symm, fun hi => absurd hi.1 hi.2⟩

theorem insert_eq (q : PriorityQueue D) (nbr : Neighbor D) :
    q.insert fl nbr = (q.insertWithRemInfo fl nbr).1 := by
  rw [PriorityQueue.insert, PriorityQueue.insertWithRemInfo]
  by_cases hrej : q.rejects fl nbr = true
  · rw [if_pos hrej, if_pos hrej]
  · rw [if_neg hrej, if_neg hrej]
    cases NeighborPriorityQueue.findIndex fl q.data nbr q.size 0 q.size with
    | none => rfl
    | some lo => rfl

/-! ### Expanded elements -/

theorem getElem?_held_expand (q : PriorityQueue D) (p i : ℕ) :
    (q.expand p).held[i]? = q.held[i]?.map fun n => if p = i then { n with expanded := true } else n := by
  show ((q.data.modify p _).take q.size)[i]? = (q.data.take q.size)[i]?.map _
  rw [getElem?_take, getElem?_take]
  by_cases hi : i < q.size
  · rw [if_pos hi, if_pos hi, getElem?_modify]
    rfl
  · rw [if_neg hi, if_neg hi]
    rfl

theorem ids_expand (q : PriorityQueue D) (p : ℕ) : (q.expand p).ids = q.ids := by
  apply ext_getElem?
  intro i
  rw [getElem?_ids, getElem?_ids, getElem?_held_expand, Option.map_map]
  congr 1
  funext n
  show (if p = i then { n with expanded := true } else n : Neighbor D).id = n.id
  split_ifs <;> rfl

theorem Holds.expand (h : Holds fl dist L ins out q) {p c : ℕ} {out' : List ℕ} (hc : c ≤ q.size)
    (hexp : ∀ i n, i < c → i ≠ p → q.held[i]? = some n → n.expanded = true)
    (hun : ∀ n, (q.expand p).held[c]? = some n → n.expanded = false)
    (hins : ∀ i ∈ out', i ∈ ins) (hnodup : out'.Nodup)
    (hout : ∀ i n, i ≠ p → q.held[i]? = some n → n.id ∈ out' → n.expanded = true) :
    Holds fl dist L ins out' { q.expand p with cur := c } := by
  have hget : ∀ i n, (q.expand p).held[i]? = some n → ∃ n₀, q.held[i]? = some n₀ ∧ n.id = n₀.id ∧
      n.distance = n₀.distance ∧ (p = i → n.expanded = true) ∧ (i ≠ p → n.expanded = n₀.expanded) := by
    intro i n hn
    rw [getElem?_held_expand] at hn
    obtain ⟨n₀, hn₀, rfl⟩ := Option.map_eq_some_iff.1 hn
    refine ⟨n₀, hn₀, ?_⟩
    by_cases hpi : p = i
    · rw [if_pos hpi]
      exact ⟨rfl, rfl, fun _ => rfl, fun hne => absurd hpi.symm hne⟩
    · rw [if_neg hpi]
      exact ⟨rfl, rfl, fun he => absurd he hpi, fun _ => rfl⟩
  refine ⟨h.capacity, ?_, h.size, ?_, fun n hn => ?_, hc, fun i n hi hn => ?_, hun, hins,
    fun n hn hno => ?_, hnodup⟩
  · show (modify _ _ _).length = L + 1
    rw [length_modify]
    exact h.cells
  · show Best _ L ins (q.expand p).ids
    rw [ids_expand]
    exact h.best
  · obtain ⟨i, hi⟩ := mem_iff_getElem?.1 hn
    obtain ⟨n₀, hn₀, hid, hd, -, -⟩ := hget i n hi
    rw [hid, hd]
    exact h.distance n₀ (mem_of_getElem? hn₀)
  · obtain ⟨n₀, hn₀, -, -, heq, hne⟩ := hget i n hn
    by_cases hpi : i = p
    · exact heq hpi.symm
    · rw [hne hpi]
      exact hexp i n₀ hi hpi hn₀
  · obtain ⟨i, hi⟩ := mem_iff_getElem?.1 hn
    obtain ⟨n₀, hn₀, hid, -, heq, hne⟩ := hget i n hi
    by_cases hpi : i = p
    · exact heq hpi.symm
    · rw [hne hpi]
      exact hout i n₀ hpi hn₀ (by rwa [← hid])

theorem skipExpanded_spec (q : PriorityQueue D) (i : ℕ) :
    i ≤ q.skipExpanded i ∧ (∀ j n, i ≤ j → j < q.skipExpanded i → q.held[j]? = some n →
      n.expanded = true) ∧ (∀ n, q.held[q.skipExpanded i]? = some n → n.expanded = false) ∧
    (i ≤ q.held.length → q.skipExpanded i ≤ q.held.length) := by
  refine ⟨Nat.le_add_right _ _, fun j n hij hj hn => ?_, fun n hn => ?_, fun hi => ?_⟩
  · obtain ⟨k, rfl⟩ := Nat.exists_eq_add_of_le hij
    rw [← getElem?_drop] at hn
    exact of_getElem?_takeWhile (Nat.lt_of_add_lt_add_left hj) hn
  · rw [skipExpanded, ← getElem?_drop] at hn
    exact not_of_getElem?_takeWhile hn
  · have hle := (List.takeWhile_prefix (fun n : Neighbor D => n.expanded)
      (l := q.held.drop i)).length_le
    rw [length_drop] at hle
    rw [skipExpanded]
    omega

theorem Holds.skipExpanded_le (h : Holds fl dist L ins out q) :
    (q.expand q.cur).skipExpanded q.cur ≤ q.size := by
  have hlen : (q.expand q.cur).held.length = q.size := by
    have := h.length_ids
    rwa [← ids_expand q q.cur, ids, length_map] at this
  rw [← hlen]
  apply (skipExpanded_spec _ _).2.2.2
  rw [hlen]
  exact h.cur_le

theorem Holds.closestUnexpanded (h : Holds fl dist L ins out q)
    (hirr : ∀ i, ¬ Before fl dist i i) (hlt : q.cur < q.size) :
    ∃ id, q.handOut = [(true, id)] ∧ Holds fl dist L ins (out ++ [id]) q.closestUnexpanded.1 := by
  obtain ⟨-, hexp, hun, -⟩ := skipExpanded_spec (q.expand q.cur) q.cur
  obtain ⟨n, hn⟩ : ∃ n, q.held[q.cur]? = some n :=
    ⟨_, getElem?_eq_getElem (by rw [h.length_held]; exact hlt)⟩
  have hnot : n.id ∉ out := by
    intro ho
    have hf := h.unexpanded n hn
    rw [h.out_expanded n (mem_of_getElem? hn) ho] at hf
    cases hf
  have hid : q.ids[q.cur]? = some n.id := by
    rw [getElem?_ids, hn]
    rfl
  refine ⟨n.id, ?_, h.expand h.skipExpanded_le (fun i n' hi hne hn' => ?_) hun ?_ ?_ ?_⟩
  · have hcell : (q.expand q.cur).data[q.cur]? = some { n with expanded := true } := by
      show (modify _ _ _)[q.cur]? = _
      rw [getElem?_modify, ← getElem?_held hlt, hn]
      show some (if q.cur = q.cur then { n with expanded := true } else n) = _
      rw [if_pos rfl]
    show (Option.map _ (q.expand q.cur).data[q.cur]?).toList = _
    rw [hcell]
    show [(decide (q.cur < q.size), n.id)] = _
    rw [decide_eq_true hlt]
  · by_cases hic : i < q.cur
    · exact h.expanded i n' hic hn'
    · refine hexp i n' (by omega) hi ?_
      rw [getElem?_held_expand, hn', Option.map_some, if_neg fun he => hne he.symm]
  · intro i hi
    obtain hi | hi := mem_append.1 hi
    · exact h.out_inserted i hi
    · rw [mem_singleton.1 hi]
      exact h.best.mem _ (mem_of_getElem? hid)
  · exact nodup_append'.2 ⟨h.nodup, nodup_singleton _, fun i hi hi' =>
      hnot (mem_singleton.1 hi' ▸ hi)⟩
  · intro i n' hne hn' hi
    obtain hi | hi := mem_append.1 hi
    · exact h.out_expanded n' (mem_of_getElem? hn') hi
    · have hid' : q.ids[i]? = some n.id := by
        rw [getElem?_ids, hn', Option.map_some, mem_singleton.1 hi]
      have hlen := (List.getElem?_eq_some_iff.1 hid').1
      exact absurd ((getElem?_inj hlen (h.best.nodup hirr)).1 (hid'.trans hid.symm)) hne

theorem Holds.closestUnexpanded_of_le (h : Holds fl dist L ins out q) (hle : q.size ≤ q.cur) :
    (∀ x ∈ q.handOut, x.1 = false) ∧ Holds fl dist L ins out q.closestUnexpanded.1 := by
  obtain ⟨-, -, hun, -⟩ := skipExpanded_spec (q.expand q.cur) q.cur
  refine ⟨fun x hx => ?_, h.expand h.skipExpanded_le (fun i n hi _ hn => ?_) hun h.out_inserted
    h.nodup fun i n _ hn => h.out_expanded n (mem_of_getElem? hn)⟩
  · obtain ⟨n, -, rfl⟩ := Option.map_eq_some_iff.1 (Option.mem_toList.1 hx)
    exact decide_eq_false (by omega)
  · exact h.expanded i n (hi.trans_le (h.skipExpanded_le.trans hle)) hn

/-- What was handed out while there was an unexpanded element. -/
def guarded (l : List (Bool × ℕ)) : List ℕ := (l.filter fun x => x.1).map Prod.snd

theorem guarded_append (l l' : List (Bool × ℕ)) : guarded (l ++ l') = guarded l ++ guarded l' := by
  rw [guarded, filter_append, map_append]
  rfl

theorem guarded_eq_nil {l : List (Bool × ℕ)} (h : ∀ x ∈ l, x.1 = false) : guarded l = [] := by
  rw [guarded, filter_eq_nil_iff.2 fun x hx => by rw [h x hx]; exact Bool.false_ne_true]
  rfl

theorem Holds.handOut (h : Holds fl dist L ins out q) (hirr : ∀ i, ¬ Before fl dist i i) :
    Holds fl dist L ins (out ++ guarded q.handOut) q.closestUnexpanded.1 := by
  by_cases hlt : q.cur < q.size
  · obtain ⟨id, hid, h'⟩ := h.closestUnexpanded hirr hlt
    rw [hid]
    exact h'
  · obtain ⟨hx, h'⟩ := h.closestUnexpanded_of_le (by omega)
    rw [guarded_eq_nil hx, append_nil]
    exact h'

/-! ### Runs -/

theorem Holds.call (h : Holds fl dist L ins out q) (hfl : fl.OrderedOn S) (hdist : ∀ i, S (dist i))
    (hL : 0 < L) {c : QueueCall D} (hc : c.Consistent dist) :
    Holds fl dist L (c.inserted ++ ins) (out ++ guarded (q.handsOut c)) (q.call fl c) := by
  have hirr := before_irrefl hfl hdist
  have hsame : Holds fl dist L ins (out ++ guarded []) q := by
    rw [show guarded [] = [] from rfl, append_nil]
    exact h
  cases c with
  | insert nbr =>
    rw [show guarded (q.handsOut (.insert nbr)) = [] from rfl, append_nil]
    show Holds fl dist L (nbr.id :: ins) out (q.insert fl nbr)
    rw [insert_eq]
    exact (h.insertWithRemInfo hfl hdist hL hc).1
  | insertWithRemInfo nbr =>
    rw [show guarded (q.handsOut (.insertWithRemInfo nbr)) = [] from rfl, append_nil]
    exact (h.insertWithRemInfo hfl hdist hL hc).1
  | closestUnexpanded => exact h.handOut hirr
  | getFirstUnexpandedPosition expand =>
    show Holds fl dist L ins (out ++ guarded (if q.cur < q.size ∧ expand = true then _ else _))
      (q.getFirstUnexpandedPosition expand).1
    rw [PriorityQueue.getFirstUnexpandedPosition]
    by_cases hlt : q.cur < q.size
    · rw [if_pos hlt]
      by_cases he : expand = true
      · rw [if_pos ⟨hlt, he⟩, if_pos he]
        exact h.handOut hirr
      · rw [if_neg fun hand => he hand.2, if_neg he]
        exact hsame
    · rw [if_neg hlt, if_neg fun hand => hlt hand.1]
      exact hsame
  | getNextUnexpandedPosition position expand =>
    show Holds fl dist L ins (out ++ guarded (if q.nextPosition position < q.size ∧ expand = true ∧
      q.nextPosition position = q.cur then _ else _)) (q.getNextUnexpandedPosition position expand).1
    rw [PriorityQueue.getNextUnexpandedPosition]
    by_cases hlt : q.nextPosition position < q.size
    · rw [if_pos hlt]
      by_cases he : expand = true
      · rw [if_pos he]
        by_cases hcur : q.nextPosition position = q.cur
        · rw [if_pos ⟨hlt, he, hcur⟩, if_pos hcur]
          exact h.handOut hirr
        · rw [if_neg fun hand => hcur hand.2.2, if_neg hcur, show guarded [] = [] from rfl,
            append_nil]
          refine h.expand h.cur_le (fun i n hi _ => h.expanded i n hi) (fun n hn => ?_)
            h.out_inserted h.nodup fun i n _ hn => h.out_expanded n (mem_of_getElem? hn)
          rw [getElem?_held_expand] at hn
          obtain ⟨n₀, hn₀, rfl⟩ := Option.map_eq_some_iff.1 hn
          rw [if_neg hcur]
          exact h.unexpanded n₀ hn₀
      · rw [if_neg fun hand => he hand.2.1, if_neg he]
        exact hsame
    · rw [if_neg hlt, if_neg fun hand => hlt hand.1]
      exact hsame

theorem Holds.run (h : Holds fl dist L ins out q) (hfl : fl.OrderedOn S) (hdist : ∀ i, S (dist i))
    (hL : 0 < L) {calls : List (QueueCall D)} (hcalls : ∀ c ∈ calls, c.Consistent dist) :
    ∃ ins', (∀ i, i ∈ ins' ↔ i ∈ calls.flatMap QueueCall.inserted ∨ i ∈ ins) ∧
      Holds fl dist L ins' (out ++ guarded (q.handedOut fl calls)) (q.run fl calls) := by
  induction calls generalizing q ins out with
  | nil =>
    refine ⟨ins, fun i => ?_, ?_⟩
    · rw [flatMap_nil]
      exact ⟨Or.inr, fun hi => hi.resolve_left not_mem_nil⟩
    · rw [handedOut, show guarded [] = [] from rfl, append_nil]
      exact h
  | cons c calls ih =>
    obtain ⟨ins', hins', h'⟩ := ih (h.call hfl hdist hL (hcalls c mem_cons_self))
      fun c' hc' => hcalls c' (mem_cons_of_mem _ hc')
    refine ⟨ins', fun i => ?_, ?_⟩
    · rw [hins', flatMap_cons, mem_append, mem_append, or_left_comm, or_assoc]
    · rw [handedOut, guarded_append, ← append_assoc]
      exact h'

theorem Holds.cur_eq_findIdx (h : Holds fl dist L ins out q) :
    q.cur = q.held.findIdx fun n => !n.expanded := by
  have hlen := h.length_held
  obtain hlt | heq := h.cur_le.lt_or_eq
  · have hcur : q.cur < q.held.length := by rwa [hlen]
    refine ((findIdx_eq hcur).2 ⟨?_, fun j hj => ?_⟩).symm
    · rw [h.unexpanded _ (getElem?_eq_getElem hcur)]
      rfl
    · have hj' : j < q.held.length := hj.trans hcur
      rw [h.expanded j _ hj (getElem?_eq_getElem hj')]
      rfl
  · rw [heq, ← hlen, eq_comm, findIdx_eq_length]
    intro n hn
    obtain ⟨i, hi⟩ := mem_iff_getElem?.1 hn
    have hlt := (List.getElem?_eq_some_iff.1 hi).1
    rw [h.expanded i n (by omega) hi]
    rfl

theorem Holds.sorted (h : Holds fl dist L ins out q) :
    q.held.Pairwise fun a b => a.lt fl b = true := by
  refine (pairwise_map.1 h.best.sorted).imp_of_mem fun {a b} ha hb hab => ?_
  exact (Neighbor.lt_iff (h.distance a ha) (h.distance b hb)).2 hab

/-- The queue after some calls. -/
structure AfterCalls (fl : FloatOps D) (dist : ℕ → D) (L : ℕ) (calls : List (QueueCall D))
    (q : PriorityQueue D) : Prop where
  sorted : q.held.Pairwise fun a b => a.lt fl b = true
  nodup : q.ids.Nodup
  best : Best (Before fl dist) L (calls.flatMap QueueCall.inserted) q.ids
  cur : q.cur = q.held.findIdx fun n => !n.expanded
  once : (guarded ((new fl L).handedOut fl calls)).Nodup
  rem : ∀ nbr, nbr.distance = dist nbr.id →
    RemOk q (q.insertWithRemInfo fl nbr).1 nbr (q.insertWithRemInfo fl nbr).2

/-- The queue holds the closest of the inserted ids, in order, and hands each out once. -/
theorem afterCalls_run (hfl : fl.OrderedOn S) (hdist : ∀ i, S (dist i)) (hL : 1 ≤ L)
    (calls : List (QueueCall D)) (hcalls : ∀ c ∈ calls, c.Consistent dist) :
    AfterCalls fl dist L calls ((new fl L).run fl calls) := by
  obtain ⟨ins', hins', h⟩ := (holds_new fl dist L).run hfl hdist hL hcalls
  refine ⟨h.sorted, h.best.nodup (before_irrefl hfl hdist), h.best.congr fun i => ?_,
    h.cur_eq_findIdx, h.nodup, fun nbr hnbr => (h.insertWithRemInfo hfl hdist hL hnbr).2⟩
  rw [hins']
  exact ⟨Or.inl, fun hi => hi.resolve_right List.not_mem_nil⟩

/-! ### Small queues -/

theorem orderedOn_natConfig : natConfig.fl.OrderedOn fun _ => True where
  asymm a b _ _ h := by
    have hlt : a < b := of_decide_eq_true h
    exact decide_eq_false (by omega)
  connected a b c _ _ _ h := by
    have hlt : a < c := of_decide_eq_true h
    by_cases hab : a < b
    · exact Or.inl (decide_eq_true hab)
    · exact Or.inr (decide_eq_true (by omega))
  eq_iff a b _ _ := by
    show (a == b) = true ↔ decide (a < b) = false ∧ decide (b < a) = false
    rw [beq_iff_eq, decide_eq_false_iff_not, decide_eq_false_iff_not]
    omega

/-- Two ids at one distance, an id that is there, one that falls out and comes again. -/
def mixedCalls : List (QueueCall ℕ) :=
  [.insert ⟨4, 2, false⟩, .insertWithRemInfo ⟨6, 3, false⟩, .closestUnexpanded,
    .insert ⟨5, 2, false⟩, .insert ⟨4, 2, false⟩, .getFirstUnexpandedPosition true,
    .getNextUnexpandedPosition 0 true, .insertWithRemInfo ⟨6, 3, false⟩, .closestUnexpanded]

theorem afterCalls_mixedCalls :
    AfterCalls natConfig.fl (· / 2) 2 mixedCalls ((new natConfig.fl 2).run natConfig.fl mixedCalls) :=
  afterCalls_run orderedOn_natConfig (fun _ => trivial) (by decide) mixedCalls (by
    intro c hc
    fin_cases hc <;> first | rfl | trivial)

/-- The cell behind the elements has the id `0`. -/
theorem zero_handed_out_twice :
    0 ∈ ((new natConfig.fl 1).run natConfig.fl
        [.insert ⟨0, 5, false⟩, .closestUnexpanded, .closestUnexpanded]).ids ∧
      ((new natConfig.fl 1).handedOut natConfig.fl
        [.insert ⟨0, 5, false⟩, .closestUnexpanded, .closestUnexpanded]).map Prod.snd = [0, 0] := by
  decide +kernel

end PriorityQueue

end DiskANNEval.AiSAQ
