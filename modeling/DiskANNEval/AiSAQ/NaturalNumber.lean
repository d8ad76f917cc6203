import DiskANNEval.Lib.Grow
import Mathlib.Data.List.Nodup
import Mathlib.Data.List.Range

/-!
# NaturalNumber — `natural_number_set` and `natural_number_map`

The two containers of small natural numbers that `Index` keeps its slots in: a vector next to a
bitset.  The set trusts its callers (inserting a member twice puts it into the vector twice), so
its agreement with the bitset is a predicate, `NaturalNumberSet.Ok`; the map keeps its counter and
its two vectors together by itself, so these facts are fields.
-/

namespace DiskANNEval.AiSAQ

open Lib List

/-! ## `natural_number_set` -/

/-- `_values_vector` is kept with its back first. -/
structure NaturalNumberSet where
  valuesVector : List ℕ
  valuesBitset : List Bool

namespace NaturalNumberSet

def empty : NaturalNumberSet := ⟨[], []⟩

def isEmpty (s : NaturalNumberSet) : Bool := s.valuesVector.isEmpty

def size (s : NaturalNumberSet) : ℕ := s.valuesVector.length

def insert (s : NaturalNumberSet) (id : ℕ) : NaturalNumberSet where
  valuesVector := id :: s.valuesVector
  valuesBitset := (grow s.valuesBitset (id + 1) false).set id true

/-- `none`: "No values available" is thrown. -/
def popAny (s : NaturalNumberSet) : Option (ℕ × NaturalNumberSet) :=
  match s.valuesVector with
  | [] => none
  | id :: rest => some (id, ⟨rest, s.valuesBitset.set id false⟩)

def clear (_ : NaturalNumberSet) : NaturalNumberSet := empty

/-- `dynamic_bitset::test`, whose precondition is `id < size`: `none` when it is not met. -/
def isInSet (s : NaturalNumberSet) (id : ℕ) : Option Bool := s.valuesBitset[id]?

/-- Insert the numbers of a list in turn. -/
def insertAll (s : NaturalNumberSet) (ids : List ℕ) : NaturalNumberSet := ids.foldl insert s

/-- The vector lists each member once, and the bitset marks the members. -/
structure Ok (s : NaturalNumberSet) : Prop where
  nodup : s.valuesVector.Nodup
  bit_iff : ∀ k, s.valuesBitset[k]? = some true ↔ k ∈ s.valuesVector

@[simp] theorem valuesVector_insert (s : NaturalNumberSet) (id : ℕ) :
    (s.insert id).valuesVector = id :: s.valuesVector := rfl

theorem ok_empty : Ok empty := ⟨nodup_nil, fun k => by simp [empty]⟩

variable {s : NaturalNumberSet} {id : ℕ}

theorem Ok.insert (h : s.Ok) (hid : id ∉ s.valuesVector) : (s.insert id).Ok := by
  refine ⟨nodup_cons.mpr ⟨hid, h.nodup⟩, fun k => ?_⟩
  have hlen : id < (grow s.valuesBitset (id + 1) false).length := by rw [length_grow]; omega
  rw [NaturalNumberSet.insert]
  by_cases hk : k = id
  · subst hk
    simp [getElem?_set_self hlen]
  · rw [getElem?_set_ne (Ne.symm hk), getElem?_grow_eq_some_iff (by simp), h.bit_iff]
    simp [hk]

theorem Ok.popAny {s' : NaturalNumberSet} (h : s.Ok) (hp : s.popAny = some (id, s')) :
    s'.Ok ∧ s.valuesVector = id :: s'.valuesVector := by
  unfold NaturalNumberSet.popAny at hp
  cases hv : s.valuesVector with
  | nil => simp [hv] at hp
  | cons x rest =>
    simp only [hv, Option.some.injEq, Prod.mk.injEq] at hp
    obtain ⟨rfl, rfl⟩ := hp
    have hnd := h.nodup
    rw [hv, nodup_cons] at hnd
    refine ⟨⟨hnd.2, fun k => ?_⟩, rfl⟩
    by_cases hk : k = x
    · subst hk
      simp only [getElem?_set_self', hnd.1]
      cases s.valuesBitset[k]? <;> simp
    · rw [getElem?_set_ne (Ne.symm hk), h.bit_iff, hv]
      simp [hk]

theorem Ok.insert_popAny {s' : NaturalNumberSet} (h : s.Ok) (hp : s.popAny = some (id, s')) :
    s'.insert id = s := by
  have hmem : s.valuesBitset[id]? = some true := by
    rw [h.bit_iff, (h.popAny hp).2]
    exact mem_cons_self
  obtain ⟨hlt, hget⟩ := List.getElem?_eq_some_iff.mp hmem
  unfold NaturalNumberSet.popAny at hp
  cases hv : s.valuesVector with
  | nil => simp [hv] at hp
  | cons x rest =>
    simp only [hv, Option.some.injEq, Prod.mk.injEq] at hp
    obtain ⟨rfl, rfl⟩ := hp
    have hbits : (grow (s.valuesBitset.set x false) (x + 1) false).set x true = s.valuesBitset := by
      rw [grow_of_le (by rw [length_set]; exact hlt), set_set, ← hget]
      exact set_getElem_self hlt
    rw [NaturalNumberSet.insert, hbits, ← hv]

theorem Ok.isInSet_eq (h : s.Ok) {b : Bool} (hb : s.isInSet id = some b) :
    b = true ↔ id ∈ s.valuesVector := by
  rw [← h.bit_iff, show s.valuesBitset[id]? = some b from hb, Option.some.injEq]

theorem valuesVector_insertAll (ids : List ℕ) (s : NaturalNumberSet) :
    (s.insertAll ids).valuesVector = ids.reverse ++ s.valuesVector := by
  induction ids generalizing s with
  | nil => rfl
  | cons i ids ih =>
    rw [show s.insertAll (i :: ids) = (s.insert i).insertAll ids from rfl, ih]
    simp

theorem Ok.insertAll {ids : List ℕ} (h : s.Ok) (hnd : ids.Nodup)
    (hdisj : ∀ i ∈ ids, i ∉ s.valuesVector) : (s.insertAll ids).Ok := by
  induction ids generalizing s with
  | nil => exact h
  | cons i ids ih =>
    obtain ⟨hi, hnd⟩ := nodup_cons.mp hnd
    refine ih (h.insert (hdisj i mem_cons_self)) hnd fun j hj => ?_
    rw [valuesVector_insert, mem_cons, not_or]
    exact ⟨fun hji => hi (hji ▸ hj), hdisj j (mem_cons_of_mem _ hj)⟩

end NaturalNumberSet

/-! ## `natural_number_map` -/

/-- The counter `_size` is the number of bits set, and the two vectors have one length. -/
structure NaturalNumberMap (V : Type) where
  size : ℕ
  valuesVector : List V
  valuesBitset : List Bool
  size_eq : size = valuesBitset.count true
  length_eq : valuesVector.length = valuesBitset.length

namespace NaturalNumberMap

variable {V : Type}

def empty : NaturalNumberMap V := ⟨0, [], [], rfl, rfl⟩

def contains (m : NaturalNumberMap V) (key : ℕ) : Bool := m.valuesBitset[key]? == some true

def tryGet (m : NaturalNumberMap V) (key : ℕ) : Option V :=
  if m.contains key then m.valuesVector[key]? else none

variable {k : ℕ}

theorem count_set_true {bs : List Bool} (h : k < bs.length) :
    (bs.set k true).count true = bs.count true + if bs[k]? = some true then 0 else 1 := by
  rw [count_set h, getElem?_eq_getElem h]
  have hpos : bs[k] = true → 0 < bs.count true := fun hb =>
    count_pos_iff.mpr (hb ▸ getElem_mem h)
  cases hb : bs[k] with
  | false => simp
  | true =>
    have := hpos hb
    simp
    omega

theorem count_set_false {bs : List Bool} (h : k < bs.length) :
    (bs.set k false).count true = bs.count true - if bs[k]? = some true then 1 else 0 := by
  rw [count_set h, getElem?_eq_getElem h]
  cases hb : bs[k] <;> simp

/-- `resize` of both vectors when the key is past their end, then the write. -/
def set [Zero V] (m : NaturalNumberMap V) (key : ℕ) (value : V) : NaturalNumberMap V where
  size := m.size + if m.valuesBitset[key]? = some true then 0 else 1
  valuesVector := (grow m.valuesVector (key + 1) 0).set key value
  valuesBitset := (grow m.valuesBitset (key + 1) false).set key true
  size_eq := by
    rw [count_set_true (by rw [length_grow]; omega), count_grow _ _ (by simp), ← m.size_eq]
    simp only [getElem?_grow_eq_some_iff (show true ≠ false by simp)]
  length_eq := by simp [m.length_eq]

def erase (m : NaturalNumberMap V) (key : ℕ) : NaturalNumberMap V where
  size := m.size - if m.valuesBitset[key]? = some true then 1 else 0
  valuesVector := m.valuesVector
  valuesBitset := m.valuesBitset.set key false
  size_eq := by
    by_cases h : key < m.valuesBitset.length
    · rw [count_set_false h, m.size_eq]
    · rw [List.set_eq_of_length_le (by omega), List.getElem?_eq_none (by omega), m.size_eq]
      simp
  length_eq := by simp [m.length_eq]

def clear (_ : NaturalNumberMap V) : NaturalNumberMap V := empty

/-- The keys in the order `find_first` / `find_next` go through them. -/
def keys (m : NaturalNumberMap V) : List ℕ := (List.range m.valuesBitset.length).filter m.contains

theorem contains_iff (m : NaturalNumberMap V) (k : ℕ) :
    m.contains k = true ↔ m.valuesBitset[k]? = some true := by simp [contains]

theorem contains_iff_tryGet (m : NaturalNumberMap V) (k : ℕ) :
    m.contains k = true ↔ ∃ v, m.tryGet k = some v := by
  unfold tryGet
  by_cases hc : m.contains k = true
  · simp only [hc, true_iff]
    rw [contains_iff] at hc
    have hk : k < m.valuesVector.length := by
      rw [m.length_eq]
      exact (List.getElem?_eq_some_iff.mp hc).1
    exact ⟨_, getElem?_eq_getElem hk⟩
  · simp [hc]

@[simp] theorem tryGet_empty (k : ℕ) : (empty : NaturalNumberMap V).tryGet k = none := by
  simp [tryGet, contains, empty]

theorem tryGet_set_self [Zero V] (m : NaturalNumberMap V) (k : ℕ) (v : V) :
    (m.set k v).tryGet k = some v := by
  have h1 : k < (grow m.valuesBitset (k + 1) false).length := by rw [length_grow]; omega
  have h2 : k < (grow m.valuesVector (k + 1) 0).length := by rw [length_grow]; omega
  have hb : (m.set k v).valuesBitset[k]? = some true := getElem?_set_self h1
  have hv : (m.set k v).valuesVector[k]? = some v := getElem?_set_self h2
  rw [tryGet, if_pos ((contains_iff _ _).mpr hb), hv]

theorem tryGet_set_ne [Zero V] (m : NaturalNumberMap V) {j : ℕ} (v : V) (hj : j ≠ k) :
    (m.set k v).tryGet j = m.tryGet j := by
  have hb : (m.set k v).contains j = m.contains j := by
    rw [Bool.eq_iff_iff, contains_iff, contains_iff]
    show ((grow m.valuesBitset (k + 1) false).set k true)[j]? = some true ↔ _
    rw [getElem?_set_ne (Ne.symm hj), getElem?_grow_eq_some_iff (by simp)]
  unfold tryGet
  rw [hb]
  by_cases hc : m.contains j = true
  · rw [if_pos hc, if_pos hc]
    have hlt : j < m.valuesVector.length := by
      rw [m.length_eq]
      exact (List.getElem?_eq_some_iff.mp ((contains_iff _ _).mp hc)).1
    show ((grow m.valuesVector (k + 1) 0).set k v)[j]? = _
    rw [getElem?_set_ne (Ne.symm hj), getElem?_grow_of_lt hlt]
  · rw [if_neg hc, if_neg hc]

theorem tryGet_erase_self (m : NaturalNumberMap V) (k : ℕ) : (m.erase k).tryGet k = none := by
  unfold tryGet contains
  simp only [erase, getElem?_set_self']
  cases m.valuesBitset[k]? <;> simp

theorem tryGet_erase_ne (m : NaturalNumberMap V) {j : ℕ} (hj : j ≠ k) :
    (m.erase k).tryGet j = m.tryGet j := by
  unfold tryGet contains erase
  rw [getElem?_set_ne (Ne.symm hj)]

theorem size_set_of_none [Zero V] {m : NaturalNumberMap V} (v : V) (h : m.tryGet k = none) :
    (m.set k v).size = m.size + 1 := by
  have hc : ¬ m.valuesBitset[k]? = some true := by
    rw [← contains_iff, contains_iff_tryGet]
    simp [h]
  simp only [set, if_neg hc]

theorem size_erase_of_some {m : NaturalNumberMap V} {v : V} (h : m.tryGet k = some v) :
    (m.erase k).size + 1 = m.size := by
  have hc : m.valuesBitset[k]? = some true := by
    rw [← contains_iff, contains_iff_tryGet]
    exact ⟨v, h⟩
  have hpos : 0 < m.size := by
    rw [m.size_eq]
    exact count_pos_iff.mpr (mem_of_getElem? hc)
  simp only [erase, if_pos hc]
  omega

theorem mem_keys (m : NaturalNumberMap V) (k : ℕ) : k ∈ m.keys ↔ ∃ v, m.tryGet k = some v := by
  rw [keys, mem_filter, List.mem_range, ← contains_iff_tryGet, and_iff_right_iff_imp,
    contains_iff]
  exact fun h => (List.getElem?_eq_some_iff.mp h).1

theorem nodup_keys (m : NaturalNumberMap V) : m.keys.Nodup := nodup_range.filter _

theorem length_keys (m : NaturalNumberMap V) : m.keys.length = m.size := by
  have key : ∀ bs : List Bool,
      ((List.range bs.length).filter fun k => bs[k]? == some true).length = bs.count true := by
    intro bs
    induction bs using reverseRecOn with
    | nil => rfl
    | append_singleton bs b ih =>
      have hf : (List.range bs.length).filter (fun k => (bs ++ [b])[k]? == some true) =
          (List.range bs.length).filter fun k => bs[k]? == some true := by
        refine filter_congr fun k hk => ?_
        rw [getElem?_append_left (List.mem_range.mp hk)]
      rw [length_append, length_singleton, range_succ, filter_append, hf,
        length_append, ih]
      cases b <;> simp
  rw [m.size_eq]
  exact key m.valuesBitset

end NaturalNumberMap

end DiskANNEval.AiSAQ
