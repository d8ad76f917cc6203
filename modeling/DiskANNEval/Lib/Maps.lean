import Mathlib

/-!
# Lib.Maps — maps as association lists

Sizes of maps, and the map that a loop over some entries builds.
-/

namespace DiskANNEval.Lib

open List

variable {K V : Type*} [DecidableEq K]

variable {m : AList fun _ : K => V} {k : K} {v : V}

theorem length_insert (v : V) (h : m.lookup k = none) :
    (m.insert k v).entries.length = m.entries.length + 1 := by
  rw [AList.entries_insert_of_notMem (AList.lookup_eq_none.1 h), length_cons]

theorem length_erase (h : m.lookup k = some v) :
    (m.erase k).entries.length + 1 = m.entries.length := by
  have hm : k ∈ m.keys := AList.lookup_isSome.1 (by rw [h]; rfl)
  have hkeys : ∀ m : AList fun _ : K => V, m.entries.length = m.keys.length := fun m =>
    (length_map _).symm
  have hpos := length_pos_of_mem hm
  rw [hkeys, hkeys, AList.keys_erase, length_erase_of_mem hm]
  omega

variable {es : List (K × V)}

theorem lookup_foldl_insert (hnd : (es.map Prod.fst).Nodup) (m : AList fun _ : K => V) (k : K)
    (v : V) : (es.foldl (fun m e => m.insert e.1 e.2) m).lookup k = some v ↔
      (k, v) ∈ es ∨ k ∉ es.map Prod.fst ∧ m.lookup k = some v := by
  induction es generalizing m with
  | nil => simp
  | cons e es ih =>
    rw [map_cons, nodup_cons] at hnd
    obtain ⟨he, hnd⟩ := hnd
    obtain ⟨k', v'⟩ := e
    rw [foldl_cons, ih hnd]
    by_cases hk : k = k'
    · subst hk
      have hno : ∀ w, (k, w) ∉ es := fun w hw => he (mem_map.2 ⟨_, hw, rfl⟩)
      simp only [map_cons, mem_cons, Prod.mk.injEq, hno, false_or]
      rw [AList.lookup_insert]
      simp only [he, not_false_eq_true, true_and, Option.some.injEq, not_true_eq_false,
        false_and, or_false]
      exact eq_comm
    · rw [AList.lookup_insert_ne hk]
      simp [hk]

theorem mem_foldl_insert (es : List (K × V)) (m : AList fun _ : K => V) (k : K) :
    k ∈ es.foldl (fun m e => m.insert e.1 e.2) m ↔ k ∈ es.map Prod.fst ∨ k ∈ m := by
  induction es generalizing m with
  | nil => simp
  | cons e es ih =>
    rw [foldl_cons, ih, AList.mem_insert, map_cons, mem_cons]
    tauto

theorem length_foldl_insert (hnd : (es.map Prod.fst).Nodup) (m : AList fun _ : K => V)
    (hm : ∀ e ∈ es, m.lookup e.1 = none) :
    (es.foldl (fun m e => m.insert e.1 e.2) m).entries.length = m.entries.length + es.length := by
  induction es generalizing m with
  | nil => rfl
  | cons e es ih =>
    rw [map_cons, nodup_cons] at hnd
    obtain ⟨he, hnd⟩ := hnd
    rw [foldl_cons, ih hnd, length_insert _ (hm e mem_cons_self), length_cons]
    · omega
    · intro e' he'
      have hne : e'.1 ≠ e.1 := fun h => he (mem_map.2 ⟨e', he', h⟩)
      rw [AList.lookup_insert_ne hne]
      exact hm e' (mem_cons_of_mem _ he')

/-- The map that the pairs are entered in, one after the other. -/
def mapOf (es : List (K × V)) : AList fun _ : K => V := es.foldl (fun m e => m.insert e.1 e.2) ∅

theorem lookup_mapOf (hnd : (es.map Prod.fst).Nodup) :
    (mapOf es).lookup k = some v ↔ (k, v) ∈ es := by
  rw [mapOf, lookup_foldl_insert hnd]
  simp

theorem length_entries_eq_card {F : Finset K} (h : ∀ k, (m.lookup k).isSome = true ↔ k ∈ F) :
    m.entries.length = F.card := by
  have hF : m.keys.toFinset = F := by
    ext k
    rw [mem_toFinset, ← h k, AList.lookup_isSome]
    rfl
  rw [← hF, toFinset_card_of_nodup m.keys_nodup]
  exact (length_map _).symm

theorem mem_entries : (⟨k, v⟩ : Sigma fun _ : K => V) ∈ m.entries ↔ m.lookup k = some v :=
  AList.mem_lookup_iff.symm

/-! ### Values replaced in place -/

/-- The map with `f` applied to its values. -/
def mapValues (f : V → V) (m : AList fun _ : K => V) : AList fun _ : K => V where
  entries := m.entries.map (.map id fun _ => f)
  nodupKeys := m.nodupKeys.map₂ (fun _ => f) m.entries

omit [DecidableEq K] in
theorem mapValues_mapValues (f g : V → V) (m : AList fun _ : K => V) :
    mapValues g (mapValues f m) = mapValues (g ∘ f) m := by
  apply AList.ext
  show List.map _ (List.map _ m.entries) = List.map _ m.entries
  rw [map_map]
  rfl

theorem mapValues_eq_self {f : V → V} (h : ∀ k v, m.lookup k = some v → f v = v) :
    mapValues f m = m := by
  apply AList.ext
  show List.map _ m.entries = m.entries
  conv_rhs => rw [← map_id m.entries]
  apply map_congr_left
  rintro ⟨k, v⟩ he
  show (⟨k, f v⟩ : Sigma fun _ : K => V) = ⟨k, v⟩
  rw [h k v (mem_entries.1 he)]

end DiskANNEval.Lib
