import DiskANNEval.Lib.Bytes

/-!
# Lib.Pages — several buffers, each with a number

A write goes to one of the pages.  Writes into one part of one page, however many, leave all other
parts of the pages as they were (`SameOutside`).
-/

namespace DiskANNEval.Lib

open Function

abbrev Pages := ℕ → List UInt8

namespace Pages

/-- The bytes are written over page `s` from `off` on; `none`: they do not fit. -/
def put (b : Pages) (s off : ℕ) (bs : List UInt8) : Option Pages :=
  (write (b s) off bs).map fun buf => Function.update b s buf

/-- The pages have the same bytes outside of `[lo, hi)` of page `s`. -/
structure SameOutside (b c : Pages) (s lo hi : ℕ) : Prop where
  length_eq : ∀ k, (b k).length = (c k).length
  slice_eq : ∀ k o l, (k = s → o + l ≤ lo ∨ hi ≤ o) → slice (b k) o l = slice (c k) o l

variable {b b' c d : Pages} {s off lo hi : ℕ} {bs : List UInt8}

theorem SameOutside.trans (h : SameOutside b c s lo hi) (h' : SameOutside c d s lo hi) :
    SameOutside b d s lo hi :=
  ⟨fun k => (h.length_eq k).trans (h'.length_eq k),
    fun k o l ho => (h.slice_eq k o l ho).trans (h'.slice_eq k o l ho)⟩

theorem SameOutside.mono {lo' hi' : ℕ} (h : SameOutside b c s lo hi) (hlo : lo' ≤ lo)
    (hhi : hi ≤ hi') : SameOutside b c s lo' hi' := by
  refine ⟨h.length_eq, fun k o l ho => h.slice_eq k o l fun hk => ?_⟩
  omega

theorem put_isSome (h : off + bs.length ≤ (b s).length) : ∃ b', b.put s off bs = some b' := by
  obtain ⟨buf, hbuf⟩ := write_isSome h
  exact ⟨_, by rw [put, hbuf, Option.map_some]⟩

theorem slice_put_same (h : b.put s off bs = some b') : slice (b' s) off bs.length = bs := by
  rw [put, Option.map_eq_some_iff] at h
  obtain ⟨buf, hbuf, rfl⟩ := h
  rw [update_self]
  exact slice_write_same hbuf

theorem sameOutside_put (h : b.put s off bs = some b') :
    SameOutside b' b s off (off + bs.length) := by
  rw [put, Option.map_eq_some_iff] at h
  obtain ⟨buf, hbuf, rfl⟩ := h
  have hsame := agreesOutside_write hbuf
  refine ⟨fun k => ?_, fun k o l ho => ?_⟩
  · by_cases hk : k = s
    · rw [hk, update_self]
      exact hsame.1
    · rw [update_of_ne hk]
  · by_cases hk : k = s
    · rw [hk, update_self]
      exact hsame.2 o l (ho hk)
    · rw [update_of_ne hk]

end Pages

end DiskANNEval.Lib
