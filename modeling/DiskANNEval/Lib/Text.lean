import Mathlib

/-!
# Lib.Text — lines, pieces and decimal numbers

`pieces sep s` are the pieces into which `std::getline` cuts a text: what stands behind the last
separator is a piece when it is not empty.  `stoul` reads a number as `std::stoul` does, and `joined`
and `terminated` write a text which has given pieces.
-/

namespace DiskANNEval.Lib

open List

variable {sep : Char} {p s : List Char} {ps : List (List Char)}

/-! ### Pieces -/

def pieces (sep : Char) : List Char → List (List Char)
  | [] => []
  | c :: s =>
    if c = sep then [] :: pieces sep s
    else
      match pieces sep s with
      | [] => [[c]]
      | p :: ps => (c :: p) :: ps

@[simp] theorem pieces_nil (sep : Char) : pieces sep [] = [] := rfl

theorem pieces_cons_self (sep : Char) (s : List Char) :
    pieces sep (sep :: s) = [] :: pieces sep s := by
  rw [pieces, if_pos rfl]

theorem pieces_append (h : sep ∉ p) (s : List Char) :
    pieces sep (p ++ sep :: s) = p :: pieces sep s := by
  induction p with
  | nil => exact pieces_cons_self sep s
  | cons c p ih =>
    obtain ⟨hc, hp⟩ := not_or.1 (mt mem_cons.2 h)
    rw [cons_append, pieces, if_neg (Ne.symm hc), ih hp]

theorem pieces_of_notMem (h : sep ∉ p) (hne : p ≠ []) : pieces sep p = [p] := by
  induction p with
  | nil => exact absurd rfl hne
  | cons c p ih =>
    obtain ⟨hc, hp⟩ := not_or.1 (mt mem_cons.2 h)
    rw [pieces, if_neg (Ne.symm hc)]
    by_cases hnil : p = []
    · rw [hnil, pieces_nil]
    · rw [ih hp hnil]

@[elab_as_elim]
theorem pieces_induction (sep : Char) {motive : List Char → Prop} (nil : motive [])
    (last : ∀ p, p ≠ [] → sep ∉ p → motive p)
    (piece : ∀ p s, sep ∉ p → motive s → motive (p ++ sep :: s)) (s : List Char) : motive s := by
  induction hn : s.length using Nat.strong_induction_on generalizing s with
  | _ n ih =>
    by_cases hmem : sep ∈ s
    · obtain ⟨p, s', rfl, hp⟩ := eq_append_cons_of_mem hmem
      refine piece p s' hp (ih s'.length ?_ s' rfl)
      rw [← hn, length_append, length_cons]
      omega
    · by_cases hnil : s = []
      · rwa [hnil]
      · exact last s hnil hmem

/-! ### Texts that have given pieces -/

/-- Each piece is followed by the separator. -/
def terminated (sep : Char) (ps : List (List Char)) : List Char := ps.flatMap (· ++ [sep])

/-- The separator stands between the pieces. -/
def joined (sep : Char) (ps : List (List Char)) : List Char := List.intercalate [sep] ps

theorem terminated_cons (sep : Char) (p : List Char) (ps : List (List Char)) :
    terminated sep (p :: ps) = p ++ sep :: terminated sep ps := by
  rw [terminated, flatMap_cons, append_assoc]
  rfl

theorem pieces_terminated (h : ∀ p ∈ ps, sep ∉ p) : pieces sep (terminated sep ps) = ps := by
  induction ps with
  | nil => rfl
  | cons p ps ih =>
    rw [forall_mem_cons] at h
    rw [terminated_cons, pieces_append h.1, ih h.2]

theorem joined_cons_cons (sep : Char) (p q : List Char) (ps : List (List Char)) :
    joined sep (p :: q :: ps) = p ++ sep :: joined sep (q :: ps) := by
  simp [joined]

theorem pieces_joined (h : ∀ p ∈ ps, sep ∉ p ∧ p ≠ []) : pieces sep (joined sep ps) = ps := by
  induction ps with
  | nil => rfl
  | cons p ps ih =>
    rw [forall_mem_cons] at h
    cases ps with
    | nil =>
      have hone : joined sep [p] = p := by simp [joined]
      rw [hone, pieces_of_notMem h.1.1 h.1.2]
    | cons q ps => rw [joined_cons_cons, pieces_append h.1.1, ih h.2]

variable {c : Char}

theorem notMem_joined (hc : c ≠ sep) (h : ∀ p ∈ ps, c ∉ p) : c ∉ joined sep ps := by
  induction ps with
  | nil => exact not_mem_nil
  | cons p ps ih =>
    rw [forall_mem_cons] at h
    cases ps with
    | nil => simpa [joined] using h.1
    | cons q ps =>
      rw [joined_cons_cons, mem_append, mem_cons]
      exact fun hmem => hmem.elim h.1 fun hmem => hmem.elim hc (ih h.2)

/-! ### Numbers -/

/-- `isspace` -/
def isBlank (c : Char) : Bool := [' ', '\t', '\n', '\x0b', '\x0c', '\r'].contains c

/-- The sign in front of the digits, and what follows it. -/
def sign : List Char → Bool × List Char
  | [] => (false, [])
  | c :: s => if c = '-' then (true, s) else if c = '+' then (false, s) else (false, c :: s)

/-- `std::stoul`; `none`: it throws. -/
def stoul (s : List Char) : Option ℕ :=
  let (negative, s) := sign (s.dropWhile isBlank)
  let digits := s.takeWhile Char.isDigit
  let n := Nat.ofDigitChars 10 digits 0
  if digits = [] ∨ 2 ^ 64 ≤ n then none
  else if negative then some ((2 ^ 64 - n) % 2 ^ 64)
  else some n

/-- What `operator<<` prints of a number. -/
def digits (n : ℕ) : List Char := Nat.toDigits 10 n

theorem isDigit_of_mem_digits {n : ℕ} (h : c ∈ digits n) : c.isDigit = true :=
  Nat.isDigit_of_mem_toDigits (by decide) (by decide) h

theorem notMem_digits (hc : c.isDigit = false) (n : ℕ) : c ∉ digits n := fun h => by
  rw [isDigit_of_mem_digits h] at hc
  cases hc

theorem digits_ne_nil (n : ℕ) : digits n ≠ [] := Nat.toDigits_ne_nil

theorem isBlank_of_isDigit (hc : c.isDigit = true) : isBlank c = false := by
  apply Bool.eq_false_iff.2
  intro hblank
  have hmem := contains_iff_mem.1 hblank
  have hall : ∀ b ∈ [' ', '\t', '\n', '\x0b', '\x0c', '\r'], b.isDigit = false := by
    simp [Char.isDigit]
  rw [hall c hmem] at hc
  cases hc

theorem stoul_digits {n : ℕ} (h : n < 2 ^ 64) : stoul (digits n) = some n := by
  have hall : ∀ c ∈ digits n, c.isDigit = true := fun c => isDigit_of_mem_digits
  have htake : (digits n).takeWhile Char.isDigit = digits n := takeWhile_eq_self_iff.2 hall
  have hvalue : Nat.ofDigitChars 10 (digits n) 0 = n := Nat.ofDigitChars_ten_toDigits
  have hdrop : (digits n).dropWhile isBlank = digits n := by
    rw [dropWhile_eq_self_iff]
    intro hlen
    rw [isBlank_of_isDigit (hall _ (getElem_mem hlen))]
    exact Bool.false_ne_true
  have hsign : sign (digits n) = (false, digits n) := by
    cases hd : digits n with
    | nil => exact absurd hd (digits_ne_nil n)
    | cons c s =>
      have hc : c.isDigit = true := hall c (hd ▸ mem_cons_self)
      have hminus : c ≠ '-' := fun h => by rw [h] at hc; exact absurd hc (by decide)
      have hplus : c ≠ '+' := fun h => by rw [h] at hc; exact absurd hc (by decide)
      rw [sign, if_neg hminus, if_neg hplus]
  unfold stoul
  rw [hdrop, hsign]
  dsimp only
  rw [htake, hvalue, if_neg (not_or.2 ⟨digits_ne_nil n, Nat.not_le.2 h⟩), if_neg Bool.false_ne_true]

end DiskANNEval.Lib
