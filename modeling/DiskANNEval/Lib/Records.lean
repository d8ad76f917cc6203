import Mathlib.Data.List.Basic

/-!
# Lib.Records — records with a length in front

A stream of words holds records, each the number of its words and then the words.  `encode` writes
them, `readRecord` takes the first one off, and `decode` reads until a given number of words has been
read.
-/

namespace DiskANNEval.Lib

/-- The records one after the other. -/
def encode (rs : List (List ℕ)) : List ℕ := rs.flatMap fun r => r.length :: r

/-- The first record, and the rest of the stream. -/
def readRecord : List ℕ → Option (List ℕ × List ℕ)
  | [] => none
  | k :: ws => if k ≤ ws.length then some (ws.take k, ws.drop k) else none

theorem encode_cons (r : List ℕ) (rs : List (List ℕ)) : encode (r :: rs) = r.length :: (r ++ encode rs) := by
  simp [encode]

theorem encode_append (rs rs' : List (List ℕ)) : encode (rs ++ rs') = encode rs ++ encode rs' :=
  List.flatMap_append

theorem readRecord_encode (r : List ℕ) (rs : List (List ℕ)) :
    readRecord (encode (r :: rs)) = some (r, encode rs) := by
  rw [encode_cons, readRecord, if_pos (by simp), List.take_left, List.drop_left]

theorem length_readRecord {ws r rest : List ℕ} (h : readRecord ws = some (r, rest)) :
    rest.length < ws.length := by
  cases ws with
  | nil => cases h
  | cons k ws =>
    rw [readRecord] at h
    split at h
    · cases h
      simp only [List.length_drop, List.length_cons]
      omega
    · cases h

/-- The records up to the word number `stop`, when `pos` words have been read; `none`: the stream
ends before, or no record ends there. -/
def decode (stop pos : ℕ) (ws : List ℕ) : Option (List (List ℕ)) :=
  if pos = stop then some []
  else
    match h : readRecord ws with
    | none => none
    | some (r, rest) => (decode stop (pos + (r.length + 1)) rest).map (r :: ·)
termination_by ws.length
decreasing_by exact length_readRecord h

theorem decode_encode (rs : List (List ℕ)) (pos : ℕ) :
    decode (pos + (encode rs).length) pos (encode rs) = some rs := by
  induction rs generalizing pos with
  | nil => simp [encode, decode]
  | cons r rs ih =>
    have hlen : (encode (r :: rs)).length = r.length + 1 + (encode rs).length := by
      rw [encode_cons, List.length_cons, List.length_append]
      omega
    rw [decode, if_neg (by omega)]
    split
    · rename_i h
      rw [readRecord_encode] at h
      cases h
    · rename_i h
      rw [readRecord_encode] at h
      cases h
      rw [hlen, ← Nat.add_assoc, ih]
      rfl

end DiskANNEval.Lib
