import DiskANNEval.Lib.Bytes

/-!
# Lib.Sectors — records packed into sectors

A loop makes the records one after the other, from a state that it carries along.  `fillSectors` puts
several records into each sector and leaves the rest of a sector zero; `eachNode` writes the records
one after the other.  What every record has when it is made is found at its place in the output.
-/

namespace DiskANNEval.Lib

variable {σ : Type*}

section defs

variable (secLen len perSector npts : ℕ) (node : ℕ → σ → Option (List UInt8 × σ))

/-- At most `k` more records in the sector, from the place `j` on; the next record is `cur`. -/
def fillSector : ℕ → ℕ → ℕ → List UInt8 → σ → Option (List UInt8 × ℕ × σ)
  | 0, _, cur, buf, s => some (buf, cur, s)
  | k + 1, j, cur, buf, s =>
    if cur < npts then
      (node cur s).bind fun (r, s) => (write buf (j * len) r).bind fun buf =>
        fillSector k (j + 1) (cur + 1) buf s
    else some (buf, cur, s)

/-- The given number of sectors; the next record is `cur`. -/
def fillSectors : ℕ → ℕ → σ → Option (List UInt8)
  | 0, _, _ => some []
  | n + 1, cur, s =>
    (fillSector len npts node perSector 0 cur (List.replicate secLen 0) s).bind fun (buf, cur, s) =>
      (fillSectors n cur s).map (buf ++ ·)

/-- The given number of records, each written at once; the next record is `cur`. -/
def eachNode : ℕ → ℕ → σ → Option (List UInt8)
  | 0, _, _ => some []
  | n + 1, cur, s => (node cur s).bind fun (r, s) => (eachNode n (cur + 1) s).map (r ++ ·)

end defs

section specs

variable {secLen len perSector npts : ℕ} {node : ℕ → σ → Option (List UInt8 × σ)}
  {I : ℕ → σ → Prop} {P : ℕ → List UInt8 → Prop}

theorem fillSector_spec
    (hnode : ∀ cur s r s', cur < npts → I cur s → node cur s = some (r, s') →
      r.length = len ∧ P cur r ∧ I (cur + 1) s')
    {k : ℕ} : ∀ {j cur : ℕ} {buf buf' : List UInt8} {cur' : ℕ} {s s' : σ}, cur ≤ npts → I cur s →
      fillSector len npts node k j cur buf s = some (buf', cur', s') →
      buf'.length = buf.length ∧ cur' = min (cur + k) npts ∧ I cur' s' ∧
        slice buf' 0 (j * len) = slice buf 0 (j * len) ∧
        ∀ i, cur ≤ i → i < cur' → P i (slice buf' ((j + (i - cur)) * len) len) := by
  induction k with
  | zero =>
    intro j cur buf buf' cur' s s' hcur hI h
    cases h
    refine ⟨rfl, by omega, hI, rfl, ?_⟩
    omega
  | succ k ih =>
    intro j cur buf buf' cur' s s' hcur hI h
    rw [fillSector] at h
    split at h
    · rename_i hlt
      obtain ⟨⟨r, s₁⟩, hr, h⟩ := Option.bind_eq_some_iff.mp h
      obtain ⟨buf₁, hw, h⟩ := Option.bind_eq_some_iff.mp h
      obtain ⟨hlen, hP, hI₁⟩ := hnode cur s r s₁ hlt hI hr
      obtain ⟨hb, hc, hI', hkeep, hall⟩ := ih (by omega) hI₁ h
      have hsame := slice_write_same hw
      rw [hlen] at hsame
      refine ⟨by rw [hb, length_write hw], by omega, hI', ?_, ?_⟩
      · rw [slice_congr hkeep (by omega) (by rw [Nat.succ_mul]; omega)]
        exact slice_write_before hw (by omega)
      · intro i hi hi'
        by_cases heq : i = cur
        · subst heq
          rw [Nat.sub_self, Nat.add_zero,
            slice_congr hkeep (by omega) (by rw [Nat.succ_mul]; omega), hsame]
          exact hP
        · have hplace := hall i (by omega) hi'
          rw [show j + 1 + (i - (cur + 1)) = j + (i - cur) by omega] at hplace
          exact hplace
    · cases h
      refine ⟨rfl, by omega, hI, rfl, ?_⟩
      omega

theorem fillSectors_spec
    (hnode : ∀ cur s r s', cur < npts → I cur s → node cur s = some (r, s') →
      r.length = len ∧ P cur r ∧ I (cur + 1) s')
    (hper : 0 < perSector) (hfit : perSector * len ≤ secLen) {n : ℕ} :
    ∀ {cur : ℕ} {out : List UInt8} {s : σ}, cur ≤ npts → I cur s →
      fillSectors secLen len perSector npts node n cur s = some out →
      out.length = n * secLen ∧
        ∀ i, i < npts - cur → i < n * perSector →
          P (cur + i) (slice out (i / perSector * secLen + i % perSector * len) len) := by
  induction n with
  | zero =>
    intro cur out s hcur hI h
    cases h
    refine ⟨by simp, ?_⟩
    omega
  | succ n ih =>
    intro cur out s hcur hI h
    obtain ⟨⟨buf, cur₁, s₁⟩, hbuf, h⟩ := Option.bind_eq_some_iff.mp h
    obtain ⟨rest, hrest, rfl⟩ := Option.map_eq_some_iff.mp h
    obtain ⟨hlen, hcur₁, hI₁, -, hall⟩ := fillSector_spec hnode hcur hI hbuf
    rw [List.length_replicate] at hlen
    obtain ⟨hlen', hall'⟩ := ih (by omega) hI₁ hrest
    refine ⟨by rw [List.length_append, hlen, hlen', Nat.succ_mul, Nat.add_comm], ?_⟩
    intro i hi hi'
    by_cases hlt : i < perSector
    · have hP := hall (cur + i) (by omega) (by omega)
      rw [Nat.div_eq_of_lt hlt, Nat.mod_eq_of_lt hlt, Nat.zero_mul, Nat.zero_add]
      rw [show 0 + (cur + i - cur) = i by omega] at hP
      have hin : i * len + len ≤ buf.length := by
        rw [hlen, ← Nat.succ_mul]
        exact le_trans (Nat.mul_le_mul_right len hlt) hfit
      rw [slice_append_left hin]
      exact hP
    · have hP := hall' (i - perSector) (by omega) (by rw [Nat.succ_mul] at hi'; omega)
      have hdiv : i / perSector = (i - perSector) / perSector + 1 := by
        rw [← Nat.add_div_right _ hper]
        congr 1
        omega
      have hmod : i % perSector = (i - perSector) % perSector := Nat.mod_eq_sub_mod (by omega)
      rw [show cur₁ + (i - perSector) = cur + i by omega] at hP
      rw [hdiv, hmod, slice_append_right (by rw [Nat.succ_mul]; omega), hlen, Nat.succ_mul]
      rw [show (i - perSector) / perSector * secLen + secLen + (i - perSector) % perSector * len -
        secLen = (i - perSector) / perSector * secLen + (i - perSector) % perSector * len by omega]
      exact hP

theorem eachNode_spec
    (hnode : ∀ cur s r s', cur < npts → I cur s → node cur s = some (r, s') →
      r.length = len ∧ P cur r ∧ I (cur + 1) s')
    {n : ℕ} : ∀ {cur : ℕ} {out : List UInt8} {s : σ}, cur + n ≤ npts → I cur s →
      eachNode node n cur s = some out →
      out.length = n * len ∧ ∀ i < n, P (cur + i) (slice out (i * len) len) := by
  induction n with
  | zero =>
    intro cur out s hcur hI h
    cases h
    refine ⟨by simp, ?_⟩
    omega
  | succ n ih =>
    intro cur out s hcur hI h
    obtain ⟨⟨r, s₁⟩, hr, h⟩ := Option.bind_eq_some_iff.mp h
    obtain ⟨rest, hrest, rfl⟩ := Option.map_eq_some_iff.mp h
    obtain ⟨hlen, hP, hI₁⟩ := hnode cur s r s₁ (by omega) hI hr
    obtain ⟨hlen', hall⟩ := ih (by omega) hI₁ hrest
    refine ⟨by rw [List.length_append, hlen, hlen', Nat.succ_mul, Nat.add_comm], ?_⟩
    intro i hi
    cases i with
    | zero =>
      rw [Nat.zero_mul, slice_append_left (by omega), ← hlen, slice_zero_length]
      exact hP
    | succ i =>
      rw [slice_append_right (by rw [Nat.succ_mul]; omega), hlen, Nat.succ_mul,
        Nat.add_sub_cancel, show cur + (i + 1) = cur + 1 + i by omega]
      exact hall i (by omega)

end specs

end DiskANNEval.Lib
