import Mathlib.Data.List.Perm.Subperm
import Mathlib.Data.List.Nodup
import Mathlib.Data.List.Range

namespace FirstGap

def scan (done : List Nat) : Nat → Nat → Nat
  | 0, i => i
  | fuel + 1, i => if i ∈ done then scan done fuel (i + 1) else i

def firstGap (done : List Nat) : Nat := scan done done.length 0

theorem scan_covers (done : List Nat) (fuel i : Nat) (h : ∀ j < i, j ∈ done) :
    ∀ j < scan done fuel i, j ∈ done := by
  induction fuel generalizing i with
  | zero => simpa [scan] using h
  | succ fuel ih =>
    simp only [scan]
    split
    · refine ih (i + 1) fun j hj => ?_
      rcases Nat.lt_succ_iff_lt_or_eq.mp hj with hlt | rfl
      · exact h j hlt
      · assumption
    · exact h

theorem scan_stops (done : List Nat) (fuel i : Nat) (h : scan done fuel i < i + fuel) :
    scan done fuel i ∉ done := by
  induction fuel generalizing i with
  | zero => simp [scan] at h
  | succ fuel ih =>
    simp only [scan] at h ⊢
    split at h
    · rename_i hi
      rw [if_pos hi]
      exact ih (i + 1) (by omega)
    · rename_i hi
      rwa [if_neg hi]

theorem mem_of_lt_firstGap {done : List Nat} {j : Nat} (h : j < firstGap done) : j ∈ done :=
  scan_covers done done.length 0 (by simp) j h

theorem firstGap_not_mem (done : List Nat) : firstGap done ∉ done := by
  rcases Nat.lt_or_ge (firstGap done) done.length with hlt | hge
  · exact scan_stops done done.length 0 (by simpa [firstGap] using hlt)
  · -- all of 0..length is in a list of that length, one more than it can hold
    intro hmem
    have hsub : List.range (firstGap done + 1) ⊆ done := by
      intro j hj
      rcases Nat.lt_succ_iff_lt_or_eq.mp (List.mem_range.mp hj) with hlt | rfl
      · exact mem_of_lt_firstGap hlt
      · exact hmem
    have hle := (List.nodup_range.subperm hsub).length_le
    simp only [List.length_range] at hle
    omega

theorem firstGap_le {done : List Nat} {k : Nat} (h : k ∉ done) : firstGap done ≤ k :=
  Nat.le_of_not_lt fun hlt => h (mem_of_lt_firstGap hlt)

theorem firstGap_mono {done done' : List Nat} (h : done ⊆ done') :
    firstGap done ≤ firstGap done' :=
  firstGap_le fun hmem => firstGap_not_mem done' (h hmem)

theorem firstGap_eq {done : List Nat} {k : Nat} (hk : k ∉ done) (h : ∀ j < k, j ∈ done) :
    firstGap done = k := by
  refine Nat.le_antisymm (firstGap_le hk) (Nat.le_of_not_lt fun hlt => ?_)
  exact firstGap_not_mem done (h _ hlt)

end FirstGap
