import Mathlib.Data.List.Nodup
import Mathlib.Data.List.Range

namespace FirstWriter

variable {κ μ ρ : Type} [DecidableEq κ] [DecidableEq μ]

def insertOrIgnore (key : ρ → κ) (rows : List ρ) (r : ρ) : List ρ :=
  if key r ∈ rows.map key then rows else rows ++ [r]

theorem insertOrIgnore_of_mem {key : ρ → κ} {rows : List ρ} {r : ρ}
    (h : key r ∈ rows.map key) : insertOrIgnore key rows r = rows := if_pos h

theorem insertOrIgnore_of_not_mem {key : ρ → κ} {rows : List ρ} {r : ρ}
    (h : key r ∉ rows.map key) : insertOrIgnore key rows r = rows ++ [r] := if_neg h

theorem insertOrIgnore_extends (key : ρ → κ) (rows : List ρ) (r : ρ) :
    ∃ more, insertOrIgnore key rows r = rows ++ more := by
  by_cases h : key r ∈ rows.map key
  · exact ⟨[], by simp [insertOrIgnore_of_mem h]⟩
  · exact ⟨[r], insertOrIgnore_of_not_mem h⟩

theorem mem_insertOrIgnore {key : ρ → κ} {rows : List ρ} {r x : ρ}
    (h : x ∈ insertOrIgnore key rows r) :
    x ∈ rows ∨ x = r ∧ key r ∉ rows.map key := by
  by_cases hr : key r ∈ rows.map key
  · rw [insertOrIgnore_of_mem hr] at h
    exact .inl h
  · rw [insertOrIgnore_of_not_mem hr] at h
    rcases List.mem_append.mp h with hx | hx
    · exact .inl hx
    · exact .inr ⟨List.mem_singleton.mp hx, hr⟩

theorem filter_insertOrIgnore (key : ρ → κ × μ) (rows : List ρ) (r : ρ) (k : κ) :
    (insertOrIgnore key rows r).filter (fun x => (key x).1 = k) =
      if (key r).1 = k then
        insertOrIgnore (fun x => (key x).2) (rows.filter fun x => (key x).1 = k) r
      else rows.filter fun x => (key x).1 = k := by
  have hmem : (key r).1 = k → (key r ∈ rows.map key ↔
      (key r).2 ∈ (rows.filter fun x => (key x).1 = k).map fun x => (key x).2) := by
    rintro rfl
    simp only [List.mem_map, List.mem_filter, decide_eq_true_eq, Prod.ext_iff]
    constructor
    · rintro ⟨x, hx, h1, h2⟩
      exact ⟨x, ⟨hx, h1⟩, h2⟩
    · rintro ⟨x, ⟨hx, h1⟩, h2⟩
      exact ⟨x, hx, h1, h2⟩
  by_cases hk : (key r).1 = k
  · by_cases hr : key r ∈ rows.map key
    · rw [insertOrIgnore_of_mem hr, if_pos hk, insertOrIgnore_of_mem ((hmem hk).mp hr)]
    · rw [insertOrIgnore_of_not_mem hr, if_pos hk,
        insertOrIgnore_of_not_mem (fun h => hr ((hmem hk).mpr h))]
      simp [List.filter_append, hk]
  · rw [if_neg hk]
    by_cases hr : key r ∈ rows.map key
    · rw [insertOrIgnore_of_mem hr]
    · simp [insertOrIgnore_of_not_mem hr, List.filter_append, hk]

section Numbered

variable {idx : ρ → Nat} {rows : List ρ} {r x y : ρ} {n : Nat}

def Numbered (idx : ρ → Nat) (rows : List ρ) : Prop :=
  rows.map idx = List.range rows.length

theorem Numbered.nil : Numbered idx [] := rfl

theorem Numbered.mem_map_iff (h : Numbered idx rows) : n ∈ rows.map idx ↔ n < rows.length := by
  rw [h, List.mem_range]

theorem Numbered.idx_lt (h : Numbered idx rows) (hx : x ∈ rows) : idx x < rows.length :=
  h.mem_map_iff.mp (List.mem_map_of_mem hx)

theorem Numbered.idx_of_getElem? (h : Numbered idx rows) (hx : rows[n]? = some x) :
    idx x = n := by
  have hn : n < rows.length := (List.getElem?_eq_some_iff.mp hx).1
  have := congrArg (fun l => l[n]?) h
  simpa [List.getElem?_map, hx, List.getElem?_range hn] using this

theorem Numbered.getElem?_idx (h : Numbered idx rows) (hx : x ∈ rows) :
    rows[idx x]? = some x := by
  obtain ⟨n, hn⟩ := List.mem_iff_getElem?.mp hx
  rwa [h.idx_of_getElem? hn]

theorem Numbered.eq_of_idx_eq (h : Numbered idx rows) (hx : x ∈ rows) (hy : y ∈ rows)
    (he : idx x = idx y) : x = y := by
  have h1 := h.getElem?_idx hx
  rw [he, h.getElem?_idx hy] at h1
  exact (Option.some.inj h1).symm

theorem Numbered.left {more : List ρ} (h : Numbered idx (rows ++ more)) : Numbered idx rows := by
  have ht := congrArg (List.take rows.length) h
  simpa [Numbered, List.take_range] using ht

theorem Numbered.mem_left {more : List ρ} (h : Numbered idx (rows ++ more))
    (hx : x ∈ rows ++ more) (hi : idx x < rows.length) : x ∈ rows := by
  have hg := h.getElem?_idx hx
  rw [List.getElem?_append_left hi] at hg
  exact List.mem_of_getElem? hg

theorem Numbered.insert_of_lt (h : Numbered idx rows) (hr : idx r < rows.length) :
    insertOrIgnore idx rows r = rows :=
  insertOrIgnore_of_mem (h.mem_map_iff.mpr hr)

theorem Numbered.insert_of_eq (h : Numbered idx rows) (hr : idx r = rows.length) :
    insertOrIgnore idx rows r = rows ++ [r] :=
  insertOrIgnore_of_not_mem fun hmem => by
    have := h.mem_map_iff.mp hmem
    omega

theorem Numbered.insert (h : Numbered idx rows) (hr : idx r ≤ rows.length) :
    Numbered idx (insertOrIgnore idx rows r) := by
  rcases Nat.lt_or_ge (idx r) rows.length with hlt | hge
  · rwa [h.insert_of_lt hlt]
  · have he : idx r = rows.length := Nat.le_antisymm hr hge
    unfold Numbered at h ⊢
    rw [Numbered.insert_of_eq h he, List.map_append, h]
    simp [he, List.range_succ]

theorem Numbered.lt_insert_length (h : Numbered idx rows) (hr : idx r ≤ rows.length) :
    idx r < (insertOrIgnore idx rows r).length := by
  rcases Nat.lt_or_ge (idx r) rows.length with hlt | hge
  · rwa [h.insert_of_lt hlt]
  · have he : idx r = rows.length := Nat.le_antisymm hr hge
    simp [h.insert_of_eq he, he]

end Numbered

end FirstWriter
