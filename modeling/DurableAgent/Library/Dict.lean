import Mathlib.Data.List.Forall2
import Mathlib.Data.List.Nodup

abbrev Dict (κ ν : Type) := List (κ × ν)

namespace Dict

variable {κ ν : Type} [DecidableEq κ]

def get? : Dict κ ν → κ → Option ν
  | [], _ => none
  | (k, v) :: d, x => if k = x then some v else get? d x

def set : Dict κ ν → κ → ν → Dict κ ν
  | [], x, w => [(x, w)]
  | (k, v) :: d, x, w => if k = x then (k, w) :: d else (k, v) :: set d x w

def ofPairs (pairs : List (κ × ν)) : Dict κ ν :=
  pairs.foldl (fun d kv => set d kv.1 kv.2) []

def keys (d : Dict κ ν) : List κ := d.map Prod.fst

@[simp] theorem get?_set_self (d : Dict κ ν) (x : κ) (w : ν) : get? (set d x w) x = some w := by
  induction d with
  | nil => simp [set, get?]
  | cons kv d ih =>
    obtain ⟨k, v⟩ := kv
    by_cases hk : k = x <;> simp [set, get?, hk, ih]

theorem get?_set_ne (d : Dict κ ν) {x y : κ} (w : ν) (h : y ≠ x) :
    get? (set d x w) y = get? d y := by
  induction d with
  | nil => simp [set, get?, Ne.symm h]
  | cons kv d ih =>
    obtain ⟨k, v⟩ := kv
    by_cases hk : k = x
    · subst hk
      simp [set, get?, Ne.symm h]
    · by_cases hy : k = y
      · subst hy
        simp [set, get?, hk]
      · simp [set, get?, hk, hy, ih]

theorem set_of_not_mem {d : Dict κ ν} {x : κ} (w : ν) (h : x ∉ keys d) :
    set d x w = d ++ [(x, w)] := by
  induction d with
  | nil => rfl
  | cons kv d ih =>
    obtain ⟨k, v⟩ := kv
    simp only [keys, List.map_cons, List.mem_cons, not_or] at h
    simp only [set, if_neg (Ne.symm h.1), List.cons_append]
    rw [ih (by simpa [keys] using h.2)]

theorem mem_keys_set {d : Dict κ ν} {x y : κ} {w : ν} :
    y ∈ keys (set d x w) ↔ y = x ∨ y ∈ keys d := by
  induction d with
  | nil => simp [set, keys]
  | cons kv d ih =>
    obtain ⟨k, v⟩ := kv
    by_cases hk : k = x
    · subst hk
      simp [set, keys]
    · simp only [keys] at ih
      simp only [set, if_neg hk, keys, List.map_cons, List.mem_cons, ih]
      exact or_left_comm

theorem nodup_set {d : Dict κ ν} (x : κ) (w : ν) (h : (keys d).Nodup) :
    (keys (set d x w)).Nodup := by
  induction d with
  | nil => simp [set, keys]
  | cons kv d ih =>
    obtain ⟨k, v⟩ := kv
    have hn := List.nodup_cons.mp h
    by_cases hk : k = x
    · simpa [set, hk, keys] using h
    · rw [set, if_neg hk]
      refine List.nodup_cons.mpr ⟨fun hmem => ?_, ih hn.2⟩
      rcases mem_keys_set.mp hmem with rfl | hmem
      · exact hk rfl
      · exact hn.1 hmem

theorem length_set_le (d : Dict κ ν) (x : κ) (w : ν) : (set d x w).length ≤ d.length + 1 := by
  induction d with
  | nil => simp [set]
  | cons kv d ih =>
    obtain ⟨k, v⟩ := kv
    by_cases hk : k = x
    · simp [set, hk]
    · simpa [set, hk] using ih

theorem length_set_of_mem {d : Dict κ ν} {x : κ} (w : ν) (h : x ∈ keys d) :
    (set d x w).length = d.length := by
  induction d with
  | nil => cases h
  | cons kv d ih =>
    obtain ⟨k, v⟩ := kv
    by_cases hk : k = x
    · simp [set, hk]
    · have hmem : x ∈ keys d := by simpa [keys, Ne.symm hk] using h
      simpa [set, hk] using ih hmem

theorem set_map {κ' ν' : Type} [DecidableEq κ'] {f : κ → κ'} (hf : Function.Injective f)
    (g : ν → ν') (d : Dict κ ν) (x : κ) (w : ν) :
    set (d.map fun kv => (f kv.1, g kv.2)) (f x) (g w) =
      (set d x w).map fun kv => (f kv.1, g kv.2) := by
  induction d with
  | nil => rfl
  | cons kv d ih =>
    obtain ⟨k, v⟩ := kv
    by_cases hk : k = x
    · simp [set, hk]
    · simp [set, hk, hf.ne hk, ih]

section Pairs

variable {pairs : List (κ × ν)}

theorem mem_keys_foldl (d : Dict κ ν) {y : κ} :
    y ∈ keys (pairs.foldl (fun d kv => set d kv.1 kv.2) d) ↔ y ∈ keys d ∨ y ∈ keys pairs := by
  induction pairs generalizing d with
  | nil => simp [keys]
  | cons kv pairs ih =>
    rw [List.foldl_cons, ih, mem_keys_set]
    simp only [keys, List.map_cons, List.mem_cons]
    rw [or_assoc, or_left_comm]

theorem mem_keys_ofPairs {y : κ} : y ∈ keys (ofPairs pairs) ↔ y ∈ keys pairs := by
  rw [ofPairs, mem_keys_foldl]
  exact or_iff_right List.not_mem_nil

theorem nodup_foldl {d : Dict κ ν} (h : (keys d).Nodup) :
    (keys (pairs.foldl (fun d kv => set d kv.1 kv.2) d)).Nodup := by
  induction pairs generalizing d with
  | nil => exact h
  | cons kv pairs ih => exact ih (nodup_set kv.1 kv.2 h)

theorem nodup_ofPairs (pairs : List (κ × ν)) : (keys (ofPairs pairs)).Nodup :=
  nodup_foldl List.nodup_nil

theorem length_foldl_le (d : Dict κ ν) :
    (pairs.foldl (fun d kv => set d kv.1 kv.2) d).length ≤ d.length + pairs.length := by
  induction pairs generalizing d with
  | nil => simp
  | cons kv pairs ih =>
    have h1 := ih (set d kv.1 kv.2)
    have h2 := length_set_le d kv.1 kv.2
    simp only [List.foldl_cons, List.length_cons]
    omega

theorem length_ofPairs_le (pairs : List (κ × ν)) : (ofPairs pairs).length ≤ pairs.length := by
  have h : (ofPairs pairs).length ≤ 0 + pairs.length := length_foldl_le []
  omega

theorem nodup_of_length_foldl {d : Dict κ ν}
    (h : (pairs.foldl (fun d kv => set d kv.1 kv.2) d).length = d.length + pairs.length) :
    (keys pairs).Nodup ∧ ∀ y ∈ keys pairs, y ∉ keys d := by
  induction pairs generalizing d with
  | nil => simp [keys]
  | cons kv pairs ih =>
    have hle : (pairs.foldl (fun d kv => set d kv.1 kv.2) (set d kv.1 kv.2)).length ≤
        (set d kv.1 kv.2).length + pairs.length := length_foldl_le _
    simp only [List.foldl_cons, List.length_cons] at h
    have hnew : kv.1 ∉ keys d := by
      intro hmem
      rw [length_set_of_mem kv.2 hmem] at hle
      omega
    have hlen : (set d kv.1 kv.2).length = d.length + 1 := by
      rw [set_of_not_mem kv.2 hnew, List.length_append, List.length_singleton]
    obtain ⟨hn, hd⟩ := ih (d := set d kv.1 kv.2) (by omega)
    refine ⟨List.nodup_cons.mpr ⟨fun hmem => ?_, hn⟩, fun y hy => ?_⟩
    · exact hd kv.1 hmem (mem_keys_set.mpr (.inl rfl))
    · rcases List.mem_cons.mp hy with rfl | hy
      · exact hnew
      · exact fun hmem => hd y hy (mem_keys_set.mpr (.inr hmem))

theorem nodup_of_length_ofPairs (h : (ofPairs pairs).length = pairs.length) :
    (keys pairs).Nodup :=
  (nodup_of_length_foldl (d := []) (by simpa [ofPairs] using h)).1

theorem ofPairs_map {κ' ν' : Type} [DecidableEq κ'] {f : κ → κ'} (hf : Function.Injective f)
    (g : ν → ν') (pairs : List (κ × ν)) :
    ofPairs (pairs.map fun kv => (f kv.1, g kv.2)) =
      (ofPairs pairs).map fun kv => (f kv.1, g kv.2) := by
  have h (d : Dict κ ν) : (pairs.map fun kv => (f kv.1, g kv.2)).foldl
      (fun d kv => set d kv.1 kv.2) (d.map fun kv => (f kv.1, g kv.2)) =
        (pairs.foldl (fun d kv => set d kv.1 kv.2) d).map fun kv => (f kv.1, g kv.2) := by
    induction pairs generalizing d with
    | nil => rfl
    | cons kv pairs ih => rw [List.map_cons, List.foldl_cons, set_map hf, ih, List.foldl_cons]
  exact h []

end Pairs

theorem foldl_set_of_nodup (d pairs : Dict κ ν) (h : (keys (d ++ pairs)).Nodup) :
    pairs.foldl (fun d kv => set d kv.1 kv.2) d = d ++ pairs := by
  induction pairs generalizing d with
  | nil => simp
  | cons kv pairs ih =>
    have hx : kv.1 ∉ keys d := by
      simp only [keys, List.map_append, List.map_cons] at h
      intro hmem
      exact (List.nodup_append.mp h).2.2 _ hmem _ (by simp) rfl
    rw [List.foldl_cons, set_of_not_mem _ hx, ih]
    · simp
    · simpa using h

theorem ofPairs_of_nodup {pairs : List (κ × ν)} (h : (keys pairs).Nodup) :
    ofPairs pairs = pairs := by
  simpa [ofPairs] using foldl_set_of_nodup [] pairs (by simpa using h)

theorem mem_of_get?_eq_some {d : Dict κ ν} {x : κ} {w : ν} (h : get? d x = some w) :
    (x, w) ∈ d := by
  induction d with
  | nil => cases h
  | cons kv d ih =>
    have hd : (if kv.1 = x then some kv.2 else get? d x) = some w := h
    split at hd
    · rename_i hk
      cases hd
      exact hk ▸ List.mem_cons_self
    · exact List.mem_cons_of_mem kv (ih hd)

theorem mem_set {d : Dict κ ν} {x : κ} {w : ν} {kv : κ × ν} (h : kv ∈ set d x w) :
    kv = (x, w) ∨ kv ∈ d := by
  induction d with
  | nil => exact .inl (List.mem_singleton.mp h)
  | cons kv' d ih =>
    obtain ⟨k, v⟩ := kv'
    by_cases hk : k = x
    · rw [set, if_pos hk, hk] at h
      exact (List.mem_cons.mp h).imp_right (List.mem_cons_of_mem _)
    · rw [set, if_neg hk] at h
      rcases List.mem_cons.mp h with rfl | h
      · exact .inr List.mem_cons_self
      · exact (ih h).imp_right (List.mem_cons_of_mem _)

theorem mem_foldl {d : Dict κ ν} {pairs : List (κ × ν)} {kv : κ × ν}
    (h : kv ∈ pairs.foldl (fun d kv => set d kv.1 kv.2) d) : kv ∈ d ∨ kv ∈ pairs := by
  induction pairs generalizing d with
  | nil => exact .inl h
  | cons p pairs ih =>
    rcases ih h with h | h
    · rcases mem_set h with rfl | h
      · exact .inr List.mem_cons_self
      · exact .inl h
    · exact .inr (List.mem_cons_of_mem p h)

theorem mem_ofPairs {pairs : List (κ × ν)} {kv : κ × ν} (h : kv ∈ ofPairs pairs) : kv ∈ pairs :=
  (mem_foldl h).resolve_left List.not_mem_nil

theorem get?_eq_none {d : Dict κ ν} {x : κ} (h : x ∉ keys d) : get? d x = none := by
  cases hw : get? d x with
  | none => rfl
  | some w => exact absurd (List.mem_map_of_mem (mem_of_get?_eq_some hw)) h

theorem get?_of_mem {d : Dict κ ν} {x : κ} {w : ν} (hn : (keys d).Nodup) (h : (x, w) ∈ d) :
    get? d x = some w := by
  cases hv : get? d x with
  | none =>
    induction d with
    | nil => cases h
    | cons kv d ih =>
      have hd : (if kv.1 = x then some kv.2 else get? d x) = none := hv
      split at hd
      · cases hd
      · rename_i hk
        rcases List.mem_cons.mp h with rfl | hmem
        · exact absurd rfl hk
        · exact ih (List.nodup_cons.mp hn).2 hmem hd
  | some v =>
    have heq := List.inj_on_of_nodup_map hn (mem_of_get?_eq_some hv) h rfl
    rw [(Prod.mk.inj heq).2]

section Related

variable {ν' : Type} {S : ν → ν' → Prop}

def EntryRel (S : ν → ν' → Prop) (kv : κ × ν) (kv' : κ × ν') : Prop := kv.1 = kv'.1 ∧ S kv.2 kv'.2

theorem set_related {d : Dict κ ν} {d' : Dict κ ν'} (h : List.Forall₂ (EntryRel S) d d') (x : κ)
    {w : ν} {w' : ν'} (hw : S w w') : List.Forall₂ (EntryRel S) (set d x w) (set d' x w') := by
  induction h with
  | nil => exact .cons ⟨rfl, hw⟩ .nil
  | @cons kv kv' d d' hk hd ih =>
    obtain ⟨k, v⟩ := kv
    obtain ⟨k', v'⟩ := kv'
    obtain rfl : k = k' := hk.1
    by_cases hx : k = x
    · simp only [set, if_pos hx]
      exact .cons ⟨rfl, hw⟩ hd
    · simp only [set, if_neg hx]
      exact .cons hk ih

theorem foldl_related {pairs : List (κ × ν)} {pairs' : List (κ × ν')} {d : Dict κ ν}
    {d' : Dict κ ν'} (h : List.Forall₂ (EntryRel S) pairs pairs')
    (hd : List.Forall₂ (EntryRel S) d d') :
    List.Forall₂ (EntryRel S) (pairs.foldl (fun d kv => set d kv.1 kv.2) d)
      (pairs'.foldl (fun d kv => set d kv.1 kv.2) d') := by
  induction h generalizing d d' with
  | nil => exact hd
  | @cons kv kv' pairs pairs' hk _ ih =>
    obtain ⟨k, v⟩ := kv
    obtain ⟨k', v'⟩ := kv'
    obtain rfl : k = k' := hk.1
    exact ih (set_related hd k hk.2)

theorem ofPairs_related {pairs : List (κ × ν)} {pairs' : List (κ × ν')}
    (h : List.Forall₂ (EntryRel S) pairs pairs') :
    List.Forall₂ (EntryRel S) (ofPairs pairs) (ofPairs pairs') := foldl_related h .nil

end Related

theorem get?_perm {d d' : Dict κ ν} (h : d.Perm d') (hn : (keys d).Nodup) (x : κ) :
    get? d' x = get? d x := by
  have hn' : (keys d').Nodup := (h.map Prod.fst).nodup_iff.mp hn
  cases hd : get? d x with
  | some w => exact get?_of_mem hn' (h.subset (mem_of_get?_eq_some hd))
  | none =>
    cases hd' : get? d' x with
    | none => rfl
    | some w =>
      rw [get?_of_mem hn (h.symm.subset (mem_of_get?_eq_some hd'))] at hd
      cases hd

def Same (d d' : Dict κ ν) : Prop := ∀ x, get? d x = get? d' x

theorem same_iff {d d' : Dict κ ν} :
    (∀ x ∈ keys d ++ keys d', get? d x = get? d' x) ↔ Same d d' := by
  constructor
  · intro h x
    by_cases hx : x ∈ keys d ++ keys d'
    · exact h x hx
    · rw [List.mem_append, not_or] at hx
      rw [get?_eq_none hx.1, get?_eq_none hx.2]
  · intro h x _
    exact h x

instance [DecidableEq ν] (d d' : Dict κ ν) : Decidable (Same d d') :=
  decidable_of_iff _ same_iff

end Dict
