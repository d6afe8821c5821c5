import DurableAgent.Library.Dict

namespace Receiver

variable {σ τ ρ : Type}

-- a system outside that is asked to act under a token: it answers, and says whether it had acted
-- under that token before; `known` is what it has on record
structure Deduplicates (act : σ → τ → σ × ρ × Bool) (known : σ → τ → Option ρ) : Prop where
  replayed : ∀ s t, (act s t).2.2 = (known s t).isSome
  answered : ∀ s t, known (act s t).1 t = some (act s t).2.1
  constant : ∀ s t r, known s t = some r → (act s t).2.1 = r
  frame : ∀ s t u, u ≠ t → known (act s t).1 u = known s u

variable {act : σ → τ → σ × ρ × Bool} {known : σ → τ → Option ρ} {s : σ} {t u : τ} {r : ρ}

theorem Deduplicates.keeps (h : Deduplicates act known) (hu : known s u = some r) :
    known (act s t).1 u = some r := by
  by_cases he : u = t
  · subst he
    rw [h.answered, h.constant s u r hu]
  · rw [h.frame s t u he, hu]

-- the tokens it acted under, each once: those it has on record
structure Ledger (known : σ → τ → Option ρ) (s : σ) (tokens : List τ) : Prop where
  nodup : tokens.Nodup
  mem_iff : ∀ t, t ∈ tokens ↔ (known s t).isSome = true

theorem Ledger.empty (h : ∀ t, known s t = none) : Ledger known s [] :=
  ⟨List.nodup_nil, fun t => by simp [h t]⟩

theorem Ledger.acted (h : Deduplicates act known) {tokens : List τ} (hl : Ledger known s tokens)
    (t : τ) :
    Ledger known (act s t).1 (if (act s t).2.2 then tokens else tokens ++ [t]) := by
  have ht : (known (act s t).1 t).isSome = true := by rw [h.answered, Option.isSome_some]
  cases hr : (act s t).2.2 with
  | true =>
    rw [h.replayed] at hr
    refine ⟨by simpa using hl.nodup, fun u => ?_⟩
    rw [if_pos rfl, hl.mem_iff]
    by_cases hu : u = t
    · rw [hu, hr, ht]
    · rw [h.frame s t u hu]
  | false =>
    rw [h.replayed] at hr
    have hnew : t ∉ tokens := fun hm => by
      rw [(hl.mem_iff t).mp hm] at hr
      cases hr
    rw [if_neg Bool.false_ne_true]
    refine ⟨List.nodup_append.mpr ⟨hl.nodup, List.nodup_singleton t, ?_⟩, fun u => ?_⟩
    · rintro a ha b hb rfl
      rw [List.mem_singleton] at hb
      exact hnew (hb ▸ ha)
    · rw [List.mem_append, List.mem_singleton, hl.mem_iff]
      by_cases hu : u = t
      · rw [hu, ht]
        simp
      · rw [h.frame s t u hu]
        simp [hu]

theorem countP_le_one {α : Type} {l : List α} {f : α → τ} {q : α → Bool} (hn : (l.map f).Nodup)
    (h : ∀ x ∈ l, ∀ y ∈ l, q x = true → q y = true → f x = f y) : l.countP q ≤ 1 := by
  induction l with
  | nil => exact Nat.zero_le 1
  | cons x l ih =>
    obtain ⟨hx, hn⟩ := List.nodup_cons.mp hn
    have hrest := ih hn fun y hy z hz =>
      h y (List.mem_cons_of_mem x hy) z (List.mem_cons_of_mem x hz)
    cases hq : q x with
    | false => rwa [List.countP_cons_of_neg (by rw [hq]; exact Bool.false_ne_true)]
    | true =>
      have hnone : l.countP q = 0 := by
        rw [List.countP_eq_zero]
        intro y hy hqy
        have he := h x List.mem_cons_self y (List.mem_cons_of_mem x hy) hq hqy
        exact hx (he ▸ List.mem_map_of_mem hy)
      have hone : (x :: l).countP q = 1 := by rw [List.countP_cons_of_pos hq, hnone]
      exact Nat.le_of_eq hone

end Receiver
