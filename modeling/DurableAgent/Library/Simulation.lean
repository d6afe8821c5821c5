import Mathlib.Data.List.Induction

namespace Simulation

variable {σ τ α β γ : Type} {step : σ → α → σ × β} {step' : τ → α → τ × γ}

def after (step : σ → α → σ × β) (s : σ) (as : List α) : σ := as.foldl (fun s a => (step s a).1) s

-- every call of `as` meets `p` in the state the calls before it lead to
def Each (step : σ → α → σ × β) (p : σ → α → Prop) (s : σ) (as : List α) : Prop :=
  ∀ pre a post, as = pre ++ a :: post → p (after step s pre) a

theorem after_snoc (s : σ) (as : List α) (a : α) :
    after step s (as ++ [a]) = (step (after step s as) a).1 := by
  rw [after, List.foldl_append, List.foldl_cons, List.foldl_nil, after]

theorem Each.left {p : σ → α → Prop} {s : σ} {as bs : List α} (h : Each step p s (as ++ bs)) :
    Each step p s as := by
  intro pre a post he
  apply h pre a (post ++ bs)
  rw [he, List.append_assoc, List.cons_append]

theorem Each.last {p : σ → α → Prop} {s : σ} {as : List α} {a : α}
    (h : Each step p s (as ++ [a])) : p (after step s as) a := h as a [] rfl

theorem each_nil {p : σ → α → Prop} {s : σ} : Each step p s [] := by
  intro pre a post he
  simp at he

theorem each_cons {p : σ → α → Prop} {s : σ} {a : α} {as : List α} :
    Each step p s (a :: as) ↔ p s a ∧ Each step p (step s a).1 as := by
  constructor
  · exact fun h => ⟨h [] a as rfl, fun pre b post he => h (a :: pre) b post (by rw [he]; rfl)⟩
  · rintro ⟨ha, has⟩ pre b post he
    cases pre with
    | nil =>
      obtain ⟨rfl, rfl⟩ := List.cons.inj he
      exact ha
    | cons c pre =>
      obtain ⟨rfl, rfl⟩ := List.cons.inj he
      exact has pre b post rfl

theorem related {R : σ → τ → Prop} {p : σ → α → Prop}
    (hstep : ∀ s t a, R s t → p s a → R (step s a).1 (step' t a).1)
    {s : σ} {t : τ} (hs : R s t) {as : List α} (h : Each step p s as) :
    R (after step s as) (after step' t as) := by
  induction as using List.reverseRecOn with
  | nil => exact hs
  | append_singleton as a ih =>
    rw [after_snoc, after_snoc]
    exact hstep _ _ _ (ih h.left) h.last

section Paired

variable {xs : List (α × β)} {p : α → Bool} {q : β → Bool}

theorem find?_paired (h : ∀ x ∈ xs, p x.1 = q x.2) :
    ((xs.map Prod.fst).find? p = none ∧ (xs.map Prod.snd).find? q = none) ∨
      ∃ x ∈ xs, (xs.map Prod.fst).find? p = some x.1 ∧ (xs.map Prod.snd).find? q = some x.2 := by
  induction xs with
  | nil => exact .inl ⟨rfl, rfl⟩
  | cons x xs ih =>
    have hx := h x List.mem_cons_self
    simp only [List.map_cons, List.find?_cons, ← hx]
    cases p x.1 with
    | true => exact .inr ⟨x, List.mem_cons_self, rfl, rfl⟩
    | false =>
      rcases ih fun y hy => h y (List.mem_cons_of_mem x hy) with hn | ⟨y, hy, hs⟩
      · exact .inl hn
      · exact .inr ⟨y, List.mem_cons_of_mem x hy, hs⟩

theorem any_paired (h : ∀ x ∈ xs, p x.1 = q x.2) :
    (xs.map Prod.fst).any p = (xs.map Prod.snd).any q := by
  induction xs with
  | nil => rfl
  | cons x xs ih =>
    rw [List.map_cons, List.map_cons, List.any_cons, List.any_cons, h x List.mem_cons_self,
      ih fun y hy => h y (List.mem_cons_of_mem x hy)]

theorem all_paired (h : ∀ x ∈ xs, p x.1 = q x.2) :
    (xs.map Prod.fst).all p = (xs.map Prod.snd).all q := by
  induction xs with
  | nil => rfl
  | cons x xs ih =>
    rw [List.map_cons, List.map_cons, List.all_cons, List.all_cons, h x List.mem_cons_self,
      ih fun y hy => h y (List.mem_cons_of_mem x hy)]

theorem filter_paired (h : ∀ x ∈ xs, p x.1 = q x.2) :
    (xs.map Prod.fst).filter p = (xs.filter fun x => p x.1).map Prod.fst ∧
      (xs.map Prod.snd).filter q = (xs.filter fun x => p x.1).map Prod.snd := by
  induction xs with
  | nil => exact ⟨rfl, rfl⟩
  | cons x xs ih =>
    have hx := h x List.mem_cons_self
    obtain ⟨h1, h2⟩ := ih fun y hy => h y (List.mem_cons_of_mem x hy)
    simp only [List.map_cons, List.filter_cons, ← hx]
    cases p x.1 <;> simp [h1, h2]

end Paired

end Simulation
