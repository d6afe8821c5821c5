import Mathlib.Logic.Function.Basic

namespace Transition

variable {σ α : Type}

def run (step : σ → α → Option σ) : σ → List α → Option σ
  | s, [] => some s
  | s, a :: as =>
      match step s a with
      | some t => run step t as
      | none => none

def along (step : σ → α → Option σ) (p : σ → α → Prop) : σ → List α → Prop
  | _, [] => True
  | s, a :: as => p s a ∧
      match step s a with
      | some t => along step p t as
      | none => True

instance decidableAlong (step : σ → α → Option σ) (p : σ → α → Prop)
    [inst : ∀ s a, Decidable (p s a)] : ∀ s as, Decidable (along step p s as)
  | _, [] => isTrue trivial
  | s, a :: as =>
      let rest : Decidable (match step s a with
          | some t => along step p t as
          | none => True) :=
        match step s a with
        | some t => decidableAlong step p t as
        | none => isTrue trivial
      match inst s a, rest with
      | isTrue ha, isTrue hr => isTrue ⟨ha, hr⟩
      | isFalse ha, _ => isFalse fun h => ha h.1
      | _, isFalse hr => isFalse fun h => hr h.2

variable {step : σ → α → Option σ}

theorem run_cons {s t : σ} {a : α} {as : List α} :
    run step s (a :: as) = some t ↔ ∃ m, step s a = some m ∧ run step m as = some t := by
  cases h : step s a with
  | none => simp [run, h]
  | some m => simp [run, h]

theorem run_append {s t : σ} {as bs : List α} :
    run step s (as ++ bs) = some t ↔ ∃ m, run step s as = some m ∧ run step m bs = some t := by
  induction as generalizing s with
  | nil => simp [run]
  | cons a as ih =>
    simp only [List.cons_append, run_cons, ih]
    constructor
    · rintro ⟨m, hm, n, hn, ht⟩
      exact ⟨n, ⟨m, hm, hn⟩, ht⟩
    · rintro ⟨n, ⟨m, hm, hn⟩, ht⟩
      exact ⟨m, hm, n, hn, ht⟩

theorem along_cons {p : σ → α → Prop} {s : σ} {a : α} {as : List α} :
    along step p s (a :: as) ↔ p s a ∧ ∀ m, step s a = some m → along step p m as := by
  cases h : step s a with
  | none => simp [along, h]
  | some m => simp [along, h]

theorem along_append {p : σ → α → Prop} {s : σ} {as bs : List α} :
    along step p s (as ++ bs) ↔
      along step p s as ∧ ∀ m, run step s as = some m → along step p m bs := by
  induction as generalizing s with
  | nil => simp [along, run]
  | cons a as ih =>
    simp only [List.cons_append, along_cons, ih, run_cons]
    constructor
    · rintro ⟨ha, h⟩
      refine ⟨⟨ha, fun m hm => (h m hm).1⟩, ?_⟩
      rintro n ⟨m, hm, hn⟩
      exact (h m hm).2 n hn
    · rintro ⟨⟨ha, h⟩, hb⟩
      exact ⟨ha, fun m hm => ⟨h m hm, fun n hn => hb n ⟨m, hm, hn⟩⟩⟩

theorem along_and {p q : σ → α → Prop} {s : σ} {as : List α} (hp : along step p s as)
    (hq : along step q s as) : along step (fun s a => p s a ∧ q s a) s as := by
  induction as generalizing s with
  | nil => trivial
  | cons a as ih =>
    have h1 := along_cons.mp hp
    have h2 := along_cons.mp hq
    exact along_cons.mpr ⟨⟨h1.1, h2.1⟩, fun m hm => ih (h1.2 m hm) (h2.2 m hm)⟩

theorem along_of_forall {p : σ → α → Prop} {as : List α} (h : ∀ s, ∀ a ∈ as, p s a)
    (s : σ) : along step p s as := by
  induction as generalizing s with
  | nil => trivial
  | cons a as ih =>
    refine along_cons.mpr ⟨h s a (by simp), fun m _ => ih ?_ m⟩
    intro s' b hb
    exact h s' b (by simp [hb])

theorem run_invariant_along {p : σ → α → Prop} {I : σ → Prop}
    (hstep : ∀ s a t, I s → p s a → step s a = some t → I t)
    {s t : σ} {as : List α} (hs : I s) (hp : along step p s as)
    (hr : run step s as = some t) : I t := by
  induction as generalizing s with
  | nil =>
    simp only [run, Option.some.injEq] at hr
    exact hr ▸ hs
  | cons a as ih =>
    obtain ⟨m, hm, ht⟩ := run_cons.mp hr
    obtain ⟨ha, has⟩ := along_cons.mp hp
    exact ih (hstep s a m hs ha hm) (has m hm) ht

section Trace

variable {β : Type}

def trace (step : σ → α → Option σ) (f : σ → α → Option β) : σ → List α → List β
  | _, [] => []
  | s, a :: as => (f s a).toList ++
      match step s a with
      | some t => trace step f t as
      | none => []

theorem run_trace {f : σ → α → Option β} {p : α → Prop} {I : σ → List β → Prop}
    (hstep : ∀ s h a t, I s h → p a → step s a = some t → I t (h ++ (f s a).toList))
    {s t : σ} {h : List β} {as : List α} (hs : I s h) (hp : ∀ a ∈ as, p a)
    (hr : run step s as = some t) : I t (h ++ trace step f s as) := by
  induction as generalizing s h with
  | nil =>
    simp only [run, Option.some.injEq] at hr
    simpa [trace, ← hr] using hs
  | cons a as ih =>
    obtain ⟨m, hm, ht⟩ := run_cons.mp hr
    have hmid := hstep s h a m hs (hp a List.mem_cons_self) hm
    have hend := ih hmid (fun b hb => hp b (List.mem_cons_of_mem a hb)) ht
    simpa [trace, hm, List.append_assoc] using hend

end Trace

theorem run_related {I : σ → Prop} {R : σ → σ → Prop} (hrefl : ∀ s, R s s)
    (htrans : ∀ {a b c}, R a b → R b c → R a c)
    (hstep : ∀ s a t, I s → step s a = some t → I t ∧ R s t)
    {s t : σ} {as : List α} (hs : I s) (hr : run step s as = some t) : R s t := by
  induction as generalizing s with
  | nil =>
    simp only [run, Option.some.injEq] at hr
    exact hr ▸ hrefl s
  | cons a as ih =>
    obtain ⟨m, hm, ht⟩ := run_cons.mp hr
    obtain ⟨hi, hr'⟩ := hstep s a m hs hm
    exact htrans hr' (ih hi ht)

-- each step along the run is answered by some steps of the other system
theorem run_simulated {τ β : Type} {step' : τ → β → Option τ} {p : σ → α → Prop}
    {R : σ → τ → Prop}
    (hstep : ∀ {s a s' t}, R s t → p s a → step s a = some s' →
      ∃ bs t', run step' t bs = some t' ∧ R s' t')
    {s s' : σ} {t : τ} {as : List α} (h : R s t) (hp : along step p s as)
    (hr : run step s as = some s') : ∃ bs t', run step' t bs = some t' ∧ R s' t' := by
  induction as generalizing s t with
  | nil =>
    simp only [run, Option.some.injEq] at hr
    exact ⟨[], t, rfl, hr ▸ h⟩
  | cons a as ih =>
    obtain ⟨m, hm, hrest⟩ := run_cons.mp hr
    obtain ⟨ha, halong⟩ := along_cons.mp hp
    obtain ⟨bs, u, hbs, hu⟩ := hstep h ha hm
    obtain ⟨cs, v, hcs, hv⟩ := ih hu (halong m hm) hrest
    exact ⟨bs ++ cs, v, run_append.mpr ⟨u, hbs, hcs⟩, hv⟩

theorem run_alike {R : σ → σ → Prop}
    (hstep : ∀ s t a, R s t → Option.Rel R (step s a) (step t a)) {s t : σ} (h : R s t)
    (as : List α) : Option.Rel R (run step s as) (run step t as) := by
  induction as generalizing s t with
  | nil => exact .some h
  | cons a as ih =>
    have hst := hstep s t a h
    simp only [run]
    revert hst
    generalize step s a = x
    generalize step t a = y
    intro hst
    cases hst with
    | none => exact .none
    | some hr => exact ih hr

end Transition
