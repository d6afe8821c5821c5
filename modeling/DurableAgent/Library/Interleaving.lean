import DurableAgent.Library.Transition

namespace Interleaving

variable {ι σ κ α : Type}

structure Config (ι σ κ : Type) where
  shared : σ
  locals : ι → κ

def guarded (p : σ → κ → α → Prop) (c : Config ι σ κ) (e : ι × α) : Prop :=
  p c.shared (c.locals e.1) e.2

instance {p : σ → κ → α → Prop} [inst : ∀ s k a, Decidable (p s k a)] (c : Config ι σ κ)
    (e : ι × α) : Decidable (guarded p c e) := inst _ _ _

structure Outline (act : ι → σ → κ → α → Option (σ × κ)) (p : σ → κ → α → Prop)
    (G : σ → Prop) (L : ι → σ → κ → Prop) : Prop where
  own : ∀ {i s k a s' k'}, G s → L i s k → p s k a → act i s k a = some (s', k') →
    G s' ∧ L i s' k'
  others : ∀ {i j s k a s' k' l}, i ≠ j → G s → L i s k → L j s l → p s k a →
    act i s k a = some (s', k') → L j s' l

def Holds (G : σ → Prop) (L : ι → σ → κ → Prop) (c : Config ι σ κ) : Prop :=
  G c.shared ∧ ∀ i, L i c.shared (c.locals i)

variable {act : ι → σ → κ → α → Option (σ × κ)} {p : σ → κ → α → Prop}
  {G G' : σ → Prop} {L L' : ι → σ → κ → Prop}

theorem Outline.restrict {q : σ → κ → α → Prop} (h : Outline act p G L)
    (hq : ∀ {s k a}, q s k a → p s k a) : Outline act q G L where
  own hg hl ha := h.own hg hl (hq ha)
  others hij hg hl hl' ha := h.others hij hg hl hl' (hq ha)

theorem Outline.extend (h : Outline act p G L)
    (own : ∀ {i s k a s' k'}, G s → L i s k → G' s → L' i s k → p s k a →
      act i s k a = some (s', k') → G' s' ∧ L' i s' k')
    (others : ∀ {i j s k a s' k' l}, i ≠ j → G s → L i s k → L j s l → G' s → L' i s k →
      L' j s l → p s k a → act i s k a = some (s', k') → L' j s' l) :
    Outline act p (fun s => G s ∧ G' s) (fun i s k => L i s k ∧ L' i s k) where
  own hg hl hp ha := by
    have h1 := h.own hg.1 hl.1 hp ha
    have h2 := own hg.1 hl.1 hg.2 hl.2 hp ha
    exact ⟨⟨h1.1, h2.1⟩, h1.2, h2.2⟩
  others hij hg hl hl' hp ha :=
    ⟨h.others hij hg.1 hl.1 hl'.1 hp ha,
      others hij hg.1 hl.1 hl'.1 hg.2 hl.2 hl'.2 hp ha⟩

theorem Outline.extend_alone [Subsingleton ι] (h : Outline act p G L)
    (own : ∀ {i s k a s' k'}, G s → L i s k → G' s → L' i s k → p s k a →
      act i s k a = some (s', k') → G' s' ∧ L' i s' k') :
    Outline act p (fun s => G s ∧ G' s) (fun i s k => L i s k ∧ L' i s k) :=
  h.extend own fun hij => absurd (Subsingleton.elim _ _) hij

theorem Outline.strengthen (h : Outline act p G L)
    (own : ∀ {i s k a s' k'}, G s → L i s k → L' i s k → p s k a →
      act i s k a = some (s', k') → L' i s' k')
    (others : ∀ {i j s k a s' k' l}, i ≠ j → G s → L i s k → L j s l → L' i s k → L' j s l →
      p s k a → act i s k a = some (s', k') → L' j s' l) :
    Outline act p G (fun i s k => L i s k ∧ L' i s k) where
  own hg hl hp ha := by
    have h1 := h.own hg hl.1 hp ha
    exact ⟨h1.1, h1.2, own hg hl.1 hl.2 hp ha⟩
  others hij hg hl hl' hp ha :=
    ⟨h.others hij hg hl.1 hl'.1 hp ha, others hij hg hl.1 hl'.1 hl.2 hl'.2 hp ha⟩

theorem Outline.share (h : Outline act p G L)
    (own : ∀ {i s k a s' k'}, G s → L i s k → G' s → p s k a → act i s k a = some (s', k') →
      G' s') :
    Outline act p (fun s => G s ∧ G' s) L where
  own hg hl hp ha := by
    have h1 := h.own hg.1 hl hp ha
    exact ⟨⟨h1.1, own hg.1 hl hg.2 hp ha⟩, h1.2⟩
  others hij hg hl hl' hp ha := h.others hij hg.1 hl hl' hp ha

theorem Outline.and (h : Outline act p G L) (h' : Outline act p G' L') :
    Outline act p (fun s => G s ∧ G' s) (fun i s k => L i s k ∧ L' i s k) :=
  h.extend (fun _ _ hg' hl' hp ha => h'.own hg' hl' hp ha)
    fun hij _ _ _ hg' hl' hl'' hp ha => h'.others hij hg' hl' hl'' hp ha

-- one worker's steps while the others stand still
def solo (act : ι → σ → κ → α → Option (σ × κ)) (i : ι) (c : σ × κ) (a : α) : Option (σ × κ) :=
  act i c.1 c.2 a

def Solo (act : ι → σ → κ → α → Option (σ × κ)) (p : σ → κ → α → Prop) (i : ι) (s : σ) (k : κ)
    (s' : σ) (k' : κ) : Prop :=
  ∃ as, Transition.along (solo act i) (fun c a => p c.1 c.2 a) (s, k) as ∧
    Transition.run (solo act i) (s, k) as = some (s', k')

theorem Solo.none {i : ι} {s : σ} {k : κ} : Solo act p i s k s k := ⟨[], trivial, rfl⟩

theorem Solo.one {i : ι} {s s' : σ} {k k' : κ} {a : α} (hp : p s k a)
    (ha : act i s k a = some (s', k')) : Solo act p i s k s' k' :=
  ⟨[a], Transition.along_cons.mpr ⟨hp, fun _ _ => trivial⟩,
    Transition.run_cons.mpr ⟨_, ha, rfl⟩⟩

theorem Solo.cons {i : ι} {s s' s'' : σ} {k k' k'' : κ} {a : α} (hp : p s k a)
    (ha : act i s k a = some (s', k')) (h : Solo act p i s' k' s'' k'') :
    Solo act p i s k s'' k'' := by
  obtain ⟨as, halong, hrun⟩ := h
  refine ⟨a :: as, Transition.along_cons.mpr ⟨hp, fun m hm => ?_⟩,
    Transition.run_cons.mpr ⟨_, ha, hrun⟩⟩
  obtain rfl : m = (s', k') := Option.some.inj (hm.symm.trans ha)
  exact halong

theorem Outline.solo (h : Outline act p G L) {i : ι} {s s' : σ} {k k' : κ} (hg : G s)
    (hl : L i s k) (hs : Solo act p i s k s' k') :
    (G s' ∧ L i s' k') ∧ ∀ j l, i ≠ j → L j s l → L j s' l := by
  obtain ⟨as, halong, hrun⟩ := hs
  refine Transition.run_invariant_along
    (I := fun c : σ × κ => (G c.1 ∧ L i c.1 c.2) ∧ ∀ j l, i ≠ j → L j s l → L j c.1 l)
    ?_ ⟨⟨hg, hl⟩, fun _ _ _ hl => hl⟩ halong hrun
  rintro c a d ⟨⟨hg, hl⟩, hothers⟩ hp ha
  exact ⟨h.own hg hl hp ha, fun j l hij hj => h.others hij hg hl (hothers j l hij hj) hp ha⟩

-- every step of the larger system is some steps of the smaller, seen through `ps` and `pk`
theorem Outline.lift {σ' κ' α' : Type} {act' : ι → σ' → κ' → α' → Option (σ' × κ')}
    {p' : σ' → κ' → α' → Prop} (ps : σ' → σ) (pk : κ' → κ) (h : Outline act p G L)
    (hproj : ∀ {i s k a s' k'}, p' s k a → act' i s k a = some (s', k') →
      Solo act p i (ps s) (pk k) (ps s') (pk k')) :
    Outline act' p' (fun s => G (ps s)) (fun i s k => L i (ps s) (pk k)) where
  own hg hl hp ha := (h.solo hg hl (hproj hp ha)).1
  others hij hg hl hl' hp ha := (h.solo hg hl (hproj hp ha)).2 _ _ hij hl'

variable [DecidableEq ι]

def step (act : ι → σ → κ → α → Option (σ × κ)) (c : Config ι σ κ) (e : ι × α) :
    Option (Config ι σ κ) :=
  match act e.1 c.shared (c.locals e.1) e.2 with
  | some (s, k) => some ⟨s, Function.update c.locals e.1 k⟩
  | none => none

theorem step_eq_some {c d : Config ι σ κ} {i : ι} {a : α} :
    step act c (i, a) = some d ↔ ∃ s k, act i c.shared (c.locals i) a = some (s, k) ∧
      d = ⟨s, Function.update c.locals i k⟩ := by
  unfold step
  cases act i c.shared (c.locals i) a with
  | none => simp
  | some r =>
    obtain ⟨s, k⟩ := r
    simp only [Option.some.injEq, Prod.mk.injEq]
    constructor
    · rintro rfl
      exact ⟨s, k, ⟨rfl, rfl⟩, rfl⟩
    · rintro ⟨_, _, ⟨rfl, rfl⟩, rfl⟩
      rfl

theorem Outline.step (h : Outline act p G L) {c d : Config ι σ κ} {e : ι × α}
    (hc : Holds G L c) (hp : guarded p c e) (hs : step act c e = some d) :
    Holds G L d := by
  obtain ⟨i, a⟩ := e
  obtain ⟨s, k, ha, rfl⟩ := step_eq_some.mp hs
  have hown := h.own hc.1 (hc.2 i) hp ha
  refine ⟨hown.1, fun j => ?_⟩
  by_cases hj : j = i
  · subst hj
    simpa using hown.2
  · simpa [Function.update_of_ne hj] using h.others (Ne.symm hj) hc.1 (hc.2 i) (hc.2 j) hp ha

theorem Outline.run_along (h : Outline act p G L) {c d : Config ι σ κ} {es : List (ι × α)}
    (hc : Holds G L c) (hp : Transition.along (Interleaving.step act) (guarded p) c es)
    (hr : Transition.run (Interleaving.step act) c es = some d) : Holds G L d :=
  Transition.run_invariant_along (fun _ _ _ hi hpa hs => h.step hi hpa hs) hc hp hr

theorem Outline.run (h : Outline act (fun _ _ _ => True) G L) {c d : Config ι σ κ}
    {es : List (ι × α)} (hc : Holds G L c)
    (hr : Transition.run (Interleaving.step act) c es = some d) : Holds G L d :=
  h.run_along hc (Transition.along_of_forall (fun _ _ _ => trivial) c) hr

end Interleaving
