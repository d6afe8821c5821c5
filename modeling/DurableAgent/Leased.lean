import DurableAgent.Cluster

namespace DurableAgent

open Interleaving

variable {ι τ : Type}

-- grants only a free key, but may refuse one that is free
def refusing : LockPolicy ι := fun holder granted => !granted || holder.isNone

theorem submit_elsewhere {sh : Shared ι} (holder : String → Option ι) (handlers : List String)
    (stack : Nat) (runId : String) (spec : RunSpec) (now : Nat) :
    submit { sh with holder := holder } handlers stack runId spec now =
      ({ (submit sh handlers stack runId spec now).1 with holder := holder },
        (submit sh handlers stack runId spec now).2) := by
  simp only [submit]
  split
  · rfl
  · split <;> rfl

section Elsewhere

variable [DecidableEq ι] {policy policy' : LockPolicy ι} {w : ι} {sh sh' : Shared ι}
  {ctrl ctrl' : Control} {a : Action}

theorem perform_elsewhere (holder : String → Option ι) (hl : ctrl.locks .store = false)
    (h : perform w sh ctrl = some (sh', ctrl')) :
    perform w { sh with holder := holder } ctrl = some ({ sh' with holder := holder }, ctrl') := by
  cases ctrl with
  | loading c =>
    cases h
    rfl
  | starting s =>
    simp only [perform] at h ⊢
    split at h <;> cases h <;> rfl
  | appending s f r after =>
    simp only [perform] at h ⊢
    split at h <;> cases h <;> rfl
  | settling s status error reraise =>
    simp only [perform] at h ⊢
    split at h <;> cases h <;> rfl
  | reloading s =>
    cases h
    rfl
  | releasing s o => cases hl
  | atRest _ => cases h
  | conflicted _ => cases h
  | locking _ => cases h
  | calling _ _ => cases h
  | handling _ _ => cases h

theorem outageEffect_elsewhere (policy policy' : LockPolicy ι) (holder : String → Option ι)
    {applied : Bool} (hl : ctrl.locks (.outage applied) = false) :
    outageEffect policy' w { sh with holder := holder } ctrl =
      { outageEffect policy w sh ctrl with holder := holder } := by
  cases ctrl with
  | locking s => cases hl
  | releasing s o => cases hl
  | starting s =>
    simp only [outageEffect, perform]
    cases sh.tables.setStatus s.call.runId .running none <;> rfl
  | appending s f r after =>
    simp only [outageEffect, perform]
    cases sh.tables.append s.call.stack r <;> rfl
  | settling s status error reraise =>
    simp only [outageEffect, perform]
    cases sh.tables.setStatus s.call.runId status error <;> rfl
  | _ => rfl

-- away from the lock, a step neither reads the holders nor asks the policy
theorem workerStep_elsewhere (holder : String → Option ι) (hl : ctrl.locks a = false)
    (h : workerStep policy w sh ctrl a = some (sh', ctrl')) :
    workerStep policy' w { sh with holder := holder } ctrl a =
      some ({ sh' with holder := holder }, ctrl') := by
  cases a with
  | submit handlers stack runId spec now =>
    cases ctrl <;> try cases h
    have hs := Option.some.inj h
    simp only [workerStep, submit_elsewhere, hs]
  | lookup tie =>
    cases ctrl <;> try cases h
    simp only [workerStep] at h ⊢
    split at h <;> cases h <;> rfl
  | call c =>
    cases ctrl <;> cases h
    rfl
  | store => exact perform_elsewhere holder hl h
  | lock granted =>
    cases ctrl <;> first | cases h | cases hl
  | begin =>
    cases ctrl <;> try cases h
    simp only [workerStep] at h ⊢
    split at h <;> cases h
    exact if_pos ‹_›
  | missing now =>
    cases ctrl <;> try cases h
    simp only [workerStep] at h ⊢
    split at h <;> cases h
    exact if_neg ‹_›
  | finish e now =>
    cases ctrl <;> try cases h
    simp only [workerStep] at h ⊢
    split at h <;> cases h <;> rfl
  | outage applied =>
    simp only [workerStep] at h ⊢
    split at h <;> cases h
    cases applied with
    | true => simp only [if_true, outageEffect_elsewhere policy _ holder hl]
    | false => rfl
  | die => cases ctrl <;> cases hl

end Elsewhere

section Mirror

variable [LinearOrder τ]

-- the worker is out of its block, or inside one its lease no longer covers
def Gone (cl : Cluster ι τ) (k : Worker τ) : Prop :=
  cl.lapsed k = true ∨ ∃ last, k.control = .atRest last

-- every step of the engine inside a block is taken while the lease of the block stands
def Timely (cl : Cluster ι τ) (k : Worker τ) : LeaseTurn τ → Prop
  | .engine _ => k.control.inside.isSome = true → cl.lapsed k = false
  | _ => True

def LeaseTurn.isEngine : LeaseTurn τ → Bool
  | .engine _ => true
  | _ => false

theorem timely_iff {cl : Cluster ι τ} {k : Worker τ} {t : LeaseTurn τ} : Timely cl k t ↔
    (t.isEngine = true → k.control.inside.isSome = true → cl.lapsed k = false) := by
  unfold Timely LeaseTurn.isEngine
  split <;> simp

instance (cl : Cluster ι τ) (k : Worker τ) (t : LeaseTurn τ) : Decidable (Timely cl k t) :=
  decidable_of_iff _ timely_iff.symm

-- the cluster seen as the engine under a lock that is never wrong: the workers gone are dead there
structure Mirrors (c : Config ι (Cluster ι τ) (Worker τ)) (d : System ι) : Prop where
  tables : d.shared.tables = c.shared.engine.tables
  log : d.shared.log = c.shared.engine.log
  locals : ∀ w, d.locals w = (c.locals w).control ∨
    d.locals w = .atRest none ∧ Gone c.shared (c.locals w)
  held : ∀ key w, d.shared.holder key = some w → ∃ s, (d.locals w).inside = some s ∧ s.key = key

variable {c : Config ι (Cluster ι τ) (Worker τ)} {d : System ι} {w v : ι} {cl' : Cluster ι τ}
  {k' : Worker τ}

theorem Mirrors.shared (h : Mirrors c d) :
    d.shared = { c.shared.engine with holder := d.shared.holder } := by
  show d.shared = ⟨c.shared.engine.tables, d.shared.holder, c.shared.engine.log⟩
  rw [← h.tables, ← h.log]

theorem Mirrors.present (h : Mirrors c d) (hg : ¬ Gone c.shared (c.locals w)) :
    d.locals w = (c.locals w).control :=
  (h.locals w).resolve_right fun hr => hg hr.2

variable [DecidableEq ι]

theorem Mirrors.turn (h : Mirrors c d) {sh : Shared ι} {x : Control}
    (htables : sh.tables = cl'.engine.tables) (hlog : sh.log = cl'.engine.log)
    (hlapse : ∀ k, c.shared.lapsed k = true → cl'.lapsed k = true)
    (hx : x = k'.control ∨ x = .atRest none ∧ Gone cl' k')
    (hown : ∀ key, sh.holder key = some w → ∃ s, x.inside = some s ∧ s.key = key)
    (hothers : ∀ key u, u ≠ w → sh.holder key = some u → d.shared.holder key = some u) :
    Mirrors ⟨cl', Function.update c.locals w k'⟩ ⟨sh, Function.update d.locals w x⟩ := by
  refine ⟨htables, hlog, fun u => ?_, fun key u hu => ?_⟩
  · by_cases he : u = w
    · subst he
      simpa using hx
    · simp only [Function.update_of_ne he]
      rcases h.locals u with hl | ⟨hl, hg | hg⟩
      · exact .inl hl
      · exact .inr ⟨hl, .inl (hlapse _ hg)⟩
      · exact .inr ⟨hl, .inr hg⟩
  · by_cases he : u = w
    · subst he
      simpa using hown key hu
    · simpa only [Function.update_of_ne he] using h.held key u (hothers key u he hu)

theorem Mirrors.stays (h : Mirrors c d) (htables : cl'.engine.tables = c.shared.engine.tables)
    (hlog : cl'.engine.log = c.shared.engine.log)
    (hlapse : ∀ k, c.shared.lapsed k = true → cl'.lapsed k = true)
    (hx : d.locals w = k'.control ∨ d.locals w = .atRest none ∧ Gone cl' k') :
    Mirrors ⟨cl', Function.update c.locals w k'⟩ d := by
  have hturn : Mirrors ⟨cl', Function.update c.locals w k'⟩
      ⟨d.shared, Function.update d.locals w (d.locals w)⟩ :=
    h.turn (h.tables.trans htables.symm) (h.log.trans hlog.symm) hlapse hx
      (fun key hk => h.held key w hk) fun _ _ _ hk => hk
  rwa [Function.update_eq_self] at hturn

theorem buried_holder {sh : Shared ι} {key : String} {u : ι}
    (h : (sh.buried w).holder key = some u) : u ≠ w ∧ sh.holder key = some u := by
  simp only [Shared.buried] at h
  split at h
  · cases h
  · rename_i hne
    refine ⟨?_, h⟩
    rintro rfl
    exact hne h

theorem released_holder {sh : Shared ι} {key key' : String} {u : ι}
    (h : (sh.release w key).holder key' = some u) :
    sh.holder key' = some u ∧ (u = w → key' ≠ key) := by
  simp only [Shared.release] at h
  split at h
  · cases h
  · rename_i hne
    refine ⟨h, ?_⟩
    rintro rfl rfl
    exact hne (by simp [h])

-- a worker that is gone may as well be dead
theorem Mirrors.bury (h : Mirrors c d) (hg : Gone c.shared (c.locals w)) :
    Mirrors c ⟨d.shared.buried w, Function.update d.locals w (.atRest none)⟩ := by
  have hturn : Mirrors ⟨c.shared, Function.update c.locals w (c.locals w)⟩
      ⟨d.shared.buried w, Function.update d.locals w (.atRest none)⟩ :=
    h.turn h.tables h.log (fun _ hl => hl) (.inr ⟨rfl, hg⟩)
      (fun key hk => absurd rfl (buried_holder hk).1) fun key u _ hk => (buried_holder hk).2
  rwa [Function.update_eq_self] at hturn

theorem Turned.lapses {digest : String → Nat} {later : τ → τ} {cl : Cluster ι τ} {k : Worker τ}
    {t : LeaseTurn τ} (h : Turned digest later w cl k t cl' k') {l : Worker τ}
    (hl : cl.lapsed l = true) : cl'.lapsed l = true := by
  obtain ⟨as, halong, hrun⟩ := h.lock
  have hgrow : cl.locks.granted ⊆ cl'.locks.granted ∧ cl.locks.clock ≤ cl'.locks.clock := by
    refine Transition.run_invariant_along
      (I := fun p : LockTable ι τ × Phase τ Unit =>
        cl.locks.granted ⊆ p.1.granted ∧ cl.locks.clock ≤ p.1.clock)
      ?_ ⟨List.Subset.refl _, le_rfl⟩ halong hrun
    rintro ⟨sh, ph⟩ a ⟨sh', ph'⟩ ⟨hsub, hle⟩ _ hs
    cases lockStep_move hs with
    | granted ok => exact ⟨fun g hg => List.mem_append_left _ (hsub hg), hle⟩
    | passed le => exact ⟨hsub, hle.trans le⟩
    | _ => exact ⟨hsub, hle⟩
  unfold Cluster.lapsed at hl ⊢
  split at hl
  · obtain ⟨g, hg, hlapse⟩ := List.any_eq_true.mp hl
    simp only [Bool.and_eq_true, decide_eq_true_eq] at hlapse
    refine List.any_eq_true.mpr ⟨g, hgrow.1 hg, ?_⟩
    simpa using ⟨hlapse.1, hlapse.2.trans hgrow.2⟩
  · cases hl

end Mirror

section Answers

variable [LinearOrder τ] [DecidableEq ι] {digest : String → Nat} {later : τ → τ}
  {c : Config ι (Cluster ι τ) (Worker τ)} {d : System ι} {w : ι} {cl' : Cluster ι τ}
  {k' : Worker τ}

def Cluster.Good (digest : String → Nat) (cl : Cluster ι τ) : Prop :=
  (cl.locks.Sound digest ∧ cl.locks.Kept) ∧ cl.engine.tables.Sound

def Worker.Good (w : ι) (cl : Cluster ι τ) (k : Worker τ) : Prop :=
  ((k.phase.Sound w cl.locks ∧ k.phase.Kept w cl.locks) ∧ k.control.Sound cl.engine.tables) ∧ k.Fits

omit [DecidableEq ι] in
theorem lapsed_inside {cl : Cluster ι τ} {k : Worker τ} (hf : k.Fits) (hl : cl.lapsed k = true) :
    ∃ s, k.control.inside = some s := by
  obtain ⟨ctrl, ph⟩ := k
  cases hin : ctrl.inside with
  | some s => exact ⟨s, rfl⟩
  | none =>
    unfold Cluster.lapsed at hl
    split at hl
    · rename_i key owner hph
      simp only [Worker.Fits, hin] at hf
      split at hf
      · rcases hf with ⟨last, hp⟩ | ⟨a, hp, _⟩ <;> cases hp.symm.trans hph
      · obtain ⟨last, hp⟩ := hf
        cases hp.symm.trans hph
    · cases hl

theorem atRest_alike {policy : LockPolicy ι} {sh : Shared ι} (last last' : Option Outcome)
    (a : Action) : workerStep policy w sh (.atRest last) a =
      workerStep policy w sh (.atRest last') a := by
  cases a <;> rfl

-- the steps by which the lock that is never wrong answers a turn of the cluster
def Answered (c : Config ι (Cluster ι τ) (Worker τ)) (d : System ι) : Prop :=
  ∃ bs d', runSystem refusing d bs = some d' ∧ Mirrors c d'

theorem answered_stutter (h : Mirrors c d) : Answered c d := ⟨[], d, rfl, h⟩

theorem answered_step {c' : Config ι (Cluster ι τ) (Worker τ)} {a : Action} {sh : Shared ι}
    {x : Control} (hs : workerStep refusing w d.shared (d.locals w) a = some (sh, x))
    (h : Mirrors c' ⟨sh, Function.update d.locals w x⟩) : Answered c' d :=
  ⟨[(w, a)], _, Transition.run_cons.mpr ⟨_, step_eq_some.mpr ⟨sh, x, hs, rfl⟩, rfl⟩, h⟩

theorem answered_engine (h : Mirrors c d) (hg : (c.locals w).Good w c.shared) {a : Action}
    (ht : Timely c.shared (c.locals w) (.engine a)) {sh : Shared ι} {ctrl' : Control}
    (hfree : (c.locals w).control.locks a = false)
    (hs : workerStep anyLock w c.shared.engine (c.locals w).control a = some (sh, ctrl')) :
    Answered ⟨{ c.shared with engine := sh },
      Function.update c.locals w ⟨ctrl', (c.locals w).phase⟩⟩ d := by
  have hmatch : workerStep anyLock w c.shared.engine (d.locals w) a = some (sh, ctrl') ∧
      (d.locals w).locks a = false := by
    rcases h.locals w with he | ⟨he, hgone | ⟨last, hlast⟩⟩
    · rw [he]
      exact ⟨hs, hfree⟩
    · obtain ⟨s, hin⟩ := lapsed_inside hg.2 hgone
      have hlive := ht (by rw [hin]; rfl)
      rw [hgone] at hlive
      cases hlive
    · rw [hlast] at hs hfree
      rw [he]
      exact ⟨(atRest_alike none last a).trans hs, by cases a <;> first | rfl | cases hfree⟩
  have hstep : workerStep refusing w _ (d.locals w) a = some (_, ctrl') :=
    workerStep_elsewhere d.shared.holder hmatch.2 hmatch.1
  rw [← h.shared] at hstep
  refine answered_step hstep (h.turn rfl rfl (fun _ hl => hl) (.inl rfl) ?_ fun _ _ _ hk => hk)
  intro key hkey
  obtain ⟨s, hin, hk⟩ := h.held key w hkey
  exact ⟨s, (workerStep_inside hmatch.2 hmatch.1).trans hin, hk⟩

theorem answered_die (h : Mirrors c d) (sh : Shared ι)
    (htables : sh.tables = c.shared.engine.tables) (hlog : sh.log = c.shared.engine.log)
    {locks : LockTable ι τ}
    (hlapse : ∀ k, c.shared.lapsed k = true → (⟨sh, locks⟩ : Cluster ι τ).lapsed k = true)
    (hrest : ∃ last, k'.control = .atRest last) :
    Answered ⟨⟨sh, locks⟩, Function.update c.locals w k'⟩ d := by
  refine answered_step (a := .die) (w := w) rfl (h.turn (h.tables.trans htables.symm)
    (h.log.trans hlog.symm) hlapse (.inr ⟨rfl, .inr hrest⟩) ?_ ?_)
  · exact fun key hk => absurd rfl (buried_holder hk).1
  · exact fun key u _ hk => (buried_holder hk).2

-- whoever holds the key in the mirror is inside a block of it, and its lease has lapsed
theorem freed (h : Mirrors c d) (hgood : Holds (Cluster.Good digest) Worker.Good c)
    {b : Attempt τ Unit} {left : List (LockRow τ)} {row : LockRow τ}
    (hnow : b.now ≤ c.shared.locks.clock)
    (hok : Lease.acquire digest (lasts later) c.shared.locks.rows b = .ok (left, row)) :
    ∃ bs d', runSystem refusing d bs = some d' ∧ Mirrors c d' ∧ d'.shared.holder b.key = none := by
  cases hheld : d.shared.holder b.key with
  | none => exact ⟨[], d, rfl, h, hheld⟩
  | some v =>
    obtain ⟨s, hin, hkey⟩ := h.held b.key v hheld
    have hpresent : d.locals v = (c.locals v).control := by
      rcases h.locals v with he | ⟨he, _⟩
      · exact he
      · rw [he] at hin
        cases hin
    rw [hpresent] at hin
    obtain ⟨g, hg, _, hgk, _, hrel, hlapse⟩ := inside_lease hgood.1.1.1 (hgood.2 v).1.1.1
      (hgood.2 v).1.1.2 (hgood.2 v).2 hin
    have hgone : c.shared.lapsed (c.locals v) = true := by
      rcases hgood.1.1.1.exclusive hnow hok hg (hgk.trans hkey) with hr | hexp
      · exact absurd hr hrel
      · exact hlapse.mpr hexp
    refine ⟨[(v, .die)], _, rfl, h.bury (.inl hgone), ?_⟩
    simp [Shared.buried, hheld]

theorem answered_granted (h : Mirrors c d) (hgood : Holds (Cluster.Good digest) Worker.Good c)
    {s : Session} {ph : Phase τ Unit} (hk : c.locals w = ⟨.locking s, ph⟩)
    {locks : LockTable ι τ} {key owner : String}
    (hlock : lockStep digest (lasts later) w c.shared.locks ph .acquire =
      some (locks, .inside key owner))
    (hlapse : ∀ k, c.shared.lapsed k = true →
      (⟨c.shared.engine.acquire w s.key, locks⟩ : Cluster ι τ).lapsed k = true) :
    Answered ⟨⟨c.shared.engine.acquire w s.key, locks⟩,
      Function.update c.locals w ⟨.starting s, .inside key owner⟩⟩ d := by
  have hg := hgood.2 w
  rw [hk] at hg
  have hnotGone : ¬ Gone c.shared (c.locals w) := by
    rw [hk]
    rintro (hl | ⟨last, hl⟩)
    · obtain ⟨s', hs'⟩ := lapsed_inside hg.2 hl
      cases hs'
    · cases hl
  cases lockStep_move hlock with
  | @granted b left row ok =>
    have hkey : b.key = s.key := hg.2.waiting rfl
    obtain ⟨bs, d', hrun, hm, hfree⟩ := freed h hgood hg.1.1.1.2.2 ok
    rw [hkey] at hfree
    have hx : d'.locals w = .locking s := (hm.present hnotGone).trans (by rw [hk])
    have hstep : workerStep refusing w d'.shared (d'.locals w) (.lock true) =
        some (d'.shared.acquire w s.key, .starting s) := by
      rw [hx]
      simp [workerStep, refusing, hfree]
    suffices hans : Answered ⟨⟨c.shared.engine.acquire w s.key, _⟩,
        Function.update c.locals w ⟨.starting s, .inside b.key b.owner⟩⟩ d' by
      obtain ⟨cs, d'', hrun', hm'⟩ := hans
      exact ⟨bs ++ cs, d'', Transition.run_append.mpr ⟨d', hrun, hrun'⟩, hm'⟩
    refine answered_step hstep (hm.turn hm.tables hm.log hlapse (.inl rfl) ?_ ?_)
    · intro k hheld
      by_cases he : k = s.key
      · exact ⟨s, rfl, he.symm⟩
      · simp only [Shared.acquire, Function.update_of_ne he] at hheld
        obtain ⟨s', hs', _⟩ := hm.held k w hheld
        rw [hx] at hs'
        cases hs'
    · intro k u hu hheld
      by_cases he : k = s.key
      · subst he
        simp only [Shared.acquire, Function.update_self, Option.some.injEq] at hheld
        exact absurd hheld.symm hu
      · simpa only [Shared.acquire, Function.update_of_ne he] using hheld

theorem answered_turn {t : LeaseTurn τ} (h : Mirrors c d)
    (hgood : Holds (Cluster.Good digest) Worker.Good c) (ht : Timely c.shared (c.locals w) t)
    (hturn : Turned digest later w c.shared (c.locals w) t cl' k') :
    Answered ⟨cl', Function.update c.locals w k'⟩ d := by
  have hlapse : ∀ k, c.shared.lapsed k = true → cl'.lapsed k = true := fun _ => hturn.lapses
  have hg := hgood.2 w
  generalize hk : c.locals w = k at hg ht hturn
  have hpresent (hn : ∀ last, k.control ≠ .atRest last) (ho : k.control.inside = none) :
      d.locals w = k.control := by
    rw [← hk]
    refine h.present ?_
    rw [hk]
    rintro (hl | ⟨last, hl⟩)
    · obtain ⟨s, hs⟩ := lapsed_inside hg.2 hl
      rw [ho] at hs
      cases hs
    · exact hn last hl
  cases hturn with
  | @engine ctrl ph a sh ctrl' free step =>
    have hans := answered_engine (w := w) h (hgood.2 w) (hk ▸ ht) (by rw [hk]; exact free)
      (by rw [hk]; exact step)
    rwa [hk] at hans
  | @entered s ph owner locks ph' lock =>
    have hx := hpresent (fun last hl => by cases hl) rfl
    exact answered_stutter (h.stays rfl rfl hlapse (.inl hx))
  | granted lock => exact answered_granted h hgood hk lock hlapse
  | @refused s ph locks e lock =>
    have hx := hpresent (fun last hl => by cases hl) rfl
    refine answered_step (a := .lock false) (w := w) (by rw [hx]; rfl)
      (h.turn h.tables h.log hlapse (.inl rfl) ?_ fun _ _ _ hkey => hkey)
    intro key hkey
    obtain ⟨s', hs', _⟩ := h.held key w hkey
    rw [hx] at hs'
    cases hs'
  | @left s o ph locks ph' lock =>
    rcases h.locals w with he | ⟨he, _⟩
    · have hx : d.locals w = .releasing s o := he.trans (by rw [hk])
      have hstep : workerStep refusing w d.shared (d.locals w) .store =
          some (d.shared.release w s.key, .atRest (some o)) := by
        rw [hx]
        rfl
      refine answered_step hstep (h.turn h.tables h.log hlapse (.inl rfl) ?_ ?_)
      · intro key hkey
        obtain ⟨hold, hne⟩ := released_holder hkey
        obtain ⟨s', hs', hk'⟩ := h.held key w hold
        rw [hx] at hs'
        cases hs'
        exact absurd hk'.symm (hne rfl)
      · exact fun key u _ hkey => (released_holder hkey).1
    · exact answered_stutter (h.stays rfl rfl hlapse (.inr ⟨he, .inr ⟨_, rfl⟩⟩))
  | failed at_ lock =>
    refine answered_die (w := w) h c.shared.engine rfl rfl hlapse ?_
    exact ⟨_, rfl⟩
  | passed le =>
    rcases h.locals w with he | ⟨he, hgone | hrest⟩
    · exact answered_stutter (h.stays rfl rfl hlapse (.inl (he.trans (by rw [hk]))))
    · exact answered_stutter (h.stays rfl rfl hlapse (.inr ⟨he, .inl (hlapse _ (hk ▸ hgone))⟩))
    · exact answered_stutter (h.stays rfl rfl hlapse (.inr ⟨he, .inr (hk ▸ hrest)⟩))
  | died =>
    refine answered_die (w := w) h (c.shared.engine.buried w) rfl rfl hlapse ?_
    exact ⟨none, rfl⟩

-- as long as no step inside a block is taken on a lapsed lease, the engine over the lease table is
-- the engine under a lock that never grants a held key
theorem leased_engine_refines (digest : String → Nat) (later : τ → τ) {t₀ : τ}
    {es : List (ι × LeaseTurn τ)}
    (htimely : Transition.along (Interleaving.step (leasedStep digest later)) (guarded Timely)
      (startCluster t₀) es)
    (h : runCluster digest later (startCluster t₀) es = some c) :
    ∃ bs d, runSystem refusing (System.start Tables.empty) bs = some d ∧ Mirrors c d := by
  have hstart : Mirrors (startCluster (ι := ι) t₀) (System.start Tables.empty) :=
    ⟨rfl, rfl, fun _ => .inl rfl, fun key w hk => by cases hk⟩
  have hanswered {c c' : Config ι (Cluster ι τ) (Worker τ)} {e : ι × LeaseTurn τ} {d : System ι}
      (hcd : Holds (Cluster.Good digest) Worker.Good c ∧ Mirrors c d) (ht : guarded Timely c e)
      (hs : Interleaving.step (leasedStep digest later) c e = some c') :
      ∃ bs d', Transition.run (Interleaving.step (workerStep refusing)) d bs = some d' ∧
        Holds (Cluster.Good digest) Worker.Good c' ∧ Mirrors c' d' := by
    have hgood := (cluster_outline digest later).step hcd.1 trivial hs
    obtain ⟨w, t⟩ := e
    obtain ⟨cl', k', ha, rfl⟩ := step_eq_some.mp hs
    obtain ⟨bs, d', hd, hm⟩ := answered_turn hcd.2 hcd.1 ht (leasedStep_turned ha)
    exact ⟨bs, d', hd, hgood, hm⟩
  obtain ⟨bs, d, hd, _, hm⟩ := Transition.run_simulated hanswered
    ⟨startCluster_holds t₀, hstart⟩ htimely h
  exact ⟨bs, d, hd, hm⟩

omit [DecidableEq ι] in
theorem refusing_exclusive : Exclusive (refusing (ι := ι)) := by
  intro holder h
  simpa [refusing] using h

theorem leased_planRows {t₀ : τ} {es : List (ι × LeaseTurn τ)}
    (h : runCluster digest later (startCluster t₀) es = some c) {runId : String} {plan : Plan}
    (hplan : ∀ e ∈ es, e.2.Calls (PlanFor runId plan)) :
    PlanRows c.shared.engine.tables runId plan := by
  have hlift : Outline (leasedStep (ι := ι) digest later)
      (fun _ _ t => t.Calls (PlanFor runId plan)) _ _ :=
    (plan_outline anyLock fun _ hc => hc).lift Cluster.engine Worker.control
      fun hq h => (leasedStep_turned h).worker hq
  have hstart : Holds
      (fun cl : Cluster ι τ => cl.engine.tables.Sound ∧ PlanRows cl.engine.tables runId plan)
      (fun _ cl k => k.control.Sound cl.engine.tables ∧ k.control.Calls (PlanFor runId plan))
      (startCluster t₀) :=
    ⟨⟨empty_sound, planRows_of_nil rfl⟩, fun _ => ⟨trivial, trivial⟩⟩
  exact (hlift.run_along hstart (Transition.along_of_forall (fun _ e he => hplan e he) _) h).1.2

-- and what a call gives back while its lease stands is the run, ended
theorem leased_run_finished (digest : String → Nat) (later : τ → τ) {t₀ : τ}
    {es : List (ι × LeaseTurn τ)}
    (htimely : Transition.along (Interleaving.step (leasedStep digest later)) (guarded Timely)
      (startCluster t₀) es)
    (h : runCluster digest later (startCluster t₀) es = some c) {t : LeaseTurn τ} {state : RunState}
    (hcall : ∀ last, (c.locals w).control ≠ .atRest last)
    (hlive : c.shared.lapsed (c.locals w) = false)
    (hstep : leasedStep digest later w c.shared (c.locals w) t = some (cl', k'))
    (hret : k'.control = .atRest (some (.returned state))) :
    c.shared.engine.tables.load state.runId = some state ∧ state.status.isTerminal = true ∧
      Explained state.status state.error ∧
      ∀ s o, (c.locals w).control = .releasing s o → state.runId = s.call.runId ∧
        state.Finished s.call.plan ∧
        ((∀ e ∈ es, e.2.Calls (PlanFor s.call.runId s.call.plan)) → state.status = .completed →
          state.Covers s.call.plan) := by
  obtain ⟨bs, d, hd, hm⟩ := leased_engine_refines digest later htimely h
  have hx : d.locals w = (c.locals w).control := by
    refine hm.present ?_
    rintro (hl | ⟨last, hl⟩)
    · rw [hlive] at hl
      cases hl
    · exact hcall last hl
  suffices hans : ∃ a sh, workerStep refusing w d.shared (d.locals w) a =
      some (sh, .atRest (some (.returned state))) by
    obtain ⟨a, sh, ha⟩ := hans
    have hfin := returned_run_finished refusing_exclusive bs hd (by rwa [hx]) ha
    rw [hm.tables, hx] at hfin
    obtain ⟨hload, hterm, hexplained, hreleasing⟩ := hfin
    refine ⟨hload, hterm, hexplained, fun s o hs => ?_⟩
    obtain ⟨hid, hfinished, _⟩ := hreleasing s o hs
    exact ⟨hid, hfinished, fun hplan => hfinished.covers (hid ▸ hload) (leased_planRows h hplan)⟩
  have hturn := leasedStep_turned hstep
  generalize c.locals w = k at hx hturn hcall
  cases hturn with
  | @engine ctrl ph a sh ctrl' free step =>
    obtain rfl : ctrl' = .atRest (some (.returned state)) := hret
    refine ⟨a, { sh with holder := d.shared.holder }, ?_⟩
    rw [hx, hm.shared]
    exact workerStep_elsewhere d.shared.holder free step
  | entered lock => cases hret
  | granted lock => cases hret
  | refused lock => cases hret
  | @left s o ph locks ph' lock =>
    cases hret
    refine ⟨.store, d.shared.release w s.key, ?_⟩
    rw [hx]
    rfl
  | failed at_ lock => cases hret
  | passed le => exact absurd hret (hcall _)
  | died => cases hret

-- the first worker dies in the handler; the second waits its lease out and finishes the run
def reclaimed : List (Bool × LeaseTurn Int) :=
  engineTurns true [submits, .call chargeCall, .store] ++
    [(true, .enter "first"), (true, .acquire)] ++ engineTurns true [.store, .begin] ++
    [(true, .die), (false, .pass 61)] ++ engineTurns false [.call chargeCall, .store] ++
    [(false, .enter "second"), (false, .acquire)] ++
    engineTurns false (.store :: charges "done" ++ notifies "done" ++ [.store, .store])

theorem leased_engine_refines_reclaimed :
    ∃ c : Config Bool (Cluster Bool Int) (Worker Int),
      runCluster String.length aMinute (startCluster 0) reclaimed = some c ∧
      ∃ bs d, runSystem refusing (System.start Tables.empty) bs = some d ∧ Mirrors c d := by
  have h : (runCluster String.length aMinute (startCluster 0) reclaimed).isSome = true := by
    decide +kernel
  obtain ⟨c, hc⟩ := Option.isSome_iff_exists.mp h
  exact ⟨c, hc, leased_engine_refines _ _ (by decide +kernel) hc⟩

theorem leased_run_finished_reclaimed :
    ∃ (c : Config Bool (Cluster Bool Int) (Worker Int)) (s : Session) (state : RunState),
      runCluster String.length aMinute (startCluster 0) reclaimed = some c ∧
      (c.locals false).control = .releasing s (.returned state) ∧
      c.shared.engine.tables.load s.call.runId = some state ∧
      Explained state.status state.error ∧ state.Finished s.call.plan ∧
      state.status = .completed ∧ state.Covers s.call.plan := by
  have h : ((runCluster String.length aMinute (startCluster 0) reclaimed).any fun c =>
      ((c.locals false).control.answering.any fun p => decide (p.2.status = .completed) && decide
        (∀ e ∈ reclaimed, e.2.Calls (PlanFor p.1.call.runId p.1.call.plan))) &&
      ((c.locals false).phase.granted && !c.shared.lapsed (c.locals false))) = true := by
    decide +kernel
  obtain ⟨c, hc, hq⟩ := (Option.any_eq_true _ _).mp h
  simp only [Bool.and_eq_true, Bool.not_eq_true'] at hq
  obtain ⟨hanswer, hin, hlive⟩ := hq
  obtain ⟨⟨s, state⟩, hp, hq⟩ := (Option.any_eq_true _ _).mp hanswer
  rw [Bool.and_eq_true, decide_eq_true_eq, decide_eq_true_eq] at hq
  have hs := answering_eq_some hp
  obtain ⟨cl', hstep⟩ : ∃ cl', leasedStep String.length aMinute false c.shared (c.locals false)
      .leave = some (cl', ⟨.atRest (some (.returned state)), .outside none⟩) := by
    revert hs hin
    generalize c.locals false = k
    obtain ⟨ctrl, ph⟩ := k
    rintro hin rfl
    cases ph with
    | inside key owner => exact ⟨_, rfl⟩
    | outside last => cases hin
    | waiting b => cases hin
  obtain ⟨h1, _, h2, h3⟩ := leased_run_finished _ _ (by decide +kernel) hc
    (fun last hl => by rw [hs] at hl; cases hl) hlive hstep rfl
  obtain ⟨hid, hfin, hcovers⟩ := h3 s _ hs
  exact ⟨c, s, state, hc, hs, hid ▸ h1, h2, hfin, hq.1, hcovers hq.2 hq.1⟩

end Answers

end DurableAgent
