import DurableAgent.Leases
import DurableAgent.Outcomes
import DurableAgent.Uninterrupted

namespace DurableAgent

open FirstWriter Interleaving

variable {ι : Type}

def Raised.refusal : Raised → Bool
  | .planChanged _ => true
  | .lockUnavailable _ => true
  | _ => false

def Outcome.refusal : Outcome → Bool
  | .raised e => e.refusal
  | .returned _ => false

section Exact

variable {handle : String → StepContext → Execution} {now : Nat → Datetime} {s : Session}
  {t : Tables} {f : Frame} {ctx : StepContext} {status : RunStatus} {reraise : Option Raised}

theorem reload_unrefused (t : Tables) (runId : String) : (reload t runId).refusal = false := by
  unfold reload
  cases t.load runId <;> rfl

theorem finishRun_unrefused (t : Tables) (s : Session) (status : RunStatus) (error : Option PyStr)
    (h : ∀ e, reraise = some e → e.refusal = false) :
    (finishRun t s status error reraise).2.refusal = false := by
  unfold finishRun
  cases t.setStatus s.call.runId status error with
  | error e => rfl
  | ok t' =>
    cases reraise with
    | none => exact reload_unrefused t' s.call.runId
    | some e => exact h e rfl

theorem stepRecord_unrefused {outcome : StepOutcome} {output : PyValue} {at' : Datetime} {e : Raised}
    (h : stepRecord s f outcome ctx output at' = .error e) : e.refusal = false := by
  unfold stepRecord at h
  split at h
  · cases h
    rfl
  · split at h
    · cases h
    · cases h
      rfl

theorem recordFailure_unrefused (t : Tables) (s : Session) (f : Frame) (ctx : StepContext)
    (at' : Datetime) (status : RunStatus) (reason : PyStr)
    (h : ∀ e, reraise = some e → e.refusal = false) :
    (recordFailure t s f ctx at' status reason reraise).2.refusal = false := by
  unfold recordFailure
  cases hr : stepRecord s f .failed ctx (errorOutput reason) at' with
  | error e => exact stepRecord_unrefused hr
  | ok r =>
    cases ha : t.append s.call.stack r with
    | error e => simp only [ha]; rfl
    | ok t' =>
      simp only [ha]
      exact finishRun_unrefused t' s status (some reason) h

theorem runSteps_unrefused (handle : String → StepContext → Execution) (now : Nat → Datetime)
    (s : Session) (steps : List Step) (index : Nat) (payload : StrDict) (previous : Outputs)
    (t : Tables) :
    (runSteps handle now s steps index payload previous t).2.refusal = false := by
  induction steps generalizing index payload previous t with
  | nil => exact finishRun_unrefused t s .completed none nofun
  | cons step rest ih =>
    rw [runSteps]
    simp only
    split
    · rfl
    · split
      · rfl
      · exact recordFailure_unrefused t s _ _ _ _ _ nofun
      · rfl
      · refine recordFailure_unrefused t s _ _ _ _ _ fun e he => ?_
        obtain rfl := Option.some.inj he
        rfl
      · split
        · rename_i e he
          exact stepRecord_unrefused he
        · split
          · rfl
          · exact ih _ _ _ _

def Plan.names (p : Plan) : List String := p.steps.map Step.name

theorem names_getElem? (p : Plan) (i : Nat) (name : String) : p.names[i]? = some name ↔
    ∃ step, p.steps[i]? = some step ∧ step.name = name := by
  rw [Plan.names, List.getElem?_map, Option.map_eq_some_iff]

-- both plans name each of the rows, and the rows are the first ones
theorem matches_iff {plan plan' : Plan} {state : RunState}
    (hn : state.steps.map StepRecord.index = List.range state.steps.length)
    (h : assertPlanMatchesHistory plan state = .ok ()) :
    assertPlanMatchesHistory plan' state = .ok () ↔ state.steps.length ≤ plan'.steps.length ∧
      plan'.names.take state.steps.length = plan.names.take state.steps.length := by
  rw [assertPlanMatchesHistory_ok] at h ⊢
  simp only [← names_getElem?] at h ⊢
  have hrow : ∀ i < state.steps.length, ∃ r ∈ state.steps, r.index = i := by
    intro i hi
    have hmem : i ∈ state.steps.map StepRecord.index := by
      rw [hn]
      exact List.mem_range.mpr hi
    exact List.mem_map.mp hmem
  constructor
  · intro h'
    have hat : ∀ i < state.steps.length, ∃ name, plan.names[i]? = some name ∧
        plan'.names[i]? = some name := by
      intro i hi
      obtain ⟨r, hr, rfl⟩ := hrow i hi
      exact ⟨r.name, h r hr, h' r hr⟩
    constructor
    · by_contra hlt
      obtain ⟨name, -, hname⟩ := hat _ (Nat.lt_of_not_le hlt)
      obtain ⟨hlen, -⟩ := List.getElem?_eq_some_iff.mp hname
      rw [Plan.names, List.length_map] at hlen
      exact Nat.lt_irrefl _ hlen
    · apply List.ext_getElem?
      intro i
      rcases Nat.lt_or_ge i state.steps.length with hi | hi
      · obtain ⟨name, hname, hname'⟩ := hat i hi
        rw [List.getElem?_take_of_lt hi, List.getElem?_take_of_lt hi, hname, hname']
      · rw [List.getElem?_eq_none ((List.length_take_le _ _).trans hi),
          List.getElem?_eq_none ((List.length_take_le _ _).trans hi)]
  · rintro ⟨-, htake⟩ r hr
    have hi : r.index < state.steps.length := by
      have hmem := List.mem_map_of_mem (f := StepRecord.index) hr
      rw [hn] at hmem
      exact List.mem_range.mp hmem
    rw [← List.getElem?_take_of_lt hi, htake, List.getElem?_take_of_lt hi]
    exact h r hr

end Exact

section Calls

variable {t : Tables} {state : RunState} {c : Call}

theorem run_planChanged_iff (handle : String → StepContext → Execution) (now : Nat → Datetime)
    (granted : Bool) (hl : t.load c.runId = some state) (ha : state.status.isTerminal = false) :
    (∃ message, (run handle now granted t c).2 = .raised (.planChanged message)) ↔
      assertPlanMatchesHistory c.plan state ≠ .ok () := by
  have hrun : ∀ o : Outcome, o.refusal = false → ¬ ∃ message, o = .raised (.planChanged message) := by
    rintro o ho ⟨message, rfl⟩
    cases ho
  simp only [run, hl, ha, Bool.false_eq_true, if_false]
  cases hm : assertPlanMatchesHistory c.plan state with
  | error e =>
    refine iff_of_true ?_ (by simp)
    unfold assertPlanMatchesHistory at hm
    split at hm
    · cases hm
    · cases hm
      exact ⟨_, rfl⟩
  | ok u =>
    refine iff_of_false ?_ fun hne => hne rfl
    cases granted with
    | false => rintro ⟨message, hraised⟩; cases hraised
    | true =>
      apply hrun
      simp only [if_true]
      cases t.setStatus c.runId .running none with
      | error e => rfl
      | ok t' => exact runSteps_unrefused handle now _ _ _ _ _ t'

theorem run_refused {handle : String → StepContext → Execution} {now : Nat → Datetime}
    {granted : Bool} (h : (run handle now granted t c).2.refusal = true) :
    (run handle now granted t c).1 = t ∧
      ∀ handle', run handle' now granted t c = run handle now granted t c := by
  unfold run at h ⊢
  cases hl : t.load c.runId with
  | none => exact ⟨rfl, fun _ => rfl⟩
  | some state =>
    simp only [hl] at h ⊢
    split at h
    · rename_i ht
      simp only [ht, if_true, implies_true, and_self]
    · rename_i ht
      simp only [ht, Bool.false_eq_true, if_false]
      cases hm : assertPlanMatchesHistory c.plan state with
      | error e => exact ⟨rfl, fun _ => rfl⟩
      | ok u =>
        simp only [hm] at h ⊢
        cases granted with
        | false => exact ⟨rfl, fun _ => rfl⟩
        | true =>
          simp only [if_true] at h ⊢
          cases hs : t.setStatus c.runId .running none with
          | error e => exact ⟨rfl, fun _ => rfl⟩
          | ok t' =>
            simp only [hs] at h
            rw [runSteps_unrefused] at h
            cases h

end Calls

section Steps

-- nothing is touched before a call is past the guard and the lock
def Control.Harmless (before sh : Shared ι) : Control → Prop
  | .loading _ => sh = before
  | .locking _ => sh = before
  | .atRest (some o) => o.refusal = true → sh = before
  | .releasing _ o => o.refusal = false
  | .settling _ _ _ reraise => ∀ e, reraise = some e → e.refusal = false
  | .appending _ _ _ (.settle _ _ reraise) => ∀ e, reraise = some e → e.refusal = false
  | _ => True

-- a step that goes on with the call, or ends it
def Action.continues : Action → Bool
  | .submit _ _ _ _ _ => false
  | .call _ => false
  | _ => true

variable {before sh sh' : Shared ι} {s : Session} {f : Frame} {ctrl ctrl' : Control} {a : Action}

theorem next_harmless (index : Nat) (payload : StrDict) (previous : Outputs) :
    (s.next index payload previous).Harmless before sh := by
  unfold Session.next
  split
  · exact nofun
  · simp only
    split
    · exact rfl
    · trivial

theorem concludeFailure_harmless {ctx : StepContext} {now : Datetime} {status : RunStatus}
    {reason : PyStr} {reraise : Option Raised} (h : ∀ e, reraise = some e → e.refusal = false) :
    (concludeFailure s f ctx now status reason reraise).Harmless before sh := by
  unfold concludeFailure
  split
  · exact stepRecord_unrefused ‹_›
  · exact h

theorem conclude_harmless (e : Execution) (now : Datetime) :
    (conclude s f e now).Harmless before sh := by
  unfold conclude
  split
  · exact rfl
  · exact concludeFailure_harmless nofun
  · exact rfl
  · refine concludeFailure_harmless fun e he => ?_
    obtain rfl := Option.some.inj he
    rfl
  · split
    · exact stepRecord_unrefused ‹_›
    · trivial

theorem loaded_harmless (c : Call) : (loaded c (sh.tables.load c.runId)).Harmless sh sh := by
  unfold loaded
  split
  · exact fun _ => rfl
  · split
    · exact fun _ => rfl
    · split
      · exact fun _ => rfl
      · exact rfl

theorem failed_harmless (h : ctrl.failed = some ctrl') : ctrl'.Harmless before sh := by
  cases ctrl <;> simp only [Control.failed, Option.some.injEq, reduceCtorEq] at h <;> subst h <;>
    first | exact rfl | (intro hr; cases hr)

variable [DecidableEq ι] {policy : LockPolicy ι} {w : ι}

theorem Performed.harmless (h : Performed w sh ctrl sh' ctrl') (hh : ctrl.Harmless before sh) :
    ctrl'.Harmless before sh' := by
  cases h with
  | @loaded c =>
    obtain rfl : sh = before := hh
    exact loaded_harmless c
  | started _ => exact next_harmless _ _ _
  | @appended s f r after t _ =>
    cases after with
    | proceed payload previous => exact next_harmless _ _ _
    | settle status reason reraise => exact hh
  | settled _ => trivial
  | reraised _ => exact hh _ rfl
  | reloaded => exact reload_unrefused _ _
  | released =>
    intro hr
    exact absurd (hh.symm.trans hr) Bool.false_ne_true
  | _ => exact rfl

theorem workerStep_harmless (hc : a.continues = true) (hh : ctrl.Harmless before sh)
    (h : workerStep policy w sh ctrl a = some (sh', ctrl')) : ctrl'.Harmless before sh' := by
  cases workerStep_took h with
  | submitted _ => cases hc
  | conflict e refusal =>
    intro hr
    rcases refusal with ⟨id, rfl⟩ | rfl <;> cases hr
  | called => cases hc
  | stored performed => exact performed.harmless hh
  | refused _ => exact fun _ => hh
  | missing _ => exact conclude_harmless _ _
  | returned _ => exact conclude_harmless _ _
  | threw _ => exact conclude_harmless _ _
  | outage failed => exact failed_harmless failed
  | _ => trivial

end Steps

section Systems

variable [DecidableEq ι] {policy : LockPolicy ι} {w : ι} {c d : System ι}

-- the configurations differ at most in how the worker's last call ended
structure Alike (w : ι) (c d : System ι) : Prop where
  shared : c.shared = d.shared
  others : ∀ j, j ≠ w → c.locals j = d.locals j
  own : c.locals w = d.locals w ∨
    ∃ last last', c.locals w = .atRest last ∧ d.locals w = .atRest last'

theorem workerStep_rest (policy : LockPolicy ι) (w : ι) (sh : Shared ι)
    (last last' : Option Outcome) (a : Action) :
    workerStep policy w sh (.atRest last) a = workerStep policy w sh (.atRest last') a := by
  cases a <;> rfl

theorem Alike.worker_step (h : Alike w c d) (j : ι) (a : Action) :
    workerStep policy j c.shared (c.locals j) a = workerStep policy j d.shared (d.locals j) a := by
  rw [h.shared]
  by_cases hj : j = w
  · subst hj
    rcases h.own with heq | ⟨last, last', hc, hd⟩
    · rw [heq]
    · rw [hc, hd, workerStep_rest]
  · rw [h.others j hj]

theorem step_alike (c d : System ι) (e : ι × Action) (h : Alike w c d) :
    Option.Rel (Alike w) (Interleaving.step (workerStep policy) c e)
      (Interleaving.step (workerStep policy) d e) := by
  obtain ⟨j, a⟩ := e
  unfold Interleaving.step
  simp only [h.worker_step]
  cases workerStep policy j d.shared (d.locals j) a with
  | none => exact .none
  | some r =>
    refine .some ⟨rfl, fun i hi => ?_, ?_⟩
    · by_cases hij : i = j
      · simp [hij]
      · simp [Function.update_of_ne hij, h.others i hi]
    · by_cases hj : w = j
      · simp [hj]
      · simp only [Function.update_of_ne hj]
        exact h.own

-- the worker's next action leads both to the same configuration
theorem Alike.step_own (h : Alike w c d) (a : Action) :
    Interleaving.step (workerStep policy) c (w, a) =
      Interleaving.step (workerStep policy) d (w, a) := by
  have hlocals (k : Control) : Function.update c.locals w k = Function.update d.locals w k := by
    funext j
    by_cases hj : j = w
    · subst hj
      rw [Function.update_self, Function.update_self]
    · rw [Function.update_of_ne hj, Function.update_of_ne hj, h.others j hj]
  simp only [Interleaving.step, h.worker_step, hlocals]

theorem Alike.run_own (h : Alike w c d) (a : Action) (es : List (ι × Action)) :
    runSystem policy c ((w, a) :: es) = runSystem policy d ((w, a) :: es) := by
  rw [runSystem, Transition.run, h.step_own, Transition.run]

theorem turns_alone {acts : List Action} (h : runSystem policy c (turns w acts) = some d) :
    Transition.run (solo policy w) (c.shared, c.locals w) acts = some (d.shared, d.locals w) ∧
      ∀ j, j ≠ w → d.locals j = c.locals j := by
  induction acts generalizing c with
  | nil =>
    obtain rfl := Option.some.inj h
    exact ⟨rfl, fun _ _ => rfl⟩
  | cons a acts ih =>
    obtain ⟨m, hm, hr⟩ := Transition.run_cons.mp h
    obtain ⟨sh, ctrl, hs, rfl⟩ := step_eq_some.mp hm
    obtain ⟨hsolo, hothers⟩ := ih hr
    simp only [Function.update_self] at hsolo
    refine ⟨Transition.run_cons.mpr ⟨(sh, ctrl), hs, hsolo⟩, fun j hj => ?_⟩
    rw [hothers j hj]
    exact Function.update_of_ne hj _ _

theorem refused_call_harmless {last : Option Outcome} {call : Call} {acts : List Action}
    {o : Outcome} (hrest : c.locals w = .atRest last) (hacts : ∀ a ∈ acts, a.continues = true)
    (h : runSystem policy c (turns w (.call call :: acts)) = some d)
    (ho : d.locals w = .atRest (some o)) (hr : o.refusal = true) :
    d.shared = c.shared ∧ Alike w c d := by
  obtain ⟨hsolo, hothers⟩ := turns_alone h
  obtain ⟨m, hm, hrun⟩ := Transition.run_cons.mp hsolo
  rw [hrest] at hm
  obtain rfl := Option.some.inj hm
  have hstart : (Control.loading call).Harmless c.shared c.shared := rfl
  have hend := Transition.run_invariant_along (p := fun _ a => a.continues = true)
    (I := fun x : Shared ι × Control => x.2.Harmless c.shared x.1)
    (fun _ _ _ hi hc hs => workerStep_harmless hc hi hs) hstart
    (Transition.along_of_forall (fun _ => hacts) _) hrun
  simp only [ho] at hend
  have hshared : d.shared = c.shared := hend hr
  exact ⟨hshared, hshared.symm, fun j hj => (hothers j hj).symm, .inr ⟨_, _, hrest, ho⟩⟩

end Systems

section Claim

-- the guard refuses `plan` in a run that `plan₀` made the `k` checkpoints of
def PlanDrifted (plan plan₀ : Plan) (k : Nat) : Prop :=
  plan.steps.length < k ∨ plan.names.take k ≠ plan₀.names.take k

theorem lock_refusal_keeps_rows {τ δ : Type} [LinearOrder τ] [DecidableEq ι]
    {digest : String → Nat} {plus : τ → δ → Option τ} {w : ι} {table table' : LockTable ι τ}
    {ph : Phase τ δ} {message : String}
    (h : lockStep digest plus w table ph .acquire =
      some (table', .outside (some (.lockUnavailable message)))) : table' = table := by
  generalize hp : Phase.outside (some (.lockUnavailable message)) = ph' at h
  cases lockStep_move h with
  | granted ok => cases hp
  | refused error => rfl

variable [DecidableEq ι]

theorem plan_guard_exact_and_harmless (policy : LockPolicy ι) (es : List (ι × Action))
    {runId : String} {plan₀ : Plan} {c : System ι} {state : RunState}
    (hplan : ∀ e ∈ es, e.2.Calls (PlanFor runId plan₀))
    (h : runSystem policy (System.start Tables.empty) es = some c)
    (hl : c.shared.tables.load runId = some state) (ha : state.status.isTerminal = false) :
    (∀ handle now granted handlers plan crashAt stack,
        (∃ message, (run handle now granted c.shared.tables
          ⟨handlers, runId, plan, crashAt, stack⟩).2 = .raised (.planChanged message)) ↔
        PlanDrifted plan plan₀ state.steps.length) ∧
      (∀ w last call acts d o, c.locals w = .atRest last → (∀ a ∈ acts, a.continues = true) →
        runSystem policy c (turns w (.call call :: acts)) = some d →
        d.locals w = .atRest (some o) → o.refusal = true →
        d.shared = c.shared ∧
          (∀ es', Option.Rel (Alike w) (runSystem policy c es') (runSystem policy d es')) ∧
          ∀ a es', runSystem policy c ((w, a) :: es') = runSystem policy d ((w, a) :: es')) ∧
      (∀ handle now granted call, (run handle now granted c.shared.tables call).2.refusal = true →
        (run handle now granted c.shared.tables call).1 = c.shared.tables ∧
          ∀ handle', run handle' now granted c.shared.tables call =
            run handle now granted c.shared.tables call) ∧
      ∀ (τ δ : Type) (_ : LinearOrder τ) (digest : String → Nat) (plus : τ → δ → Option τ) (w : ι)
        (table table' : LockTable ι τ) (ph : Phase τ δ) (message : String),
        lockStep digest plus w table ph .acquire =
          some (table', .outside (some (.lockUnavailable message))) → table' = table := by
  have hstart : Holds (fun sh : Shared ι => sh.tables.Sound ∧ PlanRows sh.tables runId plan₀)
      (fun _ sh ctrl => ctrl.Sound sh.tables ∧ ctrl.Calls (PlanFor runId plan₀))
      (System.start Tables.empty) :=
    ⟨⟨empty_sound, planRows_of_nil rfl⟩, fun _ => ⟨trivial, trivial⟩⟩
  have hd := (plan_outline policy (Q := PlanFor runId plan₀) fun _ hc => hc).run_along hstart
    (calls_along hplan) h
  have hnumbered : state.steps.map StepRecord.index = List.range state.steps.length := by
    obtain ⟨row, -, -, hst⟩ := load_eq_some hl
    rw [hst, hydrate_steps _ (hd.1.1.numbered _), List.map_map, List.length_map]
    exact hd.1.1.numbered row.runId
  refine ⟨?_, ?_, fun _ _ _ _ => run_refused, fun _ _ _ _ _ _ _ _ _ _ => lock_refusal_keeps_rows⟩
  · intro handle now granted handlers plan crashAt stack
    rw [run_planChanged_iff handle now granted hl ha, ne_eq,
      matches_iff hnumbered (planRows_match hd.1.2 hl), not_and_or, Nat.not_le]
    rfl
  · intro w last call acts d o hrest hacts hrun ho hr
    obtain ⟨hshared, halike⟩ := refused_call_harmless hrest hacts hrun ho hr
    exact ⟨hshared, Transition.run_alike step_alike halike, halike.run_own⟩

def crashedAfterCharge : List (Unit × Action) :=
  ((), submits) :: turns () (opens ++ charges "first" ++ [.die])

theorem plan_guard_after_crash :
    ∃ (c : System Unit) (state : RunState),
      runSystem perfectLock (System.start Tables.empty) crashedAfterCharge = some c ∧
      c.shared.tables.load "run" = some state ∧ state.steps.length = 1 ∧
      (∃ message, (run (fun _ ctx => answers ctx.index) (fun _ => epoch) true c.shared.tables
        ⟨["charge", "notify"], "run", notifyPlan, none, 900⟩).2 = .raised (.planChanged message)) ∧
      ¬ ∃ message, (run (fun _ ctx => answers ctx.index) (fun _ => epoch) true c.shared.tables
        ⟨["charge", "notify"], "run", chargePlan, none, 900⟩).2 =
          .raised (.planChanged message) := by
  have hplan : ∀ e ∈ crashedAfterCharge, e.2.Calls (PlanFor "run" chargePlan) := by decide
  have hs : ((runSystem perfectLock (System.start Tables.empty) crashedAfterCharge).any fun c =>
      (c.shared.tables.load "run").any fun state => state.status.isTerminal = false ∧
        state.steps.length = 1) = true := by decide +kernel
  obtain ⟨c, hc, hq⟩ := (Option.any_eq_true _ _).mp hs
  obtain ⟨state, hl, hq⟩ := (Option.any_eq_true _ _).mp hq
  rw [decide_eq_true_eq] at hq
  obtain ⟨ha, hlen⟩ := hq
  have hguard := plan_guard_exact_and_harmless perfectLock crashedAfterCharge hplan hc hl ha
  refine ⟨c, state, hc, hl, hlen, (hguard.1 _ _ _ _ _ _ _).mpr ?_, fun h => ?_⟩
  · rw [hlen]
    exact .inr (by decide)
  · have hdrift := (hguard.1 _ _ _ _ _ _ _).mp h
    rw [hlen] at hdrift
    rcases hdrift with hlt | hne
    · exact absurd hlt (by decide)
    · exact hne rfl

end Claim

end DurableAgent
