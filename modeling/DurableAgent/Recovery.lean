import DurableAgent.Outcomes
import DurableAgent.Uninterrupted

namespace DurableAgent

open Interleaving

variable {ι : Type}

section Recovery

variable [DecidableEq ι]

-- the deaths of the worker that holds the key and of the one that takes over
def deaths (holder : Option ι) (w : ι) : List (ι × Action) :=
  match holder with
  | some v => [(v, .die), (w, .die)]
  | none => [(w, .die)]

theorem run_deaths (policy : LockPolicy ι) (c : System ι) (key : String) (w : ι) :
    ∃ d, runSystem policy c (deaths (c.shared.holder key) w) = some d ∧
      d.shared.tables = c.shared.tables ∧ d.locals w = .atRest none ∧
      d.shared.holder key = none := by
  cases hheld : c.shared.holder key with
  | none =>
    refine ⟨_, rfl, rfl, by simp, ?_⟩
    simp [Shared.buried, hheld]
  | some v =>
    refine ⟨_, rfl, rfl, by simp, ?_⟩
    simp [Shared.buried, hheld]

omit [DecidableEq ι] in
theorem run_ended {t : Tables} {runId : String} {plan : Plan} {state : RunState} (ht : t.Sound)
    (hp : PlanRows t runId plan) (hl : t.load runId = some state)
    (ha : state.status.isTerminal = false) {handlers : List String} {stack : Nat}
    {results : Nat → Execution}
    (hr : recordableFrom stack handlers results (plan.steps.drop state.nextIndex) state.nextIndex =
      true) (now : Nat → Datetime) :
    Ended (run (fun _ ctx => results ctx.index) now true t ⟨handlers, runId, plan, none, stack⟩).1
      runId := by
  have hmatch := planRows_match hp hl
  obtain ⟨row, hrow, _, rfl⟩ := load_eq_some hl
  obtain ⟨t', hs, hrow'⟩ := setStatus_running ht.wellFormed hrow ha
  simp only [run, hl, ha, hmatch, hs, Bool.false_eq_true, if_false, if_true]
  exact (runSteps_ended_iff results now _ _ _ _ rfl hrow' rfl).mpr hr

-- from wherever the workers stand, the death of whoever holds the run's key and one call left alone
-- end the run, as the source's `run` would: the lock need only grant a key that nobody holds
theorem every_run_can_end (policy : LockPolicy ι) (hgrants : policy none true = true)
    {es : List (ι × Action)} {runId : String} {plan : Plan} {c : System ι}
    (hplan : ∀ e ∈ es, e.2.Calls (PlanFor runId plan))
    (h : runSystem policy (System.start Tables.empty) es = some c) {state : RunState}
    (hl : c.shared.tables.load runId = some state) (ha : state.status.isTerminal = false)
    (handlers : List String) (stack : Nat) (results : Nat → Execution) (now : Nat → Datetime)
    (hr : recordableFrom stack handlers results (plan.steps.drop state.nextIndex) state.nextIndex =
      true) (w : ι) :
    ∃ acts d, (∀ a ∈ acts, a.uninterrupted = true) ∧
      runSystem policy c
        (deaths (c.shared.holder state.idempotencyKey) w ++ turns w acts) = some d ∧
      Ended d.shared.tables runId ∧
      d.shared.tables = (run (fun _ ctx => results ctx.index) now true c.shared.tables
        ⟨handlers, runId, plan, none, stack⟩).1 ∧
      d.locals w = .atRest (some (run (fun _ ctx => results ctx.index) now true c.shared.tables
        ⟨handlers, runId, plan, none, stack⟩).2) := by
  have hstart : Holds (fun sh : Shared ι => sh.tables.Sound ∧ PlanRows sh.tables runId plan)
      (fun _ sh ctrl => ctrl.Sound sh.tables ∧ ctrl.Calls (PlanFor runId plan))
      (System.start Tables.empty) :=
    ⟨⟨empty_sound, planRows_of_nil rfl⟩, fun _ => ⟨trivial, trivial⟩⟩
  have hend := (plan_outline policy (Q := PlanFor runId plan) fun _ hc => hc).run_along
    hstart (calls_along hplan) h
  obtain ⟨b, hb, htables, hrest, hfree⟩ := run_deaths policy c state.idempotencyKey w
  have hlock : ∀ found, b.shared.tables.load runId = some found →
      policy (b.shared.holder found.idempotencyKey) true = true := by
    intro found hfound
    rw [htables, hl] at hfound
    rw [← Option.some.inj hfound, hfree]
    exact hgrants
  obtain ⟨acts, d, hacts, hd, ht, hout⟩ := uninterrupted_call_computes_run
    (fun _ ctx => results ctx.index) now true ⟨handlers, runId, plan, none, stack⟩ hrest hlock
  rw [htables] at ht hout
  refine ⟨acts, d, hacts, Transition.run_append.mpr ⟨b, hb, hd⟩, ?_, ht, hout⟩
  rw [ht]
  exact run_ended hend.1.1 hend.1.2 hl ha hr now

-- the first worker hangs in the handler of the charge, the second was refused the lock
def hungCharge : List (Bool × Action) :=
  (true, submits) :: turns true (opens ++ [.begin]) ++
    turns false [.call chargeCall, .store, .lock false]

theorem every_run_can_end_hung :
    ∃ (c : System Bool) (state : RunState) (acts : List Action) (d : System Bool),
      runSystem perfectLock (System.start Tables.empty) hungCharge = some c ∧
      c.shared.tables.load "run" = some state ∧
      runSystem perfectLock c
        (deaths (c.shared.holder state.idempotencyKey) false ++ turns false acts) = some d ∧
      Ended d.shared.tables "run" := by
  have hq : ((runSystem perfectLock (System.start Tables.empty) hungCharge).any fun c =>
      (c.shared.tables.load "run").any fun state => state.status.isTerminal = false ∧
        recordableFrom 900 chargeCall.handlers answers (chargePlan.steps.drop state.nextIndex)
          state.nextIndex = true) = true := by decide +kernel
  have hplan : ∀ e ∈ hungCharge, e.2.Calls (PlanFor "run" chargePlan) := by decide
  obtain ⟨c, hc, hq⟩ := (Option.any_eq_true _ _).mp hq
  obtain ⟨state, hl, hq⟩ := (Option.any_eq_true _ _).mp hq
  rw [decide_eq_true_eq] at hq
  obtain ⟨acts, d, _, hd, hended, _⟩ := every_run_can_end perfectLock rfl hplan hc hl hq.1
    chargeCall.handlers 900 answers (fun _ => epoch) hq.2 false
  exact ⟨c, state, acts, d, hc, hl, hd, hended⟩

end Recovery

end DurableAgent
