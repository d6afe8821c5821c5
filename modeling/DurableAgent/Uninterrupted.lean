import DurableAgent.Progression

namespace DurableAgent

open Interleaving

variable {ι : Type}

-- what the rest of an uninterrupted call makes of the control the handler's return leads to
def proceedWith (handle : String → StepContext → Execution) (now : Nat → Datetime)
    (rest : List Step) (t : Tables) : Control → Tables × Outcome
  | .releasing _ o => (t, o)
  | .appending s f r after =>
      match t.append s.call.stack r with
      | .error e => (t, .raised (.store e))
      | .ok t' =>
          match after with
          | .proceed payload previous =>
              runSteps handle now s rest (f.index + 1) payload previous t'
          | .settle status reason reraise => finishRun t' s status (some reason) reraise
  | _ => (t, .raised .outage)

theorem runSteps_cons (handle : String → StepContext → Execution) (now : Nat → Datetime)
    (s : Session) (step : Step) (rest : List Step) (index : Nat) (payload : StrDict)
    (previous : Outputs)
    (t : Tables) (hc : s.call.crashAt ≠ some index) :
    runSteps handle now s (step :: rest) index payload previous t =
      proceedWith handle now rest t
        (conclude s ⟨index, step, payload, previous⟩
          (execute handle s ⟨index, step, payload, previous⟩) (now index)) := by
  rw [runSteps]
  simp only [if_neg hc, conclude]
  cases (execute handle s ⟨index, step, payload, previous⟩).result with
  | simulatedCrash => rfl
  | escalation reason =>
    simp only [recordFailure, concludeFailure]
    cases stepRecord s ⟨index, step, payload, previous⟩ .failed
      (execute handle s ⟨index, step, payload, previous⟩).context (errorOutput reason)
      (now index) <;> rfl
  | exception typeName text =>
    cases text with
    | none => rfl
    | some text =>
      simp only [recordFailure, concludeFailure]
      cases stepRecord s ⟨index, step, payload, previous⟩ .failed
        (execute handle s ⟨index, step, payload, previous⟩).context
        (errorOutput (exceptionReason typeName text)) (now index) <;> rfl
  | returned output =>
    simp only
    cases stepRecord s ⟨index, step, payload, previous⟩
      (if (execute handle s ⟨index, step, payload, previous⟩).context.wasHealed then .healed else .ok)
      (execute handle s ⟨index, step, payload, previous⟩).context output (now index) with
    | error x => rfl
    | ok r =>
      cases ha : t.append s.call.stack r with
      | error x => simp only [proceedWith, ha]
      | ok t' => simp only [proceedWith, ha]

theorem drop_eq_cons {steps : List Step} {index : Nat} {step : Step}
    (h : steps[index]? = some step) : steps.drop index = step :: steps.drop (index + 1) := by
  obtain ⟨hlt, rfl⟩ := List.getElem?_eq_some_iff.mp h
  exact List.drop_eq_getElem_cons hlt

theorem runSteps_drop (handle : String → StepContext → Execution) (now : Nat → Datetime)
    (s : Session) {steps : List Step} {step : Step} {index : Nat} (payload : StrDict)
    (previous : Outputs)
    (t : Tables) (hs : steps[index]? = some step) (hc : s.call.crashAt ≠ some index) :
    runSteps handle now s (steps.drop index) index payload previous t =
      proceedWith handle now (steps.drop (index + 1)) t
        (conclude s ⟨index, step, payload, previous⟩
          (execute handle s ⟨index, step, payload, previous⟩) (now index)) := by
  rw [drop_eq_cons hs, runSteps_cons handle now s step _ index payload previous t hc]

section Solo

variable [DecidableEq ι]

def solo (policy : LockPolicy ι) (w : ι) (p : Shared ι × Control) (a : Action) :
    Option (Shared ι × Control) :=
  workerStep policy w p.1 p.2 a

def Finishes (policy : LockPolicy ι) (w : ι) (p : Shared ι × Control) (r : Tables × Outcome) :
    Prop :=
  ∃ acts sh, (∀ a ∈ acts, a.uninterrupted = true) ∧
    Transition.run (solo policy w) p acts = some (sh, .atRest (some r.2)) ∧ sh.tables = r.1

variable {policy : LockPolicy ι} {w : ι} {sh sh' : Shared ι} {ctrl ctrl' : Control}
  {r : Tables × Outcome}

theorem Finishes.rest (o : Outcome) : Finishes policy w (sh, .atRest (some o)) (sh.tables, o) :=
  ⟨[], sh, by simp, rfl, rfl⟩

theorem Finishes.head {a : Action} (ha : a.uninterrupted = true)
    (hs : workerStep policy w sh ctrl a = some (sh', ctrl'))
    (h : Finishes policy w (sh', ctrl') r) : Finishes policy w (sh, ctrl) r := by
  obtain ⟨acts, sh'', hacts, hrun, ht⟩ := h
  refine ⟨a :: acts, sh'', ?_, Transition.run_cons.mpr ⟨(sh', ctrl'), hs, hrun⟩, ht⟩
  intro b hb
  rcases List.mem_cons.mp hb with rfl | hmem
  · exact ha
  · exact hacts b hmem

theorem finishes_releasing (s : Session) (o : Outcome) :
    Finishes policy w (sh, .releasing s o) (sh.tables, o) := by
  have hrest : Finishes policy w (sh.release w s.key, .atRest (some o)) (sh.tables, o) :=
    Finishes.rest o
  exact Finishes.head (a := .store) rfl rfl hrest

theorem finishes_settling (s : Session) (status : RunStatus) (error : Option PyStr)
    (reraise : Option Raised) :
    Finishes policy w (sh, .settling s status error reraise)
      (finishRun sh.tables s status error reraise) := by
  cases hs : sh.tables.setStatus s.call.runId status error with
  | error e =>
    have hstep : workerStep policy w sh (.settling s status error reraise) .store =
        some (sh, .releasing s (.raised (.store e))) := by
      simp only [workerStep, perform, hs]
    rw [show finishRun sh.tables s status error reraise = (sh.tables, .raised (.store e)) by
      simp only [finishRun, hs]]
    exact Finishes.head rfl hstep (finishes_releasing s _)
  | ok t =>
    cases reraise with
    | some e =>
      have hstep : workerStep policy w sh (.settling s status error (some e)) .store =
          some ({ sh with tables := t }, .releasing s (.raised e)) := by
        simp only [workerStep, perform, hs]
      rw [show finishRun sh.tables s status error (some e) = (t, .raised e) by
        simp only [finishRun, hs]]
      exact Finishes.head rfl hstep (finishes_releasing s _)
    | none =>
      have hstep : workerStep policy w sh (.settling s status error none) .store =
          some ({ sh with tables := t }, .reloading s) := by
        simp only [workerStep, perform, hs]
      rw [show finishRun sh.tables s status error none = (t, reload t s.call.runId) by
        simp only [finishRun, hs]]
      exact Finishes.head rfl hstep
        (Finishes.head (a := .store) rfl rfl (finishes_releasing s _))

theorem finish_concludes (sh : Shared ι) (s : Session) (f : Frame) (e : Execution)
    (now : Datetime) :
    ∃ sh', workerStep policy w sh (.handling s f) (.finish e now) = some (sh', conclude s f e now) ∧
      sh'.tables = sh.tables := by
  cases he : e.result with
  | returned output =>
    refine ⟨{ sh with log := sh.log ++ [.returned f.step.name (f.context s) output] }, ?_, rfl⟩
    simp only [workerStep, he]
  | escalation reason => exact ⟨sh, by simp only [workerStep, he], rfl⟩
  | exception typeName text => exact ⟨sh, by simp only [workerStep, he], rfl⟩
  | simulatedCrash => exact ⟨sh, by simp only [workerStep, he], rfl⟩

theorem finishes_conclude {handle : String → StepContext → Execution} {now : Nat → Datetime}
    {s : Session} {f : Frame} {e : Execution} {rest : List Step}
    (hnext : ∀ sh payload previous, Finishes policy w (sh, s.next (f.index + 1) payload previous)
      (runSteps handle now s rest (f.index + 1) payload previous sh.tables)) :
    Finishes policy w (sh, conclude s f e (now f.index))
      (proceedWith handle now rest sh.tables (conclude s f e (now f.index))) := by
  have stored {r : StepRecord} {after : AfterAppend}
      (hafter : ∀ sh' : Shared ι, Finishes policy w (sh', after.control s f)
        (match after with
          | .proceed payload previous =>
              runSteps handle now s rest (f.index + 1) payload previous sh'.tables
          | .settle status reason reraise =>
              finishRun sh'.tables s status (some reason) reraise)) :
      Finishes policy w (sh, .appending s f r after)
        (proceedWith handle now rest sh.tables (.appending s f r after)) := by
    cases ha : sh.tables.append s.call.stack r with
    | error x =>
      have hstep : workerStep policy w sh (.appending s f r after) .store =
          some (sh, .releasing s (.raised (.store x))) := by
        simp only [workerStep, perform, ha]
      simp only [proceedWith, ha]
      exact Finishes.head rfl hstep (finishes_releasing s _)
    | ok t =>
      have hstep : workerStep policy w sh (.appending s f r after) .store =
          some (sh.checkpoint t (f.context s) r, after.control s f) := by
        simp only [workerStep, perform, ha]
      simp only [proceedWith, ha]
      exact Finishes.head rfl hstep (hafter (sh.checkpoint t (f.context s) r))
  apply conclude_cases (P := fun ctrl => Finishes policy w (sh, ctrl)
    (proceedWith handle now rest sh.tables ctrl))
  · intro o
    exact finishes_releasing s o
  · intro status reason reraise r _ _
    exact stored fun sh' => finishes_settling s status (some reason) reraise
  · intro output r _ _
    exact stored fun sh' => hnext sh' _ _

theorem finishes_calling {handle : String → StepContext → Execution} {now : Nat → Datetime}
    {s : Session} {f : Frame} {rest : List Step}
    (hnext : ∀ sh payload previous, Finishes policy w (sh, s.next (f.index + 1) payload previous)
      (runSteps handle now s rest (f.index + 1) payload previous sh.tables)) :
    Finishes policy w (sh, .calling s f)
      (proceedWith handle now rest sh.tables
        (conclude s f (execute handle s f) (now f.index))) := by
  have hcon (sh' : Shared ι) : Finishes policy w
      (sh', conclude s f (execute handle s f) (now f.index))
      (proceedWith handle now rest sh'.tables
        (conclude s f (execute handle s f) (now f.index))) := finishes_conclude hnext
  by_cases hk : f.step.name ∈ s.call.handlers
  · have hbegin : workerStep policy w sh (.calling s f) .begin =
        some ({ sh with log := sh.log ++ [.began f.step.name (f.context s)] }, .handling s f) := by
      simp only [workerStep, hk, if_true]
    refine Finishes.head rfl hbegin ?_
    have hfinish := @finish_concludes ι _ policy w
      { sh with log := sh.log ++ [.began f.step.name (f.context s)] } s f (execute handle s f)
      (now f.index)
    obtain ⟨sh', hfin, htab⟩ := hfinish
    have hc := hcon sh'
    rw [htab] at hc
    exact Finishes.head rfl hfin hc
  · have he : execute handle s f = ⟨noHandler f, f.context s⟩ := if_neg hk
    have hmissing : workerStep policy w sh (.calling s f) (.missing (now f.index)) =
        some (sh, conclude s f (execute handle s f) (now f.index)) := by
      simp only [workerStep, hk, if_false, he]
    exact Finishes.head rfl hmissing (hcon sh)

theorem finishes_next (handle : String → StepContext → Execution) (now : Nat → Datetime)
    (s : Session) (rest : List Step) (index : Nat) (payload : StrDict) (previous : Outputs)
    (sh : Shared ι)
    (hrest : s.call.plan.steps.drop index = rest) :
    Finishes policy w (sh, s.next index payload previous)
      (runSteps handle now s rest index payload previous sh.tables) := by
  induction rest generalizing index payload previous sh with
  | nil =>
    have hn : s.call.plan.steps[index]? = none := by
      rw [List.getElem?_eq_none_iff]
      exact List.drop_eq_nil_iff.mp hrest
    simp only [Session.next, hn, runSteps]
    exact finishes_settling s .completed none none
  | cons step rest ih =>
    have hs : s.call.plan.steps[index]? = some step := by
      rw [← List.head?_drop, hrest, List.head?_cons]
    have hdrop : s.call.plan.steps.drop (index + 1) = rest := by
      rw [drop_eq_cons hs] at hrest
      exact (List.cons.inj hrest).2
    by_cases hc : s.call.crashAt = some index
    · simp only [Session.next, hs, hc, if_true, runSteps]
      exact finishes_releasing s _
    · have hnext : s.next index payload previous = .calling s ⟨index, step, payload, previous⟩ := by
        simp only [Session.next, hs, if_neg hc]
      rw [runSteps_cons handle now s step rest index payload previous _ hc, hnext]
      exact finishes_calling fun sh p q => ih (index + 1) p q sh hdrop

theorem finishes_loading (handle : String → StepContext → Execution) (now : Nat → Datetime)
    (granted : Bool) (c : Call)
    (hlock : ∀ state, sh.tables.load c.runId = some state →
      policy (sh.holder state.idempotencyKey) granted = true) :
    Finishes policy w (sh, .loading c) (run handle now granted sh.tables c) := by
  have hload : workerStep policy w sh (.loading c) .store =
      some (sh, loaded c (sh.tables.load c.runId)) := rfl
  apply Finishes.head rfl hload
  unfold run
  cases hl : sh.tables.load c.runId with
  | none => exact Finishes.rest _
  | some state =>
    have hp := hlock state hl
    simp only [loaded]
    cases ht : state.status.isTerminal with
    | true =>
      simp only [if_true]
      exact Finishes.rest _
    | false =>
      simp only [Bool.false_eq_true, if_false]
      cases hm : assertPlanMatchesHistory c.plan state with
      | error e => exact Finishes.rest _
      | ok u =>
        cases granted with
        | false =>
          apply Finishes.head (a := .lock false) rfl
          · simp only [workerStep, Session.key, hp, if_true, Bool.false_eq_true, if_false]
            rfl
          · exact Finishes.rest _
        | true =>
          apply Finishes.head (a := .lock true) rfl
          · simp only [workerStep, Session.key, hp, if_true]
            rfl
          · simp only [if_true]
            cases hs : sh.tables.setStatus c.runId .running none with
            | error e =>
              apply Finishes.head (a := .store) rfl
              · simp only [workerStep, perform, Shared.acquire, hs]
                rfl
              · exact finishes_releasing _ _
            | ok t =>
              apply Finishes.head (a := .store) rfl
              · simp only [workerStep, perform, Shared.acquire, hs]
                rfl
              · exact finishes_next handle now ⟨c, state⟩ _ _ _ _ _ rfl

theorem solo_lift {c : System ι} {acts : List Action}
    (h : Transition.run (solo policy w) (c.shared, c.locals w) acts = some (sh, ctrl)) :
    runSystem policy c (turns w acts) = some ⟨sh, Function.update c.locals w ctrl⟩ := by
  induction acts generalizing c with
  | nil =>
    cases h
    simp [runSystem, turns, Transition.run]
  | cons a acts ih =>
    obtain ⟨⟨sh', ctrl'⟩, hs, hr⟩ := Transition.run_cons.mp h
    have hstep : Interleaving.step (workerStep policy) c (w, a) =
        some ⟨sh', Function.update c.locals w ctrl'⟩ :=
      step_eq_some.mpr ⟨sh', ctrl', hs, rfl⟩
    have hrest := ih (c := ⟨sh', Function.update c.locals w ctrl'⟩) (by simpa using hr)
    refine Transition.run_cons.mpr ⟨_, hstep, ?_⟩
    rw [Function.update_idem] at hrest
    exact hrest

-- the interleaving model, left alone, computes `Engine.run` as the source writes it
theorem uninterrupted_call_computes_run (handle : String → StepContext → Execution)
    (now : Nat → Datetime) (granted : Bool) (call : Call) {c : System ι} {last : Option Outcome}
    (hrest : c.locals w = .atRest last)
    (hlock : ∀ state, c.shared.tables.load call.runId = some state →
      policy (c.shared.holder state.idempotencyKey) granted = true) :
    ∃ acts d, (∀ a ∈ acts, a.uninterrupted = true) ∧
      runSystem policy c (turns w acts) = some d ∧
      d.shared.tables = (run handle now granted c.shared.tables call).1 ∧
      d.locals w = .atRest (some (run handle now granted c.shared.tables call).2) := by
  have hcall : workerStep policy w c.shared (.atRest last) (.call call) =
      some (c.shared, .loading call) := rfl
  have hfin : Finishes policy w (c.shared, .atRest last) (run handle now granted c.shared.tables call) :=
    Finishes.head rfl hcall (finishes_loading handle now granted call hlock)
  obtain ⟨acts, sh, hacts, hrun, ht⟩ := hfin
  rw [← hrest] at hrun
  exact ⟨acts, _, hacts, solo_lift hrun, ht, by simp⟩

end Solo

end DurableAgent
