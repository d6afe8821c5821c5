import DurableAgent.Store

namespace DurableAgent

-- what the steps of a run gave, by name
abbrev Outputs := Dict String PyValue

structure StepContext where
  runId : String
  index : Nat
  payload : StrDict
  previous : Outputs
  maxAttempts : Nat := 3
  tokens : List Int := []
  corrections : List Nat := []
  attemptCount : Nat := 0
deriving DecidableEq

def StepContext.effectToken (blake2b : String → String) (c : StepContext) : String :=
  DurableAgent.effectToken blake2b c.runId c.index

def StepContext.tokensUsed (c : StepContext) : Int := c.tokens.foldl (fun total n => total + n) 0

def StepContext.attempts (c : StepContext) : Nat := max 1 c.attemptCount

def StepContext.wasHealed (c : StepContext) : Bool := c.corrections.any fun n => 0 < n

-- `text` is what `str(exc)` gives, `none` when rendering the exception raises in turn
inductive HandlerResult where
  | returned (output : PyValue)
  | escalation (reason : PyStr)
  | exception (typeName : PyStr) (text : Option PyStr)
  | simulatedCrash
deriving DecidableEq

inductive Raised where
  | keyError (message : String)
  | planChanged (message : String)
  | lockUnavailable (message : String)
  | simulatedCrash (message : String)
  | handlerCrash
  | validationError
  | handler (typeName : PyStr) (text : Option PyStr)
  | store (error : StoreError)
  | outage
  | runAlreadyActive (runId : String)
  | runtimeError (message : String)
deriving DecidableEq, Repr

def exceptionReason (typeName text : PyStr) : PyStr :=
  (typeName.append (.ofString ": ")).append text

def HandlerResult.output : HandlerResult → Option PyValue
  | .returned output => some output
  | _ => none

def HandlerResult.failure : HandlerResult → Option (RunStatus × PyStr × Option Raised)
  | .escalation reason => some (.escalated, reason, none)
  | .exception typeName (some text) =>
      some (.failed, exceptionReason typeName text, some (.handler typeName (some text)))
  | _ => none

theorem HandlerResult.failure_status {result : HandlerResult} {status : RunStatus} {reason : PyStr}
    {reraise : Option Raised} (h : result.failure = some (status, reason, reraise)) :
    status.isTerminal = true ∧ status ≠ .completed := by
  unfold HandlerResult.failure at h
  split at h
  · cases h
    exact ⟨rfl, by decide⟩
  · cases h
    exact ⟨rfl, by decide⟩
  · cases h

-- `context` is the context as the handler left it
structure Execution where
  result : HandlerResult
  context : StepContext
deriving DecidableEq

inductive Outcome where
  | returned (state : RunState)
  | raised (error : Raised)

def pyRepr (s : String) : String := "'" ++ s ++ "'"

def planMismatch (plan : Plan) (runId : String) (record : StepRecord) : Option String :=
  match plan.steps[record.index]? with
  | none =>
      some ("run " ++ runId ++ " recorded step " ++ toString record.index ++ " (" ++
        pyRepr record.name ++ ") but the plan now has only " ++ toString plan.steps.length ++
        " steps")
  | some expected =>
      if expected.name = record.name then none
      else
        some ("run " ++ runId ++ " recorded step " ++ toString record.index ++ " as " ++
          pyRepr record.name ++ ", but the plan given now has " ++ pyRepr expected.name ++
          " there. Resuming would execute different work than this run already committed to.")

def assertPlanMatchesHistory (plan : Plan) (state : RunState) : Except Raised Unit :=
  match state.steps.findSome? (planMismatch plan state.runId) with
  | none => .ok ()
  | some message => .error (.planChanged message)

theorem planMismatch_eq_none {plan : Plan} {runId : String} {record : StepRecord} :
    planMismatch plan runId record = none ↔
      ∃ step, plan.steps[record.index]? = some step ∧ step.name = record.name := by
  unfold planMismatch
  split
  · simp_all
  · rename_i expected he
    rw [he]
    by_cases hn : expected.name = record.name <;> simp [hn]

theorem assertPlanMatchesHistory_ok {plan : Plan} {state : RunState} :
    assertPlanMatchesHistory plan state = .ok () ↔
      ∀ r ∈ state.steps, ∃ step, plan.steps[r.index]? = some step ∧ step.name = r.name := by
  have h : state.steps.findSome? (planMismatch plan state.runId) = none ↔
      ∀ r ∈ state.steps, planMismatch plan state.runId r = none := by
    simp only [List.findSome?_eq_none_iff]
  simp only [planMismatch_eq_none] at h
  rw [← h, assertPlanMatchesHistory]
  cases state.steps.findSome? (planMismatch plan state.runId) <;> simp

-- `stack` is the nesting `json.dumps` has stack for in the call
structure Call where
  handlers : List String
  runId : String
  plan : Plan
  crashAt : Option Nat
  stack : Nat

-- `state` is the snapshot `run` loads before it takes the lock
structure Session where
  call : Call
  state : RunState

structure Frame where
  index : Nat
  step : Step
  payload : StrDict
  previous : Outputs

def Frame.context (s : Session) (f : Frame) : StepContext where
  runId := s.call.runId
  index := f.index
  payload := f.payload
  previous := f.previous
  maxAttempts := f.step.maxAttempts

def previousOf (state : RunState) : Outputs :=
  Dict.ofPairs (state.steps.map fun r => (r.name, ofStrDict r.output))

def errorOutput (reason : PyStr) : PyValue := .dict [(.str (.ofString "error"), .str reason)]

def stepRecord (s : Session) (f : Frame) (outcome : StepOutcome) (ctx : StepContext)
    (output : PyValue) (now : Datetime) : Except Raised StepRecord :=
  match validateDict output with
  | none => .error .validationError
  | some d =>
      if 0 ≤ ctx.tokensUsed then
        .ok {
          runId := s.call.runId
          index := f.index
          name := f.step.name
          outcome := outcome
          attempts := ctx.attempts
          output := d
          tokensUsed := ctx.tokensUsed.toNat
          createdAt := now
          attemptsPositive := Nat.le_max_left 1 ctx.attemptCount }
      else .error .validationError

theorem stepRecord_ok {s : Session} {f : Frame} {outcome : StepOutcome} {ctx : StepContext} {output : PyValue}
    {now : Datetime} {r : StepRecord} (h : stepRecord s f outcome ctx output now = .ok r) :
    r.runId = s.call.runId ∧ r.index = f.index ∧ r.name = f.step.name ∧ r.outcome = outcome ∧
      validateDict output = some r.output := by
  unfold stepRecord at h
  split at h
  · cases h
  · rename_i d hd
    split at h
    · obtain rfl := (Except.ok.inj h).symm
      exact ⟨rfl, rfl, rfl, rfl, hd⟩
    · cases h

theorem validate_errorOutput (reason : PyStr) :
    validateDict (errorOutput reason) = some [(.ofString "error", .str reason)] := by
  simp [validateDict, validateItems, errorOutput, strOfKey, Dict.ofPairs, Dict.set]

def noHandler (f : Frame) : HandlerResult :=
  .exception (.ofString "KeyError") (some (.ofString (pyRepr f.step.name)))

def crashMessage (f : Frame) : String :=
  "process died before step " ++ toString f.index ++ " (" ++ f.step.name ++ ")"

def reload (t : Tables) (runId : String) : Outcome :=
  match t.load runId with
  | none => .raised (.runtimeError ("run " ++ runId ++ " disappeared while it was executing"))
  | some state => .returned state

def finishRun (t : Tables) (s : Session) (status : RunStatus) (error : Option PyStr)
    (reraise : Option Raised) : Tables × Outcome :=
  match t.setStatus s.call.runId status error with
  | .error e => (t, .raised (.store e))
  | .ok t' =>
      match reraise with
      | some e => (t', .raised e)
      | none => (t', reload t' s.call.runId)

def recordFailure (t : Tables) (s : Session) (f : Frame) (ctx : StepContext) (now : Datetime)
    (status : RunStatus) (reason : PyStr) (reraise : Option Raised) : Tables × Outcome :=
  match stepRecord s f .failed ctx (errorOutput reason) now with
  | .error e => (t, .raised e)
  | .ok r =>
      match t.append s.call.stack r with
      | .error e => (t, .raised (.store e))
      | .ok t' => finishRun t' s status (some reason) reraise

def execute (handle : String → StepContext → Execution) (s : Session) (f : Frame) : Execution :=
  if f.step.name ∈ s.call.handlers then handle f.step.name (f.context s)
  else ⟨noHandler f, f.context s⟩

def runSteps (handle : String → StepContext → Execution) (now : Nat → Datetime) (s : Session) :
    List Step → Nat → StrDict → Outputs → Tables → Tables × Outcome
  | [], _, _, _, t => finishRun t s .completed none none
  | step :: rest, index, payload, previous, t =>
      let f : Frame := ⟨index, step, payload, previous⟩
      if s.call.crashAt = some index then (t, .raised (.simulatedCrash (crashMessage f)))
      else
        let e := execute handle s f
        match e.result with
        | .simulatedCrash => (t, .raised .handlerCrash)
        | .escalation reason =>
            recordFailure t s f e.context (now index) .escalated reason none
        | .exception typeName none => (t, .raised (.handler typeName none))
        | .exception typeName (some text) =>
            recordFailure t s f e.context (now index) .failed (exceptionReason typeName text)
              (some (.handler typeName (some text)))
        | .returned output =>
            match stepRecord s f (if e.context.wasHealed then .healed else .ok) e.context output
              (now index) with
            | .error x => (t, .raised x)
            | .ok r =>
                match t.append s.call.stack r with
                | .error x => (t, .raised (.store x))
                | .ok t' =>
                    runSteps handle now s rest (index + 1) e.context.payload
                      (Dict.set e.context.previous step.name output) t'

def run (handle : String → StepContext → Execution) (now : Nat → Datetime) (granted : Bool)
    (t : Tables) (c : Call) : Tables × Outcome :=
  match t.load c.runId with
  | none => (t, .raised (.keyError ("unknown run " ++ c.runId)))
  | some state =>
      if state.status.isTerminal then (t, .returned state)
      else
        match assertPlanMatchesHistory c.plan state with
        | .error e => (t, .raised e)
        | .ok _ =>
            if granted then
              match t.setStatus c.runId .running none with
              | .error e => (t, .raised (.store e))
              | .ok t' =>
                  runSteps handle now ⟨c, state⟩ (c.plan.steps.drop state.nextIndex)
                    state.nextIndex state.payload (previousOf state) t'
            else
              (t, .raised (.lockUnavailable (state.idempotencyKey ++ " is held by another worker")))

end DurableAgent
