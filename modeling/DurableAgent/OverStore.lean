import DurableAgent.Backends
import DurableAgent.Library.Client

namespace DurableAgent

open Client Simulation

variable {ε ε' : Type}

-- how a call of the engine ends over a store whose own errors are `ε`
inductive Conclusion (ε : Type) where
  | returned (state : RunState)
  | raised (error : Raised)
  | storeRaised (error : ε)

abbrev EngineClient (ε : Type) := Client StoreCall (CallResult ε) (Conclusion ε)

def CallResult.andThen (conflict : String → EngineClient ε)
    (next : Option RunState → EngineClient ε) : CallResult ε → EngineClient ε
  | .created state => next (some state)
  | .found state => next state
  | .done => next none
  | .alreadyActive runId => conflict runId
  | .failed e => .ends (.storeRaised e)

-- the engine over any store: what it calls, and what it makes of the answers
namespace OverStore

-- the stack PostgreSQL's side has for `json.dumps`, and both sides' for `json.loads`
variable (stack' : Nat) (rooms : Room × Room)

def asks (call : StoreCall) (next : Option RunState → EngineClient ε) : EngineClient ε :=
  .calls call (CallResult.andThen (fun runId => .ends (.raised (.runAlreadyActive runId))) next)

def answers (missing : String) : Option RunState → EngineClient ε
  | none => .ends (.raised (.runtimeError missing))
  | some state => .ends (.returned state)

def reload (runId : String) : EngineClient ε :=
  asks (.load rooms runId) (answers ("run " ++ runId ++ " disappeared while it was executing"))

def finishRun (runId : String) (status : RunStatus) (error : Option PyStr)
    (reraise : Option Raised) : EngineClient ε :=
  asks (.setStatus runId status error) fun _ =>
    match reraise with
    | some e => .ends (.raised e)
    | none => reload rooms runId

def recordFailure (s : Session) (f : Frame) (ctx : StepContext) (now : Datetime)
    (status : RunStatus) (reason : PyStr) (reraise : Option Raised) : EngineClient ε :=
  match stepRecord s f .failed ctx (errorOutput reason) now with
  | .error e => .ends (.raised e)
  | .ok r => asks (.append (s.call.stack, stack') r) fun _ =>
      finishRun rooms s.call.runId status (some reason) reraise

def runSteps (handle : String → StepContext → Execution) (now : Nat → Datetime) (s : Session) :
    List Step → Nat → StrDict → Outputs → EngineClient ε
  | [], _, _, _ => finishRun rooms s.call.runId .completed none none
  | step :: rest, index, payload, previous =>
      let f : Frame := ⟨index, step, payload, previous⟩
      if s.call.crashAt = some index then .ends (.raised (.simulatedCrash (crashMessage f)))
      else
        let e := execute handle s f
        match e.result with
        | .simulatedCrash => .ends (.raised .handlerCrash)
        | .escalation reason =>
            recordFailure stack' rooms s f e.context (now index) .escalated reason none
        | .exception typeName none => .ends (.raised (.handler typeName none))
        | .exception typeName (some text) =>
            recordFailure stack' rooms s f e.context (now index) .failed
              (exceptionReason typeName text) (some (.handler typeName (some text)))
        | .returned output =>
            match stepRecord s f (if e.context.wasHealed then .healed else .ok) e.context output
              (now index) with
            | .error x => .ends (.raised x)
            | .ok r => asks (.append (s.call.stack, stack') r) fun _ =>
                runSteps handle now s rest (index + 1) e.context.payload
                  (Dict.set e.context.previous step.name output)

def run (handle : String → StepContext → Execution) (now : Nat → Datetime) (granted : Bool)
    (c : Call) : EngineClient ε :=
  asks (.load rooms c.runId) fun
    | none => .ends (.raised (.keyError ("unknown run " ++ c.runId)))
    | some state =>
        if state.status.isTerminal then .ends (.returned state)
        else
          match assertPlanMatchesHistory c.plan state with
          | .error e => .ends (.raised e)
          | .ok _ =>
              if granted then
                asks (.setStatus c.runId .running none) fun _ =>
                  runSteps stack' rooms handle now ⟨c, state⟩ (c.plan.steps.drop state.nextIndex)
                    state.nextIndex state.payload (previousOf state)
              else
                .ends (.raised
                  (.lockUnavailable (state.idempotencyKey ++ " is held by another worker")))

-- `conflict` is what follows a `RunAlreadyActive`
def create (q : Submission) (tie tie' : Nat) (conflict : String → EngineClient ε) :
    EngineClient ε :=
  if Engine.missing q ≠ [] then
    .ends (.raised (.keyError ("no handler registered for steps: " ++
      String.intercalate ", " (Engine.missing q))))
  else .calls (.createRun (q.stack, stack') rooms q.runId q.spec q.now tie tie')
    (CallResult.andThen conflict (answers ""))

def submit (q : Submission) (tie tie' : Nat) : EngineClient ε :=
  create stack' rooms q tie tie' fun runId => .ends (.raised (.runAlreadyActive runId))

def submitOrAttach (q : Submission) (tie tie' : Nat) : EngineClient ε :=
  create stack' rooms q tie tie' fun runId =>
    asks (.load rooms runId) (answers ("run " ++ runId ++ " vanished between conflict and read"))

end OverStore

-- the time of a submission is in microseconds here, and each backend breaks its own ties
def Request.client (tie' stack' : Nat) (rooms : Room × Room) : Request → EngineClient ε
  | .submit q tie => OverStore.submit stack' rooms q tie tie'
  | .submitOrAttach q tie => OverStore.submitOrAttach stack' rooms q tie tie'
  | .run handle clock granted call => OverStore.run stack' rooms handle clock granted call

section Sqlite

-- the tables the existing model leaves, and how its call ends
def Conclusion.outcome : Conclusion Raised → Outcome
  | .returned state => .returned state
  | .raised e => .raised e
  | .storeRaised e => .raised e

def played (x : Tables × Conclusion Raised) : Tables × Outcome := (x.1, x.2.outcome)

-- `load` can read every row back
structure Tables.Legible (room : Room) (t : Tables) : Prop where
  bounded : t.Bounded room
  minutes : ∀ row ∈ t.stepRecords, row.createdAt.wholeMinutes = true

variable {stack' : Nat} {rooms : Room × Room} {room : Room} {t t' : Tables}

theorem Tables.Legible.readRow (h : t.Legible room) {row : RunRow} (hrow : row ∈ t.runs) :
    t.readRow room row = .ok (t.hydrate row) := by
  have hwithin := h.bounded.within hrow
  exact readRow_eq_ok.mpr ⟨⟨hwithin.payload, fun r hr => ⟨hwithin.outputs r hr,
    h.minutes r (List.mem_of_mem_filter hr)⟩⟩, rfl⟩

theorem readSome_map (h : t.Legible room) {row : Option RunRow}
    (hrow : ∀ r, row = some r → r ∈ t.runs) :
    t.readSome room row = .ok (row.map t.hydrate) := by
  cases row with
  | none => rfl
  | some row =>
    rw [Tables.readSome, h.readRow (hrow row rfl)]
    rfl

theorem read_load (h : t.Legible room) (runId : String) : t.read room runId = .ok (t.load runId) :=
  readSome_map h fun _ => Tables.runRow_mem

theorem legible_append {stack : Nat} {r : StepRecord} (h : t.Legible room)
    (hs : stack ≤ room.output) (ht : t.append stack r = .ok t')
    (hr : r.createdAt.wholeMinutes = true) : t'.Legible room := by
  refine ⟨bounded_append h.bounded hs ht, fun row hrow => ?_⟩
  obtain ⟨o, _, _, rfl⟩ := Tables.append_ok ht
  rcases FirstWriter.mem_insertOrIgnore hrow with hrow | ⟨rfl, _⟩
  · exact h.minutes row hrow
  · exact hr

theorem legible_setStatus {runId : String} {status : RunStatus} {error : Option PyStr}
    (h : t.Legible room) (ht : t.setStatus runId status error = .ok t') : t'.Legible room := by
  refine ⟨bounded_setStatus h.bounded ht, ?_⟩
  obtain ⟨_, _, rfl, _⟩ := Tables.setStatus_ok ht
  exact h.minutes

theorem stepRecord_createdAt {s : Session} {f : Frame} {outcome : StepOutcome} {ctx : StepContext}
    {output : PyValue} {now : Datetime} {r : StepRecord}
    (h : stepRecord s f outcome ctx output now = .ok r) : r.createdAt = now := by
  unfold stepRecord at h
  split at h
  · cases h
  · split at h
    · cases h
      rfl
    · cases h

theorem played_load (h : t.Legible rooms.1) (runId : String)
    (next : Option RunState → EngineClient Raised) :
    (OverStore.asks (.load rooms runId) next).play sqliteCall t =
      (next (t.load runId)).play sqliteCall t := by
  simp only [OverStore.asks, play, sqliteCall, read_load h, CallResult.ofFound, CallResult.andThen]

theorem played_reload (h : t.Legible rooms.1) (runId : String) :
    played ((OverStore.reload rooms runId).play sqliteCall t) = (t, reload t runId) := by
  rw [OverStore.reload, played_load h, reload]
  cases t.load runId <;> rfl

theorem played_finishRun (h : t.Legible rooms.1) (s : Session) (status : RunStatus)
    (error : Option PyStr) (reraise : Option Raised) :
    played ((OverStore.finishRun rooms s.call.runId status error reraise).play sqliteCall t) =
      finishRun t s status error reraise := by
  rw [OverStore.finishRun.eq_def, OverStore.asks, play, sqliteCall, finishRun]
  cases ht : t.setStatus s.call.runId status error with
  | error e => rfl
  | ok t' =>
    cases reraise with
    | some e => rfl
    | none => exact played_reload (legible_setStatus h ht) _

theorem played_recordFailure (h : t.Legible rooms.1) {s : Session}
    (hs : s.call.stack ≤ rooms.1.output) (f : Frame) (ctx : StepContext) {now : Datetime}
    (hnow : now.wholeMinutes = true) (status : RunStatus) (reason : PyStr)
    (reraise : Option Raised) :
    played ((OverStore.recordFailure stack' rooms s f ctx now status reason reraise).play
        sqliteCall t) =
      recordFailure t s f ctx now status reason reraise := by
  rw [OverStore.recordFailure, recordFailure]
  cases hr : stepRecord s f .failed ctx (errorOutput reason) now with
  | error e => rfl
  | ok r =>
    simp only [OverStore.asks, play, sqliteCall]
    cases ht : t.append s.call.stack r with
    | error e => rfl
    | ok t' =>
      exact played_finishRun (legible_append h hs ht (stepRecord_createdAt hr ▸ hnow)) s status
        (some reason) reraise

theorem played_runSteps {handle : String → StepContext → Execution} {now : Nat → Datetime}
    (hnow : ∀ i, (now i).wholeMinutes = true) {s : Session} (hs : s.call.stack ≤ rooms.1.output)
    (h : t.Legible rooms.1) (steps : List Step) (index : Nat) (payload : StrDict)
    (previous : Outputs) :
    played ((OverStore.runSteps stack' rooms handle now s steps index payload previous).play
        sqliteCall t) =
      runSteps handle now s steps index payload previous t := by
  induction steps generalizing index payload previous t with
  | nil => exact played_finishRun h s .completed none none
  | cons step rest ih =>
    simp only [OverStore.runSteps, runSteps]
    split
    · rfl
    · generalize execute handle s ⟨index, step, payload, previous⟩ = e
      cases e.result with
      | simulatedCrash => rfl
      | escalation reason => exact played_recordFailure h hs _ _ (hnow index) _ _ _
      | exception typeName text =>
        cases text with
        | none => rfl
        | some text => exact played_recordFailure h hs _ _ (hnow index) _ _ _
      | returned output =>
        simp only
        cases hr : stepRecord s ⟨index, step, payload, previous⟩
            (if e.context.wasHealed then .healed else .ok) e.context output (now index) with
        | error x => rfl
        | ok r =>
          simp only [OverStore.asks, play, sqliteCall]
          cases ht : t.append s.call.stack r with
          | error x => rfl
          | ok t' =>
            exact ih (legible_append h hs ht (stepRecord_createdAt hr ▸ hnow index)) _ _ _

-- over SQLite the engine is the one modelled before
theorem played_run {handle : String → StepContext → Execution} {now : Nat → Datetime}
    (hnow : ∀ i, (now i).wholeMinutes = true) (granted : Bool) {c : Call}
    (hs : c.stack ≤ rooms.1.output) (h : t.Legible rooms.1) :
    played ((OverStore.run stack' rooms handle now granted c).play sqliteCall t) =
      run handle now granted t c := by
  rw [OverStore.run, played_load h, run]
  cases t.load c.runId with
  | none => rfl
  | some state =>
    simp only
    split
    · rfl
    · cases assertPlanMatchesHistory c.plan state with
      | error e => rfl
      | ok _ =>
        cases granted with
        | false => rfl
        | true =>
          simp only [if_pos, OverStore.asks, play, sqliteCall]
          cases ht : t.setStatus c.runId .running none with
          | error e => rfl
          | ok t' => exact played_runSteps hnow hs (legible_setStatus h ht) _ _ _ _

-- the seconds SQLite stamps a run with
def Submission.inSeconds (q : Submission) : Submission := { q with now := second q.now }

-- the `except RunAlreadyActive` of `submit_or_attach`
def caught (attach : Tables → String → Tables × Outcome) : Tables × Outcome → Tables × Outcome
  | (t, .raised (.runAlreadyActive runId)) => attach t runId
  | x => x

def attach (t : Tables) (runId : String) : Tables × Outcome :=
  match t.load runId with
  | some existing => (t, .returned existing)
  | none =>
      (t, .raised (.runtimeError ("run " ++ runId ++ " vanished between conflict and read")))

theorem submitOrAttach_eq (t : Tables) (q : Submission) (tie : Nat) :
    Engine.submitOrAttach t q tie = caught attach (Engine.submit t q tie) := rfl

theorem played_create (h : t.Legible rooms.1) (q : Submission) (tie tie' : Nat)
    (conflict : String → EngineClient Raised) :
    played ((OverStore.create stack' rooms q tie tie' conflict).play sqliteCall t) =
      caught (fun t' runId => played ((conflict runId).play sqliteCall t'))
        (Engine.submit t q.inSeconds tie) := by
  have hmissing : Engine.missing q.inSeconds = Engine.missing q := rfl
  rw [OverStore.create, Engine.submit, hmissing]
  split
  · rfl
  · simp only [play, sqliteCall, Engine.createRun, Submission.inSeconds]
    cases t.insertRun q.stack q.runId q.spec (second q.now) with
    | ok t' => rfl
    | error e =>
      cases e with
      | integrityError =>
        rw [Tables.readByKey, readSome_map h fun r hr =>
          (Tables.mem_latestFor.mp (List.mem_of_getElem? hr)).1.1, Tables.findByKey_eq]
        generalize (t.latestFor q.spec.idempotencyKey)[tie %
          (t.latestFor q.spec.idempotencyKey).length]? = row
        cases row <;> rfl
      | _ => rfl

theorem played_submit (h : t.Legible rooms.1) (q : Submission) (tie tie' : Nat) :
    played ((OverStore.submit stack' rooms q tie tie').play sqliteCall t) =
      Engine.submit t q.inSeconds tie := by
  rw [OverStore.submit, played_create h]
  generalize Engine.submit t q.inSeconds tie = x
  unfold caught
  split <;> rfl

theorem submit_conflict_unchanged {q : Submission} {tie : Nat} {runId : String}
    (h : Engine.submit t q tie = (t', .raised (.runAlreadyActive runId))) : t' = t := by
  unfold Engine.submit Engine.createRun at h
  split at h
  · cases h
  · split at h
    · cases h
    · split at h <;> cases h
      rfl
    · cases h

theorem played_submitOrAttach (h : t.Legible rooms.1) (q : Submission) (tie tie' : Nat) :
    played ((OverStore.submitOrAttach stack' rooms q tie tie').play sqliteCall t) =
      Engine.submitOrAttach t q.inSeconds tie := by
  rw [OverStore.submitOrAttach, played_create h, submitOrAttach_eq]
  cases hx : Engine.submit t q.inSeconds tie with
  | mk t' outcome =>
    cases outcome with
    | returned state => rfl
    | raised e =>
      cases e with
      | runAlreadyActive runId =>
        obtain rfl := submit_conflict_unchanged hx
        simp only [caught, attach, played_load h]
        cases t'.load runId <;> rfl
      | _ => rfl

def Request.inSeconds : Request → Request
  | .submit q tie => .submit q.inSeconds tie
  | .submitOrAttach q tie => .submitOrAttach q.inSeconds tie
  | .run handle clock granted call => .run handle clock granted call

-- `utcnow` has no offset but zero
def Request.OnTheMinute : Request → Prop
  | .run _ clock _ _ => ∀ i, (clock i).wholeMinutes = true
  | _ => True

-- what a call writes, `load` has stack for
def Request.WritesWithin (room : Room) : Request → Prop
  | .run _ _ _ call => call.stack ≤ room.output
  | _ => True

theorem played_client (h : t.Legible rooms.1) {q : Request} (hq : q.OnTheMinute)
    (hw : q.WritesWithin rooms.1) (tie' : Nat) :
    played ((q.client tie' stack' rooms).play sqliteCall t) = serve t q.inSeconds := by
  cases q with
  | submit q tie => exact played_submit h q tie tie'
  | submitOrAttach q tie => exact played_submitOrAttach h q tie tie'
  | run handle clock granted call => exact played_run hq granted hw h

end Sqlite

end DurableAgent
