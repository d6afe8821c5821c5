import DurableAgent.Checkpoints
import DurableAgent.Jsonb

namespace DurableAgent

open FirstWriter

namespace Postgres

inductive Error where
  | jsonError
  | unicodeEncodeError
  | dataError
  | integrityError
deriving DecidableEq, Repr

structure RunRow where
  runId : String
  idempotencyKey : String
  planName : String
  payload : JsonObject
  status : RunStatus
  error : Option String
  createdAt : Nat

structure StepRow where
  runId : String
  stepIndex : Nat
  name : String
  outcome : StepOutcome
  attempts : Nat
  output : JsonObject
  tokensUsed : Nat
  createdAt : Int
  attemptsPositive : 1 ≤ attempts

structure Tables where
  runs : List RunRow
  stepRecords : List StepRow

-- the session's time zone: the instant a wall clock reading means there, the offset in force at an
-- instant, `none` when the local time is outside the years a datetime has, and whether the clock
-- reads the same at another instant
structure Zone where
  instant : Int → Int
  offset : Int → Option Int
  folds : Int → Bool

def RunRow.active (r : RunRow) : Bool := ["pending", "running"].contains r.status.value

def StepRow.key (r : StepRow) : String × Nat := (r.runId, r.stepIndex)

def fitsInteger (n : Nat) : Bool := n < 0x80000000

def Zone.stored (zone : Zone) (d : Datetime) : Int :=
  match d.utcoffset with
  | some _ => d.micros
  | none => zone.instant d.micros

def row (zone : Zone) (r : StepRecord) (output : JsonObject) : StepRow where
  runId := r.runId
  stepIndex := r.index
  name := r.name
  outcome := r.outcome
  attempts := r.attempts
  output := output
  tokensUsed := r.tokensUsed
  createdAt := zone.stored r.createdAt
  attemptsPositive := r.attemptsPositive

namespace Tables

def empty : Tables := ⟨[], []⟩

def runRow (t : Tables) (runId : String) : Option RunRow := t.runs.find? fun r => r.runId = runId

def rowsOf (t : Tables) (runId : String) : List StepRow :=
  t.stepRecords.filter fun r => r.runId = runId

def activeClash (t : Tables) (runId idempotencyKey : String) : Bool :=
  t.runs.any fun r => r.runId ≠ runId && r.idempotencyKey = idempotencyKey && r.active

def insertRun (t : Tables) (stack : Nat) (runId : String) (spec : RunSpec) (now : Nat) :
    Except Error Tables :=
  match dumpsObject stack spec.payload with
  | none => .error .jsonError
  | some o =>
      match storableText runId && storableText spec.idempotencyKey && storableText spec.plan.name,
        jsonbObject o with
      | true, some payload =>
          let row : RunRow :=
            ⟨runId, spec.idempotencyKey, spec.plan.name, payload, .pending, none, now⟩
          if (t.runRow runId).isSome || t.activeClash runId spec.idempotencyKey then
            .error .integrityError
          else .ok { t with runs := t.runs ++ [row] }
      | _, _ => .error .dataError

-- the driver reads a JSONB column by `json.loads`
def loadsColumn (depth : Nat) (o : JsonObject) : Except Error StrDict :=
  if (Json.obj o).depth ≤ depth then .ok (loadsObject o) else .error .jsonError

def readStep (zone : Zone) (room : Room) (r : StepRow) : Except Error StepRecord :=
  match loadsColumn room.output r.output, zone.offset r.createdAt with
  | .ok output, some offset => .ok {
      runId := r.runId
      index := r.stepIndex
      name := r.name
      outcome := r.outcome
      attempts := r.attempts
      output := output
      tokensUsed := r.tokensUsed
      createdAt := ⟨r.createdAt, some offset, zone.folds r.createdAt⟩
      attemptsPositive := r.attemptsPositive }
  | .error e, _ => .error e
  | _, none => .error .dataError

def hydrate (t : Tables) (zone : Zone) (room : Room) (row : RunRow) : Except Error RunState :=
  match loadsColumn room.payload row.payload,
    ((t.rowsOf row.runId).insertionSort fun a b => a.stepIndex ≤ b.stepIndex).mapM
      (readStep zone room) with
  | .ok payload, .ok steps =>
      .ok ⟨row.runId, row.idempotencyKey, row.status, row.planName, payload, steps, row.error⟩
  | .error e, _ => .error e
  | _, .error e => .error e

def hydrateSome (t : Tables) (zone : Zone) (room : Room) :
    Option RunRow → Except Error (Option RunState)
  | none => .ok none
  | some row =>
      match t.hydrate zone room row with
      | .error e => .error e
      | .ok state => .ok (some state)

def load (t : Tables) (zone : Zone) (room : Room) (runId : String) :
    Except Error (Option RunState) :=
  if storableText runId then t.hydrateSome zone room (t.runRow runId) else .error .dataError

def latest (t : Tables) (idempotencyKey : String) (tie : Nat) : Option RunRow :=
  let rows := t.runs.filter fun r => r.idempotencyKey = idempotencyKey
  let latest := rows.filter fun r => rows.all fun r' => r'.createdAt ≤ r.createdAt
  latest[tie % latest.length]?

def findByKey (t : Tables) (zone : Zone) (room : Room) (idempotencyKey : String) (tie : Nat) :
    Except Error (Option RunState) :=
  if storableText idempotencyKey then t.hydrateSome zone room (t.latest idempotencyKey tie)
  else .error .dataError

def append (t : Tables) (zone : Zone) (stack : Nat) (r : StepRecord) : Except Error Tables :=
  match dumpsObject stack r.output with
  | none => .error .jsonError
  | some o =>
      match storableText r.runId && storableText r.name && fitsInteger r.index &&
          fitsInteger r.attempts && fitsInteger r.tokensUsed, jsonbObject o with
      | true, some output =>
          if (t.runRow r.runId).isNone then .error .integrityError
          else .ok { t with
            stepRecords := insertOrIgnore StepRow.key t.stepRecords (row zone r output) }
      | _, _ => .error .dataError

def settled (runId : String) (status : RunStatus) (error : Option String) (r : RunRow) : RunRow :=
  if r.runId = runId then { r with status := status, error := error } else r

def setStatus (t : Tables) (runId : String) (status : RunStatus) (error : Option PyStr) :
    Except Error Tables :=
  match DurableAgent.Tables.encodeError error with
  | none => .error .unicodeEncodeError
  | some err =>
      if storableText runId && err.all storableText then
        match t.runRow runId with
        | none => .ok t
        | some row =>
            if (settled runId status err row).active && t.activeClash runId row.idempotencyKey then
              .error .integrityError
            else .ok { t with runs := t.runs.map (settled runId status err) }
      else .error .dataError

end Tables

end Postgres

end DurableAgent
