import DurableAgent.Contention

namespace DurableAgent

open Interleaving

variable {ι : Type}

def Ended (t : Tables) (runId : String) : Prop :=
  ∃ row, t.runRow runId = some row ∧ row.status.isTerminal = true ∧ row.active = false

def fitsColumns (index : Nat) (ctx : StepContext) : Bool :=
  decide (0 ≤ ctx.tokensUsed) && (Tables.bindable index && Tables.bindable ctx.attempts &&
    Tables.bindable ctx.tokensUsed.toNat)

def serializable (stack : Nat) (output : PyValue) : Bool :=
  ((validateDict output).bind (dumpsObject stack)).isSome

-- the output of a failure is one dict, so it needs stack for one level
def recordable (stack index : Nat) (e : Execution) : Bool :=
  fitsColumns index e.context &&
    match e.result with
    | .returned output => serializable stack output
    | .escalation reason => decide (0 < stack) && reason.encode.isSome
    | .exception typeName (some text) =>
        decide (0 < stack) && (exceptionReason typeName text).encode.isSome
    | .exception _ none => false
    | .simulatedCrash => false

def recordableFrom (stack : Nat) (handlers : List String) (results : Nat → Execution) :
    List Step → Nat → Bool
  | [], _ => true
  | step :: rest, index =>
      if step.name ∈ handlers then
        recordable stack index (results index) &&
          match (results index).result with
          | .returned _ => recordableFrom stack handlers results rest (index + 1)
          | _ => true
      else decide (0 < stack) && Tables.bindable index

section Calls

variable {t t' : Tables} {stack : Nat} {s : Session} {f : Frame} {row : RunRow} {ctx : StepContext}
  {status : RunStatus} {reason : PyStr} {error : Option PyStr} {reraise : Option Raised}
  {now : Datetime}

theorem not_ended {runId : String} (hrow : t.runRow runId = some row)
    (ha : row.status.isTerminal = false) : ¬ Ended t runId := by
  rintro ⟨row', hrow', ht, _⟩
  rw [hrow] at hrow'
  cases hrow'
  rw [ha] at ht
  cases ht

theorem setStatus_terminal {runId : String} {err : Option String}
    (hrow : t.runRow runId = some row) (ht : status.isTerminal = true)
    (he : Tables.encodeError error = some err) :
    ∃ t', t.setStatus runId status error = .ok t' ∧
      t'.runRow runId = some { row with status := status, error := err } := by
  have hset : Tables.settled runId status err row = { row with status := status, error := err } :=
    if_pos (Tables.runRow_runId hrow)
  have hactive : (Tables.settled runId status err row).active = false := by
    rw [RunRow.active_eq, hset, ht]
    rfl
  have hs : t.setStatus runId status error =
      .ok { t with runs := t.runs.map (Tables.settled runId status err) } := by
    simp [Tables.setStatus, he, hrow, hactive]
  refine ⟨_, hs, ?_⟩
  rw [Tables.runRow_setStatus hs he, hrow, Option.map_some, hset]

theorem setStatus_unencodable {runId : String} (he : Tables.encodeError error = none) :
    t.setStatus runId status error = .error .unicodeEncodeError := by
  simp [Tables.setStatus, he]

theorem finishRun_fst (ht' : t.setStatus s.call.runId status error = .ok t') :
    (finishRun t s status error reraise).1 = t' := by
  cases reraise <;> simp [finishRun, ht']

theorem finishRun_ended_iff (hrow : t.runRow s.call.runId = some row)
    (ha : row.status.isTerminal = false) (ht : status.isTerminal = true) :
    Ended (finishRun t s status error reraise).1 s.call.runId ↔
      (Tables.encodeError error).isSome = true := by
  cases he : Tables.encodeError error with
  | none =>
    rw [finishRun, setStatus_unencodable he]
    exact iff_of_false (not_ended hrow ha) (by simp)
  | some err =>
    obtain ⟨t', hs, hrow'⟩ := setStatus_terminal hrow ht he
    rw [finishRun_fst hs]
    exact iff_of_true ⟨_, hrow', ht, by rw [RunRow.active_eq]; simp [ht]⟩ rfl

theorem stored_iff {outcome : StepOutcome} {output : PyValue}
    (hrow : t.runRow s.call.runId = some row) :
    (∃ r t', stepRecord s f outcome ctx output now = .ok r ∧ t.append stack r = .ok t') ↔
      fitsColumns f.index ctx = true ∧ serializable stack output = true := by
  cases hv : validateDict output with
  | none => simp [stepRecord, serializable, hv]
  | some d =>
    by_cases ht : 0 ≤ ctx.tokensUsed
    · have happ (r : StepRecord) (hr : r.runId = s.call.runId) :
          (∃ t', t.append stack r = .ok t') ↔ _ := Tables.append_ok_iff (hr.symm ▸ hrow)
      simp only [stepRecord, serializable, hv, ht, if_true, Except.ok.injEq, exists_and_left,
        exists_eq_left', happ, fitsColumns, decide_true, Bool.true_and, Option.bind_some]
      exact and_comm
    · simp [stepRecord, fitsColumns, hv, ht]

theorem record_refused {outcome : StepOutcome} {output : PyValue} {x : Raised}
    (h : stepRecord s f outcome ctx output now = .error x) :
    ¬ ∃ r t', stepRecord s f outcome ctx output now = .ok r ∧ t.append stack r = .ok t' := by
  rintro ⟨r, t', hr, _⟩
  rw [h] at hr
  cases hr

theorem append_refused {outcome : StepOutcome} {output : PyValue} {r : StepRecord} {x : StoreError}
    (hr : stepRecord s f outcome ctx output now = .ok r) (h : t.append stack r = .error x) :
    ¬ ∃ r t', stepRecord s f outcome ctx output now = .ok r ∧ t.append stack r = .ok t' := by
  rintro ⟨r', t', hr', happ⟩
  rw [hr] at hr'
  cases hr'
  rw [h] at happ
  cases happ

theorem serializable_errorOutput (reason : PyStr) :
    serializable stack (errorOutput reason) = decide (0 < stack) := by
  have hjson : toJsonObject [(.ofString "error", .str reason)] =
      some [(.ofString "error", .str reason)] := by
    simp [toJsonObject, toJson]
  have hdepth : (Json.obj [(.ofString "error", .str reason)]).depth = 1 := by
    simp [Json.depth, Json.membersDepth]
  rw [serializable, validate_errorOutput, Option.bind_some, dumpsObject, hjson, Option.filter_some,
    hdepth]
  by_cases h : 0 < stack <;> simp [h, Nat.succ_le_iff]

theorem recordFailure_ended_iff (hrow : t.runRow s.call.runId = some row)
    (ha : row.status.isTerminal = false) (ht : status.isTerminal = true) :
    Ended (recordFailure t s f ctx now status reason reraise).1 s.call.runId ↔
      fitsColumns f.index ctx = true ∧ 0 < s.call.stack ∧ reason.encode.isSome = true := by
  have hstored : (∃ r t', stepRecord s f .failed ctx (errorOutput reason) now = .ok r ∧
      t.append s.call.stack r = .ok t') ↔ fitsColumns f.index ctx = true ∧ 0 < s.call.stack := by
    rw [stored_iff hrow, serializable_errorOutput, decide_eq_true_eq]
  rw [← and_assoc, ← hstored]
  unfold recordFailure
  cases hr : stepRecord s f .failed ctx (errorOutput reason) now with
  | error x => exact iff_of_false (not_ended hrow ha) fun h => record_refused hr (hr ▸ h.1)
  | ok r =>
    cases happ : t.append s.call.stack r with
    | error x =>
      simp only [happ]
      exact iff_of_false (not_ended hrow ha) fun h => append_refused hr happ (hr ▸ h.1)
    | ok t' =>
      have hrow' : t'.runRow s.call.runId = some row := (Tables.runRow_append happ _).trans hrow
      simp only [happ]
      rw [finishRun_ended_iff hrow' ha ht, Tables.encodeError, Option.isSome_map]
      exact (and_iff_right ⟨r, t', rfl, happ⟩).symm

theorem fitsColumns_context (s : Session) (f : Frame) :
    fitsColumns f.index (f.context s) = Tables.bindable f.index := by
  simp [fitsColumns, Frame.context, StepContext.tokensUsed, StepContext.attempts, Tables.bindable]

theorem encode_exceptionReason (typeName text : String) :
    (exceptionReason (.ofString typeName) (.ofString text)).encode.isSome = true := by
  have h : exceptionReason (.ofString typeName) (.ofString text) =
      .ofString (typeName ++ ": " ++ text) := by
    simp [exceptionReason, PyStr.append, PyStr.ofString]
  rw [h, PyStr.encode_ofString]
  rfl

theorem runSteps_ended_iff (results : Nat → Execution) (now : Nat → Datetime) (rest : List Step)
    (index : Nat) (payload : StrDict) (previous : Outputs) (hcrash : s.call.crashAt = none)
    (hrow : t.runRow s.call.runId = some row) (ha : row.status.isTerminal = false) :
    Ended (runSteps (fun _ ctx => results ctx.index) now s rest index payload previous t).1
        s.call.runId ↔
      recordableFrom s.call.stack s.call.handlers results rest index = true := by
  induction rest generalizing index payload previous t with
  | nil => exact iff_of_true ((finishRun_ended_iff hrow ha rfl).mpr rfl) rfl
  | cons step rest ih =>
    have hc : s.call.crashAt ≠ some index := by
      rw [hcrash]
      exact nofun
    simp only [runSteps, if_neg hc, execute, recordableFrom]
    by_cases hk : step.name ∈ s.call.handlers
    · simp only [if_pos hk, Frame.context, recordable, Bool.and_eq_true]
      cases he : (results index).result with
      | simulatedCrash => exact iff_of_false (not_ended hrow ha) (by simp)
      | escalation reason =>
        simp only [and_true, Bool.and_eq_true, decide_eq_true_eq]
        exact recordFailure_ended_iff hrow ha rfl
      | exception typeName text =>
        cases text with
        | none => exact iff_of_false (not_ended hrow ha) (by simp)
        | some text =>
          simp only [and_true, Bool.and_eq_true, decide_eq_true_eq]
          exact recordFailure_ended_iff hrow ha rfl
      | returned output =>
        have hstored {outcome : StepOutcome} :
            (∃ r t', stepRecord s ⟨index, step, payload, previous⟩ outcome (results index).context
              output (now index) = .ok r ∧ t.append s.call.stack r = .ok t') ↔
              fitsColumns index (results index).context = true ∧
                serializable s.call.stack output = true :=
          stored_iff hrow
        simp only
        split
        · rename_i x hx
          exact iff_of_false (not_ended hrow ha) fun h => record_refused hx (hstored.mpr h.1)
        · rename_i r hr
          split
          · rename_i x hx
            exact iff_of_false (not_ended hrow ha) fun h => append_refused hr hx (hstored.mpr h.1)
          · rename_i t' happ
            rw [ih _ _ _ ((Tables.runRow_append happ _).trans hrow),
              and_iff_right (hstored.mp ⟨r, t', hr, happ⟩)]
    · simp only [if_neg hk, noHandler]
      rw [recordFailure_ended_iff hrow ha rfl, fitsColumns_context,
        and_iff_left (encode_exceptionReason _ _), Bool.and_eq_true, decide_eq_true_eq]
      exact and_comm

theorem setStatus_running {runId : String} (ht : t.WellFormed)
    (hrow : t.runRow runId = some row) (ha : row.status.isTerminal = false) :
    ∃ t', t.setStatus runId .running none = .ok t' ∧
      t'.runRow runId = some { row with status := .running, error := none } := by
  have hclash := live_no_clash ht hrow ha
  have hs : t.setStatus runId .running none =
      .ok { t with runs := t.runs.map (Tables.settled runId .running none) } := by
    simp [Tables.setStatus, Tables.encodeError, hrow, hclash]
  refine ⟨_, hs, ?_⟩
  rw [Tables.runRow_setStatus hs rfl, hrow, Option.map_some, Tables.settled,
    if_pos (Tables.runRow_runId hrow)]

theorem planRows_match {runId : String} {plan : Plan} {state : RunState}
    (hr : PlanRows t runId plan) (hl : t.load runId = some state) :
    assertPlanMatchesHistory plan state = .ok () := by
  obtain ⟨row, _, hid, rfl⟩ := load_eq_some hl
  rw [assertPlanMatchesHistory_ok]
  intro r hmem
  obtain ⟨x, hx, rfl⟩ := Tables.mem_hydrate_steps.mp hmem
  exact hr x (hid ▸ hx)

end Calls

section Runs

variable [DecidableEq ι]

def answers (index : Nat) : Execution :=
  ⟨.returned (answer "done"), { runId := "run", index := index, payload := [], previous := [] }⟩

end Runs

end DurableAgent
