import DurableAgent.Uninterrupted
import DurableAgent.Library.Replay

namespace DurableAgent

open Replay

structure Checkpoint where
  index : Nat
  name : String
  outcome : StepOutcome
  attempts : Nat
  output : StrDict
  tokensUsed : Nat

def StepRecord.checkpoint (r : StepRecord) : Checkpoint :=
  ⟨r.index, r.name, r.outcome, r.attempts, r.output, r.tokensUsed⟩

structure DurableRun where
  status : RunStatus
  error : Option String
  checkpoints : List Checkpoint

def durable (t : Tables) (runId : String) : Option DurableRun :=
  (t.load runId).map fun state =>
    ⟨state.status, state.error, state.steps.map StepRecord.checkpoint⟩

def checkpoints (t : Tables) (runId : String) : List Checkpoint :=
  (t.rowsOf runId).map fun row => (Tables.hydrateStep row).checkpoint

-- what the table keeps of a record, when it takes it
def StepRecord.stored (stack : Nat) (r : StepRecord) : Option Checkpoint :=
  match dumpsObject stack r.output with
  | none => none
  | some output =>
      if Tables.bindable r.index && Tables.bindable r.attempts && Tables.bindable r.tokensUsed then
        some { r.checkpoint with output := loadsObject output }
      else none

structure Answer where
  result : HandlerResult
  attempts : Nat
  tokensUsed : Int
  wasHealed : Bool

def Execution.answer (e : Execution) : Answer :=
  ⟨e.result, e.context.attempts, e.context.tokensUsed, e.context.wasHealed⟩

def SameOutputs (plan : Plan) (n : Nat) (p q : Outputs) : Prop :=
  ∀ j < n, ∀ step, plan.steps[j]? = some step → Dict.get? p step.name = Dict.get? q step.name

def JsonOutputs (plan : Plan) (n : Nat) (p : Outputs) : Prop :=
  ∀ j < n, ∀ step output, plan.steps[j]? = some step → Dict.get? p step.name = some output →
    isJsonDict output

def SameView (plan : Plan) (ctx ctx' : StepContext) : Prop :=
  ctx = { ctx' with previous := ctx.previous } ∧
    SameOutputs plan ctx.index ctx.previous ctx'.previous

structure Reproducible (plan : Plan) (payload : StrDict)
    (handle : String → StepContext → Execution) : Prop where
  determined : ∀ step ctx ctx', plan.steps[ctx.index]? = some step → SameView plan ctx ctx' →
    (handle step.name ctx).answer = (handle step.name ctx').answer
  json : ∀ step ctx output, plan.steps[ctx.index]? = some step → ctx.payload = payload →
    JsonOutputs plan ctx.index ctx.previous →
    (handle step.name ctx).result = .returned output → isJsonDict output
  keepsPayload : ∀ step ctx, plan.steps[ctx.index]? = some step →
    (handle step.name ctx).context.payload = ctx.payload
  keepsOutputs : ∀ step ctx, plan.steps[ctx.index]? = some step →
    SameOutputs plan ctx.index (handle step.name ctx).context.previous ctx.previous

inductive Ending where
  | completed
  | failed (entry : Checkpoint) (status : RunStatus) (reason : PyStr)
  | stuck

def Ending.durable (log : List Checkpoint) : Ending → DurableRun
  | .completed => ⟨.completed, none, log⟩
  | .failed entry status reason =>
      match reason.encode with
      | some error => ⟨status, some error, log ++ [entry]⟩
      | none => ⟨.running, none, log ++ [entry]⟩
  | .stuck => ⟨.running, none, log⟩

def Control.entry : Control → Next Checkpoint Ending
  | .appending s _ r (.proceed _ _) =>
      match r.stored s.call.stack with
      | some entry => .emit entry
      | none => .halt .stuck
  | .appending s _ r (.settle status reason _) =>
      match r.stored s.call.stack with
      | some entry => .halt (.failed entry status reason)
      | none => .halt .stuck
  | _ => .halt .stuck

def previousOfLog (plan : Plan) (log : List Checkpoint) : Outputs :=
  List.zipWith (fun (step : Step) (entry : Checkpoint) =>
    (step.name, ofStrDict entry.output)) plan.steps log

def Agrees (plan : Plan) (log : List Checkpoint) (previous : Outputs) : Prop :=
  ∀ (j : Nat) (step : Step) (entry : Checkpoint), plan.steps[j]? = some step → log[j]? = some entry →
    Dict.get? previous step.name = some (ofStrDict entry.output)

def straightFrame (origin : Session) (log : List Checkpoint) (step : Step) : Frame where
  index := log.length
  step := step
  payload := origin.state.payload
  previous := previousOfLog origin.call.plan log

-- the run nothing interrupts, as a generator of its own checkpoints
def straight (handle : String → StepContext → Execution) (origin : Session)
    (log : List Checkpoint) : Next Checkpoint Ending :=
  match origin.call.plan.steps[log.length]? with
  | none => .halt .completed
  | some step =>
      let f := straightFrame origin log step
      (conclude origin f (execute handle origin f) epoch).entry

def SameWork (call c : Call) : Prop :=
  c.runId = call.runId →
    c.plan = call.plan ∧ c.handlers = call.handlers ∧ c.stack = call.stack

instance (call : Call) : DecidablePred (SameWork call) := fun c =>
  inferInstanceAs (Decidable (c.runId = call.runId → c.plan = call.plan ∧ _ ∧ _))

structure Follows (origin : Session) (log : List Checkpoint) (f : Frame) : Prop where
  step : origin.call.plan.steps[f.index]? = some f.step
  length : log.length = f.index
  payload : f.payload = origin.state.payload
  outputs : Agrees origin.call.plan log f.previous

def AfterAppend.Carries (origin : Session) (log : List Checkpoint) (r : StepRecord) :
    AfterAppend → Prop
  | .proceed payload previous => payload = origin.state.payload ∧
      ∀ entry, r.stored origin.call.stack = some entry →
        Agrees origin.call.plan (log ++ [entry]) previous ∧
        isJsonDict (ofStrDict entry.output)
  | .settle _ _ _ => True

section Answers

variable {stack : Nat} {s s' : Session} {f f' : Frame} {e e' : Execution} {now now' : Datetime}

theorem stepRecord_stored {outcome outcome' : StepOutcome} {ctx ctx' : StepContext}
    {output : PyValue} (hindex : f.index = f'.index) (hstep : f.step = f'.step)
    (hout : outcome = outcome') (hattempts : ctx.attempts = ctx'.attempts)
    (htokens : ctx.tokensUsed = ctx'.tokensUsed) :
    ((stepRecord s f outcome ctx output now).toOption.bind (StepRecord.stored stack)) =
      (stepRecord s' f' outcome' ctx' output now').toOption.bind (StepRecord.stored stack) := by
  unfold stepRecord
  cases validateDict output with
  | none => rfl
  | some d =>
    simp only [htokens]
    split
    · simp only [Except.toOption, Option.bind_some, StepRecord.stored, StepRecord.checkpoint,
        hindex, hstep, hout, hattempts]
    · rfl

theorem concludeFailure_entry {ctx : StepContext} {status : RunStatus} {reason : PyStr}
    {reraise : Option Raised} :
    (concludeFailure s f ctx now status reason reraise).entry =
      match (stepRecord s f .failed ctx (errorOutput reason) now).toOption.bind
        (StepRecord.stored s.call.stack) with
      | some entry => .halt (.failed entry status reason)
      | none => .halt .stuck := by
  unfold concludeFailure
  cases stepRecord s f .failed ctx (errorOutput reason) now <;> rfl

theorem conclude_returned_entry {output : PyValue} (he : e.result = .returned output) :
    (conclude s f e now).entry =
      match (stepRecord s f (if e.context.wasHealed then .healed else .ok) e.context output
        now).toOption.bind (StepRecord.stored s.call.stack) with
      | some entry => .emit entry
      | none => .halt .stuck := by
  simp only [conclude, he]
  cases stepRecord s f (if e.context.wasHealed then .healed else .ok) e.context output now <;> rfl

-- what a step leaves behind is read off its index, its step and its answer alone
theorem conclude_entry (hstack : s.call.stack = s'.call.stack) (hindex : f.index = f'.index)
    (hstep : f.step = f'.step) (ha : e.answer = e'.answer) :
    (conclude s f e now).entry = (conclude s' f' e' now').entry := by
  simp only [Execution.answer, Answer.mk.injEq] at ha
  obtain ⟨hresult, hattempts, htokens, hhealed⟩ := ha
  have hstored {outcome outcome' : StepOutcome} {output : PyValue} (hout : outcome = outcome') :
      ((stepRecord s f outcome e.context output now).toOption.bind
          (StepRecord.stored s.call.stack)) =
        (stepRecord s' f' outcome' e'.context output now').toOption.bind
          (StepRecord.stored s'.call.stack) :=
    hstack ▸ stepRecord_stored hindex hstep hout hattempts htokens
  cases he : e.result with
  | returned output =>
    rw [conclude_returned_entry he, conclude_returned_entry (hresult.symm.trans he), hhealed,
      hstored rfl]
  | escalation reason =>
    simp only [conclude, he, hresult.symm.trans he]
    rw [concludeFailure_entry, concludeFailure_entry, hstored rfl]
  | exception typeName text =>
    cases text with
    | none => simp only [conclude, he, hresult.symm.trans he, Control.entry]
    | some text =>
      simp only [conclude, he, hresult.symm.trans he]
      rw [concludeFailure_entry, concludeFailure_entry, hstored rfl]
  | simulatedCrash => simp only [conclude, he, hresult.symm.trans he, Control.entry]

theorem stored_inv {r : StepRecord} {entry : Checkpoint} (h : r.stored stack = some entry) :
    ∃ output, toJsonObject r.output = some output ∧
      entry = { r.checkpoint with output := loadsObject output } := by
  unfold StepRecord.stored at h
  split at h
  · cases h
  · rename_i output ho
    split at h
    · exact ⟨output, (dumpsObject_eq_some.mp ho).1, (Option.some.inj h).symm⟩
    · cases h

theorem entry_refused {r : StepRecord} (h : r.stored s.call.stack = none) (after : AfterAppend) :
    (Control.appending s f r after).entry = .halt .stuck := by
  cases after <;> simp only [Control.entry, h]

theorem stored_outcome {r : StepRecord} {entry : Checkpoint} (h : r.stored stack = some entry) :
    entry.outcome = r.outcome := by
  obtain ⟨output, _, rfl⟩ := stored_inv h
  rfl

theorem emit_outcome {entry : Checkpoint} (h : (conclude s f e now).entry = .emit entry) :
    entry.outcome ≠ .failed := by
  revert h
  apply conclude_cases (P := fun ctrl => ctrl.entry = .emit entry → entry.outcome ≠ .failed)
  · intro o h
    cases h
  · intro status reason reraise r _ _ h
    simp only [Control.entry] at h
    split at h <;> cases h
  · intro output r _ hr h
    simp only [Control.entry] at h
    split at h
    · rename_i entry' hs
      cases h
      rw [stored_outcome hs, (stepRecord_ok hr).2.2.2.1]
      split <;> decide
    · cases h

theorem failed_outcome {entry : Checkpoint} {status : RunStatus} {reason : PyStr}
    (h : (conclude s f e now).entry = .halt (.failed entry status reason)) :
    entry.outcome = .failed := by
  revert h
  apply conclude_cases (P := fun ctrl => ctrl.entry = .halt (.failed entry status reason) →
    entry.outcome = .failed)
  · intro o h
    cases h
  · intro status' reason' reraise r _ hr h
    simp only [Control.entry] at h
    split at h
    · rename_i entry' hs
      cases h
      rw [stored_outcome hs, (stepRecord_ok hr).2.2.2.1]
    · cases h
  · intro output r _ _ h
    simp only [Control.entry] at h
    split at h <;> cases h

end Answers

section Outputs

variable {plan : Plan} {log : List Checkpoint} {p q : Outputs}

theorem keys_previousOfLog (steps : List Step) (log : List Checkpoint) :
    (Dict.keys (List.zipWith (fun (step : Step) (entry : Checkpoint) =>
      (step.name, ofStrDict entry.output))
      steps log)).Sublist (steps.map Step.name) := by
  induction steps generalizing log with
  | nil => exact List.Sublist.slnil
  | cons step steps ih =>
    cases log with
    | nil => exact List.nil_sublist _
    | cons entry log => exact (ih log).cons_cons step.name

theorem agrees_previousOfLog (plan : Plan) (log : List Checkpoint) :
    Agrees plan log (previousOfLog plan log) := by
  intro j step entry hs he
  have hnd : (Dict.keys (previousOfLog plan log)).Nodup :=
    plan.uniqueNames.sublist (keys_previousOfLog plan.steps log)
  apply Dict.get?_of_mem hnd
  have hz : (previousOfLog plan log)[j]? = some (step.name, ofStrDict entry.output) :=
    List.getElem?_zipWith_eq_some.mpr ⟨step, entry, hs, he, rfl⟩
  exact List.mem_of_getElem? hz

theorem Agrees.same (hp : Agrees plan log p) (hq : Agrees plan log q) :
    SameOutputs plan log.length p q := by
  intro j hj step hs
  have he : log[j]? = some log[j] := List.getElem?_eq_getElem hj
  rw [hp j step log[j] hs he, hq j step log[j] hs he]

theorem Agrees.of_same (hp : Agrees plan log p) (h : SameOutputs plan log.length q p) :
    Agrees plan log q := by
  intro j step entry hs he
  rw [h j (List.getElem?_eq_some_iff.mp he).1 step hs]
  exact hp j step entry hs he

theorem Agrees.json (hp : Agrees plan log p)
    (hj : ∀ entry ∈ log, isJsonDict (ofStrDict entry.output)) : JsonOutputs plan log.length p := by
  intro j hlt step output hs ho
  have he : log[j]? = some log[j] := List.getElem?_eq_getElem hlt
  rw [hp j step log[j] hs he] at ho
  cases ho
  exact hj _ (List.getElem_mem hlt)

theorem Agrees.set {step : Step} {entry : Checkpoint} (hp : Agrees plan log p)
    (hs : plan.steps[log.length]? = some step) :
    Agrees plan (log ++ [entry]) (Dict.set p step.name (ofStrDict entry.output)) := by
  intro j step' entry' hs' he
  rcases Nat.lt_or_ge j log.length with hlt | hge
  · rw [List.getElem?_append_left hlt] at he
    have hne : step'.name ≠ step.name := by
      intro hn
      exact absurd (plan.name_injective hs' hs hn) (Nat.ne_of_lt hlt)
    rw [Dict.get?_set_ne _ _ hne]
    exact hp j step' entry' hs' he
  · have hlt := (List.getElem?_eq_some_iff.mp he).1
    rw [List.length_append, List.length_singleton] at hlt
    have heq : j = log.length := by omega
    subst heq
    rw [hs] at hs'
    cases hs'
    rw [List.getElem?_concat_length] at he
    cases he
    exact Dict.get?_set_self _ _ _

end Outputs

section Steps

variable {handle : String → StepContext → Execution} {origin s : Session} {f : Frame}
  {log : List Checkpoint}

theorem execute_answer (hr : Reproducible origin.call.plan origin.state.payload handle)
    (hid : s.call.runId = origin.call.runId) (hk : s.call.handlers = origin.call.handlers)
    (hf : Follows origin log f) :
    (execute handle s f).answer =
      (execute handle origin (straightFrame origin log f.step)).answer := by
  unfold execute
  rw [hk]
  by_cases hmem : f.step.name ∈ origin.call.handlers
  · have hstraight : (straightFrame origin log f.step).step.name ∈ origin.call.handlers := hmem
    rw [if_pos hmem, if_pos hstraight]
    refine hr.determined f.step _ _ hf.step ⟨?_, ?_⟩
    · simp only [Frame.context, straightFrame, hid, hf.length, hf.payload]
    · have hsame := hf.outputs.same (agrees_previousOfLog _ log)
      rw [hf.length] at hsame
      exact hsame
  · have hstraight : (straightFrame origin log f.step).step.name ∉ origin.call.handlers := hmem
    rw [if_neg hmem, if_neg hstraight]
    rfl

theorem conclude_straight (hr : Reproducible origin.call.plan origin.state.payload handle)
    (hid : s.call.runId = origin.call.runId) (hk : s.call.handlers = origin.call.handlers)
    (hstack : s.call.stack = origin.call.stack) (hf : Follows origin log f) (now : Datetime) :
    (conclude s f (execute handle s f) now).entry = straight handle origin log := by
  have hs : origin.call.plan.steps[log.length]? = some f.step := hf.length.symm ▸ hf.step
  simp only [straight, hs]
  exact conclude_entry hstack hf.length.symm rfl (execute_answer hr hid hk hf)

theorem proceed_carries (hr : Reproducible origin.call.plan origin.state.payload handle)
    (hf : Follows origin log f) (hj : ∀ entry ∈ log, isJsonDict (ofStrDict entry.output))
    {output : PyValue} {outcome : StepOutcome} {now : Datetime} {r : StepRecord}
    (ho : (execute handle s f).result = .returned output)
    (hrec : stepRecord s f outcome (execute handle s f).context output now = .ok r) :
    (AfterAppend.proceed (execute handle s f).context.payload
      (Dict.set (execute handle s f).context.previous f.step.name output)).Carries origin log r := by
  by_cases hk : f.step.name ∈ s.call.handlers
  · have he : execute handle s f = handle f.step.name (f.context s) := if_pos hk
    rw [he] at ho hrec ⊢
    have hsame := hr.keepsOutputs f.step (f.context s) hf.step
    have hagree : Agrees origin.call.plan log (handle f.step.name (f.context s)).context.previous :=
      hf.outputs.of_same (hf.length.symm ▸ hsame)
    have hprevious : JsonOutputs origin.call.plan f.index f.previous := by
      rw [← hf.length]
      exact hf.outputs.json hj
    have hjson := hr.json f.step (f.context s) output hf.step hf.payload hprevious ho
    refine ⟨(hr.keepsPayload f.step (f.context s) hf.step).trans hf.payload, fun entry hst => ?_⟩
    obtain ⟨d, hv, hd, o, hdo, hlo⟩ := json_dict_round_trip hjson
    have hrd : r.output = d := by
      have hv' := (stepRecord_ok hrec).2.2.2.2
      rw [hv] at hv'
      exact (Option.some.inj hv').symm
    obtain ⟨o', ho', rfl⟩ := stored_inv hst
    rw [hrd, hdo] at ho'
    cases ho'
    have hout : ofStrDict (loadsObject o) = output := by rw [hlo, hd]
    refine ⟨?_, by rw [hout]; exact hjson⟩
    have hstep : origin.call.plan.steps[log.length]? = some f.step := hf.length.symm ▸ hf.step
    have hset : Agrees origin.call.plan (log ++ [{ r.checkpoint with output := loadsObject o }])
        (Dict.set (handle f.step.name (f.context s)).context.previous f.step.name
          (ofStrDict (loadsObject o))) := hagree.set hstep
    rwa [hout] at hset
  · have he : execute handle s f = ⟨noHandler f, f.context s⟩ := if_neg hk
    rw [he] at ho
    cases ho

end Steps

end DurableAgent
