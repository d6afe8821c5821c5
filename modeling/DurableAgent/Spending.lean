import DurableAgent.Escapes
import DurableAgent.Attribution
import DurableAgent.RoundTrip
import DurableAgent.Uninterrupted

namespace DurableAgent

variable {α ε : Type}

-- what can come out of `ask` besides its answer: reading a text raises, or the provider does
inductive AskError where
  | reading (error : ReadError)
  | provider (typeName : PyStr) (text : Option PyStr)

-- a handler whose only way to the provider is `ask`; `resume` is what it does with what the ask
-- returned or raised, so it may catch it, and with the context as the ask left it
inductive Handling (α : Type) where
  | done (result : HandlerResult) (payload : StrDict) (previous : Outputs)
  | ask (prompt : PyStr) (schema : BaseModel α) (schemaName : PyStr) (maxAttempts : Option Int)
      (resume : AskEnding AskError α → StepContext → Handling α)

def Turn.tokens (t : Turn ε) : Option Int :=
  match t.call with
  | .ok (.completion _ tokens) => some tokens
  | _ => none

structure AskMade (α : Type) where
  attempted : Attempted AskError α
  invalid : Nat

def AskEnding.returned : AskEnding ε α → Bool
  | .answer (.returned _) => true
  | _ => false

-- one call of a handler: what the engine sees of it, and the asks it made
structure Conduct (α : Type) where
  execution : Execution
  asks : List (AskMade α)

namespace Conduct

def turns (c : Conduct α) : List (Turn AskError) := c.asks.flatMap fun a => a.attempted.turns

def calls (c : Conduct α) : Nat := c.turns.length

def spent (c : Conduct α) : Int :=
  (c.turns.filterMap Turn.tokens).foldl (fun total n => total + n) 0

def corrected (c : Conduct α) : Bool :=
  c.asks.any fun a => a.attempted.ending.returned && decide (0 < a.invalid)

end Conduct

section Asking

variable (parse : PyStr → Except ε (Option α × List FieldFault))

def invalidTurns (turns : List (Turn ε)) : Nat := turns.countP fun t => rejected parse t.call

-- what one `ask` adds to the counters of its context
structure Charged (calls : Nat → Except ε Reply) (n corrections : Nat) (ctx : StepContext)
    (a : Attempted ε α) : Prop where
  provider : a.turns.map Turn.call = (List.range a.turns.length).map fun k => calls (n + k)
  attempts : a.context.attemptCount = ctx.attemptCount + a.turns.length
  tokens : a.context.tokens = ctx.tokens ++ a.turns.filterMap Turn.tokens
  corrections : a.context.corrections = ctx.corrections ++
    if a.ending.returned then [corrections + invalidTurns parse a.turns] else []

variable {parse} {calls : Nat → Except ε Reply} {n corrections : Nat} {ctx : StepContext}
  {a : Attempted ε α} {schemaName prompt current : PyStr} {budget : Int} {stack remaining : Nat}

theorem Charged.after {t : Turn ε} {bump : StepContext} (ht : t.call = calls n)
    (h : Charged parse calls (n + 1) (corrections + if rejected parse t.call then 1 else 0) bump a)
    (hattempts : bump.attemptCount = ctx.attemptCount + 1)
    (htokens : bump.tokens = ctx.tokens ++ t.tokens.toList)
    (hcorrections : bump.corrections = ctx.corrections) :
    Charged parse calls n corrections ctx (a.after t) := by
  refine ⟨?_, ?_, ?_, ?_⟩
  · simp only [Attempted.after, List.map_cons, List.length_cons, h.provider, ht,
      List.range_succ_eq_map, List.map_map, Nat.add_zero]
    congr 2
    funext k
    rw [Function.comp_apply, Nat.succ_eq_add_one, Nat.add_assoc, Nat.add_comm 1 k]
  · simp only [Attempted.after, List.length_cons, h.attempts, hattempts]
    omega
  · simp only [Attempted.after, h.tokens, htokens, List.append_assoc]
    cases ht : t.tokens <;> simp [ht]
  · simp only [Attempted.after, h.corrections, hcorrections, invalidTurns, List.countP_cons]
    congr 3
    omega

theorem Charged.last {t : Turn ε} {ending : AskEnding ε α} {bump : StepContext}
    (ht : t.call = calls n) (hattempts : bump.attemptCount = ctx.attemptCount + 1)
    (htokens : bump.tokens = ctx.tokens ++ t.tokens.toList)
    (hcorrections : bump.corrections = ctx.corrections ++
      if ending.returned then [corrections + invalidTurns parse [t]] else []) :
    Charged parse calls n corrections ctx ⟨[t], ending, bump⟩ := by
  refine ⟨?_, hattempts, ?_, hcorrections⟩
  · rw [List.map_singleton, ht]
    rfl
  · rw [htokens]
    cases ht : t.tokens <;> simp [ht]

theorem raisingAskFrom_charged : Charged parse calls n corrections ctx
    (raisingAskFrom stack parse schemaName budget prompt calls remaining n current corrections
      ctx) := by
  induction remaining generalizing n current corrections ctx with
  | zero => exact ⟨rfl, rfl, (List.append_nil _).symm, (List.append_nil _).symm⟩
  | succ remaining ih =>
    unfold raisingAskFrom
    cases hr : calls n with
    | error e => exact .last hr.symm rfl (List.append_nil _).symm (List.append_nil _).symm
    | ok reply =>
      cases reply with
      | transient exc =>
        have hlast (ending : AskEnding ε α) (hend : ending.returned = false) :
            Charged parse calls n corrections ctx
              ⟨[⟨current, .ok (.transient exc)⟩], ending,
                { ctx with attemptCount := ctx.attemptCount + 1 }⟩ := by
          refine .last hr.symm rfl (List.append_nil _).symm ?_
          simp [hend]
        simp only
        split
        · exact hlast _ rfl
        · split
          · exact hlast _ rfl
          · exact .after hr.symm ih rfl (List.append_nil _).symm rfl
      | completion text tokens =>
        have hlast (ending : AskEnding ε α) (hend : ending.returned = false) :
            Charged parse calls n corrections ctx
              ⟨[⟨current, .ok (.completion text tokens)⟩], ending,
                { ctx with
                  attemptCount := ctx.attemptCount + 1
                  tokens := ctx.tokens ++ [tokens] }⟩ := by
          refine .last hr.symm rfl rfl ?_
          simp [hend]
        simp only
        cases hp : parse text with
        | error e => exact hlast _ rfl
        | ok result =>
          obtain ⟨value, faults⟩ := result
          cases value with
          | some value =>
            refine .last hr.symm rfl rfl ?_
            simp [AskEnding.returned, invalidTurns, rejected, hp]
          | none =>
            simp only
            split
            · exact hlast _ rfl
            · split
              · exact hlast _ rfl
              · have hrejected : rejected parse (.ok (.completion text tokens)) = true := by
                  simp [rejected, hp]
                apply Charged.after hr.symm
                · rw [hrejected]
                  exact ih
                · rfl
                · rfl
                · rfl

end Asking

section Conducting

variable (stack maxDepth : Nat) (float : List Char → PyFloat) (calls : Nat → Except AskError Reply)

def readReply (schema : BaseModel α) (text : PyStr) :
    Except AskError (Option α × List FieldFault) :=
  (parseReply maxDepth float schema text).mapError .reading

-- `calls n` is what the provider does when this step calls it for the n-th time, `made` counts the
-- calls of the asks before
def Handling.conduct : Handling α → Nat → StepContext → Conduct α
  | .done result payload previous, _, ctx =>
      ⟨⟨result, { ctx with payload := payload, previous := previous }⟩, []⟩
  | .ask prompt schema schemaName maxAttempts resume, made, ctx =>
      let parse := readReply maxDepth float schema
      let a := raisingAsk stack parse schemaName ctx prompt maxAttempts fun n => calls (made + n)
      let rest := (resume a.ending a.context).conduct (made + a.turns.length) a.context
      ⟨rest.execution, ⟨a, invalidTurns parse a.turns⟩ :: rest.asks⟩

-- the counters of the context say what the asks of the handler made
structure Conduct.Tallied (made : Nat) (ctx : StepContext) (c : Conduct α) : Prop where
  provider : c.turns.map Turn.call = (List.range c.calls).map fun k => calls (made + 1 + k)
  attempts : c.execution.context.attemptCount = ctx.attemptCount + c.calls
  tokens : c.execution.context.tokens = ctx.tokens ++ c.turns.filterMap Turn.tokens
  healed : c.execution.context.wasHealed = (ctx.wasHealed || c.corrected)

variable {stack maxDepth float calls}

theorem Handling.conduct_tallied (h : Handling α) (made : Nat) (ctx : StepContext) :
    (h.conduct stack maxDepth float calls made ctx).Tallied calls made ctx := by
  induction h generalizing made ctx with
  | done result payload previous =>
    exact ⟨rfl, rfl, (List.append_nil _).symm, (Bool.or_false _).symm⟩
  | ask prompt schema schemaName maxAttempts resume ih =>
    have ha : Charged (readReply maxDepth float schema) (fun n => calls (made + n)) 1 0 ctx
        (raisingAsk stack (readReply maxDepth float schema) schemaName ctx prompt maxAttempts
          fun n => calls (made + n)) := raisingAskFrom_charged
    rw [Handling.conduct]
    generalize raisingAsk stack (readReply maxDepth float schema) schemaName ctx prompt maxAttempts
      (fun n => calls (made + n)) = a at ha
    have hrest := ih a.ending a.context (made + a.turns.length) a.context
    generalize (resume a.ending a.context).conduct stack maxDepth float calls
      (made + a.turns.length)
      a.context = rest at hrest
    have hturns : a.turns ++ rest.turns =
        Conduct.turns ⟨rest.execution, ⟨a, invalidTurns (readReply maxDepth float schema) a.turns⟩ ::
          rest.asks⟩ := rfl
    refine ⟨?_, ?_, ?_, ?_⟩
    · rw [Conduct.calls, ← hturns, List.map_append, ha.provider, hrest.provider, List.length_append,
        List.range_add, List.map_append, List.map_map]
      congr 1
      · simp only [Nat.add_assoc]
      · apply List.map_congr_left
        intro k _
        rw [Function.comp_apply]
        congr 1
        omega
    · rw [Conduct.calls, ← hturns, List.length_append, hrest.attempts, ha.attempts, Nat.add_assoc]
      rfl
    · rw [← hturns, List.filterMap_append, hrest.tokens, ha.tokens, List.append_assoc]
    · rw [hrest.healed, StepContext.wasHealed, ha.corrections, List.any_append, Bool.or_assoc,
        ← StepContext.wasHealed]
      cases hr : a.ending.returned <;> simp [Conduct.corrected, hr]

end Conducting

section Calling

-- a step whose handler was called, and what the handler did
structure Called (α : Type) where
  frame : Frame
  conduct : Conduct α

structure Attributed (r : StepRecord) (c : Called α) : Prop where
  index : r.index = c.frame.index
  name : r.name = c.frame.step.name
  tokens : (r.tokensUsed : Int) = c.conduct.spent
  attempts : r.attempts = max 1 c.conduct.calls
  healed : r.outcome = .healed ↔
    (∃ output, c.conduct.execution.result = .returned output) ∧ c.conduct.corrected = true

def Execution.stored (stack index : Nat) (e : Execution) : Bool :=
  fitsColumns index e.context &&
    match e.result with
    | .returned output => serializable stack output
    | .escalation _ => decide (0 < stack)
    | .exception _ text => decide (0 < stack) && text.isSome
    | .simulatedCrash => false

variable (conducts : String → StepContext → Conduct α) (now : Nat → Datetime)

def handles (name : String) (ctx : StepContext) : Execution := (conducts name ctx).execution

def performs (s : Session) (f : Frame) : Conduct α :=
  if f.step.name ∈ s.call.handlers then conducts f.step.name (f.context s)
  else ⟨⟨noHandler f, f.context s⟩, []⟩

-- the steps `runSteps` calls a handler for, in order
def callsFrom (s : Session) : List Step → Nat → StrDict → Outputs → Tables → List (Called α)
  | [], _, _, _, _ => []
  | step :: rest, index, payload, previous, t =>
      let f : Frame := ⟨index, step, payload, previous⟩
      if s.call.crashAt = some index then []
      else
        let c := performs conducts s f
        ⟨f, c⟩ ::
          match conclude s f c.execution (now index) with
          | .appending _ _ r (.proceed payload previous) =>
              match t.append s.call.stack r with
              | .error _ => []
              | .ok t' => callsFrom s rest (index + 1) payload previous t'
          | _ => []

def callsOf (granted : Bool) (t : Tables) (c : Call) : List (Called α) :=
  match t.load c.runId with
  | none => []
  | some state =>
      if state.status.isTerminal then []
      else
        match assertPlanMatchesHistory c.plan state with
        | .error _ => []
        | .ok _ =>
            if granted then
              match t.setStatus c.runId .running none with
              | .error _ => []
              | .ok t' =>
                  callsFrom conducts now ⟨c, state⟩ (c.plan.steps.drop state.nextIndex)
                    state.nextIndex state.payload (previousOf state) t'
            else []

-- the calls after a step, from the control its handler's return leads to
def callsAfter (rest : List Step) (t : Tables) : Control → List (Called α)
  | .appending s f r (.proceed payload previous) =>
      match t.append s.call.stack r with
      | .error _ => []
      | .ok t' => callsFrom conducts now s rest (f.index + 1) payload previous t'
  | _ => []

variable {conducts now} {s : Session} {f : Frame} {t t' : Tables} {row : RunRow} {e : Execution}

theorem performs_execution :
    (performs conducts s f).execution = execute (handles conducts) s f := by
  unfold performs execute
  split <;> rfl

theorem stepRecord_costs {outcome : StepOutcome} {ctx : StepContext} {output : PyValue}
    {date : Datetime} {r : StepRecord} (h : stepRecord s f outcome ctx output date = .ok r) :
    r.attempts = ctx.attempts ∧ (r.tokensUsed : Int) = ctx.tokensUsed := by
  unfold stepRecord at h
  split at h
  · cases h
  · split at h
    · rename_i hnonneg
      obtain rfl := (Except.ok.inj h).symm
      exact ⟨rfl, Int.toNat_of_nonneg hnonneg⟩
    · cases h

theorem concludeFailure_stored_iff {ctx : StepContext} {date : Datetime} {status : RunStatus}
    {reason : PyStr} {reraise : Option Raised} (hrow : t.runRow s.call.runId = some row) :
    (∃ r after t', concludeFailure s f ctx date status reason reraise = .appending s f r after ∧
      t.append s.call.stack r = .ok t') ↔
        fitsColumns f.index ctx = true ∧ 0 < s.call.stack := by
  have hstored : (∃ r t', stepRecord s f .failed ctx (errorOutput reason) date = .ok r ∧
      t.append s.call.stack r = .ok t') ↔ fitsColumns f.index ctx = true ∧ 0 < s.call.stack := by
    rw [stored_iff hrow, serializable_errorOutput, decide_eq_true_eq]
  rw [← hstored, concludeFailure]
  cases stepRecord s f .failed ctx (errorOutput reason) date <;> simp

theorem conclude_stored_iff {date : Datetime} (hrow : t.runRow s.call.runId = some row) :
    (∃ r after t', conclude s f e date = .appending s f r after ∧
      t.append s.call.stack r = .ok t') ↔ e.stored s.call.stack f.index = true := by
  unfold conclude Execution.stored
  cases e.result with
  | simulatedCrash => simp
  | escalation reason =>
    dsimp only
    rw [Bool.and_eq_true, decide_eq_true_eq]
    exact concludeFailure_stored_iff hrow
  | exception typeName text =>
    cases text with
    | none => simp
    | some text =>
      dsimp only
      rw [Option.isSome_some, Bool.and_true, Bool.and_eq_true, decide_eq_true_eq]
      exact concludeFailure_stored_iff hrow
  | returned output =>
    dsimp only
    rw [Bool.and_eq_true, ← stored_iff hrow]
    cases stepRecord s f (if e.context.wasHealed then .healed else .ok) e.context output date <;>
      simp

structure Charges (s : Session) (f : Frame) (e : Execution) (r : StepRecord) : Prop where
  runId : r.runId = s.call.runId
  index : r.index = f.index
  name : r.name = f.step.name
  attempts : r.attempts = e.context.attempts
  tokens : (r.tokensUsed : Int) = e.context.tokensUsed
  healed : r.outcome = .healed ↔
    (∃ output, e.result = .returned output) ∧ e.context.wasHealed = true

theorem conclude_charges {s' : Session} {f' : Frame} {date : Datetime} {r : StepRecord}
    {after : AfterAppend} (h : conclude s f e date = .appending s' f' r after) :
    Charges s f e r := by
  revert h
  apply conclude_cases (P := fun ctrl => ctrl = .appending s' f' r after → Charges s f e r)
  · intro o h
    cases h
  · intro status reason reraise r' hf hr h
    cases h
    obtain ⟨hid, hindex, hname, houtcome, -⟩ := stepRecord_ok hr
    obtain ⟨hattempts, htokens⟩ := stepRecord_costs hr
    refine ⟨hid, hindex, hname, hattempts, htokens, iff_of_false ?_ ?_⟩
    · rw [houtcome]
      exact nofun
    · rintro ⟨⟨output, he⟩, -⟩
      rw [he] at hf
      cases hf
  · intro output r' he hr h
    cases h
    obtain ⟨hid, hindex, hname, houtcome, -⟩ := stepRecord_ok hr
    obtain ⟨hattempts, htokens⟩ := stepRecord_costs hr
    refine ⟨hid, hindex, hname, hattempts, htokens, ?_⟩
    rw [houtcome, and_iff_right ⟨output, he⟩]
    split <;> simp [*]

structure Conduct.Counted (c : Conduct α) : Prop where
  tokens : c.execution.context.tokensUsed = c.spent
  attempts : c.execution.context.attempts = max 1 c.calls
  healed : c.execution.context.wasHealed = c.corrected

def Called.stored (stack : Nat) (c : Called α) : Bool :=
  c.conduct.execution.stored stack c.frame.index

-- from `t` to `t'` the run gained the checkpoints of the calls that could be stored
structure Billed (call : Call) (t t' : Tables) (calls : List (Called α)) : Prop where
  found : ∃ row, t'.runRow call.runId = some row
  numbered : FirstWriter.Numbered StepRow.stepIndex (t'.rowsOf call.runId)
  rows : ∃ more, t'.rowsOf call.runId = t.rowsOf call.runId ++ more ∧
    List.Forall₂ (fun x c => Attributed (Tables.hydrateStep x) c) more
      (calls.filter (Called.stored call.stack))

theorem Billed.same {call : Call} {calls : List (Called α)}
    (hn : FirstWriter.Numbered StepRow.stepIndex (t.rowsOf call.runId))
    (hrow : ∃ row, t'.runRow call.runId = some row)
    (hrows : t'.rowsOf call.runId = t.rowsOf call.runId)
    (hcalls : calls.filter (Called.stored call.stack) = []) : Billed call t t' calls := by
  refine ⟨hrow, hrows ▸ hn, [], by rw [hrows, List.append_nil], ?_⟩
  rw [hcalls]
  exact .nil

theorem Billed.trans {call : Call} {t₁ t₂ t₃ : Tables} {calls calls' : List (Called α)}
    (h : Billed call t₁ t₂ calls) (h' : Billed call t₂ t₃ calls') :
    Billed call t₁ t₃ (calls ++ calls') := by
  obtain ⟨more, hm, hf⟩ := h.rows
  obtain ⟨more', hm', hf'⟩ := h'.rows
  refine ⟨h'.found, h'.numbered, more ++ more', by rw [hm', hm, List.append_assoc], ?_⟩
  rw [List.filter_append]
  exact List.rel_append hf hf'

theorem Charges.attributed {c : Conduct α} {r : StepRecord} (hc : c.Counted)
    (h : Charges s f c.execution r) : Attributed r ⟨f, c⟩ where
  index := h.index
  name := h.name
  tokens := h.tokens.trans hc.tokens
  attempts := h.attempts.trans hc.attempts
  healed := by rw [h.healed, hc.healed]

theorem rowsOf_appended {r : StepRecord}
    (hn : FirstWriter.Numbered StepRow.stepIndex (t.rowsOf s.call.runId))
    (hlen : (t.rowsOf s.call.runId).length = f.index) (h : Charges s f e r)
    (ha : t.append s.call.stack r = .ok t') :
    ∃ output, t'.rowsOf s.call.runId = t.rowsOf s.call.runId ++ [r.row output] ∧
      FirstWriter.Numbered StepRow.stepIndex (t'.rowsOf s.call.runId) := by
  obtain ⟨output, ho, -, -⟩ := Tables.append_ok ha
  have hindex : (r.row output).stepIndex = (t.rowsOf s.call.runId).length := h.index.trans hlen.symm
  have hrows := Tables.rowsOf_append ha ho s.call.runId
  rw [if_pos h.runId] at hrows
  refine ⟨output, hrows.trans (hn.insert_of_eq hindex), ?_⟩
  rw [hrows]
  exact hn.insert hindex.le

theorem finishRun_billed {status : RunStatus} {error : Option PyStr} {reraise : Option Raised}
    (hn : FirstWriter.Numbered StepRow.stepIndex (t.rowsOf s.call.runId))
    (hrow : t.runRow s.call.runId = some row) :
    Billed s.call t (finishRun t s status error reraise).1 ([] : List (Called α)) := by
  cases hs : t.setStatus s.call.runId status error with
  | error e =>
    rw [finishRun, hs]
    exact .same hn ⟨row, hrow⟩ rfl rfl
  | ok t' =>
    rw [finishRun_fst hs]
    obtain ⟨err, herr, -⟩ := Tables.setStatus_ok hs
    refine .same hn ?_ (Tables.rowsOf_setStatus hs _) rfl
    exact ⟨_, by rw [Tables.runRow_setStatus hs herr, hrow, Option.map_some]⟩

theorem conclude_shape (date : Datetime) : (∃ o, conclude s f e date = .releasing s o) ∨
    ∃ r after, conclude s f e date = .appending s f r after := by
  apply conclude_cases (P := fun ctrl => (∃ o, ctrl = .releasing s o) ∨
    ∃ r after, ctrl = .appending s f r after)
  · exact fun o => .inl ⟨o, rfl⟩
  · exact fun _ _ _ r _ _ => .inr ⟨r, _, rfl⟩
  · exact fun _ r _ _ => .inr ⟨r, _, rfl⟩

theorem conclude_billed {c : Conduct α} {rest : List Step} (hc : c.Counted)
    (hrow : t.runRow s.call.runId = some row)
    (hn : FirstWriter.Numbered StepRow.stepIndex (t.rowsOf s.call.runId))
    (hlen : (t.rowsOf s.call.runId).length = f.index)
    (hrest : ∀ t' payload previous, t'.runRow s.call.runId = some row →
      FirstWriter.Numbered StepRow.stepIndex (t'.rowsOf s.call.runId) →
      (t'.rowsOf s.call.runId).length = f.index + 1 →
      Billed s.call t'
        (runSteps (handles conducts) now s rest (f.index + 1) payload previous t').1
        (callsFrom conducts now s rest (f.index + 1) payload previous t')) :
    Billed s.call t
      (proceedWith (handles conducts) now rest t (conclude s f c.execution (now f.index))).1
      (⟨f, c⟩ :: callsAfter conducts now rest t (conclude s f c.execution (now f.index))) := by
  have hiff : (∃ r after t', conclude s f c.execution (now f.index) = .appending s f r after ∧
      t.append s.call.stack r = .ok t') ↔ c.execution.stored s.call.stack f.index = true :=
        conclude_stored_iff hrow
  have hrefused (hno : ¬ c.execution.stored s.call.stack f.index = true) :
      Billed s.call t t [Called.mk f c] :=
    .same hn ⟨row, hrow⟩ rfl (List.filter_cons_of_neg hno)
  have hshape : (∃ o, conclude s f c.execution (now f.index) = .releasing s o) ∨
      ∃ r after, conclude s f c.execution (now f.index) = .appending s f r after := conclude_shape _
  rcases hshape with ⟨o, ho⟩ | ⟨r, after, hr⟩
  · rw [ho] at hiff ⊢
    exact hrefused fun hst => by simpa using hiff.mpr hst
  · have hcharges := conclude_charges hr
    rw [hr] at hiff ⊢
    cases ha : t.append s.call.stack r with
    | error x =>
      have hno := hrefused fun hst => by simpa [ha] using hiff.mpr hst
      cases after <;> simpa only [proceedWith, callsAfter, ha] using hno
    | ok t' =>
      have hst : (Called.mk f c).stored s.call.stack = true := hiff.mp ⟨r, after, t', rfl, ha⟩
      have hrow' := (Tables.runRow_append ha s.call.runId).trans hrow
      obtain ⟨output, hrows, hn'⟩ := rowsOf_appended hn hlen hcharges ha
      have hone : Billed s.call t t' [Called.mk f c] := by
        have hatt := hcharges.attributed hc
        refine ⟨⟨row, hrow'⟩, hn', [r.row output], hrows, ?_⟩
        rw [List.filter_cons_of_pos hst]
        exact .cons ⟨hatt.index, hatt.name, hatt.tokens, hatt.attempts, hatt.healed⟩ .nil
      cases after with
      | proceed payload previous =>
        simp only [proceedWith, callsAfter, ha]
        refine hone.trans (hrest t' payload previous hrow' hn' ?_)
        rw [hrows, List.length_append, hlen, List.length_singleton]
      | settle status reason reraise =>
        simp only [proceedWith, callsAfter, ha]
        exact hone.trans (finishRun_billed hn' hrow')

theorem callsFrom_cons {step : Step} {rest : List Step} {index : Nat} {payload : StrDict}
    {previous : Outputs}
    (hc : s.call.crashAt ≠ some index) :
    callsFrom conducts now s (step :: rest) index payload previous t =
      ⟨⟨index, step, payload, previous⟩, performs conducts s ⟨index, step, payload, previous⟩⟩ ::
        callsAfter conducts now rest t (conclude s ⟨index, step, payload, previous⟩
          (performs conducts s ⟨index, step, payload, previous⟩).execution (now index)) := by
  simp only [callsFrom, if_neg hc]
  congr 1
  rcases conclude_shape (s := s) (now index) with ⟨o, ho⟩ | ⟨r, after, hr⟩
  · rw [ho]
    rfl
  · rw [hr]
    cases after with
    | proceed p q => cases ha : t.append s.call.stack r <;> simp [callsAfter, ha]
    | settle status reason reraise => rfl

theorem runSteps_billed (hcounted : ∀ f, (performs conducts s f).Counted) (rest : List Step)
    (index : Nat) (payload : StrDict) (previous : Outputs) (hrow : t.runRow s.call.runId = some row)
    (hn : FirstWriter.Numbered StepRow.stepIndex (t.rowsOf s.call.runId))
    (hlen : (t.rowsOf s.call.runId).length = index) :
    Billed s.call t (runSteps (handles conducts) now s rest index payload previous t).1
      (callsFrom conducts now s rest index payload previous t) := by
  induction rest generalizing index payload previous t with
  | nil => exact finishRun_billed hn hrow
  | cons step rest ih =>
    by_cases hc : s.call.crashAt = some index
    · simp only [runSteps, callsFrom, if_pos hc]
      exact .same hn ⟨row, hrow⟩ rfl rfl
    · rw [runSteps_cons (handles conducts) now s step rest index payload previous t hc,
        callsFrom_cons hc, ← performs_execution]
      exact conclude_billed (hcounted _) hrow hn hlen fun t' p q hrow' hn' hlen' =>
        ih (index + 1) p q hrow' hn' hlen'

theorem mem_callsFrom {rest : List Step} {index : Nat} {payload : StrDict} {previous : Outputs}
    {c : Called α}
    (h : c ∈ callsFrom conducts now s rest index payload previous t) :
    c.conduct = performs conducts s c.frame := by
  induction rest generalizing index payload previous t with
  | nil => cases h
  | cons step rest ih =>
    by_cases hc : s.call.crashAt = some index
    · simp only [callsFrom, if_pos hc] at h
      cases h
    · rw [callsFrom_cons hc] at h
      rcases List.mem_cons.mp h with rfl | hmem
      · rfl
      · rcases conclude_shape (s := s) (now index) with ⟨o, ho⟩ | ⟨r, after, hr⟩
        · rw [ho] at hmem
          cases hmem
        · rw [hr] at hmem
          cases after with
          | settle status reason reraise => cases hmem
          | proceed p q =>
            cases ha : t.append s.call.stack r with
            | error x => simp [callsAfter, ha] at hmem
            | ok t' =>
              simp only [callsAfter, ha] at hmem
              exact ih hmem

theorem submitted_row {stack : Nat} {runId : String} {spec : RunSpec} {created : Nat}
    (hw : t.WellFormed) (h : t.insertRun stack runId spec created = .ok t') :
    ∃ row, t'.runRow runId = some row ∧ row.status = .pending ∧ t'.rowsOf runId = [] ∧
      t'.WellFormed := by
  obtain ⟨row, hrow, hpending⟩ := Tables.runRow_inserted h
  obtain ⟨payload, hnone, -, -⟩ := Tables.insertRun_ok h
  refine ⟨row, hrow, hpending, ?_, Tables.insertRun_wellFormed hw h⟩
  rw [Tables.rowsOf_insertRun h, Tables.rowsOf_eq_nil hw hnone]

theorem run_billed {call : Call} (granted : Bool)
    (hcounted : ∀ s f, (performs conducts s f).Counted) (hw : t.WellFormed)
    (hrow : t.runRow call.runId = some row) (hpending : row.status = .pending)
    (hrows : t.rowsOf call.runId = []) :
    Billed call t (run (handles conducts) now granted t call).1
      (callsOf conducts now granted t call) := by
  have hn : FirstWriter.Numbered StepRow.stepIndex (t.rowsOf call.runId) := hrows ▸ .nil
  have hid : row.runId = call.runId := Tables.runRow_runId hrow
  have hsteps : (t.hydrate row).steps = [] := by
    rw [hydrate_steps row (hid ▸ hn), hid, hrows]
    rfl
  have hnext : (t.hydrate row).nextIndex = 0 := by
    rw [RunState.nextIndex, RunState.done, hsteps]
    rfl
  have hload : t.load call.runId = some (t.hydrate row) := by
    rw [Tables.load, hrow, Option.map_some]
  have hactive : row.status.isTerminal = false := hpending ▸ rfl
  have hplan : assertPlanMatchesHistory call.plan (t.hydrate row) = .ok () := by
    rw [assertPlanMatchesHistory_ok, hsteps]
    intro r hr
    cases hr
  have hterm : (t.hydrate row).status.isTerminal = false := hactive
  simp only [run, callsOf, hload, hterm, hplan, Bool.false_eq_true, if_false]
  cases granted with
  | false => exact .same hn ⟨row, hrow⟩ rfl rfl
  | true =>
    obtain ⟨t', hset, hrow'⟩ := setStatus_running hw hrow hactive
    have hrows' := (Tables.rowsOf_setStatus hset call.runId).trans hrows
    simp only [if_true, hset, hnext]
    have hstart : Billed call t t' ([] : List (Called α)) :=
      .same hn ⟨_, hrow'⟩ (hrows'.trans hrows.symm) rfl
    refine hstart.trans (runSteps_billed (s := ⟨call, t.hydrate row⟩) (hcounted _) _ 0 _ _ hrow'
      hstart.numbered ?_)
    exact congrArg List.length hrows'

end Calling

section Claim

def HandlerResult.reported : HandlerResult → Bool
  | .returned _ => true
  | .escalation _ => true
  | .exception _ text => text.isSome
  | .simulatedCrash => false

-- `json.dumps` has stack for the output of the record: the one returned, or the dict of an error
def HandlerResult.shallow (stack : Nat) : HandlerResult → Bool
  | .returned output => (dumps stack output).isSome
  | _ => decide (0 < stack)

-- what the record of a call needs: a result the engine writes down, a total that is not negative,
-- and numbers an INTEGER column holds
def Called.billable (stack : Nat) (c : Called α) : Bool :=
  c.conduct.execution.result.reported && c.conduct.execution.result.shallow stack &&
    decide (0 ≤ c.conduct.spent) &&
    (Tables.bindable c.frame.index && Tables.bindable (max 1 c.conduct.calls) &&
      Tables.bindable c.conduct.spent.toNat)

def spentByRun (calls : List (Called α)) : Int :=
  calls.foldl (fun total c => total + c.conduct.spent) 0

structure CostAttributed (state : RunState) (calls : List (Called α)) : Prop where
  steps : ∀ r ∈ state.steps, ∃ c ∈ calls, Attributed r c
  total : (state.tokensUsed : Int) = spentByRun calls

structure BillableAttributed (stack : Nat) (state : RunState) (calls : List (Called α)) : Prop where
  steps : List.Forall₂ Attributed state.steps (calls.filter (Called.billable stack))
  total : (∀ c ∈ calls, c.billable stack = true) → (state.tokensUsed : Int) = spentByRun calls

variable (stack maxDepth : Nat) (float : List Char → PyFloat)
  (work : String → StepContext → Handling α)
  (provider : Nat → Nat → Except AskError Reply)

-- `provider index n` is what the provider does at the n-th call of the step at `index`
def worked (name : String) (ctx : StepContext) : Conduct α :=
  (work name ctx).conduct stack maxDepth float (provider ctx.index) 0 ctx

def ReturnsJson : Prop :=
  ∀ name ctx output, (worked stack maxDepth float work provider name ctx).execution.result =
    .returned output → isJsonDict output

def workedRun (now : Nat → Datetime) (granted : Bool) (t : Tables) (call : Call) :
    Tables × Outcome :=
  run (handles (worked stack maxDepth float work provider)) now granted t call

def workedCalls (now : Nat → Datetime) (granted : Bool) (t : Tables) (call : Call) :
    List (Called α) :=
  callsOf (worked stack maxDepth float work provider) now granted t call

variable {stack maxDepth float work provider} {s : Session} {f : Frame} {c : Conduct α}

theorem performs_tallied : (performs (worked stack maxDepth float work provider) s f).Tallied
    (provider f.index) 0 (f.context s) := by
  unfold performs
  split
  · exact Handling.conduct_tallied _ 0 _
  · exact ⟨rfl, rfl, (List.append_nil _).symm, (Bool.or_false _).symm⟩

theorem Conduct.Tallied.counted {calls : Nat → Except AskError Reply} {made : Nat}
    (h : c.Tallied calls made (f.context s)) : c.Counted where
  tokens := by
    rw [StepContext.tokensUsed, h.tokens]
    rfl
  attempts := by
    rw [StepContext.attempts, h.attempts]
    congr 1
    exact Nat.zero_add _
  healed := by
    rw [h.healed]
    rfl

theorem serializable_of_isJsonDict {v : PyValue} (h : isJsonDict v) (depth : Nat) :
    serializable depth v = (dumps depth v).isSome := by
  obtain ⟨d, hv, rfl, o, ho, -⟩ := json_dict_round_trip h
  rw [serializable, hv, Option.bind_some, dumps, dumpsObject, toJson_ofStrDict ho, ho,
    Option.filter_some, Option.filter_some]
  by_cases hd : (Json.obj o).depth ≤ depth <;> simp [hd]

theorem stored_eq_billable (depth : Nat) (hc : c.Counted)
    (hjson : ∀ output, c.execution.result = .returned output → isJsonDict output) :
    (Called.mk f c).stored depth = (Called.mk f c).billable depth := by
  have hresult : (match c.execution.result with
      | .returned output => serializable depth output
      | .escalation _ => decide (0 < depth)
      | .exception _ text => decide (0 < depth) && text.isSome
      | .simulatedCrash => false) =
        (c.execution.result.reported && c.execution.result.shallow depth) := by
    cases hr : c.execution.result with
    | returned output => exact serializable_of_isJsonDict (hjson output hr) depth
    | exception typeName text => exact Bool.and_comm _ _
    | _ => rfl
  rw [Called.stored, Execution.stored, hresult, fitsColumns, hc.tokens, hc.attempts]
  exact Bool.and_comm _ _ |>.trans (Bool.and_assoc _ _ _).symm

theorem foldl_attributed {steps : List StepRecord} {calls : List (Called α)}
    (h : List.Forall₂ Attributed steps calls) (total : Nat) :
    ((steps.foldl (fun total r => total + r.tokensUsed) total : Nat) : Int) =
      calls.foldl (fun total c => total + c.conduct.spent) (total : Int) := by
  induction h generalizing total with
  | nil => rfl
  | cons hr _ ih => rw [List.foldl_cons, List.foldl_cons, ih, Int.natCast_add, hr.tokens]

theorem callsOf_performs {conducts : String → StepContext → Conduct α} {now : Nat → Datetime}
    {granted : Bool} {t : Tables} {call : Call} {x : Called α}
    (h : x ∈ callsOf conducts now granted t call) :
    ∃ s, x.conduct = performs conducts s x.frame := by
  unfold callsOf at h
  split at h
  · cases h
  · split at h
    · cases h
    · split at h
      · cases h
      · split at h
        · split at h
          · cases h
          · exact ⟨_, mem_callsFrom h⟩
        · cases h

theorem performs_json (hjson : ReturnsJson stack maxDepth float work provider) (output : PyValue)
    (h : (performs (worked stack maxDepth float work provider) s f).execution.result =
      .returned output) :
    isJsonDict output := by
  unfold performs at h
  split at h
  · exact hjson _ _ output h
  · cases h

theorem billable_of_billed {call : Call} {t t' : Tables} {row : RunRow} {calls : List (Called α)}
    (h : Billed call t t' calls) (hrow : t'.runRow call.runId = some row)
    (hrows : t.rowsOf call.runId = []) (hbillable : calls.filter (Called.stored call.stack) =
      calls.filter (Called.billable call.stack)) :
    BillableAttributed call.stack (t'.hydrate row) calls := by
  have hid : row.runId = call.runId := Tables.runRow_runId hrow
  obtain ⟨more, hmore, hall⟩ := h.rows
  rw [hrows, List.nil_append] at hmore
  have hsteps : List.Forall₂ Attributed (t'.hydrate row).steps
      (calls.filter (Called.billable call.stack)) := by
    rw [hydrate_steps row (hid ▸ h.numbered), hid, hmore, List.forall₂_map_left_iff, ← hbillable]
    exact hall
  refine ⟨hsteps, fun hcalls => ?_⟩
  rw [List.filter_eq_self.mpr hcalls] at hsteps
  exact foldl_attributed hsteps 0

def settles : AskEnding AskError PyValue → StepContext → Handling PyValue
  | .answer (.returned _), ctx => .done (.returned (.dict [])) ctx.payload ctx.previous
  | .answer (.escalation reason), ctx => .done (.escalation reason) ctx.payload ctx.previous
  | _, ctx =>
      .done (.exception (.ofString "ValueError") (some (.ofString ""))) ctx.payload ctx.previous

def asksOnce (_ : String) (_ : StepContext) : Handling PyValue :=
  .ask (.ofString "Return nothing") forbidding (.ofString "Empty") none settles

theorem asksOnce_json : ReturnsJson stack maxDepth float asksOnce provider := by
  have hsettles (ending : AskEnding AskError PyValue) (ctx ctx' : StepContext) (made : Nat)
      (calls : Nat → Except AskError Reply) (output : PyValue)
      (h : ((settles ending ctx).conduct stack maxDepth float calls made ctx').execution.result =
        .returned output) : isJsonDict output := by
    unfold settles at h
    split at h
    · cases h
      exact rfl
    · cases h
    · cases h
  intro name ctx output h
  exact hsettles _ _ _ _ _ output h

def refunds (_ _ : Nat) : Except AskError Reply := .ok (.completion ⟨emptyText⟩ (-5))

theorem negative_total_unattributed :
    ¬ ∀ (α : Type) (stack maxDepth : Nat) (float : List Char → PyFloat)
      (work : String → StepContext → Handling α) (provider : Nat → Nat → Except AskError Reply)
      (now : Nat → Datetime) (t t' : Tables) (spec : RunSpec) (created : Nat) (call : Call),
      t.WellFormed → t.insertRun stack call.runId spec created = .ok t' → call.plan = spec.plan →
      call.crashAt = none → (∀ step ∈ call.plan.steps, step.name ∈ call.handlers) →
      ReturnsJson stack maxDepth float work provider →
      ∃ state, (workedRun stack maxDepth float work provider now true t' call).1.load call.runId =
          some state ∧
        CostAttributed state (workedCalls stack maxDepth float work provider now true t' call) := by
  intro h
  obtain ⟨state, -, hcost⟩ := h PyValue 900 1000 writtenFloat asksOnce refunds (fun _ => epoch)
    Tables.empty freshTables chargeSpec 0 chargeCall Tables.empty_wellFormed rfl rfl rfl (by decide)
    asksOnce_json
  have hspent : spentByRun (workedCalls 900 1000 writtenFloat asksOnce refunds (fun _ => epoch) true
      freshTables chargeCall) = -5 := by decide +kernel
  have htotal := hcost.total
  omega

variable (stack maxDepth float work provider) in
theorem cost_attributed_to_steps (now : Nat → Datetime) (granted : Bool) (t t' : Tables)
    (depth : Nat) (spec : RunSpec) (created : Nat) (call : Call) (hw : t.WellFormed)
    (hsub : t.insertRun depth call.runId spec created = .ok t')
    (hjson : ReturnsJson stack maxDepth float work provider) :
    (∀ c ∈ workedCalls stack maxDepth float work provider now granted t' call,
      c.conduct.turns.map Turn.call =
        (List.range c.conduct.calls).map fun k => provider c.frame.index (k + 1)) ∧
    ∃ state, (workedRun stack maxDepth float work provider now granted t' call).1.load call.runId =
        some state ∧
      BillableAttributed call.stack state
        (workedCalls stack maxDepth float work provider now granted t' call) := by
  have htallied (s : Session) (f : Frame) :
      (performs (worked stack maxDepth float work provider) s f).Tallied (provider f.index) 0
        (f.context s) := performs_tallied
  constructor
  · intro c hc
    obtain ⟨s, hs⟩ := callsOf_performs hc
    rw [hs, (htallied s c.frame).provider]
    simp only [Nat.zero_add, Nat.add_comm]
  · obtain ⟨row, hrow, hpending, hrows, hw'⟩ := submitted_row hw hsub
    have hbilled : Billed call t'
        (workedRun stack maxDepth float work provider now granted t' call).1
        (workedCalls stack maxDepth float work provider now granted t' call) :=
      run_billed granted (fun s f => (htallied s f).counted) hw' hrow hpending hrows
    obtain ⟨row', hrow'⟩ := hbilled.found
    have hbillable : ∀ c ∈ workedCalls stack maxDepth float work provider now granted t' call,
        c.stored call.stack = c.billable call.stack := by
      intro c hc
      obtain ⟨s, hs⟩ := callsOf_performs hc
      have hcounted := (htallied s c.frame).counted
      rw [← hs] at hcounted
      exact stored_eq_billable _ hcounted fun output ho => performs_json hjson output (hs ▸ ho)
    refine ⟨_, ?_, billable_of_billed hbilled hrow' hrows (List.filter_congr hbillable)⟩
    rw [Tables.load, hrow', Option.map_some]

-- a failure and a correction in the first step, an invalid answer and an error in the second
def flaky : Nat → Nat → Except AskError Reply
  | 0, 1 => .ok (.transient (.ofString "timed out"))
  | 0, 2 => .ok (.completion (.ofString "no") 7)
  | 0, _ => .ok (.completion ⟨emptyText⟩ 5)
  | _, 1 => .ok (.completion (.ofString "no") 4)
  | _, _ => .error (.provider (.ofString "RuntimeError") (some (.ofString "no such model")))

theorem cost_attributed_to_steps_flaky :
    ∃ state, (workedRun 900 1000 writtenFloat asksOnce flaky (fun _ => epoch) true freshTables
        chargeCall).1.load "run" = some state ∧
      List.Forall₂ Attributed state.steps (workedCalls 900 1000 writtenFloat asksOnce flaky
        (fun _ => epoch) true freshTables chargeCall) ∧ state.tokensUsed = 16 := by
  obtain ⟨-, state, hload, hcost⟩ := cost_attributed_to_steps 900 1000 writtenFloat asksOnce flaky
    (fun _ => epoch) true Tables.empty freshTables 900 chargeSpec 0 chargeCall
    Tables.empty_wellFormed rfl asksOnce_json
  have hcalls : (workedCalls 900 1000 writtenFloat asksOnce flaky (fun _ => epoch) true freshTables
      chargeCall).all (Called.billable chargeCall.stack) = true := by decide +kernel
  have hspent : spentByRun (workedCalls 900 1000 writtenFloat asksOnce flaky (fun _ => epoch) true
      freshTables chargeCall) = 16 := by decide +kernel
  have hall := List.all_eq_true.mp hcalls
  have htotal := hcost.total hall
  have hsteps := hcost.steps
  rw [List.filter_eq_self.mpr hall] at hsteps
  exact ⟨state, hload, hsteps, by omega⟩

end Claim

end DurableAgent
