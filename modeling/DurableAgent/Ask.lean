import DurableAgent.Engine
import DurableAgent.Prompts

namespace DurableAgent

variable {α : Type}

-- what one call of the provider gives; `text` of a transient failure is `str(exc)`
inductive Reply where
  | completion (text : PyStr) (tokens : Int)
  | transient (text : PyStr)
deriving DecidableEq

inductive AskResult (α : Type) where
  | returned (value : α)
  | escalation (reason : PyStr)
  | overflowError
  | jsonError

structure Exchange where
  prompt : PyStr
  reply : Reply
deriving DecidableEq

structure Asked (α : Type) where
  exchanges : List Exchange
  answer : AskResult α
  context : StepContext

def Asked.after (a : Asked α) (e : Exchange) : Asked α := { a with exchanges := e :: a.exchanges }

def maxCorrectionRounds : Nat := 2

-- `0.05 * (2 ** (attempt - 1))` is computed before `min` sees it, and no float holds 2 ** 1024
def backoffOverflows (attempt : Nat) : Bool := 1024 ≤ attempt - 1

def unavailableReason (attempt : Nat) (exc : PyStr) : PyStr :=
  .concat [.ofString ("provider unavailable after " ++ toString attempt ++ " attempts: "), exc]

def invalidReason (corrections : Nat) (faults : List FieldFault) : PyStr :=
  .concat [.ofString ("schema still invalid after " ++ toString corrections ++ " corrections: "),
    .join (.ofString ", ") (faults.map FieldFault.field)]

def exhaustedReason (budget : Int) : PyStr :=
  .ofString ("exhausted " ++ toString budget ++ " attempts without a valid response")

section Loop

variable (stack : Nat) (parse : PyStr → Option α × List FieldFault) (schemaName : PyStr)
  (budget : Int) (prompt : PyStr) (replies : Nat → Reply)

-- the loop from `attempt` on, `remaining` values of its range still to come
def askFrom : Nat → Nat → PyStr → Nat → StepContext → Asked α
  | 0, _, _, _, ctx => ⟨[], .escalation (exhaustedReason budget), ctx⟩
  | remaining + 1, attempt, current, corrections, ctx =>
      let ctx := { ctx with attemptCount := ctx.attemptCount + 1 }
      let exchange : Exchange := ⟨current, replies attempt⟩
      match replies attempt with
      | .transient exc =>
          if (attempt : Int) = budget then
            ⟨[exchange], .escalation (unavailableReason attempt exc), ctx⟩
          else if backoffOverflows attempt then ⟨[exchange], .overflowError, ctx⟩
          else (askFrom remaining (attempt + 1) current corrections ctx).after exchange
      | .completion text tokens =>
          let ctx := { ctx with tokens := ctx.tokens ++ [tokens] }
          match parse text with
          | (some value, _) =>
              ⟨[exchange], .returned value, { ctx with corrections := ctx.corrections ++ [corrections] }⟩
          | (none, faults) =>
              if maxCorrectionRounds ≤ corrections then
                ⟨[exchange], .escalation (invalidReason corrections faults), ctx⟩
              else
                match buildRetryPrompt stack prompt text faults schemaName with
                | none => ⟨[exchange], .jsonError, ctx⟩
                | some next =>
                    (askFrom remaining (attempt + 1) next (corrections + 1) ctx).after exchange

end Loop

-- `replies n` is what the provider does when it is called for the n-th time in this `ask`, `stack`
-- the nesting `json.dumps` has stack for where a correction is built
def ask (stack : Nat) (parse : PyStr → Option α × List FieldFault) (schemaName : PyStr)
    (ctx : StepContext) (prompt : PyStr) (maxAttempts : Option Int) (replies : Nat → Reply) :
    Asked α :=
  let budget := maxAttempts.getD ctx.maxAttempts
  askFrom stack parse schemaName budget prompt replies budget.toNat 1 prompt 0 ctx

-- the same loop where the provider, or reading the text it gave, raises an error of another kind
section Raising

inductive AskEnding (ε α : Type) where
  | answer (answer : AskResult α)
  | raised (error : ε)

structure Turn (ε : Type) where
  prompt : PyStr
  call : Except ε Reply

structure Attempted (ε α : Type) where
  turns : List (Turn ε)
  ending : AskEnding ε α
  context : StepContext

variable {ε : Type}

def Attempted.after (a : Attempted ε α) (t : Turn ε) : Attempted ε α :=
  { a with turns := t :: a.turns }

section RaisingLoop

variable (stack : Nat) (parse : PyStr → Except ε (Option α × List FieldFault)) (schemaName : PyStr)
  (budget : Int) (prompt : PyStr) (calls : Nat → Except ε Reply)

def raisingAskFrom : Nat → Nat → PyStr → Nat → StepContext → Attempted ε α
  | 0, _, _, _, ctx => ⟨[], .answer (.escalation (exhaustedReason budget)), ctx⟩
  | remaining + 1, attempt, current, corrections, ctx =>
      let ctx := { ctx with attemptCount := ctx.attemptCount + 1 }
      let turn : Turn ε := ⟨current, calls attempt⟩
      match calls attempt with
      | .error e => ⟨[turn], .raised e, ctx⟩
      | .ok (.transient exc) =>
          if (attempt : Int) = budget then
            ⟨[turn], .answer (.escalation (unavailableReason attempt exc)), ctx⟩
          else if backoffOverflows attempt then ⟨[turn], .answer .overflowError, ctx⟩
          else (raisingAskFrom remaining (attempt + 1) current corrections ctx).after turn
      | .ok (.completion text tokens) =>
          let ctx := { ctx with tokens := ctx.tokens ++ [tokens] }
          match parse text with
          | .error e => ⟨[turn], .raised e, ctx⟩
          | .ok (some value, _) =>
              ⟨[turn], .answer (.returned value),
                { ctx with corrections := ctx.corrections ++ [corrections] }⟩
          | .ok (none, faults) =>
              if maxCorrectionRounds ≤ corrections then
                ⟨[turn], .answer (.escalation (invalidReason corrections faults)), ctx⟩
              else
                match buildRetryPrompt stack prompt text faults schemaName with
                | none => ⟨[turn], .answer .jsonError, ctx⟩
                | some next =>
                    (raisingAskFrom remaining (attempt + 1) next (corrections + 1) ctx).after turn

end RaisingLoop

-- `calls n` is what the provider does when it is called for the n-th time in this `ask`
def raisingAsk (stack : Nat) (parse : PyStr → Except ε (Option α × List FieldFault))
    (schemaName : PyStr) (ctx : StepContext) (prompt : PyStr) (maxAttempts : Option Int)
    (calls : Nat → Except ε Reply) : Attempted ε α :=
  let budget := maxAttempts.getD ctx.maxAttempts
  raisingAskFrom stack parse schemaName budget prompt calls budget.toNat 1 prompt 0 ctx

section Embedding

def Exchange.turn (e : Exchange) : Turn ε := ⟨e.prompt, .ok e.reply⟩

def Asked.attempted (a : Asked α) : Attempted ε α :=
  ⟨a.exchanges.map Exchange.turn, .answer a.answer, a.context⟩

variable (stack : Nat) (parse : PyStr → Option α × List FieldFault) (schemaName : PyStr)
  (budget : Int) (prompt : PyStr) (replies : Nat → Reply)

theorem raisingAskFrom_ok (remaining n : Nat) (current : PyStr) (corrections : Nat)
    (ctx : StepContext) :
    raisingAskFrom stack (fun text => (.ok (parse text) : Except ε _)) schemaName budget prompt
        (fun n => .ok (replies n)) remaining n current corrections ctx =
      (askFrom stack parse schemaName budget prompt replies remaining n current corrections
        ctx).attempted := by
  induction remaining generalizing n current corrections ctx with
  | zero => rfl
  | succ remaining ih =>
    rw [raisingAskFrom, askFrom]
    cases replies n with
    | transient exc =>
      simp only
      split
      · rfl
      · split
        · rfl
        · rw [ih]
          rfl
    | completion text tokens =>
      rcases hp : parse text with ⟨value, faults⟩
      cases value with
      | some value => simp only [hp]; rfl
      | none =>
        simp only [hp]
        split
        · rfl
        · cases buildRetryPrompt stack prompt text faults schemaName with
          | none => rfl
          | some next =>
            simp only [ih]
            rfl

theorem raisingAsk_ok (ctx : StepContext) (maxAttempts : Option Int) :
    raisingAsk stack (fun text => (.ok (parse text) : Except ε _)) schemaName ctx prompt maxAttempts
        (fun n => .ok (replies n)) =
      (ask stack parse schemaName ctx prompt maxAttempts replies).attempted :=
  raisingAskFrom_ok stack parse schemaName _ prompt replies _ 1 prompt 0 ctx

end Embedding

section Unblocked

variable (stack : Nat) (parse : PyStr → Except ε (Option α × List FieldFault)) (budget : Int)
  (calls : Nat → Except ε Reply)

def accepted : Except ε Reply → Bool
  | .ok (.completion text _) =>
      match parse text with
      | .ok (some _, _) => true
      | _ => false
  | _ => false

def rejected : Except ε Reply → Bool
  | .ok (.completion text _) =>
      match parse text with
      | .ok (none, _) => true
      | _ => false
  | _ => false

def rejectedCount (n : Nat) : Nat → Nat
  | 0 => 0
  | k + 1 => (if rejected parse (calls n) then 1 else 0) + rejectedCount (n + 1) k

-- a call the loop has no answer to
def blocked (n corrections : Nat) : Except ε Reply → Bool
  | .error _ => true
  | .ok (.transient _) => (n : Int) ≠ budget && backoffOverflows n
  | .ok (.completion text _) =>
      match parse text with
      | .error _ => true
      | .ok (some _, _) => false
      | .ok (none, faults) => decide (corrections < maxCorrectionRounds) &&
          !resendable stack faults

-- every call the loop can get to is one it has an answer to
def Unblocked (remaining n corrections : Nat) : Prop :=
  ∀ k < remaining, (∀ m < k, accepted parse (calls (n + m)) = false) →
    corrections + rejectedCount parse calls n k ≤ maxCorrectionRounds →
    blocked stack parse budget (n + k) (corrections + rejectedCount parse calls n k)
      (calls (n + k)) = false

variable {stack parse budget calls} {schemaName prompt current : PyStr}
  {remaining n corrections : Nat}
  {ctx : StepContext}

theorem unblocked_succ (hc : corrections ≤ maxCorrectionRounds) :
    Unblocked stack parse budget calls (remaining + 1) n corrections ↔
      blocked stack parse budget n corrections (calls n) = false ∧
      (accepted parse (calls n) = false →
        corrections + (if rejected parse (calls n) then 1 else 0) ≤ maxCorrectionRounds →
        Unblocked stack parse budget calls remaining (n + 1)
          (corrections + if rejected parse (calls n) then 1 else 0)) := by
  constructor
  · intro h
    refine ⟨?_, ?_⟩
    · simpa [rejectedCount] using h 0 (Nat.succ_pos _) (by simp) (by simpa [rejectedCount] using hc)
    · intro ha _ k hk hacc hrej
      have hk' := h (k + 1) (Nat.succ_lt_succ hk) ?_ ?_
      · rw [rejectedCount, ← Nat.add_assoc, ← Nat.add_assoc] at hk'
        rwa [Nat.add_assoc n 1 k, Nat.add_comm 1 k, ← Nat.add_assoc]
      · intro m hm
        cases m with
        | zero => exact ha
        | succ m =>
          have := hacc m (Nat.lt_of_succ_lt_succ hm)
          rwa [Nat.add_assoc, Nat.add_comm 1 m] at this
      · rwa [rejectedCount, ← Nat.add_assoc]
  · rintro ⟨hs, h⟩ k hk hacc hrej
    cases k with
    | zero => simpa [rejectedCount] using hs
    | succ k =>
      rw [rejectedCount, ← Nat.add_assoc corrections] at hrej ⊢
      have hk' := h (by simpa using hacc 0 (Nat.succ_pos _)) (by omega) k (Nat.lt_of_succ_lt_succ hk)
        ?_ hrej
      · rwa [Nat.add_assoc n 1 k, Nat.add_comm 1 k] at hk'
      · intro m hm
        have := hacc (m + 1) (Nat.succ_lt_succ hm)
        rwa [Nat.add_assoc, Nat.add_comm 1 m]

def AskEnding.Answered : AskEnding ε α → Prop
  | .answer (.returned _) => True
  | .answer (.escalation _) => True
  | _ => False

theorem raisingAskFrom_answers_iff (hb : (n : Int) + remaining = budget + 1)
    (hc : corrections ≤ maxCorrectionRounds) :
    (raisingAskFrom stack parse schemaName budget prompt calls remaining n current corrections
        ctx).ending.Answered ↔ Unblocked stack parse budget calls remaining n corrections := by
  induction remaining generalizing n current corrections ctx with
  | zero => exact iff_of_true trivial fun k hk => absurd hk (Nat.not_lt_zero k)
  | succ remaining ih =>
    rw [unblocked_succ hc]
    have hb' : ((n + 1 : Nat) : Int) + remaining = budget + 1 := by omega
    unfold raisingAskFrom
    cases hr : calls n with
    | error e => exact iff_of_false id fun h => Bool.noConfusion h.1
    | ok reply =>
      cases reply with
      | transient exc =>
        simp only [accepted, rejected, blocked, Bool.false_eq_true, if_false, Nat.add_zero]
        split
        · rename_i heq
          refine iff_of_true trivial ⟨by simp [heq], fun _ _ k hk => ?_⟩
          omega
        · rename_i hne
          split
          · rename_i ho
            exact iff_of_false id fun h => by simp [hne, ho] at h
          · rename_i ho
            simp only [Attempted.after, ih hb' hc]
            simp [hne, ho, hc]
      | completion text tokens =>
        obtain ⟨result, hp⟩ : ∃ result, parse text = result := ⟨_, rfl⟩
        simp only [accepted, rejected, blocked, hp]
        cases result with
        | error e => exact iff_of_false id fun h => Bool.noConfusion h.1
        | ok result =>
          obtain ⟨value, faults⟩ := result
          cases value with
          | some value => exact iff_of_true trivial ⟨rfl, fun h => Bool.noConfusion h⟩
          | none =>
            simp only [if_true]
            split
            · rename_i hge
              refine iff_of_true trivial ⟨by simp [Nat.not_lt.mpr hge], fun _ h => ?_⟩
              omega
            · rename_i hlt
              have hsome := buildRetryPrompt_isSome stack prompt text faults schemaName
              split
              · rename_i hn
                rw [hn, Option.isSome_none] at hsome
                exact iff_of_false id fun h => by simp [← hsome, Nat.lt_of_not_le hlt] at h
              · rename_i next hn
                rw [hn, Option.isSome_some] at hsome
                have hlt' : corrections + 1 ≤ maxCorrectionRounds := Nat.lt_of_not_le hlt
                simp only [Attempted.after, ih hb' hlt']
                simp [← hsome, hlt']

theorem raisingAsk_answers_iff (stack : Nat) (parse : PyStr → Except ε (Option α × List FieldFault))
    (schemaName prompt : PyStr) (ctx : StepContext) (maxAttempts : Option Int)
    (calls : Nat → Except ε Reply) :
    (raisingAsk stack parse schemaName ctx prompt maxAttempts calls).ending.Answered ↔
      Unblocked stack parse (maxAttempts.getD ctx.maxAttempts) calls
        (maxAttempts.getD ctx.maxAttempts).toNat 1 0 := by
  simp only [raisingAsk]
  rcases Int.lt_or_le (maxAttempts.getD ctx.maxAttempts) 0 with hneg | hpos
  · rw [Int.toNat_of_nonpos (Int.le_of_lt hneg)]
    exact iff_of_true trivial fun k hk => absurd hk (Nat.not_lt_zero k)
  · apply raisingAskFrom_answers_iff
    · rw [Int.toNat_of_nonneg hpos]
      exact Int.add_comm _ _
    · exact Nat.zero_le _

end Unblocked

end Raising

section Contract

variable (stack : Nat) (parse : PyStr → Option α × List FieldFault) (schemaName : PyStr)
  (budget : Int) (prompt : PyStr) (replies : Nat → Reply)

def accepts : Reply → Bool
  | .completion text _ => (parse text).1.isSome
  | .transient _ => false

def rejects : Reply → Bool
  | .completion text _ => (parse text).1.isNone
  | .transient _ => false

def rejections (attempt : Nat) : Nat → Nat
  | 0 => 0
  | k + 1 => (if rejects parse (replies attempt) then 1 else 0) + rejections (attempt + 1) k

-- a reply the loop has no answer to: it escapes `ask` as an error of another kind
def stuck (attempt corrections : Nat) : Reply → Bool
  | .transient _ => (attempt : Int) ≠ budget && backoffOverflows attempt
  | .completion text _ => (parse text).1.isNone && decide (corrections < maxCorrectionRounds) &&
      !(resendable stack (parse text).2)

def NextPrompt (e e' : Exchange) : Prop :=
  match e.reply with
  | .transient _ => e'.prompt = e.prompt
  | .completion text _ => (parse text).1 = none ∧
      buildRetryPrompt stack prompt text (parse text).2 schemaName = some e'.prompt

structure AskContract (a : Asked α) : Prop where
  bounded : (a.exchanges.length : Int) ≤ max budget 0
  provider : ∀ k e, a.exchanges[k]? = some e → e.reply = replies (k + 1)
  value : ∀ v, a.answer = .returned v → ∃ e text tokens faults, a.exchanges.getLast? = some e ∧
    e.reply = .completion text tokens ∧ parse text = (some v, faults)
  otherwise : (∃ v, a.answer = .returned v) ∨ ∃ reason, a.answer = .escalation reason
  corrected : (a.exchanges.filter fun e => rejects parse e.reply).length ≤ maxCorrectionRounds + 1
  first : ∀ e, a.exchanges.head? = some e → e.prompt = prompt
  prompts : a.exchanges.IsChain (NextPrompt stack parse schemaName prompt)

-- every reply the loop can get to is one it has an answer to
def Clear (remaining attempt corrections : Nat) : Prop :=
  ∀ k < remaining, (∀ m < k, accepts parse (replies (attempt + m)) = false) →
    corrections + rejections parse replies attempt k ≤ maxCorrectionRounds →
    stuck stack parse budget (attempt + k) (corrections + rejections parse replies attempt k)
      (replies (attempt + k)) = false

structure LoopSound (remaining attempt : Nat) (current : PyStr) (corrections : Nat) (a : Asked α) :
    Prop where
  bounded : a.exchanges.length ≤ remaining
  provider : ∀ k e, a.exchanges[k]? = some e → e.reply = replies (attempt + k)
  value : ∀ v, a.answer = .returned v → ∃ e text tokens faults, a.exchanges.getLast? = some e ∧
    e.reply = .completion text tokens ∧ parse text = (some v, faults)
  corrected : (a.exchanges.filter fun e => rejects parse e.reply).length + corrections ≤
    maxCorrectionRounds + 1
  first : ∀ e, a.exchanges.head? = some e → e.prompt = current
  prompts : a.exchanges.IsChain (NextPrompt stack parse schemaName prompt)

end Contract

section Sound

variable {stack : Nat} {parse : PyStr → Option α × List FieldFault} {schemaName : PyStr}
  {budget : Int}
  {prompt : PyStr} {replies : Nat → Reply} {remaining attempt corrections : Nat}
  {current : PyStr} {ctx : StepContext} {a : Asked α}

theorem LoopSound.last {answer : AskResult α} (hc : corrections ≤ maxCorrectionRounds)
    (hv : ∀ v, answer = .returned v → ∃ text tokens faults,
      replies attempt = .completion text tokens ∧ parse text = (some v, faults)) :
    LoopSound stack parse schemaName prompt replies (remaining + 1) attempt current corrections
      ⟨[⟨current, replies attempt⟩], answer, ctx⟩ := by
  refine ⟨?_, ?_, ?_, ?_, ?_, ?_⟩
  · simp
  · intro k e he
    cases k with
    | zero => simpa using congrArg Exchange.reply (Option.some.inj he).symm
    | succ k => cases he
  · intro v hr
    obtain ⟨text, tokens, faults, hrep, hp⟩ := hv v hr
    exact ⟨_, text, tokens, faults, rfl, hrep, hp⟩
  · have h := List.length_filter_le (fun e : Exchange => rejects parse e.reply)
      [⟨current, replies attempt⟩]
    simp only [List.length_singleton] at h
    simp only at *
    omega
  · intro e he
    exact (Option.some.inj he) ▸ rfl
  · exact .singleton _

theorem LoopSound.after (next : PyStr)
    (h : LoopSound stack parse schemaName prompt replies remaining (attempt + 1) next
      (corrections + if rejects parse (replies attempt) then 1 else 0) a)
    (hf : ∀ e', e'.prompt = next →
      NextPrompt stack parse schemaName prompt ⟨current, replies attempt⟩ e') :
    LoopSound stack parse schemaName prompt replies (remaining + 1) attempt current corrections
      (a.after ⟨current, replies attempt⟩) := by
  refine ⟨?_, ?_, ?_, ?_, ?_, ?_⟩
  · have hb := h.bounded
    simp only [Asked.after, List.length_cons]
    omega
  · intro k e he
    cases k with
    | zero => simpa using congrArg Exchange.reply (Option.some.inj he).symm
    | succ k =>
      have hp := h.provider k e (by simpa [Asked.after] using he)
      rwa [Nat.add_assoc, Nat.add_comm 1 k] at hp
  · intro v hr
    obtain ⟨e, text, tokens, faults, hl, hrep, hp⟩ := h.value v hr
    refine ⟨e, text, tokens, faults, ?_, hrep, hp⟩
    rw [Asked.after, List.getLast?_cons, hl, Option.getD_some]
  · have hc := h.corrected
    cases hr : rejects parse (replies attempt) <;> simp [Asked.after, hr] at hc ⊢ <;> omega
  · intro e he
    exact (Option.some.inj he) ▸ rfl
  · have hp := h.prompts
    have hfirst := h.first
    simp only [Asked.after]
    cases hx : a.exchanges with
    | nil => exact .singleton _
    | cons e' rest =>
      rw [hx] at hp hfirst
      exact .cons_cons (hf e' (hfirst e' rfl)) hp

theorem askFrom_sound (hc : corrections ≤ maxCorrectionRounds) :
    LoopSound stack parse schemaName prompt replies remaining attempt current corrections
      (askFrom stack parse schemaName budget prompt replies remaining attempt current corrections
        ctx) := by
  induction remaining generalizing attempt current corrections ctx with
  | zero =>
    refine ⟨le_rfl, ?_, ?_, ?_, ?_, .nil⟩
    · intro k e he
      cases he
    · intro v hr
      cases hr
    · exact (Nat.zero_add corrections).trans_le (Nat.le_succ_of_le hc)
    · intro e he
      cases he
  | succ remaining ih =>
    unfold askFrom
    cases hr : replies attempt with
    | transient exc =>
      simp only
      split
      · rw [← hr]
        exact .last hc (by simp)
      · split
        · rw [← hr]
          exact .last hc (by simp)
        · rw [← hr]
          refine .after current ?_ ?_
          · rw [hr]
            exact ih hc
          · intro e' he'
            rw [hr]
            exact he'
    | completion text tokens =>
      simp only
      split
      · rename_i v faults hp
        rw [← hr]
        refine .last hc ?_
        intro v' hv
        obtain rfl := AskResult.returned.inj hv
        exact ⟨text, tokens, faults, hr, hp⟩
      · rename_i faults hp
        split
        · rw [← hr]
          exact .last hc (by simp)
        · rename_i hlt
          split
          · rw [← hr]
            exact .last hc (by simp)
          · rename_i next hn
            rw [← hr]
            refine .after next ?_ ?_
            · rw [hr, show rejects parse (.completion text tokens) = true by simp [rejects, hp]]
              exact ih (Nat.lt_of_not_le hlt)
            · intro e' he'
              rw [hr]
              exact ⟨by rw [hp], by rw [hp, hn, he']⟩

theorem rejectedCount_ok {ε : Type} (k : Nat) :
    rejectedCount (fun text => (.ok (parse text) : Except ε _)) (fun n => .ok (replies n)) attempt k =
      rejections parse replies attempt k := by
  have hcall (r : Reply) :
      rejected (fun text => (.ok (parse text) : Except ε _)) (.ok r) = rejects parse r := by
    cases r with
    | transient exc => rfl
    | completion text tokens =>
      rcases hp : parse text with ⟨value, faults⟩
      cases value <;> simp [rejected, rejects, hp]
  induction k generalizing attempt with
  | zero => rfl
  | succ k ih => rw [rejectedCount, rejections, ih, hcall]

theorem unblocked_ok {ε : Type} :
    Unblocked stack (fun text => (.ok (parse text) : Except ε _)) budget
      (fun n => .ok (replies n)) remaining
      attempt corrections ↔ Clear stack parse budget replies remaining attempt corrections := by
  have haccepted (r : Reply) :
      accepted (fun text => (.ok (parse text) : Except ε _)) (.ok r) = accepts parse r := by
    cases r with
    | transient exc => rfl
    | completion text tokens =>
      rcases hp : parse text with ⟨value, faults⟩
      cases value <;> simp [accepted, accepts, hp]
  have hblocked (n c : Nat) (r : Reply) :
      blocked stack (fun text => (.ok (parse text) : Except ε _)) budget n c (.ok r) =
        stuck stack parse budget n c r := by
    cases r with
    | transient exc => rfl
    | completion text tokens =>
      rcases hp : parse text with ⟨value, faults⟩
      cases value <;> simp [blocked, stuck, hp]
  simp only [Unblocked, Clear, rejectedCount_ok, haccepted, hblocked]

end Sound

theorem answered_attempted {ε : Type} (a : Asked α) : (a.attempted : Attempted ε α).ending.Answered ↔
    (∃ v, a.answer = .returned v) ∨ ∃ reason, a.answer = .escalation reason := by
  obtain ⟨exchanges, answer, context⟩ := a
  cases answer <;> simp [Asked.attempted, AskEnding.Answered]

theorem ask_answers_iff (stack : Nat) (parse : PyStr → Option α × List FieldFault)
    (schemaName prompt : PyStr) (ctx : StepContext) (maxAttempts : Option Int)
    (replies : Nat → Reply) :
    ((∃ v, (ask stack parse schemaName ctx prompt maxAttempts replies).answer = .returned v) ∨
      ∃ reason, (ask stack parse schemaName ctx prompt maxAttempts replies).answer =
        .escalation reason) ↔
      Clear stack parse (maxAttempts.getD ctx.maxAttempts) replies
        (maxAttempts.getD ctx.maxAttempts).toNat 1 0 := by
  have h := raisingAsk_answers_iff stack (fun text => (.ok (parse text) : Except Empty _))
    schemaName
    prompt ctx maxAttempts fun n => .ok (replies n)
  rw [raisingAsk_ok, answered_attempted, unblocked_ok] at h
  exact h

section Claim

def alwaysUnavailable (_ : Nat) : Reply := .transient (.ofString "connection reset by peer")

theorem long_outage_overflows :
    ¬ ∀ (stack : Nat) (parse : PyStr → Option Unit × List FieldFault) (schemaName prompt : PyStr)
      (ctx : StepContext) (maxAttempts : Option Int) (replies : Nat → Reply),
      AskContract stack parse schemaName (maxAttempts.getD ctx.maxAttempts) prompt replies
        (ask stack parse schemaName ctx prompt maxAttempts replies) := by
  intro h
  have hc := h 900 (fun _ => (none, [])) (.ofString "Decision") (.ofString "Assess")
    ⟨"run", 0, [], [], 3, [], [], 0⟩ (some 1026) alwaysUnavailable
  have hclear := (ask_answers_iff _ _ _ _ _ _ _).mp hc.otherwise
  have hrej : rejections (fun _ => (none, []) : PyStr → Option Unit × List FieldFault)
      alwaysUnavailable 1 1024 ≤ maxCorrectionRounds := by decide +kernel
  have hstuck := hclear 1024 (by decide) (fun _ _ => rfl) (by simpa using hrej)
  exact absurd hstuck (by simp [stuck, alwaysUnavailable, backoffOverflows])

theorem ask_contract_iff (stack : Nat) (parse : PyStr → Option α × List FieldFault)
    (schemaName prompt : PyStr) (ctx : StepContext) (maxAttempts : Option Int)
    (replies : Nat → Reply) :
    AskContract stack parse schemaName (maxAttempts.getD ctx.maxAttempts) prompt replies
        (ask stack parse schemaName ctx prompt maxAttempts replies) ↔
      Clear stack parse (maxAttempts.getD ctx.maxAttempts) replies
        (maxAttempts.getD ctx.maxAttempts).toNat 1 0 := by
  have hs : LoopSound stack parse schemaName prompt replies
      (maxAttempts.getD ctx.maxAttempts).toNat 1 prompt 0
      (ask stack parse schemaName ctx prompt maxAttempts replies) := askFrom_sound (Nat.zero_le _)
  have ha := ask_answers_iff stack parse schemaName prompt ctx maxAttempts replies
  constructor
  · exact fun h => ha.mp h.otherwise
  · intro h
    refine ⟨?_, ?_, hs.value, ha.mpr h, ?_, hs.first, hs.prompts⟩
    · have hb := hs.bounded
      omega
    · intro k e he
      rw [hs.provider k e he, Nat.add_comm]
    · exact (Nat.add_zero _).ge.trans hs.corrected

end Claim

end DurableAgent
