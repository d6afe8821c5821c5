import DurableAgent.Documents
import Mathlib.Data.List.Infix

namespace DurableAgent

open Decoder

variable {α σ ε ρ : Type}

structure Completion where
  text : PyStr
  tokensIn : Int
  tokensOut : Int

def Completion.tokens (c : Completion) : Int := c.tokensIn + c.tokensOut

def estimateTokens (text : PyStr) : Int := max 1 ((text.chars.length / 4 : Nat) : Int)

inductive ProviderError where
  | providerTimeout (message : PyStr)
  | providerUnavailable (message : PyStr)

def Completion.reply (c : Completion) : Reply := .completion c.text c.tokens

-- both are `TRANSIENT`
def ProviderError.reply : ProviderError → Reply
  | .providerTimeout message => .transient message
  | .providerUnavailable message => .transient message

-- the text of `json.dumps`, `none` where it refuses the value
def dumpsText (stack : Nat) (v : PyValue) : Option PyStr :=
  (dumps stack v).map fun j => ⟨j.written asciiEscape⟩

def completes (body prompt : PyStr) : Completion :=
  ⟨body, estimateTokens prompt, estimateTokens body⟩

-- `unserializable` is the error of `json.dumps`
def answerReply (stack : Nat) (unserializable : ε) (answer : StrDict) (prompt : PyStr) :
    Except ε Reply :=
  match dumpsText stack (ofStrDict answer) with
  | none => .error unserializable
  | some body => .ok (completes body prompt).reply

theorem answerReply_of_dumped {stack : Nat} {unserializable : ε} {answer : StrDict} {body : PyStr}
    (h : dumpsText stack (ofStrDict answer) = some body) (prompt : PyStr) :
    answerReply stack unserializable answer prompt = .ok (completes body prompt).reply := by
  rw [answerReply, h]

def defaultAnswer : StrDict :=
  [(.ofString "decision", .str (.ofString "approve")),
    (.ofString "confidence", .float (.finite "0.91"))]

-- `answer or default`
def answerOr : Option StrDict → StrDict
  | some (kv :: answer) => kv :: answer
  | _ => defaultAnswer

structure MockProvider where
  answer : StrDict
  calls : Nat

namespace MockProvider

def init (answer : Option StrDict) : MockProvider := ⟨answerOr answer, 0⟩

def complete (stack : Nat) (unserializable : ε) (p : MockProvider) (prompt : PyStr) :
    Except ε Reply × MockProvider :=
  (answerReply stack unserializable p.answer prompt, { p with calls := p.calls + 1 })

end MockProvider

inductive FailureMode where
  | notJson
  | badSchema
  | timeout
  | unavailable
deriving DecidableEq, Repr

-- `random.Random`, for one failure rate
structure Random (ρ : Type) where
  fails : ρ → Bool × ρ
  choice : ρ → List FailureMode → FailureMode × ρ

structure ChaosProvider (ρ : Type) where
  rng : ρ
  answer : StrDict
  modes : List FailureMode
  healAfter : Int
  calls : Nat
  failures : List FailureMode

def notJsonBody : PyStr := .concat
  [.ofString "Sure! Here's the result:\n\n\x60\x60\x60json\n\x7b decision: approve, \x7d\n\x60\x60\x60\n",
    .ofString "Let me know if you need anything else."]

def badSchemaAnswer : StrDict :=
  [(.ofString "decision", .str (.ofString "approve")),
    (.ofString "confidence", .str (.ofString "very high"))]

def badSchemaBody : PyStr :=
  .ofString "\x7b\"decision\": \"approve\", \"confidence\": \"very high\"\x7d"

namespace ChaosProvider

def allModes : List FailureMode := [.notJson, .badSchema, .timeout, .unavailable]

def init (rng : ρ) (answer : Option StrDict) (modes : Option (List FailureMode))
    (healAfter : Int) : ChaosProvider ρ where
  rng := rng
  answer := answerOr answer
  modes := if modes.getD [] = [] then allModes else modes.getD []
  healAfter := healAfter
  calls := 0
  failures := []

def correcting (prompt : PyStr) : Bool :=
  prompt.chars.tails.any fun cs => (PyStr.ofString "CORRECTION").chars.isPrefixOf cs

def complete (random : Random ρ) (stack : Nat) (unserializable : ε) (p : ChaosProvider ρ)
    (prompt : PyStr) : Except ε Reply × ChaosProvider ρ :=
  let p := { p with calls := p.calls + 1 }
  if correcting prompt ∧ p.healAfter ≤ p.failures.length then
    (answerReply stack unserializable p.answer prompt, p)
  else
    let drawn := random.fails p.rng
    let p := { p with rng := drawn.2 }
    if drawn.1 then
      let mode := random.choice p.rng p.modes
      let p := { p with rng := mode.2, failures := p.failures ++ [mode.1] }
      match mode.1 with
      | .timeout =>
          (.ok (ProviderError.providerTimeout (.ofString "provider exceeded the deadline")).reply, p)
      | .unavailable =>
          (.ok (ProviderError.providerUnavailable (.ofString "connection reset by peer")).reply, p)
      | .notJson => (.ok (completes notJsonBody prompt).reply, p)
      | .badSchema => (answerReply stack unserializable badSchemaAnswer prompt, p)
    else (answerReply stack unserializable p.answer prompt, p)

end ChaosProvider

section Asking

variable (complete : σ → PyStr → Except ε Reply × σ) (stack : Nat)
  (parse : PyStr → Except ε (Option α × List FieldFault)) (schemaName : PyStr) (budget : Int)
  (prompt : PyStr)

-- the loop of `ask` over a provider that is an object: it changes as it is called
def askWithFrom : Nat → Nat → PyStr → Nat → StepContext → σ → Attempted ε α × σ
  | 0, _, _, _, ctx, s => (⟨[], .answer (.escalation (exhaustedReason budget)), ctx⟩, s)
  | remaining + 1, attempt, current, corrections, ctx, s =>
      let called := complete s current
      match
        askTurn stack parse schemaName prompt budget attempt current corrections ctx called.1 with
      | .ends ending ctx => (⟨[⟨current, called.1⟩], ending, ctx⟩, called.2)
      | .sends next corrections ctx =>
          let rest := askWithFrom remaining (attempt + 1) next corrections ctx called.2
          (rest.1.after ⟨current, called.1⟩, rest.2)

def askWith (ctx : StepContext) (maxAttempts : Option Int) (s : σ) : Attempted ε α × σ :=
  let budget := maxAttempts.getD ctx.maxAttempts
  askWithFrom complete stack parse schemaName budget prompt budget.toNat 1 prompt 0 ctx s

-- the object gave these turns, one call after another
inductive Served : σ → List (Turn ε) → σ → Prop
  | nil {s : σ} : Served s [] s
  | cons {s s' : σ} {t : Turn ε} {turns : List (Turn ε)}
      (h : Served (complete s t.prompt).2 turns s') (ht : (complete s t.prompt).1 = t.call) :
      Served s (t :: turns) s'

-- what the object has become after these turns
def providerAfter (s : σ) (turns : List (Turn ε)) : σ :=
  turns.foldl (fun s t => (complete s t.prompt).2) s

end Asking

section Replay

variable {complete : σ → PyStr → Except ε Reply × σ} {stack : Nat}
  {parse : PyStr → Except ε (Option α × List FieldFault)} {schemaName : PyStr} {budget : Int}
  {prompt : PyStr}

theorem raisingAskFrom_congr {calls calls' : Nat → Except ε Reply} {remaining attempt : Nat}
    (h : ∀ n, attempt ≤ n → calls n = calls' n) (current : PyStr) (corrections : Nat)
    (ctx : StepContext) :
    raisingAskFrom stack parse schemaName budget prompt calls remaining attempt current
        corrections ctx =
      raisingAskFrom stack parse schemaName budget prompt calls' remaining attempt current
        corrections ctx := by
  induction remaining generalizing attempt current corrections ctx with
  | zero => rfl
  | succ remaining ih =>
    have hrest := ih fun n hn => h n (Nat.le_of_succ_le hn)
    simp only [raisingAskFrom, h attempt (Nat.le_refl _), hrest]

variable (complete stack parse schemaName budget prompt)

theorem askWithFrom_served (remaining attempt : Nat) (current : PyStr) (corrections : Nat)
    (ctx : StepContext) (s : σ) :
    Served complete s
      (askWithFrom complete stack parse schemaName budget prompt remaining attempt current
        corrections ctx s).1.turns
      (askWithFrom complete stack parse schemaName budget prompt remaining attempt current
        corrections ctx s).2 := by
  induction remaining generalizing attempt current corrections ctx s with
  | zero => exact .nil
  | succ remaining ih =>
    simp only [askWithFrom]
    cases askTurn stack parse schemaName prompt budget attempt current corrections ctx
        (complete s current).1 with
    | ends ending ctx' => exact .cons .nil rfl
    | sends next corrections' ctx' => exact .cons (ih _ _ _ _ _) rfl

-- an object that changes is, in one `ask`, some sequence of replies
theorem askWithFrom_replays (remaining attempt : Nat) (current : PyStr) (corrections : Nat)
    (ctx : StepContext) (s : σ) :
    ∃ calls : Nat → Except ε Reply,
      (askWithFrom complete stack parse schemaName budget prompt remaining attempt current
        corrections ctx s).1 =
      raisingAskFrom stack parse schemaName budget prompt calls remaining attempt current
        corrections ctx := by
  induction remaining generalizing attempt current corrections ctx s with
  | zero => exact ⟨fun _ => .ok (.transient (.ofString "")), rfl⟩
  | succ remaining ih =>
    simp only [askWithFrom]
    cases hled : askTurn stack parse schemaName prompt budget attempt current corrections ctx
        (complete s current).1 with
    | ends ending ctx' =>
      refine ⟨fun _ => (complete s current).1, ?_⟩
      rw [raisingAskFrom_succ, hled]
      rfl
    | sends next corrections' ctx' =>
      obtain ⟨calls, h⟩ := ih (attempt + 1) next corrections' ctx' (complete s current).2
      let calls' : Nat → Except ε Reply :=
        fun n => if n = attempt then (complete s current).1 else calls n
      have hnow : calls' attempt = (complete s current).1 := if_pos rfl
      have hlater : ∀ n, attempt + 1 ≤ n → calls' n = calls n := fun n hn => if_neg (by omega)
      refine ⟨calls', ?_⟩
      rw [raisingAskFrom_succ, hnow, hled, Led.attempted, raisingAskFrom_congr hlater, ← h]

variable {complete stack parse schemaName budget prompt}

theorem Served.getElem {s s' : σ} {turns : List (Turn ε)} (h : Served complete s turns s') {k : Nat}
    {t : Turn ε} (ht : turns[k]? = some t) :
    (complete (providerAfter complete s (turns.take k)) t.prompt).1 = t.call := by
  induction h generalizing k with
  | nil => cases ht
  | @cons s s' u turns _ hu ih =>
    cases k with
    | zero =>
      obtain rfl := Option.some.inj ht
      exact hu
    | succ k => exact ih ht

theorem providerAfter_succ (s : σ) {turns : List (Turn ε)} {k : Nat} {t : Turn ε}
    (ht : turns[k]? = some t) :
    providerAfter complete s (turns.take (k + 1)) =
      (complete (providerAfter complete s (turns.take k)) t.prompt).2 := by
  rw [providerAfter, List.take_add_one, List.foldl_append, ht]
  rfl

end Replay

section Mock

variable {stack maxDepth : Nat} {float : List Char → PyFloat}

-- the baseline: the first call is the last
theorem mock_answers_first {schema : BaseModel α} {j : Json} {a : α} (p : MockProvider)
    (unserializable : ReadError) (schemaName prompt : PyStr) (ctx : StepContext)
    (maxAttempts : Option Int) (hbudget : 0 < maxAttempts.getD ctx.maxAttempts)
    (hj : dumps stack (ofStrDict p.answer) = some j) (hdepth : j.depth ≤ maxDepth)
    (hfloats : ReadFloats float j.floats)
    (htolerated : Tolerated maxDepth float (j.written asciiEscape))
    (ha : schema.validate (loads j) = .ok a) :
    (askWith (MockProvider.complete stack unserializable) stack (parseReply maxDepth float schema)
        schemaName prompt ctx maxAttempts p).1.ending = .answer (.returned a) ∧
      (askWith (MockProvider.complete stack unserializable) stack (parseReply maxDepth float schema)
        schemaName prompt ctx maxAttempts p).2.calls = p.calls + 1 := by
  have hbody : dumpsText stack (ofStrDict p.answer) = some ⟨j.written asciiEscape⟩ := by
    rw [dumpsText, hj, Option.map_some]
  have hp : parseReply maxDepth float schema ⟨j.written asciiEscape⟩ = .ok (some a, []) :=
    parse_dumped (dumps_eq_some.mp hj).1 hdepth hfloats htolerated ha
  obtain ⟨remaining, hremaining⟩ : ∃ n, (maxAttempts.getD ctx.maxAttempts).toNat = n + 1 :=
    ⟨_, (Nat.succ_pred_eq_of_pos (by omega)).symm⟩
  simp only [askWith, hremaining, askWithFrom, MockProvider.complete, answerReply_of_dumped hbody,
    Completion.reply, completes, askTurn, hp, and_self]

end Mock

section Chaos

namespace ChaosProvider

variable (random : Random ρ) (stack : Nat) (unserializable : ε) (p : ChaosProvider ρ)
  (prompt : PyStr)

-- a call that does not give the answer is one more failure
theorem complete_cases : (complete random stack unserializable p prompt).2.answer = p.answer ∧
    (complete random stack unserializable p prompt).2.healAfter = p.healAfter ∧
    ((complete random stack unserializable p prompt).1 =
        answerReply stack unserializable p.answer prompt ∨
      (complete random stack unserializable p prompt).2.failures.length =
        p.failures.length + 1) := by
  unfold complete
  simp only
  split
  · exact ⟨rfl, rfl, .inl rfl⟩
  · split
    · split <;> exact ⟨rfl, rfl, .inr (List.length_append)⟩
    · exact ⟨rfl, rfl, .inl rfl⟩

variable {p prompt} in
theorem complete_healed (hc : correcting prompt = true) (hh : p.healAfter ≤ p.failures.length) :
    (complete random stack unserializable p prompt).1 =
      answerReply stack unserializable p.answer prompt := by
  simp only [complete, if_pos (And.intro hc hh)]

theorem providerAfter_settings (turns : List (Turn ε)) :
    (providerAfter (complete random stack unserializable) p turns).answer = p.answer ∧
      (providerAfter (complete random stack unserializable) p turns).healAfter = p.healAfter := by
  induction turns generalizing p with
  | nil => exact ⟨rfl, rfl⟩
  | cons t turns ih =>
    obtain ⟨hanswer, hheal⟩ := ih (complete random stack unserializable p t.prompt).2
    obtain ⟨hanswer', hheal', _⟩ := complete_cases random stack unserializable p t.prompt
    exact ⟨hanswer.trans hanswer', hheal.trans hheal'⟩

end ChaosProvider

theorem correctionPrompt_correcting {stack : Nat} {previous schemaName prompt : PyStr}
    {faults : List FieldFault}
    (h : correctionPrompt stack previous faults schemaName = some prompt) :
    ChaosProvider.correcting prompt = true := by
  obtain ⟨j, _, rfl⟩ := Option.map_eq_some_iff.mp h
  have hlead : (PyStr.ofString "CORRECTION").chars <:+:
      (PyStr.ofString "CORRECTION for ").chars := by decide
  obtain ⟨cs, hcs, htail⟩ :=
    List.infix_iff_prefix_suffix.mp (hlead.trans (mem_concat List.mem_cons_self))
  exact List.any_eq_true.mpr
    ⟨cs, (List.mem_tails _ _).mpr htail, List.isPrefixOf_iff_prefix.mpr hcs⟩

theorem badSchemaBody_dumped {stack : Nat} (h : 1 ≤ stack) :
    dumpsText stack (ofStrDict badSchemaAnswer) = some badSchemaBody := by
  have hbody : ((toJson (ofStrDict badSchemaAnswer)).map fun j =>
      (j.depth, (⟨j.written asciiEscape⟩ : PyStr))) = some (1, badSchemaBody) := by decide +kernel
  obtain ⟨j, hj, he⟩ := Option.map_eq_some_iff.mp hbody
  obtain ⟨hdepth, htext⟩ := Prod.mk.inj he
  rw [dumpsText, dumps_eq_some.mpr ⟨hj, hdepth.trans_le h⟩, Option.map_some, htext]

variable {parse : PyStr → Except ε (Option α × List FieldFault)}

-- a draft the schema refuses is redrafted by the next reply, when the provider is due to heal and
-- the loop may still ask
theorem chaos_heals (random : Random ρ) (stack : Nat) (unserializable : ε) (p : ChaosProvider ρ)
    (schemaName prompt : PyStr) (ctx : StepContext) (maxAttempts : Option Int)
    {run : Attempted ε α × ChaosProvider ρ} {body : PyStr} {v : α} {fs faults : List FieldFault}
    {k : Nat} {t : Turn ε}
    (hrun : askWith (ChaosProvider.complete random stack unserializable) stack parse schemaName
      prompt ctx maxAttempts p = run)
    (hbody : dumpsText stack (ofStrDict p.answer) = some body)
    (haccept : parse body = .ok (some v, fs))
    (hdraft : parse badSchemaBody = .ok (none, faults)) (hu : isUnparseable faults = false)
    (hsend : resendable stack faults = true)
    (ht : run.1.turns[k]? = some t)
    (hcall : t.call = .ok (completes badSchemaBody t.prompt).reply)
    (hbudget : (k : Int) + 1 < maxAttempts.getD ctx.maxAttempts)
    (hcorrections : (run.1.turns.take k).countP (fun t => rejected parse t.call) <
      maxCorrectionRounds)
    (hheal : p.healAfter ≤ ((providerAfter (ChaosProvider.complete random stack unserializable) p
      (run.1.turns.take k)).failures.length : Int) + 1) :
    run.1.turns.length = k + 2 ∧ run.1.ending = .answer (.returned v) := by
  have hserved : Served (ChaosProvider.complete random stack unserializable) p run.1.turns run.2 :=
    hrun ▸ askWithFrom_served _ _ _ _ _ _ _ _ _ _ _ _
  obtain ⟨calls, hcalls⟩ := askWithFrom_replays
    (ChaosProvider.complete random stack unserializable) stack parse schemaName
    (maxAttempts.getD ctx.maxAttempts) prompt (maxAttempts.getD ctx.maxAttempts).toNat 1 prompt 0
    ctx p
  have hrun' : run.1 = raisingAskFrom stack parse schemaName (maxAttempts.getD ctx.maxAttempts)
      prompt calls (maxAttempts.getD ctx.maxAttempts).toNat 1 prompt 0 ctx := hrun ▸ hcalls
  have hchain : run.1.turns.IsChain (NextTurn stack parse schemaName prompt) :=
    hrun' ▸ raisingAskFrom_chain _ _ _ _ _ _ _ _ _ _ _
  obtain ⟨retry, hbuilt⟩ := Option.isSome_iff_exists.mp
    ((buildRetryPrompt_isSome stack prompt badSchemaBody faults schemaName).trans hsend)
  have hnext : k + 1 < run.1.turns.length := by
    rw [hrun'] at ht hcorrections ⊢
    exact raisingAskFrom_corrects ht hcall hdraft hbuilt (by omega) (by rwa [Nat.zero_add])
  obtain ⟨hk, hget⟩ := List.getElem?_eq_some_iff.mp ht
  have hlater := hchain.getElem k hnext
  rw [hget] at hlater
  obtain ⟨faults', hp, hretry⟩ := hlater.rejected badSchemaBody _ hcall
  obtain rfl : faults' = faults := by
    rw [hdraft] at hp
    cases hp
    rfl
  rw [buildRetryPrompt_draft hu] at hretry
  have hcorrecting := correctionPrompt_correcting hretry
  -- the draft counts as a failure: the answer itself is accepted
  have hgrown : (providerAfter (ChaosProvider.complete random stack unserializable) p
      (run.1.turns.take (k + 1))).failures.length =
      (providerAfter (ChaosProvider.complete random stack unserializable) p
        (run.1.turns.take k)).failures.length + 1 := by
    rw [providerAfter_succ p ht]
    obtain ⟨-, -, hanswer | hfailed⟩ := ChaosProvider.complete_cases random stack unserializable
      (providerAfter (ChaosProvider.complete random stack unserializable) p (run.1.turns.take k))
      t.prompt
    · rw [hserved.getElem ht, hcall,
        (ChaosProvider.providerAfter_settings random stack unserializable p _).1,
        answerReply_of_dumped hbody] at hanswer
      have hsame : badSchemaBody = body := by injection hanswer with h; injection h
      rw [hsame, haccept] at hdraft
      cases hdraft
    · exact hfailed
  have hhealed := ChaosProvider.complete_healed random stack unserializable hcorrecting
    (p := providerAfter (ChaosProvider.complete random stack unserializable) p
      (run.1.turns.take (k + 1))) (by
      rw [(ChaosProvider.providerAfter_settings random stack unserializable p _).2, hgrown]
      exact hheal)
  rw [hserved.getElem (List.getElem?_eq_getElem hnext),
    (ChaosProvider.providerAfter_settings random stack unserializable p _).1,
    answerReply_of_dumped hbody] at hhealed
  refine ⟨?_, ?_⟩
  · by_contra hlong
    obtain ⟨_, hp', _⟩ := (hchain.getElem (k + 1) (by omega)).rejected body _ hhealed
    rw [haccept] at hp'
    cases hp'
  · rw [hrun']
    exact raisingAskFrom_accepted (hrun' ▸ List.getElem_mem hnext) hhealed haccept

def assessing : BaseModel PyValue where
  validate
    | .dict items =>
        match Dict.get? items (.str (.ofString "confidence")) with
        | some (.float _) => .ok (.dict items)
        | received => .error [⟨[.key (.ofString "confidence")],
            .ofString "Input should be a valid number", received.getD .none⟩]
    | data => .error [⟨[], .ofString "Input should be a valid dictionary", data⟩]

-- a failure rate of 1
def alwaysFails : Random Unit where
  fails r := (true, r)
  choice r modes := (modes.headD .notJson, r)

def drafting : ChaosProvider Unit := .init () none (some [.badSchema]) 2

def redrafted : Attempted ReadError PyValue × ChaosProvider Unit :=
  askWith (ChaosProvider.complete alwaysFails 900 (.escaped .valueError)) 900
    (parseReply 1000 writtenFloat assessing) (.ofString "Assessment") (.ofString "Assess")
    freshContext none drafting

def unsure : FieldFault :=
  ⟨.ofString "confidence", .ofString "Input should be a valid number",
    .str (.ofString "very high")⟩

-- the second draft is due to heal, and the third reply is the answer
theorem chaos_heals_drafting : redrafted.1.turns.length = 3 ∧
    redrafted.1.ending = .answer (.returned (ofStrDict defaultAnswer)) := by
  have hreply : ((redrafted.1.turns[1]?).any fun t => t.call.toOption = some
      (completes badSchemaBody t.prompt).reply) = true := by
    decide +kernel
  obtain ⟨t, ht, hcall⟩ := (Option.any_eq_true _ _).mp hreply
  have hbody : dumpsText 900 (ofStrDict drafting.answer) =
      some (.ofString "\x7b\"decision\": \"approve\", \"confidence\": 0.91\x7d") := by
    decide +kernel
  have haccept : parseReply 1000 writtenFloat assessing
      (.ofString "\x7b\"decision\": \"approve\", \"confidence\": 0.91\x7d") =
      .ok (some (ofStrDict defaultAnswer), []) := toOption_eq_some (by decide +kernel)
  have hdraft : parseReply 1000 writtenFloat assessing badSchemaBody = .ok (none, [unsure]) :=
    toOption_eq_some (by decide +kernel)
  have hrun : askWith (ChaosProvider.complete alwaysFails 900 (.escaped .valueError)) 900
      (parseReply 1000 writtenFloat assessing) (.ofString "Assessment") (.ofString "Assess")
      freshContext none drafting = redrafted := rfl
  exact chaos_heals _ _ _ _ _ _ _ _ hrun hbody haccept hdraft (by decide +kernel)
    (by decide +kernel) ht (toOption_eq_some (of_decide_eq_true hcall)) (by decide)
    (by decide +kernel) (by decide +kernel)

end Chaos

end DurableAgent
