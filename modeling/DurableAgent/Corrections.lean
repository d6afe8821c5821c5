import DurableAgent.Drafts
import DurableAgent.Rendering
import DurableAgent.Replies

namespace DurableAgent

open Decoder

variable {α : Type}

section Payload

theorem quoted_written (s : PyStr) : (quoted s).chars = writtenString escapeChar s := by
  simp [quoted, writtenString, PyStr.concat, PyStr.ofString, List.flatMap]

mutual

theorem text_written : ∀ j : Json, j.text.chars = j.written escapeChar
  | .null => by rw [Json.text, Json.written]
  | .bool b => by rw [Json.text, Json.written]
  | .int i => by rw [Json.text, Json.written]
  | .float f => by rw [Json.text, Json.written]
  | .str s => by rw [Json.text, Json.written, quoted_written]
  | .arr items => by
      rw [Json.text, Json.written, ← texts_written items]
      simp [PyStr.concat, PyStr.ofString]
  | .obj items => by
      rw [Json.text, Json.written, ← entryTexts_written items]
      simp [PyStr.concat, PyStr.ofString]

theorem texts_written : ∀ js : List Json,
    (PyStr.join (.ofString ", ") (Json.texts js)).chars = Json.writtenItems escapeChar js
  | [] => by
      rw [Json.texts, Json.writtenItems]
      rfl
  | [j] => by
      rw [Json.texts, Json.texts, Json.writtenItems, ← text_written j]
      simp [PyStr.join, PyStr.concat]
  | j :: k :: js => by
      have hrest := texts_written (k :: js)
      rw [Json.texts] at hrest
      rw [Json.texts, Json.texts, Json.writtenItems, ← text_written j, ← hrest]
      · simp [PyStr.join, PyStr.concat]
      · exact List.cons_ne_nil _ _

theorem entryTexts_written : ∀ js : List (PyStr × Json),
    (PyStr.join (.ofString ", ") (Json.entryTexts js)).chars = Json.writtenMembers escapeChar js
  | [] => by
      rw [Json.entryTexts, Json.writtenMembers]
      rfl
  | [(s, j)] => by
      rw [Json.entryTexts, Json.entryTexts, Json.writtenMembers, ← text_written j,
        ← quoted_written s]
      simp [PyStr.join, PyStr.concat]
  | (s, j) :: (r, k) :: js => by
      have hrest := entryTexts_written ((r, k) :: js)
      rw [Json.entryTexts] at hrest
      rw [Json.entryTexts, Json.entryTexts, Json.writtenMembers, ← text_written j,
        ← quoted_written s, ← hrest]
      · simp [PyStr.join, PyStr.concat]
      · simp

end

-- a value as `json` hands it on: a tuple is a list then, and a key a string
def echoed (v : PyValue) : PyValue :=
  match toJson v with
  | some j => j.readAs id
  | none => .none

def FieldFault.heard (f : FieldFault) : PyValue := { f with received := echoed f.received }.asDict

theorem read_asDict {f : FieldFault} {j : Json} (h : toJson f.asDict = some j) :
    j.readAs id = f.heard := by
  rw [toJson_asDict] at h
  obtain ⟨r, hr, rfl⟩ := Option.map_eq_some_iff.mp h
  have hecho : echoed f.received = r.readAs id := by rw [echoed, hr]
  have hnodup : (Dict.keys [(PyKey.str (.ofString "field"), PyValue.str f.field),
      (.str (.ofString "problem"), .str f.problem),
      (.str (.ofString "received"), r.readAs id)]).Nodup := by
    simp only [Dict.keys, List.map_cons, List.map_nil]
    decide
  rw [FieldFault.heard, FieldFault.asDict, hecho]
  simp only [Json.readAs, Json.readMembers, id, closeObject]
  rw [Dict.ofPairs_of_nodup hnodup]

theorem read_asDicts {faults : List FieldFault} {js : List Json}
    (h : toJsonItems (faults.map FieldFault.asDict) = some js) :
    Json.readItems id js = faults.map FieldFault.heard := by
  induction faults generalizing js with
  | nil =>
    obtain rfl := Option.some.inj h
    rw [Json.readItems, List.map_nil]
  | cons f faults ih =>
    obtain ⟨j, js', hj, hjs, rfl⟩ := toJsonItems_cons h
    rw [Json.readItems, List.map_cons, read_asDict hj, ih hjs]

variable {stack maxDepth : Nat} {float : List Char → PyFloat} {previous schemaName prompt : PyStr}
  {faults : List FieldFault}

-- what is sent of the faults is nested within the stack of the reader, and its floats are numbers
def Sendable (maxDepth : Nat) (float : List Char → PyFloat) (faults : List FieldFault) : Prop :=
  ∀ j, toJson (.list (faults.map FieldFault.asDict)) = some j →
    j.depth ≤ maxDepth ∧ ReadFloats float j.floats

theorem payload_reads {j : Json} (hj : toJson (.list (faults.map FieldFault.asDict)) = some j)
    (hs : Sendable maxDepth float faults) :
    decode maxDepth float j.text.chars = .ok (.list (faults.map FieldFault.heard)) := by
  obtain ⟨hd, hf⟩ := hs j hj
  have hraw : ∀ cs, BodyReads [] false (cs.flatMap escapeChar) (id cs) :=
    fun cs => raw_reads cs [] false
  have hread : j.readAs id = .list (faults.map FieldFault.heard) := by
    rw [toJson] at hj
    obtain ⟨js, hjs, rfl⟩ := Option.map_eq_some_iff.mp hj
    rw [Json.readAs, read_asDicts hjs]
  rw [text_written, ← hread]
  exact decode_reads (written_reads hraw j 0 (toJson_fits _ j hj) (by omega) hf)

-- a correction shows the answer and, as JSON, what was wrong with it
structure States (maxDepth : Nat) (float : List Char → PyFloat) (previous : PyStr)
    (faults : List FieldFault) (prompt : PyStr) : Prop where
  previous : (PyStr.ofString "Your previous response was:\n").chars ++ previous.strip.chars ++
    (PyStr.ofString "\n\n").chars <:+: prompt.chars
  faults : ∃ payload, (PyStr.ofString "It failed validation on these fields:\n").chars ++ payload ++
    (PyStr.ofString "\n\n").chars <:+: prompt.chars ∧
    (Sendable maxDepth float faults →
      decode maxDepth float payload = .ok (.list (faults.map FieldFault.heard)))

theorem correctionPrompt_states
    (h : correctionPrompt stack previous faults schemaName = some prompt) :
    States maxDepth float previous faults prompt := by
  obtain ⟨j, hj, rfl⟩ := Option.map_eq_some_iff.mp h
  refine ⟨?_, j.text.chars, ?_, payload_reads (dumps_eq_some.mp hj).1⟩
  · refine ⟨(PyStr.concat [.ofString "CORRECTION for ", schemaName, .ofString ".\n"]).chars,
      (PyStr.concat [.ofString "It failed validation on these fields:\n", j.text,
        .ofString "\n\n",
        .ofString "Fix ONLY the invalid fields, keep every valid field exactly as it was, ",
        .ofString "and return the complete corrected JSON object."]).chars, ?_⟩
    simp only [PyStr.concat, List.map_cons, List.map_nil, List.flatten_cons, List.flatten_nil,
      List.append_assoc, List.append_nil]
  · refine ⟨(PyStr.concat [.ofString "CORRECTION for ", schemaName, .ofString ".\n",
        .ofString "Your previous response was:\n", previous.strip, .ofString "\n\n"]).chars,
      (PyStr.concat [
        .ofString "Fix ONLY the invalid fields, keep every valid field exactly as it was, ",
        .ofString "and return the complete corrected JSON object."]).chars, ?_⟩
    simp only [PyStr.concat, List.map_cons, List.map_nil, List.flatten_cons, List.flatten_nil,
      List.append_assoc, List.append_nil]

end Payload

section Chain

variable {ε : Type} (stack : Nat) (parse : PyStr → Except ε (Option α × List FieldFault))
  (schemaName : PyStr) (prompt : PyStr)

-- what the loop sends next, by how the last turn went
structure NextTurn (t t' : Turn ε) : Prop where
  raised : ∀ e, t.call ≠ .error e
  transient : ∀ exc, t.call = .ok (.transient exc) → t'.prompt = t.prompt
  rejected : ∀ text tokens, t.call = .ok (.completion text tokens) →
    ∃ faults, parse text = .ok (none, faults) ∧
      buildRetryPrompt stack prompt text faults schemaName = some t'.prompt

-- where one turn of the loop leads
inductive Led (ε α : Type) where
  | ends (ending : AskEnding ε α) (ctx : StepContext)
  | sends (prompt : PyStr) (corrections : Nat) (ctx : StepContext)

def Led.attempted (t : Turn ε) (rest : PyStr → Nat → StepContext → Attempted ε α) :
    Led ε α → Attempted ε α
  | .ends ending ctx => ⟨[t], ending, ctx⟩
  | .sends next corrections ctx => (rest next corrections ctx).after t

variable (budget : Int)

-- the body of the loop, by what the provider did
def askTurn (attempt : Nat) (current : PyStr) (corrections : Nat) (ctx : StepContext) :
    Except ε Reply → Led ε α
  | .error e => .ends (.raised e) { ctx with attemptCount := ctx.attemptCount + 1 }
  | .ok (.transient exc) =>
      let ctx := { ctx with attemptCount := ctx.attemptCount + 1 }
      if (attempt : Int) = budget then
        .ends (.answer (.escalation (unavailableReason attempt exc))) ctx
      else if backoffOverflows attempt then .ends (.answer .overflowError) ctx
      else .sends current corrections ctx
  | .ok (.completion text tokens) =>
      let ctx := { ctx with
        attemptCount := ctx.attemptCount + 1
        tokens := ctx.tokens ++ [tokens] }
      match parse text with
      | .error e => .ends (.raised e) ctx
      | .ok (some value, _) =>
          .ends (.answer (.returned value))
            { ctx with corrections := ctx.corrections ++ [corrections] }
      | .ok (none, faults) =>
          if maxCorrectionRounds ≤ corrections then
            .ends (.answer (.escalation (invalidReason corrections faults))) ctx
          else
            match buildRetryPrompt stack prompt text faults schemaName with
            | none => .ends (.answer .jsonError) ctx
            | some next => .sends next (corrections + 1) ctx

variable (calls : Nat → Except ε Reply)

theorem raisingAskFrom_succ (remaining attempt : Nat) (current : PyStr) (corrections : Nat)
    (ctx : StepContext) :
    raisingAskFrom stack parse schemaName budget prompt calls (remaining + 1) attempt current
        corrections ctx =
      (askTurn stack parse schemaName prompt budget attempt current corrections ctx
        (calls attempt)).attempted ⟨current, calls attempt⟩
        (raisingAskFrom stack parse schemaName budget prompt calls remaining (attempt + 1)) := by
  rw [raisingAskFrom]
  cases calls attempt with
  | error e => rfl
  | ok reply =>
    cases reply with
    | transient exc =>
      simp only [askTurn]
      split
      · rfl
      · split <;> rfl
    | completion text tokens =>
      simp only [askTurn]
      cases parse text with
      | error e => rfl
      | ok result =>
        obtain ⟨value, faults⟩ := result
        cases value with
        | some value => rfl
        | none =>
          simp only
          split
          · rfl
          · cases buildRetryPrompt stack prompt text faults schemaName <;> rfl

variable {stack parse schemaName prompt budget}

theorem askTurn_sends {attempt corrections corrections' : Nat} {current next : PyStr}
    {ctx ctx' : StepContext} {call : Except ε Reply}
    (h : askTurn stack parse schemaName prompt budget attempt current corrections ctx call =
      .sends next corrections' ctx') :
    (∀ call', NextTurn stack parse schemaName prompt ⟨current, call⟩ ⟨next, call'⟩) ∧
      corrections' = corrections + if rejected parse call then 1 else 0 := by
  cases call with
  | error e => cases h
  | ok reply =>
    cases reply with
    | transient exc =>
      simp only [askTurn] at h
      split at h
      · cases h
      · split at h
        · cases h
        · cases h
          refine ⟨fun call' => ⟨?_, fun _ _ => rfl, ?_⟩, rfl⟩
          · intro e he
            cases he
          · intro text tokens ht
            cases ht
    | completion text tokens =>
      simp only [askTurn] at h
      cases hp : parse text with
      | error e =>
        rw [hp] at h
        cases h
      | ok result =>
        obtain ⟨value, faults⟩ := result
        rw [hp] at h
        cases value with
        | some value => cases h
        | none =>
          simp only at h
          split at h
          · cases h
          · cases hb : buildRetryPrompt stack prompt text faults schemaName with
            | none =>
              rw [hb] at h
              cases h
            | some next' =>
              rw [hb] at h
              cases h
              refine ⟨fun call' => ⟨?_, ?_, ?_⟩, by simp only [rejected, hp, if_true]⟩
              · intro e he
                cases he
              · intro exc ht
                cases ht
              · intro text' tokens' ht
                cases ht
                exact ⟨faults, hp, hb⟩

variable (stack parse schemaName prompt budget)

theorem raisingAskFrom_head (remaining attempt : Nat) (current : PyStr) (corrections : Nat)
    (ctx : StepContext) : ∀ t ∈ (raisingAskFrom stack parse schemaName budget prompt calls remaining
      attempt current corrections ctx).turns.head?, t.prompt = current := by
  intro t ht
  cases remaining with
  | zero => cases ht
  | succ remaining =>
    rw [raisingAskFrom_succ] at ht
    cases hled : askTurn stack parse schemaName prompt budget attempt current corrections ctx
        (calls attempt) with
    | ends ending ctx' =>
      rw [hled] at ht
      cases ht
      rfl
    | sends next corrections' ctx' =>
      rw [hled] at ht
      cases ht
      rfl

theorem raisingAskFrom_chain (remaining attempt : Nat) (current : PyStr) (corrections : Nat)
    (ctx : StepContext) :
    (raisingAskFrom stack parse schemaName budget prompt calls remaining attempt current
      corrections ctx).turns.IsChain (NextTurn stack parse schemaName prompt) := by
  induction remaining generalizing attempt current corrections ctx with
  | zero => exact .nil
  | succ remaining ih =>
    rw [raisingAskFrom_succ]
    cases hled : askTurn stack parse schemaName prompt budget attempt current corrections ctx
        (calls attempt) with
    | ends ending ctx' => exact .singleton _
    | sends next corrections' ctx' =>
      have hrest := ih (attempt + 1) next corrections' ctx'
      have hhead := raisingAskFrom_head stack parse schemaName prompt budget calls remaining
        (attempt + 1) next corrections' ctx'
      rw [Led.attempted, Attempted.after]
      cases hturns : (raisingAskFrom stack parse schemaName budget prompt calls remaining
          (attempt + 1) next corrections' ctx').turns with
      | nil => exact .singleton _
      | cons t turns =>
        rw [hturns] at hrest hhead
        have ht : t = ⟨next, t.call⟩ := by rw [← hhead t rfl]
        exact .cons_cons (ht ▸ (askTurn_sends hled).1 t.call) hrest

theorem raisingAskFrom_length_pos {remaining : Nat} (hr : 0 < remaining) (attempt : Nat)
    (current : PyStr) (corrections : Nat) (ctx : StepContext) :
    0 < (raisingAskFrom stack parse schemaName budget prompt calls remaining attempt current
      corrections ctx).turns.length := by
  obtain ⟨n, rfl⟩ := Nat.exists_eq_succ_of_ne_zero hr.ne'
  rw [Nat.succ_eq_add_one, raisingAskFrom_succ]
  cases askTurn stack parse schemaName prompt budget attempt current corrections ctx
    (calls attempt) <;> exact Nat.succ_pos _

variable {stack parse schemaName prompt budget calls}

-- within the budget and the corrections allowed, a draft is answered by one more call
theorem raisingAskFrom_corrects {remaining attempt corrections k : Nat} {current text next : PyStr}
    {ctx : StepContext} {t : Turn ε} {tokens : Int} {faults : List FieldFault}
    (ht : (raisingAskFrom stack parse schemaName budget prompt calls remaining attempt current
      corrections ctx).turns[k]? = some t)
    (hcall : t.call = .ok (.completion text tokens)) (hp : parse text = .ok (none, faults))
    (hb : buildRetryPrompt stack prompt text faults schemaName = some next)
    (hk : k + 1 < remaining)
    (hc : corrections + ((raisingAskFrom stack parse schemaName budget prompt calls remaining
      attempt current corrections ctx).turns.take k).countP (fun t => rejected parse t.call) <
        maxCorrectionRounds) :
    k + 1 < (raisingAskFrom stack parse schemaName budget prompt calls remaining attempt current
      corrections ctx).turns.length := by
  induction remaining generalizing attempt current corrections ctx k with
  | zero => cases hk
  | succ remaining ih =>
    rw [raisingAskFrom_succ] at ht hc ⊢
    cases hled : askTurn stack parse schemaName prompt budget attempt current corrections ctx
        (calls attempt) with
    | ends ending ctx' =>
      rw [hled] at ht hc
      cases k with
      | zero =>
        obtain rfl := Option.some.inj ht
        rw [show calls attempt = _ from hcall] at hled
        have hrounds : ¬ maxCorrectionRounds ≤ corrections := Nat.not_le.mpr hc
        simp only [askTurn, hp, if_neg hrounds, hb] at hled
        cases hled
      | succ k => cases ht
    | sends next' corrections' ctx' =>
      obtain ⟨_, hcorrections⟩ := askTurn_sends hled
      rw [hled] at ht hc
      rw [Led.attempted, Attempted.after, List.length_cons]
      refine Nat.succ_lt_succ ?_
      cases k with
      | zero => exact raisingAskFrom_length_pos _ _ _ _ _ _ (by omega) _ _ _ _
      | succ k =>
        refine ih ht (by omega) ?_
        simp only [Led.attempted, Attempted.after, List.take_succ_cons, List.countP_cons] at hc
        omega

end Chain

section Asking

variable {stack maxDepth : Nat} {float : List Char → PyFloat}

-- after a reply that is read and refused, the next prompt says why, or asks again when there was
-- nothing to correct
theorem correction_states_faults (schema : BaseModel α) (schemaName prompt : PyStr)
    (ctx : StepContext) (maxAttempts : Option Int) (calls : Nat → Except ReadError Reply)
    {k : Nat} {t t' : Turn ReadError} {text : PyStr} {tokens : Int}
    (ht : (raisingAsk stack (parseReply maxDepth float schema) schemaName ctx prompt maxAttempts
      calls).turns[k]? = some t)
    (ht' : (raisingAsk stack (parseReply maxDepth float schema) schemaName ctx prompt maxAttempts
      calls).turns[k + 1]? = some t')
    (hcall : t.call = .ok (.completion text tokens)) :
    ∃ faults, parseOrFaults maxDepth float schema text.chars = .ok (none, faults) ∧
      (isUnparseable faults = true ∧ t'.prompt = taskPrompt prompt schemaName ∨
        isUnparseable faults = false ∧ States maxDepth float text faults t'.prompt) := by
  have hchain := raisingAskFrom_chain stack (parseReply maxDepth float schema) schemaName prompt
    (maxAttempts.getD ctx.maxAttempts) calls (maxAttempts.getD ctx.maxAttempts).toNat 1 prompt 0 ctx
  obtain ⟨hk, rfl⟩ := List.getElem?_eq_some_iff.mp ht
  obtain ⟨hk', rfl⟩ := List.getElem?_eq_some_iff.mp ht'
  obtain ⟨faults, hp, hb⟩ := (hchain.getElem k hk').rejected text tokens hcall
  refine ⟨faults, hp, ?_⟩
  cases hu : isUnparseable faults with
  | true =>
    rw [buildRetryPrompt_unparseable hu, Option.some.injEq] at hb
    exact .inl ⟨rfl, hb.symm⟩
  | false =>
    rw [buildRetryPrompt_draft hu] at hb
    exact .inr ⟨rfl, correctionPrompt_states hb⟩

def misspelt : PyStr := ⟨chars "\x7b\"ä\": [1, true]\x7d"⟩

def respells : Nat → Except ReadError Reply
  | 1 => .ok (.completion misspelt 4)
  | _ => .ok (.completion ⟨memberText⟩ 4)

def respelling : Attempted ReadError PyValue :=
  raisingAsk 900 (parseReply 1000 writtenFloat (requiring ["a"]))
    (.ofString "Decision") freshContext
    (.ofString "Assess") none respells

theorem correction_states_faults_respelling : ∃ t' faults, respelling.turns[1]? = some t' ∧
    parseOrFaults 1000 writtenFloat (requiring ["a"] : BaseModel PyValue) misspelt.chars =
      .ok (none, faults) ∧
    (isUnparseable faults = true ∧ t'.prompt = taskPrompt (.ofString "Assess") (.ofString "Decision") ∨
      isUnparseable faults = false ∧ States 1000 writtenFloat misspelt faults t'.prompt) := by
  have hlength : respelling.turns.length = 2 := by decide +kernel
  have hreply : (respelling.turns[0]?.bind fun t => t.call.toOption) =
      some (.completion misspelt 4) := by decide +kernel
  obtain ⟨t, ht, hcall⟩ := Option.bind_eq_some_iff.mp hreply
  have ht' := List.getElem?_eq_getElem (l := respelling.turns) (i := 1) (by omega)
  obtain ⟨faults, hp, hstates⟩ := correction_states_faults _ _ _ _ _ _ ht ht'
    (toOption_eq_some hcall)
  exact ⟨_, faults, ht', hp, hstates⟩

end Asking

end DurableAgent
