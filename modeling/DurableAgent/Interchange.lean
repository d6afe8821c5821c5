import DurableAgent.OverStore

namespace DurableAgent

open Client Simulation

variable {ε ε' : Type}

-- one value, or the same one read back from two stores
def PyValue.Alike (v w : PyValue) : Prop :=
  v = w ∨ SameValue v w ∧ (∃ j, v = loads j) ∧ ∃ j, w = loads j

structure RunState.Loaded (s : RunState) : Prop where
  payload : ∃ o, s.payload = loadsObject o
  outputs : ∀ r ∈ s.steps, ∃ o, r.output = loadsObject o

def RunState.Agrees (s s' : RunState) : Prop := s = s' ∨ s.Alike s' ∧ s.Loaded ∧ s'.Loaded

def Conclusion.Alike : Conclusion ε → Conclusion ε' → Prop
  | .returned s, .returned s' => s.Agrees s'
  | .raised e, .raised e' => e = e'
  | .storeRaised _, .storeRaised _ => True
  | _, _ => False

def CallResult.pointsAt : CallResult ε → Option String
  | .alreadyActive runId => some runId
  | _ => none

structure CallResult.Matches (r : CallResult ε) (r' : CallResult ε') : Prop where
  alike : r.Alike r'
  pointsAt : r.pointsAt = r'.pointsAt
  loaded : ∀ s s', r = .found (some s) → r' = .found (some s') → s.Loaded ∧ s'.Loaded

-- the same context, but for the order of the entries in what was stored
structure StepContext.Alike (c c' : StepContext) : Prop where
  runId : c.runId = c'.runId
  index : c.index = c'.index
  payload : PyValue.Alike (ofStrDict c.payload) (ofStrDict c'.payload)
  previous : List.Forall₂ (Dict.EntryRel PyValue.Alike) c.previous c'.previous
  maxAttempts : c.maxAttempts = c'.maxAttempts
  tokens : c.tokens = c'.tokens
  corrections : c.corrections = c'.corrections
  attemptCount : c.attemptCount = c'.attemptCount

-- a handler to which the order of a dict's entries makes no difference
def Indifferent (handle : String → StepContext → Execution) : Prop :=
  ∀ name c c', c.Alike c' → (handle name c).result = (handle name c').result ∧
    (handle name c).context.Alike (handle name c').context

abbrev EngineClient.Alike (x : EngineClient ε) (y : EngineClient ε') : Prop :=
  Client.Alike CallResult.Matches Conclusion.Alike x y

section States

variable {s s' : RunState}

theorem read_object {d : StrDict} (h : ∃ o, d = loadsObject o) : ∃ j, ofStrDict d = loads j := by
  obtain ⟨o, rfl⟩ := h
  exact ⟨_, (loads_ofStrDict o).symm⟩

theorem RunState.Agrees.status (h : s.Agrees s') : s.status = s'.status := by
  rcases h with rfl | ⟨h, _⟩
  · rfl
  · exact h.status

theorem RunState.Agrees.idempotencyKey (h : s.Agrees s') :
    s.idempotencyKey = s'.idempotencyKey := by
  rcases h with rfl | ⟨h, _⟩
  · rfl
  · exact h.idempotencyKey

theorem RunState.Agrees.payload (h : s.Agrees s') :
    PyValue.Alike (ofStrDict s.payload) (ofStrDict s'.payload) := by
  rcases h with rfl | ⟨h, hs, hs'⟩
  · exact .inl rfl
  · exact .inr ⟨h.payload, read_object hs.payload, read_object hs'.payload⟩

theorem done_alike {rs rs' : List StepRecord} (h : List.Forall₂ StepRecord.Alike rs rs') :
    (rs.filter fun r => r.outcome ≠ .failed).map StepRecord.index =
      (rs'.filter fun r => r.outcome ≠ .failed).map StepRecord.index := by
  induction h with
  | nil => rfl
  | cons hr _ ih =>
    simp only [List.filter_cons, hr.outcome]
    split
    · rw [List.map_cons, List.map_cons, hr.index, ih]
    · exact ih

theorem RunState.Agrees.nextIndex (h : s.Agrees s') : s.nextIndex = s'.nextIndex := by
  rcases h with rfl | ⟨h, _⟩
  · rfl
  · exact congrArg FirstGap.firstGap (done_alike h.steps)

theorem mismatch_alike {plan : Plan} {runId : String} {rs rs' : List StepRecord}
    (h : List.Forall₂ StepRecord.Alike rs rs') :
    rs.findSome? (planMismatch plan runId) = rs'.findSome? (planMismatch plan runId) := by
  induction h with
  | nil => rfl
  | @cons r r' rs rs' hr _ ih =>
    have hsame : planMismatch plan runId r = planMismatch plan runId r' := by
      simp only [planMismatch, hr.index, hr.name]
    rw [List.findSome?_cons, List.findSome?_cons, hsame, ih]

theorem RunState.Agrees.guard (h : s.Agrees s') (plan : Plan) :
    assertPlanMatchesHistory plan s = assertPlanMatchesHistory plan s' := by
  rcases h with rfl | ⟨h, _⟩
  · rfl
  · rw [assertPlanMatchesHistory, assertPlanMatchesHistory, h.runId, mismatch_alike h.steps]

theorem outputs_alike {rs rs' : List StepRecord} (h : List.Forall₂ StepRecord.Alike rs rs')
    (hs : ∀ r ∈ rs, ∃ o, r.output = loadsObject o)
    (hs' : ∀ r ∈ rs', ∃ o, r.output = loadsObject o) :
    List.Forall₂ (Dict.EntryRel PyValue.Alike) (rs.map fun r => (r.name, ofStrDict r.output))
      (rs'.map fun r => (r.name, ofStrDict r.output)) := by
  induction h with
  | nil => exact .nil
  | cons hr _ ih =>
    rw [List.forall_mem_cons] at hs hs'
    exact .cons ⟨hr.name, .inr ⟨hr.output, read_object hs.1, read_object hs'.1⟩⟩ (ih hs.2 hs'.2)

theorem RunState.Agrees.previousOf (h : s.Agrees s') :
    List.Forall₂ (Dict.EntryRel PyValue.Alike) (previousOf s) (previousOf s') := by
  rcases h with rfl | ⟨h, hs, hs'⟩
  · exact List.forall₂_same.mpr fun kv _ => ⟨rfl, .inl rfl⟩
  · exact Dict.ofPairs_related (outputs_alike h.steps hs.outputs hs'.outputs)

end States

section Clients

theorem andThen_alike {conflict : String → EngineClient ε} {conflict' : String → EngineClient ε'}
    {next : Option RunState → EngineClient ε} {next' : Option RunState → EngineClient ε'}
    (hc : ∀ runId, (conflict runId).Alike (conflict' runId))
    (hn : ∀ s s', Option.Rel RunState.Agrees s s' → (next s).Alike (next' s'))
    {r : CallResult ε} {r' : CallResult ε'} (h : r.Matches r') :
    EngineClient.Alike (r.andThen conflict next) (r'.andThen conflict' next') := by
  obtain ⟨halike, hpoints, hloaded⟩ := h
  cases r with
  | created s =>
    cases r' with
    | created s' => exact hn _ _ (.some (.inl halike))
    | _ => cases halike
  | alreadyActive runId =>
    cases r' with
    | alreadyActive runId' =>
      obtain rfl : runId = runId' := halike
      exact hc runId
    | failed e => cases hpoints
    | _ => cases halike
  | found s =>
    cases r' with
    | found s' =>
      apply hn
      cases s with
      | none =>
        cases s' with
        | none => exact .none
        | some s' => cases halike
      | some s =>
        cases s' with
        | none => cases halike
        | some s' => exact .some (.inr ⟨halike, hloaded s s' rfl rfl⟩)
    | _ => cases s <;> cases halike
  | done =>
    cases r' with
    | done => exact hn _ _ .none
    | _ => cases halike
  | failed e =>
    cases r' with
    | failed e' => exact .ends trivial
    | alreadyActive runId => cases hpoints
    | _ => cases halike

theorem raised_alike (e : Raised) :
    EngineClient.Alike (.ends (.raised e) : EngineClient ε) (.ends (.raised e) : EngineClient ε') :=
  .ends rfl

theorem asks_alike {next : Option RunState → EngineClient ε}
    {next' : Option RunState → EngineClient ε'} (call : StoreCall)
    (hn : ∀ s s', Option.Rel RunState.Agrees s s' → (next s).Alike (next' s')) :
    EngineClient.Alike (OverStore.asks call next) (OverStore.asks call next') :=
  .calls fun _ _ hr => andThen_alike (fun _ => raised_alike _) hn hr

theorem answers_alike (missing : String) {s s' : Option RunState}
    (h : Option.Rel RunState.Agrees s s') :
    EngineClient.Alike (OverStore.answers missing s : EngineClient ε)
      (OverStore.answers missing s' : EngineClient ε') := by
  cases h with
  | none => exact raised_alike _
  | some h => exact .ends h

variable {stack' : Nat} {rooms : Room × Room}

theorem reload_alike (runId : String) :
    EngineClient.Alike (OverStore.reload rooms runId : EngineClient ε)
      (OverStore.reload rooms runId : EngineClient ε') :=
  asks_alike _ fun _ _ => answers_alike _

theorem finishRun_alike (runId : String) (status : RunStatus) (error : Option PyStr)
    (reraise : Option Raised) :
    EngineClient.Alike (OverStore.finishRun rooms runId status error reraise : EngineClient ε)
      (OverStore.finishRun rooms runId status error reraise : EngineClient ε') := by
  rw [OverStore.finishRun.eq_def, OverStore.finishRun.eq_def]
  refine asks_alike _ fun _ _ _ => ?_
  cases reraise with
  | some e => exact raised_alike _
  | none => exact reload_alike runId

variable {s s' : Session} {f f' : Frame} {ctx ctx' : StepContext}

theorem StepContext.Alike.tokensUsed (h : ctx.Alike ctx') : ctx.tokensUsed = ctx'.tokensUsed := by
  rw [StepContext.tokensUsed, StepContext.tokensUsed, h.tokens]

theorem StepContext.Alike.attempts (h : ctx.Alike ctx') : ctx.attempts = ctx'.attempts := by
  rw [StepContext.attempts, StepContext.attempts, h.attemptCount]

theorem StepContext.Alike.wasHealed (h : ctx.Alike ctx') : ctx.wasHealed = ctx'.wasHealed := by
  rw [StepContext.wasHealed, StepContext.wasHealed, h.corrections]

-- what tells two frames apart is not written into a record
structure Frame.Alike (s s' : Session) (f f' : Frame) : Prop where
  call : s.call = s'.call
  index : f.index = f'.index
  step : f.step = f'.step
  payload : PyValue.Alike (ofStrDict f.payload) (ofStrDict f'.payload)
  previous : List.Forall₂ (Dict.EntryRel PyValue.Alike) f.previous f'.previous

theorem stepRecord_alike (hf : Frame.Alike s s' f f') (hctx : ctx.Alike ctx')
    (outcome : StepOutcome) (output : PyValue) (now : Datetime) :
    stepRecord s f outcome ctx output now = stepRecord s' f' outcome ctx' output now := by
  simp only [stepRecord, hf.call, hf.index, hf.step, hctx.tokensUsed, hctx.attempts]

theorem execute_alike {handle : String → StepContext → Execution} (h : Indifferent handle)
    (hf : Frame.Alike s s' f f') :
    (execute handle s f).result = (execute handle s' f').result ∧
      (execute handle s f).context.Alike (execute handle s' f').context := by
  have hctx : (f.context s).Alike (f'.context s') :=
    ⟨by rw [Frame.context, Frame.context, hf.call], hf.index, hf.payload, hf.previous,
      by rw [Frame.context, Frame.context, hf.step], rfl, rfl, rfl⟩
  simp only [execute, hf.step, hf.call]
  split
  · exact h f'.step.name _ _ hctx
  · exact ⟨by rw [noHandler, noHandler, hf.step], hctx⟩

theorem recordFailure_alike (hf : Frame.Alike s s' f f') (hctx : ctx.Alike ctx') (now : Datetime)
    (status : RunStatus) (reason : PyStr) (reraise : Option Raised) :
    EngineClient.Alike
      (OverStore.recordFailure stack' rooms s f ctx now status reason reraise : EngineClient ε)
      (OverStore.recordFailure stack' rooms s' f' ctx' now status reason reraise :
        EngineClient ε') := by
  rw [OverStore.recordFailure, OverStore.recordFailure, stepRecord_alike hf hctx, hf.call]
  cases stepRecord s' f' .failed ctx' (errorOutput reason) now with
  | error e => exact raised_alike _
  | ok r => exact asks_alike _ fun _ _ _ => finishRun_alike _ _ _ _

theorem runSteps_alike {handle : String → StepContext → Execution} (h : Indifferent handle)
    (now : Nat → Datetime) (hcall : s.call = s'.call) (steps : List Step) (index : Nat)
    {payload payload' : StrDict} {previous previous' : Outputs}
    (hpayload : PyValue.Alike (ofStrDict payload) (ofStrDict payload'))
    (hprevious : List.Forall₂ (Dict.EntryRel PyValue.Alike) previous previous') :
    EngineClient.Alike
      (OverStore.runSteps stack' rooms handle now s steps index payload previous :
        EngineClient ε)
      (OverStore.runSteps stack' rooms handle now s' steps index payload' previous' :
        EngineClient ε') := by
  induction steps generalizing index payload payload' previous previous' with
  | nil =>
    rw [OverStore.runSteps, OverStore.runSteps, hcall]
    exact finishRun_alike _ _ _ _
  | cons step rest ih =>
    have hf : Frame.Alike s s' ⟨index, step, payload, previous⟩
        ⟨index, step, payload', previous'⟩ := ⟨hcall, rfl, rfl, hpayload, hprevious⟩
    obtain ⟨hresult, hctx⟩ := execute_alike h hf
    simp only [OverStore.runSteps, hcall]
    split
    · exact raised_alike _
    · rw [hresult, hctx.wasHealed]
      generalize (execute handle s' ⟨index, step, payload', previous'⟩).result = result
      cases result with
      | simulatedCrash => exact raised_alike _
      | escalation reason => exact recordFailure_alike hf hctx _ _ _ _
      | exception typeName text =>
        cases text with
        | none => exact raised_alike _
        | some text => exact recordFailure_alike hf hctx _ _ _ _
      | returned output =>
        simp only [stepRecord_alike hf hctx]
        split
        · exact raised_alike _
        · exact asks_alike _ fun _ _ _ =>
            ih (index + 1) hctx.payload (Dict.set_related hctx.previous _ (.inl rfl))

theorem run_alike {handle : String → StepContext → Execution} (h : Indifferent handle)
    (now : Nat → Datetime) (granted : Bool) (c : Call) :
    EngineClient.Alike (OverStore.run stack' rooms handle now granted c : EngineClient ε)
      (OverStore.run stack' rooms handle now granted c : EngineClient ε') := by
  refine asks_alike _ fun s s' hs => ?_
  cases hs with
  | none => exact raised_alike _
  | @some s s' hs =>
    simp only [hs.status, hs.guard, hs.idempotencyKey, hs.nextIndex]
    split
    · exact .ends hs
    · split
      · exact raised_alike _
      · split
        · have hcall : (Session.mk c s).call = (Session.mk c s').call := rfl
          exact asks_alike _ fun _ _ _ =>
            runSteps_alike h now hcall _ _ hs.payload hs.previousOf
        · exact raised_alike _

theorem create_alike (q : Submission) (tie tie' : Nat) {conflict : String → EngineClient ε}
    {conflict' : String → EngineClient ε'}
    (hc : ∀ runId, (conflict runId).Alike (conflict' runId)) :
    EngineClient.Alike (OverStore.create stack' rooms q tie tie' conflict)
      (OverStore.create stack' rooms q tie tie' conflict') := by
  rw [OverStore.create, OverStore.create]
  split
  · exact raised_alike _
  · exact .calls fun _ _ hr => andThen_alike hc (fun _ _ => answers_alike "") hr

def Request.Indifferent : Request → Prop
  | .run handle _ _ _ => DurableAgent.Indifferent handle
  | _ => True

theorem client_alike {q : Request} (h : q.Indifferent) (tie' : Nat) :
    EngineClient.Alike (q.client tie' stack' rooms : EngineClient ε)
      (q.client tie' stack' rooms : EngineClient ε') := by
  cases q with
  | submit q tie => exact create_alike q tie tie' fun _ => raised_alike _
  | submitOrAttach q tie =>
    exact create_alike q tie tie' fun _ => asks_alike _ fun _ _ => answers_alike _
  | run handle clock granted call => exact run_alike h clock granted call

end Clients

section Backends

structure RunBindable (t : Tables) (depths : Nat × Nat) (rooms : Room × Room) (runId : String)
    (spec : RunSpec) : Prop where
  runId : storableText runId = true
  idempotencyKey : storableText spec.idempotencyKey = true
  planName : storableText spec.plan.name = true
  stack : SameStack depths spec.payload
  payload : ∀ o, toJsonObject spec.payload = some o → (jsonbObject o).isSome = true
  holder : ∀ row ∈ t.latestFor spec.idempotencyKey, t.WithinBoth rooms row

-- a request both can bind, also where the key refuses it
def Bindable (t : Tables) : StoreCall → Prop
  | .createRun depths rooms runId spec _ _ _ => RunBindable t depths rooms runId spec
  | _ => True

structure Interchangeable (zone : Postgres.Zone) (t : Tables) (c : StoreCall) : Prop where
  portable : Portable zone t c
  bindable : Bindable t c

variable {zone : Postgres.Zone} {t : Tables} {t' : Postgres.Tables}

theorem ofConflict_pointsAt {e : ε} {e' : ε'} {s s' : Option RunState}
    (h : Option.Rel RunState.Alike s s') :
    (CallResult.ofConflict e (.ok s)).pointsAt = (CallResult.ofConflict e' (.ok s')).pointsAt := by
  cases h with
  | none => rfl
  | some h => exact congrArg some h.runId

theorem createRun_pointsAt (h : Agreed zone t t') {depths : Nat × Nat} {rooms : Room × Room}
    {runId : String} {spec : RunSpec} {now tie tie' : Nat}
    (hc : Bindable t (.createRun depths rooms runId spec now tie tie')) :
    (sqliteCall t (.createRun depths rooms runId spec now tie tie')).2.pointsAt =
      (postgresCall zone t' (.createRun depths rooms runId spec now tie tie')).2.pointsAt := by
  obtain ⟨runs, steps, h⟩ := h
  rw [sqliteCall, postgresCall, Tables.insertRun, Postgres.Tables.insertRun]
  rcases hc.stack.dumps with ⟨ho, ho₁⟩ | ⟨o, hjson, ho, ho₁⟩
  · rw [ho, ho₁]
    rfl
  · obtain ⟨o', ho'⟩ := Option.isSome_iff_exists.mp (hc.payload o hjson)
    simp only [ho, ho₁, hc.runId, hc.idempotencyKey, hc.planName, ho', Bool.and_self, ← h.taken]
    by_cases htaken : ((t.runRow runId).isSome || t.activeClash runId spec.idempotencyKey) = true
    · obtain ⟨s, s', hs, hs', hall⟩ := h.readByKey hc.idempotencyKey hc.holder tie tie'
      rw [if_pos htaken, if_pos htaken, hs, hs']
      exact ofConflict_pointsAt hall
    · rw [if_neg htaken, if_neg htaken]
      rfl

theorem agree_pointsAt (h : Agreed zone t t') {c : StoreCall} (hc : Bindable t c) :
    (sqliteCall t c).2.pointsAt = (postgresCall zone t' c).2.pointsAt := by
  cases c with
  | createRun depths rooms runId spec now tie tie' => exact createRun_pointsAt h hc
  | append depths r =>
    simp only [sqliteCall, postgresCall]
    cases t.append depths.1 r <;> cases t'.append zone depths.2 r <;> rfl
  | setStatus runId status error =>
    simp only [sqliteCall, postgresCall]
    cases t.setStatus runId status error <;> cases t'.setStatus runId status error <;> rfl
  | load rooms runId =>
    simp only [sqliteCall, postgresCall]
    cases t.read rooms.1 runId <;> cases t'.load zone rooms.2 runId <;> rfl
  | findByKey rooms key tie tie' =>
    simp only [sqliteCall, postgresCall]
    cases t.readByKey rooms.1 key tie <;> cases t'.findByKey zone rooms.2 key tie' <;> rfl

theorem readRow_loaded {room : Room} {row : RunRow} {s : RunState}
    (h : t.readRow room row = .ok s) : s.Loaded := by
  obtain ⟨_, rfl⟩ := readRow_eq_ok.mp h
  refine ⟨⟨row.payload, rfl⟩, fun r hr => ?_⟩
  obtain ⟨x, _, rfl⟩ := List.mem_map.mp hr
  exact ⟨x.output, rfl⟩

theorem postgres_loadsColumn_ok {depth : Nat} {o : JsonObject} {d : StrDict}
    (h : Postgres.Tables.loadsColumn depth o = .ok d) : ∃ o, d = loadsObject o := by
  unfold Postgres.Tables.loadsColumn at h
  split at h <;> cases h
  exact ⟨o, rfl⟩

theorem readStep_loaded {room : Room} {row : Postgres.StepRow} {r : StepRecord}
    (h : Postgres.Tables.readStep zone room row = .ok r) : ∃ o, r.output = loadsObject o := by
  unfold Postgres.Tables.readStep at h
  split at h <;> cases h
  rename_i ho _
  exact postgres_loadsColumn_ok ho

theorem readSteps_loaded {room : Room} {rows : List Postgres.StepRow} {rs : List StepRecord}
    (h : rows.mapM (Postgres.Tables.readStep zone room) = .ok rs) :
    ∀ r ∈ rs, ∃ o, r.output = loadsObject o := by
  induction rows generalizing rs with
  | nil =>
    obtain rfl := Except.ok.inj h
    simp
  | cons row rows ih =>
    rw [List.mapM_cons] at h
    cases hr : Postgres.Tables.readStep zone room row with
    | error e =>
      rw [hr] at h
      cases h
    | ok r =>
      cases hrs : rows.mapM (Postgres.Tables.readStep zone room) with
      | error e =>
        rw [hr, hrs] at h
        cases h
      | ok rs' =>
        rw [hr, hrs] at h
        obtain rfl := Except.ok.inj h
        rw [List.forall_mem_cons]
        exact ⟨readStep_loaded hr, ih hrs⟩

theorem hydrate_loaded {room : Room} {row : Postgres.RunRow} {s : RunState}
    (h : t'.hydrate zone room row = .ok s) : s.Loaded := by
  unfold Postgres.Tables.hydrate at h
  split at h <;> cases h
  rename_i steps payload hpayload hsteps
  exact ⟨postgres_loadsColumn_ok hpayload, readSteps_loaded hsteps⟩

theorem readSome_loaded {room : Room} {row : Option RunRow} {s : RunState}
    (h : t.readSome room row = .ok (some s)) : s.Loaded := by
  cases row with
  | none => cases h
  | some row =>
    rw [Tables.readSome] at h
    cases hr : t.readRow room row with
    | error e =>
      rw [hr] at h
      cases h
    | ok state =>
      rw [hr] at h
      cases h
      exact readRow_loaded hr

theorem hydrateSome_loaded {room : Room} {row : Option Postgres.RunRow} {s : RunState}
    (h : t'.hydrateSome zone room row = .ok (some s)) : s.Loaded := by
  cases row with
  | none => cases h
  | some row =>
    rw [Postgres.Tables.hydrateSome] at h
    cases hr : t'.hydrate zone room row with
    | error e =>
      rw [hr] at h
      cases h
    | ok state =>
      rw [hr] at h
      cases h
      exact hydrate_loaded hr

theorem ofFound_eq_found {x : Except ε (Option RunState)} {s : RunState}
    (h : CallResult.ofFound x = .found (some s)) : x = .ok (some s) := by
  cases x with
  | error e => cases h
  | ok state =>
    cases h
    rfl

theorem ofConflict_ne_found {e : ε} {x : Except ε (Option RunState)} {s : Option RunState} :
    CallResult.ofConflict e x ≠ .found s := by
  cases x with
  | error e =>
    intro h
    cases h
  | ok state => cases state <;> intro h <;> cases h

theorem sqliteCall_loaded {c : StoreCall} {s : RunState}
    (h : (sqliteCall t c).2 = .found (some s)) : s.Loaded := by
  cases c with
  | load rooms runId => exact readSome_loaded (ofFound_eq_found h)
  | findByKey rooms key tie tie' => exact readSome_loaded (ofFound_eq_found h)
  | createRun depths rooms runId spec now tie tie' =>
    rw [sqliteCall] at h
    split at h
    · cases h
    · exact absurd h ofConflict_ne_found
    · cases h
  | append depths r =>
    rw [sqliteCall] at h
    split at h <;> cases h
  | setStatus runId status error =>
    rw [sqliteCall] at h
    split at h <;> cases h

theorem postgresCall_loaded {c : StoreCall} {s : RunState}
    (h : (postgresCall zone t' c).2 = .found (some s)) : s.Loaded := by
  cases c with
  | load rooms runId =>
    have hread := ofFound_eq_found h
    unfold Postgres.Tables.load at hread
    split at hread
    · exact hydrateSome_loaded hread
    · cases hread
  | findByKey rooms key tie tie' =>
    have hread := ofFound_eq_found h
    unfold Postgres.Tables.findByKey at hread
    split at hread
    · exact hydrateSome_loaded hread
    · cases hread
  | createRun depths rooms runId spec now tie tie' =>
    rw [postgresCall] at h
    split at h
    · cases h
    · exact absurd h ofConflict_ne_found
    · cases h
  | append depths r =>
    rw [postgresCall] at h
    split at h <;> cases h
  | setStatus runId status error =>
    rw [postgresCall] at h
    split at h <;> cases h

theorem agree_matches (h : Agreed zone t t') {c : StoreCall} (hc : Interchangeable zone t c) :
    Agreed zone (sqliteCall t c).1 (postgresCall zone t' c).1 ∧
      (sqliteCall t c).2.Matches (postgresCall zone t' c).2 := by
  obtain ⟨hkept, halike⟩ := agree h c hc.portable
  exact ⟨hkept, halike, agree_pointsAt h hc.bindable,
    fun _ _ hs hs' => ⟨sqliteCall_loaded hs, postgresCall_loaded hs'⟩⟩

-- one call of the engine, by a process that may be killed among its calls of the store; `locked'`
-- is what PostgreSQL's lock answers, where the request holds SQLite's answer
structure Visit where
  request : Request
  locked' : Bool
  tie' : Nat
  stack' : Nat
  rooms : Room × Room
  lives : Option Nat

def Request.answered (locked' : Bool) : Request → Request
  | .run handle clock _ call => .run handle clock locked' call
  | q => q

def Visit.clientOf (v : Visit) (q : Request) :
    Client StoreCall (CallResult ε) (Option (Conclusion ε)) :=
  (q.client v.tie' v.stack' v.rooms).cut v.lives

def sqliteVisit (t : Tables) (v : Visit) : Tables × Option (Conclusion Raised) :=
  (v.clientOf v.request).play sqliteCall t

def postgresVisit (zone : Postgres.Zone) (t : Postgres.Tables) (v : Visit) :
    Postgres.Tables × Option (Conclusion Postgres.Error) :=
  (v.clientOf (v.request.answered v.locked')).play (postgresCall zone) t

-- the two locks answer alike: no lease is left of a holder that died, whose session ended at once
def Visit.LocksAgree (v : Visit) : Prop :=
  match v.request with
  | .run _ _ granted _ => granted = v.locked'
  | _ => True

-- every call of its store can be made of either backend
def Visit.Portable (zone : Postgres.Zone) (t : Tables) (v : Visit) : Prop :=
  (v.clientOf v.request : Client StoreCall (CallResult Raised) (Option (Conclusion Raised))).Meets
    sqliteCall (Interchangeable zone) t

-- over SQLite a visit that is not cut short is the request served
theorem visit_serves {rooms : Room × Room} (h : t.Legible rooms.1) {q : Request}
    (hq : q.OnTheMinute) (hw : q.WritesWithin rooms.1) (locked' : Bool) (tie' stack' : Nat) :
    (sqliteVisit t ⟨q, locked', tie', stack', rooms, none⟩).1 = (serve t q.inSeconds).1 ∧
      (sqliteVisit t ⟨q, locked', tie', stack', rooms, none⟩).2.map Conclusion.outcome =
        some (serve t q.inSeconds).2 := by
  have hplayed : played ((q.client tie' stack' rooms).play sqliteCall t) = serve t q.inSeconds :=
    played_client h hq hw tie'
  rw [sqliteVisit, Visit.clientOf, play_cut, ← hplayed]
  exact ⟨rfl, rfl⟩

theorem answered_of_agree {v : Visit} (h : v.LocksAgree) :
    v.request.answered v.locked' = v.request := by
  unfold Visit.LocksAgree at h
  cases hq : v.request with
  | run handle clock granted call =>
    rw [hq] at h
    rw [Request.answered, h]
  | _ => rfl

theorem visit_alike (h : Agreed zone t t') {v : Visit} (hv : v.request.Indifferent)
    (hl : v.LocksAgree) (hp : v.Portable zone t) :
    Agreed zone (sqliteVisit t v).1 (postgresVisit zone t' v).1 ∧
      Option.Rel Conclusion.Alike (sqliteVisit t v).2 (postgresVisit zone t' v).2 := by
  have hstep : ∀ t t' c, Agreed zone t t' → Interchangeable zone t c →
      Agreed zone (sqliteCall t c).1 (postgresCall zone t' c).1 ∧
        (sqliteCall t c).2.Matches (postgresCall zone t' c).2 :=
    fun _ _ _ hs hc => agree_matches hs hc
  rw [sqliteVisit, postgresVisit, answered_of_agree hl]
  exact play_alike hstep ((client_alike hv v.tie').cut v.lives) h hp

-- the engine does not notice which of the two stores it is given
theorem engine_over_either_backend {visits : List Visit}
    (hhandlers : ∀ v ∈ visits, v.request.Indifferent) (hlocks : ∀ v ∈ visits, v.LocksAgree)
    (hcalls : Each sqliteVisit (fun t v => v.Portable zone t) Tables.empty visits) :
    ∀ before v later, visits = before ++ v :: later →
      Option.Rel Conclusion.Alike (sqliteVisit (after sqliteVisit Tables.empty before) v).2
        (postgresVisit zone (after (postgresVisit zone) Postgres.Tables.empty before) v).2 ∧
      Agreed zone (after sqliteVisit Tables.empty (before ++ [v]))
        (after (postgresVisit zone) Postgres.Tables.empty (before ++ [v])) := by
  let met (t : Tables) (v : Visit) : Prop :=
    v.request.Indifferent ∧ v.LocksAgree ∧ v.Portable zone t
  have hstep : ∀ t t' v, Agreed zone t t' → met t v →
      Agreed zone (sqliteVisit t v).1 (postgresVisit zone t' v).1 :=
    fun _ _ _ hs hv => (visit_alike hs hv.1 hv.2.1 hv.2.2).1
  intro before v later he
  have hmet : Each sqliteVisit met Tables.empty (before ++ v :: later) := by
    intro pre u post hsplit
    rw [← he] at hsplit
    have hu : u ∈ visits := by simp [hsplit]
    exact ⟨hhandlers u hu, hlocks u hu, hcalls pre u post hsplit⟩
  have hagreed := related hstep (empty_agreed zone) hmet.left
  obtain ⟨hv, hl, hp⟩ := hmet before v later rfl
  obtain ⟨hkept, halike⟩ := visit_alike hagreed hv hl hp
  refine ⟨halike, ?_⟩
  rw [after_snoc, after_snoc]
  exact hkept

-- answers how many steps came before
def counting (_ : String) (ctx : StepContext) : Execution :=
  ⟨.returned (.dict [(.str (.ofString "after"), .int ctx.previous.length)]), ctx⟩

theorem counting_indifferent : Indifferent counting := by
  intro name c c' h
  refine ⟨?_, h⟩
  rw [counting, counting, h.previous.length_eq]

def countedRun (lives : Option Nat) : Visit :=
  ⟨.run counting (fun _ => epoch) true chargeCall, true, 0, 900, rooms, lives⟩

-- killed once the first step is recorded, and called again once its lease has lapsed
def countedVisits : List Visit :=
  [⟨.submit ⟨["charge", "notify"], 900, "run", chargeSpec, 0⟩ 0, true, 0, 900, rooms, none⟩,
    countedRun (some 3), countedRun none]

theorem counted_load (h : t.Bounded ⟨900, 900⟩) :
    Interchangeable utc t (.load rooms "run") :=
  ⟨⟨by decide, fun _ hrow =>
    ⟨h.within (Tables.runRow_mem hrow), h.within (Tables.runRow_mem hrow)⟩⟩, trivial⟩

theorem counted_bounded (h : t.Bounded ⟨900, 900⟩) (status : RunStatus) (r : StepRecord) :
    (sqliteCall (sqliteCall t (.setStatus "run" status none)).1 (.append depths r)).1.Bounded
      ⟨900, 900⟩ := by
  have hset := bounded_sqliteCall (c := .setStatus "run" status none) h trivial
  exact bounded_sqliteCall (c := .append depths r) hset le_rfl

theorem counted_setStatus (t : Tables) (status : RunStatus) :
    Interchangeable utc t (.setStatus "run" status none) := by
  refine ⟨fun err herr _ => ?_, trivial⟩
  rw [← Option.some.inj herr]
  exact ⟨by decide, rfl⟩

theorem counted_append (t : Tables) {r : StepRecord} {i : Int} (hid : storableText r.runId = true)
    (hname : storableText r.name = true) (hindex : Postgres.fitsInteger r.index = true)
    (hattempts : Postgres.fitsInteger r.attempts = true)
    (htokens : Postgres.fitsInteger r.tokensUsed = true)
    (houtput : r.output = [(.ofString "after", .int i)]) (hat : r.createdAt = epoch) :
    Interchangeable utc t (.append depths r) := by
  have hport : ∀ o, toJsonObject r.output = some o → portableObject o = true := by
    intro o ho
    rw [houtput, toJsonObject, List.mapM_cons, List.mapM_nil, toJson] at ho
    split at ho
    · cases ho
      rfl
    · cases ho
  refine ⟨fun _ _ => ⟨rfl, fun _ => ⟨hid, hname, hindex, hattempts, htokens, fun o ho => ?_,
    fun _ => ⟨hport, by rw [hat]; rfl, by rw [hat]; rfl, rfl, rfl⟩⟩⟩, trivial⟩
  obtain ⟨o', ho', _⟩ := same_jsonbObject (hport o ho)
  exact Option.isSome_iff_exists.mpr ⟨o', ho'⟩

theorem engine_over_either_backend_killed :
    Option.Rel Conclusion.Alike
      (sqliteVisit (after sqliteVisit Tables.empty (countedVisits.take 2)) (countedRun none)).2
      (postgresVisit utc (after (postgresVisit utc) Postgres.Tables.empty (countedVisits.take 2))
        (countedRun none)).2 := by
  have hcalls : Each sqliteVisit (fun t v => v.Portable utc t) Tables.empty countedVisits := by
    rw [countedVisits, each_cons, each_cons, each_cons]
    have hcreated := bounded_sqliteCall (c := .createRun depths rooms "run" chargeSpec 0 0 0)
      (empty_bounded ⟨900, 900⟩) le_rfl
    refine ⟨?_, ?_, ?_, each_nil⟩
    · refine And.intro ⟨fun _ _ => ⟨rfl, fun _ => ?_⟩, ?_⟩ trivial
      · exact ⟨by decide, by decide, by decide, fun o ho => by
          rw [← Option.some.inj ho]
          rfl, fun r hr => absurd hr List.not_mem_nil⟩
      · exact ⟨by decide, by decide, by decide, rfl, fun o ho => by
          rw [← Option.some.inj ho]
          rfl, fun row hrow => absurd hrow List.not_mem_nil⟩
    · refine And.intro (counted_load hcreated) (And.intro (counted_setStatus _ _)
        (And.intro ?_ trivial))
      exact counted_append _ (i := 0) (by decide) (by decide) (by decide) (by decide) (by decide)
        rfl rfl
    · refine And.intro (counted_load ?_) (And.intro (counted_setStatus _ _) (And.intro ?_
        (And.intro (counted_setStatus _ _) (And.intro (counted_load ?_) trivial))))
      · exact counted_bounded hcreated _ _
      · exact counted_append _ (i := 1) (by decide) (by decide) (by decide) (by decide) (by decide)
          rfl rfl
      · exact bounded_sqliteCall (c := .setStatus "run" .completed none)
          (counted_bounded (counted_bounded hcreated _ _) _ _) trivial
  have hhandlers : ∀ v ∈ countedVisits, v.request.Indifferent := by
    intro v hv
    simp only [countedVisits, List.mem_cons, List.not_mem_nil, or_false] at hv
    rcases hv with rfl | rfl | rfl
    · exact trivial
    · exact counting_indifferent
    · exact counting_indifferent
  have hlocks : ∀ v ∈ countedVisits, v.LocksAgree := by
    intro v hv
    simp only [countedVisits, List.mem_cons, List.not_mem_nil, or_false] at hv
    rcases hv with rfl | rfl | rfl
    · exact trivial
    · exact rfl
    · exact rfl
  exact (engine_over_either_backend hhandlers hlocks hcalls (countedVisits.take 2)
    (countedRun none) [] rfl).1

end Backends

end DurableAgent
