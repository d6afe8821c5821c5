import DurableAgent.Resumption

namespace DurableAgent

open FirstWriter Interleaving Replay

variable {ι : Type}

def Plays (handle : String → StepContext → Execution) (runId : String) (_ : Shared ι) :
    Control → Action → Prop
  | .handling s f, .finish e _ => s.call.runId = runId →
      e = handle f.step.name (f.context s) ∨ e.result = .simulatedCrash
  | _, _ => True

theorem plays_iff {handle : String → StepContext → Execution} {runId : String} {sh : Shared ι}
    {ctrl : Control} {a : Action} : Plays handle runId sh ctrl a ↔
      ∀ x ∈ ctrl.finishing a, x.1.call.runId = runId →
        x.2.2 = handle x.2.1.step.name (x.2.1.context x.1) ∨ x.2.2.result = .simulatedCrash := by
  unfold Plays Control.finishing
  split <;> simp

instance (handle : String → StepContext → Execution) (runId : String) (sh : Shared ι)
    (ctrl : Control) (a : Action) : Decidable (Plays handle runId sh ctrl a) :=
  decidable_of_iff _ plays_iff.symm

def Placed (handle : String → StepContext → Execution) (origin : Session)
    (final : List Checkpoint) (ending : Ending) (t : Tables) (index : Nat)
    (payload : StrDict) (previous : Outputs) : Prop :=
  ∃ log, OnTrack handle origin final ending log (checkpoints t origin.call.runId) ∧
    log.length = index ∧ payload = origin.state.payload ∧ Agrees origin.call.plan log previous

def Control.Tracks (handle : String → StepContext → Execution) (origin : Session)
    (final : List Checkpoint) (ending : Ending) (t : Tables) : Control → Prop
  | .calling s f => s.call.runId = origin.call.runId →
      Placed handle origin final ending t f.index f.payload f.previous
  | .handling s f => s.call.runId = origin.call.runId →
      Placed handle origin final ending t f.index f.payload f.previous ∧
        f.step.name ∈ s.call.handlers
  | .appending s f r after => s.call.runId = origin.call.runId →
      ∃ log, OnTrack handle origin final ending log (checkpoints t origin.call.runId) ∧
        log.length = f.index ∧
        (Control.appending s f r after).entry = straight handle origin log ∧
        after.Carries origin log r
  | .settling s status error _ => s.call.runId = origin.call.runId →
      ∀ err, Tables.encodeError error = some err →
        ending.durable final = ⟨status, err, checkpoints t origin.call.runId⟩
  | _ => True

section Moves

variable {policy : LockPolicy ι} {w : ι} {sh sh' : Shared ι} {ctrl ctrl' : Control} {a : Action}
  {handle : String → StepContext → Execution} {origin s : Session} {f : Frame}
  {final log : List Checkpoint} {ending : Ending} {t t' : Tables}

theorem inert_tracks (h : ctrl.inert = true) : ctrl.Tracks handle origin final ending t := by
  cases ctrl <;> trivial

theorem next_tracks {index : Nat} {payload : StrDict} {previous : Outputs}
    (hw : SameWork origin.call s.call)
    (h : s.call.runId = origin.call.runId →
      Placed handle origin final ending t index payload previous) :
    (s.next index payload previous).Tracks handle origin final ending t := by
  apply next_cases
  · intro hle hid err he
    cases he
    obtain ⟨log, htrack, hlen, _⟩ := h hid
    rw [(hw hid).1] at hle
    have hs : origin.call.plan.steps[log.length]? = none := by
      rw [hlen]
      exact List.getElem?_eq_none_iff.mpr hle
    have hb : straight handle origin log = .halt .completed := by
      simp only [straight, hs]
    obtain ⟨rfl, rfl⟩ := htrack.halts.of_halt hb
    rcases htrack.rows with hrows | ⟨entry, status, reason, hstop, _⟩
    · rw [hrows]
      rfl
    · rw [hb] at hstop
      cases hstop
  · intro step _
    exact h
  · intro o
    trivial

theorem Placed.follows {index : Nat} {step : Step} {payload : StrDict} {previous : Outputs}
    (h : Placed handle origin final ending t index payload previous)
    (hs : origin.call.plan.steps[index]? = some step) :
    ∃ log, OnTrack handle origin final ending log (checkpoints t origin.call.runId) ∧
      Follows origin log ⟨index, step, payload, previous⟩ := by
  obtain ⟨log, htrack, hlen, hpay, hag⟩ := h
  exact ⟨log, htrack, hs, hlen, hpay, hag⟩

theorem conclude_tracks_other (hid : s.call.runId ≠ origin.call.runId) (e : Execution)
    (now : Datetime) : (conclude s f e now).Tracks handle origin final ending t := by
  apply conclude_cases
  · intro o
    trivial
  · intro status reason reraise r _ _ hid'
    exact absurd hid' hid
  · intro output r _ _ hid'
    exact absurd hid' hid

theorem conclude_tracks (hr : Reproducible origin.call.plan origin.state.payload handle)
    (hw : SameWork origin.call s.call) (hf : f.Sound t s)
    (h : s.call.runId = origin.call.runId →
      Placed handle origin final ending t f.index f.payload f.previous) (now : Datetime) :
    (conclude s f (execute handle s f) now).Tracks handle origin final ending t := by
  by_cases hid : s.call.runId = origin.call.runId
  · have hstep := hf.step
    rw [(hw hid).1] at hstep
    obtain ⟨log, htrack, hfol⟩ := (h hid).follows hstep
    have hentry := conclude_straight hr hid (hw hid).2.1 (hw hid).2.2 hfol now
    revert hentry
    apply conclude_cases (P := fun ctrl => ctrl.entry = straight handle origin log →
      ctrl.Tracks handle origin final ending t)
    · intro o _
      trivial
    · intro status reason reraise r _ _ he _
      exact ⟨log, htrack, hfol.length, he, trivial⟩
    · intro output r ho hrec he _
      exact ⟨log, htrack, hfol.length, he,
        proceed_carries hr hfol (fun x hx => (htrack.succeeded x hx).2) ho hrec⟩
  · exact conclude_tracks_other hid _ now

theorem failed_durable {entry : Checkpoint} {status : RunStatus} {reason : PyStr}
    {err : Option String} {log : List Checkpoint}
    (he : Tables.encodeError (some reason) = some err) :
    (Ending.failed entry status reason).durable log = ⟨status, err, log ++ [entry]⟩ := by
  rw [Tables.encodeError, Option.map_eq_some_iff] at he
  obtain ⟨text, htext, rfl⟩ := he
  simp only [Ending.durable, htext]

theorem appended_tracks {r : StepRecord} {after : AfterAppend} (hn : t.Numbered)
    (hs : (Control.appending s f r after).Sound t) (hw : SameWork origin.call s.call)
    (hk : (Control.appending s f r after).Tracks handle origin final ending t)
    (stored : t.append s.call.stack r = .ok t') :
    (after.control s f).Tracks handle origin final ending t' ∧
      (r.runId = origin.call.runId →
        ∃ log, OnTrack handle origin final ending log (checkpoints t' origin.call.runId)) := by
  obtain ⟨_, _, hrec⟩ := hs
  by_cases hid : s.call.runId = origin.call.runId
  · obtain ⟨log, htrack, hlen, hentry, hcar⟩ := hk hid
    have hrid : r.runId = origin.call.runId := hrec.runId.trans hid
    rcases htrack.append hn hrid (hrec.index.trans hlen.symm) hentry stored with
      ⟨entry, hst, hafter⟩
    cases after with
    | proceed payload previous =>
      obtain ⟨hemit, hck⟩ := hafter
      obtain ⟨hpay, hcarry⟩ := hcar
      rw [(hw hid).2.2] at hst
      obtain ⟨hag, hjson⟩ := hcarry entry hst
      have htrack' : OnTrack handle origin final ending (log ++ [entry])
          (checkpoints t' origin.call.runId) := hck.symm ▸ htrack.emit hemit hjson
      refine ⟨next_tracks hw fun _ => ⟨log ++ [entry], htrack', ?_, hpay, hag⟩, fun _ => ⟨_, htrack'⟩⟩
      rw [List.length_append, List.length_singleton, hlen]
    | settle status reason reraise =>
      obtain ⟨hstop, hck⟩ := hafter
      refine ⟨fun _ err he => ?_, fun _ => ⟨log, hck.symm ▸ htrack.fail hstop⟩⟩
      obtain ⟨rfl, rfl⟩ := htrack.halts.of_halt hstop
      rw [hck, failed_durable he]
  · refine ⟨?_, fun hrid => absurd (hrec.runId.symm.trans hrid) hid⟩
    cases after with
    | proceed payload previous => exact next_tracks hw fun hid' => absurd hid' hid
    | settle status reason reraise => exact fun hid' => absurd hid' hid

theorem Tracked.placed (h : Tracked handle origin final ending t) (hn : t.Numbered)
    (hs : s.Sound t) (hr : PlanRows t s.call.runId s.call.plan)
    (hid : s.call.runId = origin.call.runId) (hw : SameWork origin.call s.call)
    (hl : t.load s.call.runId = some s.state) :
    Placed handle origin final ending t s.state.nextIndex s.state.payload (previousOf s.state) := by
  obtain ⟨log, hlog⟩ := h.track
  obtain ⟨row, hrow, hpay, _⟩ := h.run
  have hstate : s.state = t.hydrate row := by
    rw [hid, Tables.load, hrow, Option.map_some] at hl
    exact (Option.some.inj hl).symm
  have hrid : row.runId = origin.call.runId := Tables.runRow_runId hrow
  have hfront : Front (t.rowsOf row.runId) log.length := hrid.symm ▸ hlog.front hn
  have hnext : s.state.nextIndex = log.length := by
    rw [hstate]
    exact hfront.nextIndex hn
  have hag : Agrees s.call.plan log (previousOf s.state) :=
    OnTrack.previousOf hs hn hr (hid.symm ▸ hlog) hnext
  rw [(hw hid).1] at hag
  exact ⟨log, hlog, hnext.symm, by rw [hstate]; exact hpay, hag⟩

theorem handled_tracks {e : Execution} {now : Datetime}
    (hr : Reproducible origin.call.plan origin.state.payload handle)
    (hw : SameWork origin.call s.call) (hf : f.Sound t s)
    (hk : (Control.handling s f).Tracks handle origin final ending t)
    (hp : Plays handle origin.call.runId sh (.handling s f) (.finish e now)) :
    (conclude s f e now).Tracks handle origin final ending t := by
  by_cases hid : s.call.runId = origin.call.runId
  · rcases hp hid with rfl | hcrash
    · have he : execute handle s f = handle f.step.name (f.context s) := if_pos (hk hid).2
      rw [← he]
      exact conclude_tracks hr hw hf (fun hid => (hk hid).1) now
    · simp only [conclude, hcrash]
      trivial
  · exact conclude_tracks_other hid _ now

theorem Move.tracks (h : Move policy w sh ctrl a sh' ctrl')
    (hr : Reproducible origin.call.plan origin.state.payload handle) (ht : sh.tables.Sound)
    (hs : ctrl.Sound sh.tables) (hw : ctrl.Calls (SameWork origin.call))
    (hplan : PlanRows sh.tables origin.call.runId origin.call.plan)
    (hcur : ctrl.Current sh.tables) (hx : Tracked handle origin final ending sh.tables)
    (hk : ctrl.Tracks handle origin final ending sh.tables)
    (hp : Plays handle origin.call.runId sh ctrl a) :
    ctrl'.Tracks handle origin final ending sh'.tables := by
  cases h with
  | rest tables log inert => exact inert_tracks inert
  | submitted inserted => trivial
  | called => trivial
  | snapshot load active matched => trivial
  | granted free => trivial
  | @started s a t ctrl' writes set next =>
    rcases next with rfl | inert
    · apply next_tracks hw
      intro hid
      have hplan' : PlanRows sh.tables s.call.runId s.call.plan := by
        rw [hid, (hw hid).1]
        exact hplan
      have hplaced := hx.placed ht.numbered hs hplan' hid hw (hcur.loaded s (.inr rfl))
      have hsame := checkpoints_congr (Tables.rowsOf_setStatus set origin.call.runId)
      obtain ⟨log, hlog, hrest⟩ := hplaced
      exact ⟨log, hsame.symm ▸ hlog, hrest⟩
    · exact inert_tracks inert
  | began known => exact fun hid => ⟨hk hid, known⟩
  | @missing s f now unknown =>
    have he : execute handle s f = ⟨noHandler f, f.context s⟩ := if_neg unknown
    rw [← he]
    exact conclude_tracks hr hw hs.2 hk now
  | @returned s f e now output result =>
    exact handled_tracks hr hw hs.2 hk hp
  | @threw s f e now result =>
    exact handled_tracks hr hw hs.2 hk hp
  | appended writes stored next =>
    rcases next with rfl | inert
    · exact (appended_tracks ht.numbered hs hw hk stored).1
    · exact inert_tracks inert
  | settled writes set inert => exact inert_tracks inert

theorem Move.tracked (h : Move policy w sh ctrl a sh' ctrl') (ht : sh.tables.Sound)
    (hs : ctrl.Sound sh.tables) (hw : ctrl.Calls (SameWork origin.call))
    (hcur : ctrl.Current sh.tables) (hx : Tracked handle origin final ending sh.tables)
    (hk : ctrl.Tracks handle origin final ending sh.tables) :
    Tracked handle origin final ending sh'.tables := by
  have ht' := h.tables_sound ht hs
  obtain ⟨row, hrow, hpay, hterm⟩ := hx.run
  constructor
  · rcases h.run_row hrow with hkeep | ⟨s, _, _, hstart⟩ |
      ⟨s, status, error, reraise, err, rfl, hid, he, _, hset⟩
    · refine ⟨row, hkeep, hpay, fun hact => ?_⟩
      have hrows : sh'.tables.rowsOf origin.call.runId = sh.tables.rowsOf origin.call.runId := by
        apply h.keeps_rows
        rintro s f r after rfl hid
        obtain ⟨row', hrow', hlive⟩ := hcur.live s rfl
        rw [hs.2.2.runId.symm.trans hid, hrow] at hrow'
        cases hrow'
        rw [hact] at hlive
        cases hlive
      rw [durable_eq ht'.numbered hkeep, checkpoints_congr hrows, ← durable_eq ht.numbered hrow]
      exact hterm hact
    · refine ⟨_, hstart, hpay, fun hact => ?_⟩
      cases hact
    · refine ⟨_, hset, hpay, fun _ => ?_⟩
      have hrows : sh'.tables.rowsOf origin.call.runId = sh.tables.rowsOf origin.call.runId := by
        apply h.keeps_rows
        rintro _ _ _ _ hctrl
        cases hctrl
      rw [durable_eq ht'.numbered hset, hk hid err he, checkpoints_congr hrows]
  · by_cases hn : ∃ s f r after, ctrl = .appending s f r after ∧ r.runId = origin.call.runId
    · obtain ⟨s, f, r, after, rfl, hid⟩ := hn
      cases h with
      | rest tables log inert => exact tables ▸ hx.track
      | appended writes stored next => exact (appended_tracks ht.numbered hs hw hk stored).2 hid
    · have hrows := h.keeps_rows fun s f r after he hid => hn ⟨s, f, r, after, he, hid⟩
      rw [checkpoints_congr hrows]
      exact hx.track

end Moves

section Runs

variable [DecidableEq ι] [Subsingleton ι]

theorem transparency_outline (policy : LockPolicy ι)
    {handle : String → StepContext → Execution} {origin : Session}
    (hr : Reproducible origin.call.plan origin.state.payload handle) (final : List Checkpoint)
    (ending : Ending) :
    Outline (workerStep policy)
      (fun sh ctrl a => a.Calls (SameWork origin.call) ∧
        Plays handle origin.call.runId sh ctrl a)
      (fun sh => (sh.tables.Sound ∧ PlanRows sh.tables origin.call.runId origin.call.plan) ∧
        Tracked handle origin final ending sh.tables)
      (fun _ sh ctrl => (ctrl.Sound sh.tables ∧ ctrl.Calls (SameWork origin.call)) ∧
        ctrl.Current sh.tables ∧ ctrl.Tracks handle origin final ending sh.tables) := by
  have hplan : ∀ c, SameWork origin.call c → PlanFor origin.call.runId origin.call.plan c :=
    fun _ hw hid => (hw hid).1
  apply ((plan_outline policy hplan).restrict And.left).extend_alone
  intro i sh ctrl a sh' ctrl' hg hl hx hk hp ha
  have hm := workerStep_move ha
  refine ⟨hm.tracked hg.1 hl.1 hl.2 hk.1 hx hk.2, hm.current hl.1 hk.1, ?_⟩
  exact hm.tracks hr hg.1 hl.1 hl.2 hg.2 hk.1 hx hk.2 hp.2

theorem straight_halts (handle : String → StepContext → Execution) (origin : Session) :
    ∃ final ending, Halts (straight handle origin) [] final ending := by
  have hbound : ∀ log : List Checkpoint, origin.call.plan.steps.length ≤ log.length →
      ∃ b, straight handle origin log = .halt b := by
    intro log hle
    have hs : origin.call.plan.steps[log.length]? = none := List.getElem?_eq_none_iff.mpr hle
    exact ⟨.completed, by simp only [straight, hs]⟩
  exact exists_halts hbound []

theorem tracked_submitted {t t₀ : Tables} {stack : Nat} {runId : String} {spec : RunSpec}
    {created : Nat} {submitted : RunState} (ht : t.Sound)
    (hsub : t.insertRun stack runId spec created = .ok t₀)
    (hload : t₀.load runId = some submitted) {plan : Plan} {handlers : List String} {n : Nat}
    {handle : String → StepContext → Execution} {final : List Checkpoint} {ending : Ending}
    (hh : Halts (straight handle ⟨⟨handlers, runId, plan, none, n⟩, submitted⟩) [] final ending) :
    (t₀.Sound ∧ PlanRows t₀ runId plan) ∧
      Tracked handle ⟨⟨handlers, runId, plan, none, n⟩, submitted⟩ final ending t₀ := by
  have hsound : t₀.Sound := ⟨Tables.insertRun_wellFormed ht.wellFormed hsub,
    fun id => Tables.rowsOf_insertRun hsub id ▸ ht.numbered id⟩
  have hrows : t₀.rowsOf runId = [] := by
    obtain ⟨_, hn, _, _⟩ := Tables.insertRun_ok hsub
    rw [Tables.rowsOf_insertRun hsub]
    exact Tables.rowsOf_eq_nil ht.wellFormed hn
  obtain ⟨row, hrow, hpending⟩ := Tables.runRow_inserted hsub
  refine ⟨⟨hsound, planRows_of_nil hrows⟩, ⟨row, hrow, ?_, ?_⟩, ⟨[], hh, ?_, ?_⟩⟩
  · obtain ⟨row', hrow', _, rfl⟩ := load_eq_some hload
    rw [hrow] at hrow'
    cases hrow'
    rfl
  · intro hterm
    rw [hpending] at hterm
    cases hterm
  · intro entry hmem
    cases hmem
  · exact .inl (by rw [checkpoints, hrows]; rfl)

theorem crash_transparency (policy : LockPolicy ι) {es₀ es : List (ι × Action)} {c₀ c : System ι}
    {runId : String} {spec : RunSpec} {created : Nat} {t₀ : Tables} {submitted : RunState}
    {plan : Plan} {handlers : List String} {stack stack₀ : Nat}
    {handle : String → StepContext → Execution}
    (h₀ : runSystem policy (System.start Tables.empty) es₀ = some c₀)
    (hsub : c₀.shared.tables.insertRun stack₀ runId spec created = .ok t₀)
    (hload : t₀.load runId = some submitted)
    (hr : Reproducible plan submitted.payload handle)
    (hcalls : ∀ e ∈ es, e.2.Calls (SameWork ⟨handlers, runId, plan, none, stack⟩))
    (hplays : alongSystem policy (Plays handle runId) (System.start t₀) es)
    (h : runSystem policy (System.start t₀) es = some c) (now now' : Nat → Datetime) :
    durable (run handle now true c.shared.tables ⟨handlers, runId, plan, none, stack⟩).1 runId =
      durable (run handle now' true t₀ ⟨handlers, runId, plan, none, stack⟩).1 runId := by
  let origin : Session := ⟨⟨handlers, runId, plan, none, stack⟩, submitted⟩
  have hr' : Reproducible origin.call.plan origin.state.payload handle := hr
  obtain ⟨final, ending, hh⟩ := straight_halts handle origin
  have hstart := tracked_submitted (run_sound (start_sound empty_sound) h₀).1 hsub hload hh
  have hd := (transparency_outline policy hr' final ending).run_along ?_
    (Transition.along_and (calls_along hcalls) hplays) h
  · have hleft := run_durable hr' rfl hd.1.1.1 hd.1.1.2 hd.1.2 now
    have hright := run_durable hr' rfl hstart.1.1 hstart.1.2 hstart.2 now'
    exact hleft.trans hright.symm
  · exact ⟨hstart, fun _ => ⟨⟨trivial, trivial⟩, inert_current rfl, trivial⟩⟩

def recites (name : String) (ctx : StepContext) : Execution :=
  ⟨.returned (if name = "charge" then answer "first"
    else (Dict.get? ctx.previous "charge").getD (answer "unpaid")), ctx⟩

theorem isJsonDict_answer (text : String) : isJsonDict (answer text) := by
  simp [answer, isJsonDict, isJson, isJsonPairs, strKey, Dict.keys]

theorem chargePlan_step {i : Nat} {step : Step} (h : chargePlan.steps[i]? = some step) :
    step.name = "charge" ∨ i = 1 ∧ step.name = "notify" := by
  rcases i with _ | _ | i
  · cases h
    exact .inl rfl
  · cases h
    exact .inr ⟨rfl, rfl⟩
  · cases h

theorem recites_reproducible (payload : StrDict) : Reproducible chargePlan payload recites where
  determined := by
    rintro step ctx ctx' hs ⟨hctx, hsame⟩
    have hfields : ctx.attempts = ctx'.attempts ∧ ctx.tokensUsed = ctx'.tokensUsed ∧
        ctx.wasHealed = ctx'.wasHealed := by
      rw [hctx]
      exact ⟨rfl, rfl, rfl⟩
    rcases chargePlan_step hs with hn | ⟨hi, hn⟩
    · simp only [recites, Execution.answer, hn, if_true, hfields]
    · have hprev := hsame 0 (by omega) { name := "charge", effect := true } rfl
      simp only [recites, Execution.answer, hprev, hfields]
  json := by
    intro step ctx output hs _ hj ho
    rcases chargePlan_step hs with hn | ⟨hi, hn⟩
    · simp only [recites, hn, if_true] at ho
      cases ho
      exact isJsonDict_answer _
    · have hne : ¬ step.name = "charge" := by
        rw [hn]
        decide
      simp only [recites, if_neg hne] at ho
      cases hprev : Dict.get? ctx.previous "charge" with
      | none =>
        rw [hprev] at ho
        cases ho
        exact isJsonDict_answer _
      | some v =>
        rw [hprev] at ho
        cases ho
        exact hj 0 (by omega) { name := "charge", effect := true } v rfl hprev
  keepsPayload _ _ _ := rfl
  keepsOutputs _ _ _ _ _ _ _ := rfl

def interrupted : List (Unit × Action) :=
  turns () (opens ++ charges "first" ++ [.begin, .die] ++ opens ++
    [.begin, finishes 1 [("charge", answer "first")] (.returned (answer "first")), .store, .die])

def submittedCharge : Tables :=
  ⟨[⟨"run", "order-0001", "payment", [], .pending, none, 0⟩], []⟩

theorem crash_transparency_interrupted :
    ∃ c : System Unit, Tables.empty.insertRun 900 "run" chargeSpec 0 = .ok submittedCharge ∧
      runSystem perfectLock (System.start submittedCharge) interrupted = some c ∧
      durable (run recites (fun _ => epoch) true c.shared.tables chargeCall).1 "run" =
        durable (run recites (fun _ => epoch) true submittedCharge chargeCall).1 "run" := by
  have hsub : Tables.empty.insertRun 900 "run" chargeSpec 0 = .ok submittedCharge := rfl
  have hload : ∃ state, submittedCharge.load "run" = some state := ⟨_, rfl⟩
  obtain ⟨state, hload⟩ := hload
  have hcalls : ∀ e ∈ interrupted, e.2.Calls (SameWork chargeCall) := by decide
  have hplays : alongSystem perfectLock (Plays recites "run") (System.start submittedCharge)
    interrupted := by decide +kernel
  have hr : (runSystem perfectLock (System.start submittedCharge) interrupted).isSome = true := by
    decide +kernel
  obtain ⟨c, hc⟩ := Option.isSome_iff_exists.mp hr
  have h₀ : runSystem perfectLock (System.start Tables.empty : System Unit) [] =
      some (System.start Tables.empty) := rfl
  exact ⟨c, hsub, hc, crash_transparency perfectLock h₀ hsub hload (recites_reproducible _) hcalls
    hplays hc _ _⟩

end Runs

end DurableAgent
