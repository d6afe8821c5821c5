import DurableAgent.Sequential

namespace DurableAgent

open FirstWriter Interleaving

variable {ι : Type}

def OneTokenPerStep (blake2b : String → String) (log : List Event) (runId : String) : Prop :=
  ∀ name ctx name' ctx', Event.began name ctx ∈ log → Event.began name' ctx' ∈ log →
    ctx.runId = runId → ctx'.runId = runId →
    (name = name' ↔ ctx.effectToken blake2b = ctx'.effectToken blake2b)

def DoubtKept (log : List Event) (t : Tables) (runId : String) (plan : Plan) : Prop :=
  ∀ e ∈ log, match e with
    | .began name ctx => ctx.runId = runId →
        ctx.index ∉ (t.rowsOf runId).map StepRow.stepIndex →
        ∀ step ∈ plan.steps[ctx.index]?, step.name = name
    | _ => True

instance (log : List Event) (t : Tables) (runId : String) (plan : Plan) :
    Decidable (DoubtKept log t runId plan) := by
  unfold DoubtKept
  have each : ∀ e : Event, Decidable (match e with
      | .began name ctx => ctx.runId = runId →
          ctx.index ∉ (t.rowsOf runId).map StepRow.stepIndex →
          ∀ step ∈ plan.steps[ctx.index]?, step.name = name
      | _ => True) := by
    intro e
    split <;> infer_instance
  infer_instance

def KeepsDoubt (sh : Shared ι) : Control → Action → Prop
  | .loading c, .store => DoubtKept sh.log sh.tables c.runId c.plan
  | _, _ => True

def Control.reads : Control → Action → Option Call
  | .loading c, .store => some c
  | _, _ => none

theorem keepsDoubt_iff {sh : Shared ι} {ctrl : Control} {a : Action} : KeepsDoubt sh ctrl a ↔
    ∀ c ∈ ctrl.reads a, DoubtKept sh.log sh.tables c.runId c.plan := by
  unfold KeepsDoubt Control.reads
  split <;> simp

instance (sh : Shared ι) (ctrl : Control) (a : Action) : Decidable (KeepsDoubt sh ctrl a) :=
  decidable_of_iff _ keepsDoubt_iff.symm

structure BeganSound (log : List Event) (t : Tables) (runId : String) : Prop where
  reached : ∀ name ctx, Event.began name ctx ∈ log → ctx.runId = runId →
    ctx.index ≤ (t.rowsOf runId).length
  recorded : ∀ name ctx, Event.began name ctx ∈ log → ctx.runId = runId →
    ∀ row ∈ t.rowsOf runId, row.stepIndex = ctx.index → row.name = name
  earlier : ∀ name ctx, Event.began name ctx ∈ log → ctx.runId = runId →
    ∀ row ∈ t.rowsOf runId, row.stepIndex < ctx.index → row.name ≠ name
  agreed : ∀ name ctx name' ctx', Event.began name ctx ∈ log → Event.began name' ctx' ∈ log →
    ctx.runId = runId → ctx'.runId = runId → ctx.index = ctx'.index → name = name'

def Control.Planned (log : List Event) (t : Tables) (runId : String) (ctrl : Control) : Prop :=
  ∀ s, ctrl.engaged = some s → s.call.runId = runId →
    PlanRows t runId s.call.plan ∧ DoubtKept log t runId s.call.plan

section Moves

variable {policy : LockPolicy ι} {w : ι} {sh sh' : Shared ι} {ctrl ctrl' : Control} {a : Action}
  {runId : String}

theorem Move.new_began (h : Move policy w sh ctrl a sh' ctrl') {name : String}
    {ctx : StepContext} (he : Event.began name ctx ∈ sh'.log) :
    Event.began name ctx ∈ sh.log ∨
      ∃ s f, ctrl = .calling s f ∧ name = f.step.name ∧ ctx = f.context s ∧
        sh'.tables = sh.tables := by
  cases h with
  | rest tables log inert => exact .inl (log ▸ he)
  | @began s f known =>
    rcases List.mem_append.mp he with hold | hnew
    · exact .inl hold
    · cases List.mem_singleton.mp hnew
      exact .inr ⟨s, f, rfl, rfl, rfl, rfl⟩
  | returned result =>
    rcases List.mem_append.mp he with hold | hnew
    · exact .inl hold
    · cases List.mem_singleton.mp hnew
  | @appended s f r after a t ctrl' writes stored next =>
    have hl : Event.began name ctx ∈ (sh.checkpoint t (f.context s) r).log := he
    unfold Shared.checkpoint at hl
    simp only at hl
    split at hl
    · exact .inl hl
    · rcases List.mem_append.mp hl with hold | hnew
      · exact .inl hold
      · cases List.mem_singleton.mp hnew
  | _ => exact .inl he

theorem Move.keeps_indices (h : Move policy w sh ctrl a sh' ctrl') {i : Nat}
    (hi : i ∉ (sh'.tables.rowsOf runId).map StepRow.stepIndex) :
    i ∉ (sh.tables.rowsOf runId).map StepRow.stepIndex := by
  intro hm
  obtain ⟨more, hmore⟩ := h.grows.rows runId
  rw [hmore, List.map_append] at hi
  exact hi (List.mem_append_left _ hm)

theorem doubtKept_began {log : List Event} {t : Tables} {plan : Plan}
    (h : DoubtKept log t runId plan) {name : String} {ctx : StepContext}
    (he : Event.began name ctx ∈ log) (hid : ctx.runId = runId)
    (hn : ctx.index ∉ (t.rowsOf runId).map StepRow.stepIndex) {step : Step}
    (hs : plan.steps[ctx.index]? = some step) : step.name = name :=
  h _ he hid hn step hs

theorem snapshot_planned {t : Tables} {s : Session} (hl : t.load s.call.runId = some s.state)
    (hm : assertPlanMatchesHistory s.call.plan s.state = .ok ()) :
    PlanRows t s.call.runId s.call.plan := by
  intro row hrow
  obtain ⟨run, _, hid, hst⟩ := load_eq_some hl
  have hmem : Tables.hydrateStep row ∈ s.state.steps := by
    rw [hst]
    exact Tables.mem_hydrate_steps.mpr ⟨row, hid ▸ hrow, rfl⟩
  exact assertPlanMatchesHistory_ok.mp hm _ hmem

theorem Move.planned (h : Move policy w sh ctrl a sh' ctrl') (hs : ctrl.Sound sh.tables)
    (hp : ctrl.Planned sh.log sh.tables runId) (hk : KeepsDoubt sh ctrl a) :
    ctrl'.Planned sh'.log sh'.tables runId := by
  intro s heng hid
  rcases h.engaged heng with hold | ⟨rfl, rfl, rfl, hl, hm⟩
  · obtain ⟨hr, hd⟩ := hp s hold hid
    constructor
    · intro row hrow
      rcases h.new_row hrow with hrow | ⟨s', f, r, after, output, rfl, _, _, rfl, _⟩
      · exact hr row hrow
      · cases hold
        have hi : s.call.plan.steps[r.index]? = some f.step := by
          rw [hs.2.2.index]
          exact hs.2.1.step
        exact ⟨f.step, hi, hs.2.2.name.symm⟩
    · intro e he
      cases e with
      | began name ctx =>
        intro hctx hn step hstep
        rcases h.new_began he with hb | ⟨s', f, rfl, rfl, rfl, _⟩
        · exact doubtKept_began hd hb hctx (h.keeps_indices hn) hstep
        · cases hold
          have hf : some f.step = some step := hs.2.step.symm.trans hstep
          rw [Option.some.inj hf]
      | returned name ctx output => trivial
      | inserted ctx r => trivial
  · subst hid
    exact ⟨snapshot_planned hl hm, hk⟩

theorem began_agrees {s : Session} {f : Frame}
    (hs : (Control.calling s f).Sound sh.tables)
    (hp : (Control.calling s f).Planned sh.log sh.tables runId)
    (hb : BeganSound sh.log sh.tables runId) (hid : s.call.runId = runId) {name : String}
    {ctx : StepContext} (he : Event.began name ctx ∈ sh.log) (hctx : ctx.runId = runId)
    (hi : ctx.index = f.index) : f.step.name = name := by
  obtain ⟨hr, hd⟩ := hp s rfl hid
  have hstep : s.call.plan.steps[ctx.index]? = some f.step := by
    rw [hi]
    exact hs.2.step
  by_cases hm : ctx.index ∈ (sh.tables.rowsOf runId).map StepRow.stepIndex
  · obtain ⟨row, hrow, hri⟩ := List.mem_map.mp hm
    have h1 := hb.recorded name ctx he hctx row hrow hri
    have h2 := planRows_name hr hrow (hri ▸ hstep)
    exact h2.symm.trans h1
  · exact doubtKept_began hd he hctx hm hstep

theorem recorded_new {s : Session} {f : Frame} {r : StepRecord} {after : AfterAppend}
    (hs : (Control.appending s f r after).Sound sh.tables)
    (hp : (Control.appending s f r after).Planned sh.log sh.tables runId)
    (hid : r.runId = runId)
    (hnew : r.index ∉ (sh.tables.rowsOf runId).map StepRow.stepIndex) {name : String}
    {ctx : StepContext} (he : Event.began name ctx ∈ sh.log) (hctx : ctx.runId = runId)
    (hi : r.index = ctx.index) : r.name = name := by
  have hd := (hp s rfl (hs.2.2.runId.symm.trans hid)).2
  have hstep : s.call.plan.steps[ctx.index]? = some f.step := by
    rw [← hi, hs.2.2.index]
    exact hs.2.1.step
  exact hs.2.2.name.trans (doubtKept_began hd he hctx (hi ▸ hnew) hstep)

theorem Move.beganSound (h : Move policy w sh ctrl a sh' ctrl') (ht : sh.tables.Sound)
    (hs : ctrl.Sound sh.tables) (hp : ctrl.Planned sh.log sh.tables runId)
    (hb : BeganSound sh.log sh.tables runId) : BeganSound sh'.log sh'.tables runId := by
  constructor
  · intro name ctx he hctx
    have hlen := grows_length h.grows runId
    rcases h.new_began he with hold | ⟨s, f, rfl, rfl, rfl, _⟩
    · exact (hb.reached name ctx hold hctx).trans hlen
    · have hreach : f.index ≤ (sh.tables.rowsOf s.call.runId).length := hs.2.reached
      have hsid : s.call.runId = runId := hctx
      rw [hsid] at hreach
      exact hreach.trans hlen
  · intro name ctx he hctx row hrow hi
    rcases h.new_began he with hold | ⟨s, f, rfl, rfl, rfl, htab⟩
    · rcases h.new_row hrow with hrow | ⟨s, f, r, after, output, rfl, hid, _, rfl, hnew⟩
      · exact hb.recorded name ctx hold hctx row hrow hi
      · exact recorded_new hs hp hid hnew hold hctx hi
    · rw [htab] at hrow
      have hi' : row.stepIndex = f.index := hi
      exact planRows_name (hp s rfl hctx).1 hrow (hi' ▸ hs.2.step)
  · intro name ctx he hctx row hrow hlt
    rcases h.new_began he with hold | ⟨s, f, rfl, rfl, rfl, htab⟩
    · rcases h.new_row hrow with hrow | ⟨s, f, r, after, output, rfl, hid, _, rfl, hnew⟩
      · exact hb.earlier name ctx hold hctx row hrow hlt
      · have hreach := hb.reached name ctx hold hctx
        have hlt' : r.index < ctx.index := hlt
        rw [(ht.numbered runId).mem_map_iff] at hnew
        omega
    · rw [htab] at hrow
      have hlt' : row.stepIndex < f.index := hlt
      exact planRows_name_ne (hp s rfl hctx).1 hrow hs.2.step (Nat.ne_of_lt hlt')
  · intro name ctx name' ctx' he he' hctx hctx' hi
    rcases h.new_began he with hold | ⟨s, f, rfl, rfl, rfl, _⟩ <;>
      rcases h.new_began he' with hold' | ⟨s', f', heq, rfl, rfl, _⟩
    · exact hb.agreed name ctx name' ctx' hold hold' hctx hctx' hi
    · subst heq
      exact (began_agrees hs hp hb hctx' hold hctx hi).symm
    · exact began_agrees hs hp hb hctx hold' hctx' hi.symm
    · cases heq
      rfl

theorem tokens_of_beganSound {blake2b : String → String} (hinj : Function.Injective blake2b)
    {log : List Event} {t : Tables} (hn : t.Numbered) (hb : BeganSound log t runId) :
    OneTokenPerStep blake2b log runId := by
  have later : ∀ name ctx ctx', Event.began name ctx ∈ log → Event.began name ctx' ∈ log →
      ctx.runId = runId → ctx'.runId = runId → ¬ ctx.index < ctx'.index := by
    intro name ctx ctx' he he' hctx hctx' hlt
    have hreach := hb.reached name ctx' he' hctx'
    have hmem := (hn runId).mem_map_iff.mpr (hlt.trans_le hreach)
    obtain ⟨row, hrow, hi⟩ := List.mem_map.mp hmem
    have h1 := hb.recorded name ctx he hctx row hrow hi
    exact hb.earlier name ctx' he' hctx' row hrow (hi ▸ hlt) h1
  intro name ctx name' ctx' he he' hctx hctx'
  constructor
  · rintro rfl
    have h1 := later name ctx ctx' he he' hctx hctx'
    have h2 := later name ctx' ctx he' he hctx' hctx
    have hi : ctx.index = ctx'.index := by omega
    simp only [StepContext.effectToken, hctx, hctx', hi]
  · intro ht
    have hi := (effectToken_injective hinj ht).2
    exact hb.agreed name ctx name' ctx' he he' hctx hctx' hi

end Moves

section Runs

def replannedStep : List (Unit × Action) :=
  ((), submits) :: turns () (opens ++ [.begin, .die] ++
    [.call ⟨["notify"], "run", notifyPlan, none, 900⟩, .store, .lock true, .store, .begin])

theorem replanned_step_reuses_token :
    ¬ ∀ (blake2b : String → String), Function.Injective blake2b →
      ∀ (es : List (Unit × Action)) (c : System Unit) (runId : String),
        runSystem perfectLock (System.start Tables.empty) es = some c →
        OneTokenPerStep blake2b c.shared.log runId := by
  intro h
  have hs : ((runSystem perfectLock (System.start Tables.empty) replannedStep).any fun c =>
      c.shared.log.any fun e => c.shared.log.any fun e' =>
        match e, e' with
        | .began name ctx, .began name' ctx' => ctx.runId = "run" ∧ ctx'.runId = "run" ∧
            name ≠ name' ∧ ctx.index = ctx'.index
        | _, _ => false) = true := by decide +kernel
  obtain ⟨c, hc, hq⟩ := (Option.any_eq_true _ _).mp hs
  obtain ⟨e, he, hany⟩ := List.any_eq_true.mp hq
  obtain ⟨e', he', hpair⟩ := List.any_eq_true.mp hany
  split at hpair
  · rename_i name ctx name' ctx'
    rw [decide_eq_true_eq] at hpair
    obtain ⟨hid, hid', hne, hi⟩ := hpair
    have ht := h id Function.injective_id _ c "run" hc name ctx name' ctx' he he' hid hid'
    have hsame : ctx.effectToken id = ctx'.effectToken id := by
      simp only [StepContext.effectToken, hid, hid', hi]
    exact hne (ht.mpr hsame)
  · cases hpair

variable [DecidableEq ι] [Subsingleton ι]

theorem token_outline (policy : LockPolicy ι) (runId : String) :
    Outline (workerStep policy) KeepsDoubt
      (fun sh => sh.tables.Sound ∧ BeganSound sh.log sh.tables runId)
      (fun _ sh ctrl => ctrl.Sound sh.tables ∧ ctrl.Planned sh.log sh.tables runId) := by
  apply ((sound_outline policy).restrict fun _ => trivial).extend_alone
  intro i sh ctrl a sh' ctrl' hg hl hb hp hk ha
  have hm := workerStep_move ha
  exact ⟨hm.beganSound hg hl hp hb, hm.planned hl hp hk⟩

theorem one_token_per_step {blake2b : String → String} (hinj : Function.Injective blake2b)
    (policy : LockPolicy ι) (es : List (ι × Action)) (runId : String) {c : System ι}
    (hp : alongSystem policy KeepsDoubt (System.start Tables.empty) es)
    (h : runSystem policy (System.start Tables.empty) es = some c) :
    OneTokenPerStep blake2b c.shared.log runId := by
  have hd := (token_outline policy runId).run_along ?_ hp h
  · exact tokens_of_beganSound hinj hd.1.1.numbered hd.1.2
  · refine ⟨⟨empty_sound, ?_⟩, fun _ => ⟨trivial, fun s hs => ?_⟩⟩
    · constructor <;> intros <;> contradiction
    · cases hs

def retriedStep : List (Unit × Action) :=
  ((), submits) :: turns () (opens ++ [.begin, .die] ++ opens ++ charges "first" ++ [.begin])

theorem one_token_per_retried_step :
    ∃ c : System Unit, runSystem perfectLock (System.start Tables.empty) retriedStep = some c ∧
      OneTokenPerStep id c.shared.log "run" := by
  have hp : alongSystem perfectLock KeepsDoubt (System.start Tables.empty) retriedStep := by
    decide +kernel
  have hr : (runSystem perfectLock (System.start Tables.empty) retriedStep).isSome = true := by
    decide +kernel
  obtain ⟨c, hc⟩ := Option.isSome_iff_exists.mp hr
  exact ⟨c, hc, one_token_per_step Function.injective_id perfectLock retriedStep "run" hp hc⟩

end Runs

end DurableAgent
