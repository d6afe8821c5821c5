import DurableAgent.Worker

namespace DurableAgent

open FirstWriter Interleaving

variable {ι : Type}

abbrev System (ι : Type) := Config ι (Shared ι) Control

def System.start (t : Tables) : System ι := ⟨⟨t, fun _ => none, []⟩, fun _ => .atRest none⟩

def runSystem [DecidableEq ι] (policy : LockPolicy ι) :
    System ι → List (ι × Action) → Option (System ι) :=
  Transition.run (Interleaving.step (workerStep policy))

def alongSystem [DecidableEq ι] (policy : LockPolicy ι)
    (p : Shared ι → Control → Action → Prop) : System ι → List (ι × Action) → Prop :=
  Transition.along (Interleaving.step (workerStep policy)) (guarded p)

instance [DecidableEq ι] {policy : LockPolicy ι} {p : Shared ι → Control → Action → Prop}
    [∀ sh ctrl a, Decidable (p sh ctrl a)] (c : System ι) (es : List (ι × Action)) :
    Decidable (alongSystem policy p c es) :=
  inferInstanceAs (Decidable (Transition.along _ _ c es))

def Action.Calls (Q : Call → Prop) : Action → Prop
  | .call c => Q c
  | _ => True

instance {Q : Call → Prop} [DecidablePred Q] (a : Action) : Decidable (a.Calls Q) := by
  unfold Action.Calls
  split <;> infer_instance

def PlanFor (runId : String) (plan : Plan) (c : Call) : Prop := c.runId = runId → c.plan = plan

instance (runId : String) (plan : Plan) : DecidablePred (PlanFor runId plan) := fun c =>
  inferInstanceAs (Decidable (c.runId = runId → c.plan = plan))

def Action.uninterrupted : Action → Bool
  | .outage _ => false
  | .die => false
  | _ => true

def Tables.Numbered (t : Tables) : Prop :=
  ∀ id, FirstWriter.Numbered StepRow.stepIndex (t.rowsOf id)

structure Tables.Sound (t : Tables) : Prop where
  wellFormed : t.WellFormed
  numbered : t.Numbered

structure Session.Sound (t : Tables) (s : Session) : Prop where
  keyed : ∃ row, t.runRow s.call.runId = some row ∧ row.idempotencyKey = s.key
  seen : ∃ old more, t.rowsOf s.call.runId = old ++ more ∧
    s.state.steps = old.map Tables.hydrateStep
  active : s.state.status.isTerminal = false
  matched : assertPlanMatchesHistory s.call.plan s.state = .ok ()

structure Frame.Sound (t : Tables) (s : Session) (f : Frame) : Prop where
  step : s.call.plan.steps[f.index]? = some f.step
  reached : f.index ≤ (t.rowsOf s.call.runId).length
  resumed : s.state.nextIndex ≤ f.index

def AfterAppend.Fits (r : StepRecord) : AfterAppend → Prop
  | .proceed _ _ => r.outcome ≠ .failed
  | .settle status reason _ => r.outcome = .failed ∧ status.isTerminal = true ∧
      status ≠ .completed ∧ r.output = [(.ofString "error", .str reason)]

structure RecordSound (s : Session) (f : Frame) (r : StepRecord) (after : AfterAppend) : Prop where
  runId : r.runId = s.call.runId
  index : r.index = f.index
  name : r.name = f.step.name
  fits : after.Fits r

def Control.Sound (t : Tables) : Control → Prop
  | .locking s => s.Sound t
  | .starting s => s.Sound t
  | .calling s f => s.Sound t ∧ f.Sound t s
  | .handling s f => s.Sound t ∧ f.Sound t s
  | .appending s f r after => s.Sound t ∧ f.Sound t s ∧ RecordSound s f r after
  | .settling s status error _ => s.Sound t ∧ status.isTerminal = true ∧
      (status = .completed → error = none ∧
        s.call.plan.steps.length ≤ (t.rowsOf s.call.runId).length)
  | _ => True

theorem inert_sound {t : Tables} {ctrl : Control} (h : ctrl.inert = true) : ctrl.Sound t := by
  cases ctrl <;> trivial

section Grow

variable {t t' : Tables} (hg : t.Grows t')

include hg

theorem grows_length (id : String) : (t.rowsOf id).length ≤ (t'.rowsOf id).length := by
  obtain ⟨more, hm⟩ := hg.rows id
  rw [hm, List.length_append]
  omega

theorem Session.Sound.grows {s : Session} (h : s.Sound t) : s.Sound t' := by
  obtain ⟨row, hr, hk⟩ := h.keyed
  obtain ⟨row', hr', hk'⟩ := hg.runs _ row hr
  obtain ⟨old, more, ho, hs⟩ := h.seen
  obtain ⟨more', hm⟩ := hg.rows s.call.runId
  exact ⟨⟨row', hr', hk'.trans hk⟩, ⟨old, more ++ more', by rw [hm, ho, List.append_assoc], hs⟩,
    h.active, h.matched⟩

theorem Frame.Sound.grows {s : Session} {f : Frame} (h : f.Sound t s) : f.Sound t' s :=
  ⟨h.step, h.reached.trans (grows_length hg _), h.resumed⟩

theorem Control.Sound.grows {ctrl : Control} (h : ctrl.Sound t) : ctrl.Sound t' := by
  cases ctrl with
  | locking s => exact Session.Sound.grows hg h
  | starting s => exact Session.Sound.grows hg h
  | calling s f => exact ⟨h.1.grows hg, h.2.grows hg⟩
  | handling s f => exact ⟨h.1.grows hg, h.2.grows hg⟩
  | appending s f r after => exact ⟨h.1.grows hg, h.2.1.grows hg, h.2.2⟩
  | settling s status error reraise =>
    refine ⟨h.1.grows hg, h.2.1, fun hc => ?_⟩
    obtain ⟨he, hl⟩ := h.2.2 hc
    exact ⟨he, hl.trans (grows_length hg _)⟩
  | _ => trivial

end Grow

section Step

variable {t : Tables} {s : Session} {f : Frame}

theorem Session.Sound.row_of_step (h : s.Sound t) {r : StepRecord} (hr : r ∈ s.state.steps) :
    ∃ row ∈ t.rowsOf s.call.runId, Tables.hydrateStep row = r := by
  obtain ⟨old, more, ho, hs⟩ := h.seen
  rw [hs] at hr
  obtain ⟨row, hrow, he⟩ := List.mem_map.mp hr
  exact ⟨row, ho ▸ List.mem_append_left more hrow, he⟩

theorem Session.Sound.nextIndex_le (h : s.Sound t) (hn : t.Numbered) :
    s.state.nextIndex ≤ (t.rowsOf s.call.runId).length := by
  by_contra hlt
  obtain ⟨r, hr, hi, _⟩ := RunState.mem_done_of_lt (Nat.lt_of_not_le hlt)
  obtain ⟨row, hrow, rfl⟩ := h.row_of_step hr
  have := (hn s.call.runId).idx_lt hrow
  exact absurd hi (Nat.ne_of_lt this)

theorem next_sound (h : s.Sound t) {index : Nat} (payload : StrDict) (previous : Outputs)
    (hi : index ≤ (t.rowsOf s.call.runId).length) (hr : s.state.nextIndex ≤ index) :
    (s.next index payload previous).Sound t := by
  apply next_cases
  · intro hn
    exact ⟨h, rfl, fun _ => ⟨rfl, hn.trans hi⟩⟩
  · intro step hs
    exact ⟨h, hs, hi, hr⟩
  · intro o
    trivial

theorem conclude_sound (h : s.Sound t) (hf : f.Sound t s) (e : Execution) (now : Datetime) :
    (conclude s f e now).Sound t := by
  apply conclude_cases
  · intro o
    trivial
  · intro status reason reraise r hfail hr
    obtain ⟨h1, h2, h3, h4, h5⟩ := stepRecord_ok hr
    obtain ⟨ht, hc⟩ := HandlerResult.failure_status hfail
    rw [validate_errorOutput] at h5
    exact ⟨h, hf, h1, h2, h3, h4, ht, hc, (Option.some.inj h5).symm⟩
  · intro output r _ hr
    obtain ⟨h1, h2, h3, h4, _⟩ := stepRecord_ok hr
    refine ⟨h, hf, h1, h2, h3, ?_⟩
    simp only [AfterAppend.Fits, h4]
    split <;> decide

theorem hydrate_steps (row : RunRow)
    (hn : FirstWriter.Numbered StepRow.stepIndex (t.rowsOf row.runId)) :
    (t.hydrate row).steps = (t.rowsOf row.runId).map Tables.hydrateStep := by
  have hs : (t.rowsOf row.runId).Pairwise fun a b => a.stepIndex ≤ b.stepIndex := by
    have hp : ((t.rowsOf row.runId).map StepRow.stepIndex).Pairwise (· ≤ ·) :=
      hn ▸ List.pairwise_le_range
    exact List.pairwise_map.mp hp
  rw [Tables.hydrate, hs.insertionSort_eq]

theorem load_eq_some {runId : String} {state : RunState} (h : t.load runId = some state) :
    ∃ row, t.runRow runId = some row ∧ row.runId = runId ∧ state = t.hydrate row := by
  obtain ⟨row, hr, he⟩ := Option.map_eq_some_iff.mp h
  exact ⟨row, hr, Tables.runRow_runId hr, he.symm⟩

theorem snapshot_sound (ht : t.Sound) {c : Call} {state : RunState}
    (hl : t.load c.runId = some state) (ha : state.status.isTerminal = false)
    (hm : assertPlanMatchesHistory c.plan state = .ok ()) : Session.Sound t ⟨c, state⟩ := by
  obtain ⟨row, hr, hid, rfl⟩ := load_eq_some hl
  refine ⟨⟨row, hr, rfl⟩, ⟨t.rowsOf c.runId, [], by simp, ?_⟩, ha, hm⟩
  rw [hydrate_steps row (ht.numbered _), hid]

theorem append_numbered {t' : Tables} {r : StepRecord} (hn : t.Numbered)
    (hr : r.index ≤ (t.rowsOf r.runId).length) (h : t.append stack r = .ok t') : t'.Numbered := by
  intro id
  obtain ⟨output, ho, _, _⟩ := Tables.append_ok h
  rw [Tables.rowsOf_append h ho]
  split
  · rename_i heq
    exact (hn id).insert (heq ▸ hr)
  · exact hn id

theorem lt_length_append {t' : Tables} {r : StepRecord} (hn : t.Numbered)
    (hr : r.index ≤ (t.rowsOf r.runId).length) (h : t.append stack r = .ok t') :
    r.index < (t'.rowsOf r.runId).length := by
  obtain ⟨output, ho, _, _⟩ := Tables.append_ok h
  rw [Tables.rowsOf_append h ho, if_pos rfl]
  exact (hn r.runId).lt_insert_length (r := r.row output) hr

theorem appended_sound {t' : Tables} {r : StepRecord} {after : AfterAppend} (ht : t.Sound)
    (h : (Control.appending s f r after).Sound t) (ha : t.append stack r = .ok t') :
    (after.control s f).Sound t' := by
  obtain ⟨hs, hf, hr⟩ := h
  have hg := Tables.append_grows ha
  have hs' := hs.grows hg
  cases after with
  | proceed payload previous =>
    have hle : r.index ≤ (t.rowsOf r.runId).length := by
      rw [hr.index, hr.runId]
      exact hf.reached
    have hlt := lt_length_append ht.numbered hle ha
    rw [hr.index, hr.runId] at hlt
    exact next_sound hs' payload previous hlt (hf.resumed.trans (Nat.le_succ _))
  | settle status reason reraise =>
    obtain ⟨_, h2, h3, _⟩ := hr.fits
    exact ⟨hs', h2, fun hc => absurd hc h3⟩

end Step

theorem load_grows {t t' : Tables} (hg : t.Grows t') {runId : String} {state : RunState}
    (h : t.load runId = some state) :
    ∃ state', t'.load runId = some state' ∧ state.nextIndex ≤ state'.nextIndex := by
  obtain ⟨row, hr, hid, rfl⟩ := load_eq_some h
  obtain ⟨row', hr', _⟩ := hg.runs runId row hr
  have hid' : row'.runId = runId := Tables.runRow_runId hr'
  refine ⟨t'.hydrate row', by rw [Tables.load, hr', Option.map_some], FirstGap.firstGap_mono ?_⟩
  intro i hi
  obtain ⟨r, hm, rfl⟩ := List.mem_map.mp hi
  have hr := List.mem_filter.mp hm
  obtain ⟨x, hx, hxr⟩ := Tables.mem_hydrate_steps.mp hr.1
  have hsub : x ∈ t'.rowsOf row'.runId := by
    obtain ⟨more, hrows⟩ := hg.rows runId
    rw [hid', hrows]
    exact List.mem_append_left more (hid ▸ hx)
  have hmem : r ∈ (t'.hydrate row').steps := Tables.mem_hydrate_steps.mpr ⟨x, hsub, hxr⟩
  exact List.mem_map_of_mem (List.mem_filter.mpr ⟨hmem, hr.2⟩)

section Moves

variable {policy : LockPolicy ι} {w : ι} {sh sh' : Shared ι} {ctrl ctrl' : Control} {a : Action}

theorem Move.grows (h : Move policy w sh ctrl a sh' ctrl') : sh.tables.Grows sh'.tables := by
  cases h with
  | rest tables log inert => exact tables ▸ Tables.Grows.refl _
  | submitted inserted => exact Tables.insertRun_grows inserted
  | started writes set next => exact Tables.setStatus_grows set
  | appended writes stored next => exact Tables.append_grows stored
  | settled writes set inert => exact Tables.setStatus_grows set
  | _ => exact Tables.Grows.refl _

theorem Move.tables_sound (h : Move policy w sh ctrl a sh' ctrl') (ht : sh.tables.Sound)
    (hc : ctrl.Sound sh.tables) : sh'.tables.Sound := by
  cases h with
  | rest tables log inert => exact tables ▸ ht
  | submitted inserted =>
    exact ⟨Tables.insertRun_wellFormed ht.wellFormed inserted,
      fun id => Tables.rowsOf_insertRun inserted id ▸ ht.numbered id⟩
  | started writes set next =>
    exact ⟨Tables.setStatus_wellFormed ht.wellFormed set,
      fun id => Tables.rowsOf_setStatus set id ▸ ht.numbered id⟩
  | appended writes stored next =>
    obtain ⟨hs, hf, hr⟩ := hc
    refine ⟨Tables.append_wellFormed ht.wellFormed stored, append_numbered ht.numbered ?_ stored⟩
    rw [hr.index, hr.runId]
    exact hf.reached
  | settled writes set inert =>
    exact ⟨Tables.setStatus_wellFormed ht.wellFormed set,
      fun id => Tables.rowsOf_setStatus set id ▸ ht.numbered id⟩
  | _ => exact ht

theorem Move.control_sound (h : Move policy w sh ctrl a sh' ctrl') (ht : sh.tables.Sound)
    (hc : ctrl.Sound sh.tables) : ctrl'.Sound sh'.tables := by
  cases h with
  | rest tables log inert => exact inert_sound inert
  | submitted inserted => trivial
  | called => trivial
  | snapshot load active matched => exact snapshot_sound ht load active matched
  | granted free => exact hc
  | @started s a t ctrl' writes set next =>
    rcases next with rfl | inert
    · have hs := Session.Sound.grows (Tables.setStatus_grows set) hc
      refine next_sound hs _ _ (hs.nextIndex_le ?_) le_rfl
      exact fun id => Tables.rowsOf_setStatus set id ▸ ht.numbered id
    · exact inert_sound inert
  | began known => exact hc
  | missing unknown => exact conclude_sound hc.1 hc.2 _ _
  | returned result => exact conclude_sound hc.1 hc.2 _ _
  | threw result => exact conclude_sound hc.1 hc.2 _ _
  | appended writes stored next =>
    rcases next with rfl | inert
    · exact appended_sound ht hc stored
    · exact inert_sound inert
  | settled writes set inert => exact inert_sound inert

theorem Move.new_row (h : Move policy w sh ctrl a sh' ctrl') {runId : String} {row : StepRow}
    (hr : row ∈ sh'.tables.rowsOf runId) :
    row ∈ sh.tables.rowsOf runId ∨
      ∃ s f r after output, ctrl = .appending s f r after ∧ r.runId = runId ∧
        toJsonObject r.output = some output ∧ row = r.row output ∧
        r.index ∉ (sh.tables.rowsOf runId).map StepRow.stepIndex := by
  cases h with
  | rest tables log inert => exact .inl (tables ▸ hr)
  | submitted inserted => exact .inl (Tables.rowsOf_insertRun inserted runId ▸ hr)
  | started writes set next => exact .inl (Tables.rowsOf_setStatus set runId ▸ hr)
  | settled writes set inert => exact .inl (Tables.rowsOf_setStatus set runId ▸ hr)
  | @appended s f r after a t ctrl' writes stored next =>
    obtain ⟨output, ho, _, _⟩ := Tables.append_ok stored
    have hrow : row ∈ t.rowsOf runId := hr
    rw [Tables.rowsOf_append stored ho] at hrow
    split at hrow
    · rename_i hid
      rcases mem_insertOrIgnore hrow with hold | ⟨rfl, hnew⟩
      · exact .inl hold
      · exact .inr ⟨s, f, r, after, output, rfl, hid, ho, rfl, hnew⟩
    · exact .inl hrow
  | _ => exact .inl hr

theorem Move.run_row (h : Move policy w sh ctrl a sh' ctrl') {runId : String} {row : RunRow}
    (hr : sh.tables.runRow runId = some row) :
    sh'.tables.runRow runId = some row ∨
      (∃ s, ctrl = .starting s ∧ s.call.runId = runId ∧
        sh'.tables.runRow runId = some { row with status := .running, error := none }) ∨
      ∃ s status error reraise err, ctrl = .settling s status error reraise ∧
        s.call.runId = runId ∧ Tables.encodeError error = some err ∧ ctrl'.inert = true ∧
        sh'.tables.runRow runId = some { row with status := status, error := err } := by
  have hid : row.runId = runId := Tables.runRow_runId hr
  cases h with
  | rest tables log inert => exact .inl (tables ▸ hr)
  | @submitted last last' handlers stack runId' spec now t inserted =>
    obtain ⟨payload, hn, _, _⟩ := Tables.insertRun_ok inserted
    have hne : runId ≠ runId' := by
      rintro rfl
      rw [hn] at hr
      cases hr
    exact .inl ((Tables.runRow_insertRun inserted runId hne).trans hr)
  | @started s a t ctrl' writes set next =>
    have ht := Tables.runRow_setStatus set rfl runId
    rw [hr, Option.map_some] at ht
    by_cases he : s.call.runId = runId
    · exact .inr (.inl ⟨s, rfl, he, by simpa [Tables.settled, he, hid] using ht⟩)
    · exact .inl (by simpa [Tables.settled, Ne.symm he, hid] using ht)
  | @settled s status error reraise a t ctrl' writes set inert =>
    obtain ⟨err, herr, _, _⟩ := Tables.setStatus_ok set
    have ht := Tables.runRow_setStatus set herr runId
    rw [hr, Option.map_some] at ht
    by_cases he : s.call.runId = runId
    · exact .inr (.inr ⟨s, status, error, reraise, err, rfl, he, herr, inert,
        by simpa [Tables.settled, he, hid] using ht⟩)
    · exact .inl (by simpa [Tables.settled, Ne.symm he, hid] using ht)
  | appended writes stored next => exact .inl ((Tables.runRow_append stored runId).trans hr)
  | _ => exact .inl hr

theorem Move.inserted (h : Move policy w sh ctrl a sh' ctrl') {runId : String} {row : RunRow}
    (hn : sh.tables.runRow runId = none) (hr : sh'.tables.runRow runId = some row) :
    ∃ (spec : RunSpec) (now : Nat) (payload : JsonObject),
      row = ⟨runId, spec.idempotencyKey, spec.plan.name, payload, .pending, none, now⟩ := by
  have same {s : Session} {t : Tables} {st : RunStatus} {e : Option PyStr}
      (hs : sh.tables.setStatus s.call.runId st e = .ok t) : t.runRow runId = none := by
    obtain ⟨err, he, _, _⟩ := Tables.setStatus_ok hs
    rw [Tables.runRow_setStatus hs he, hn, Option.map_none]
  have none_of {t : Tables} (ht : t.runRow runId = none) (hr : t.runRow runId = some row) :
      False := by
    rw [ht] at hr
    cases hr
  cases h with
  | rest tables log inert => exact (none_of hn (tables ▸ hr)).elim
  | @submitted last last' handlers stack runId' spec now t inserted =>
    by_cases hid : runId = runId'
    · subst hid
      obtain ⟨payload, _, _, rfl⟩ := Tables.insertRun_ok inserted
      have hnone := Tables.runRow_eq_none.mp hn
      have hmem := Tables.runRow_mem hr
      rcases List.mem_append.mp hmem with hold | hnew
      · exact absurd (Tables.runRow_runId hr) (hnone row hold)
      · exact ⟨spec, now, payload, List.mem_singleton.mp hnew⟩
    · exact (none_of hn (Tables.runRow_insertRun inserted runId hid ▸ hr)).elim
  | started writes set next => exact (none_of (same set) hr).elim
  | appended writes stored next => exact (none_of hn (Tables.runRow_append stored runId ▸ hr)).elim
  | settled writes set inert => exact (none_of (same set) hr).elim
  | _ => exact (none_of hn hr).elim

theorem start_sound {t : Tables} (ht : t.Sound) :
    Holds (fun sh : Shared ι => sh.tables.Sound) (fun _ sh ctrl => ctrl.Sound sh.tables)
      (System.start t) := ⟨ht, fun _ => trivial⟩

theorem empty_sound : Tables.empty.Sound :=
  ⟨Tables.empty_wellFormed, fun _ => FirstWriter.Numbered.nil⟩

variable [DecidableEq ι]

theorem sound_outline (policy : LockPolicy ι) :
    Outline (workerStep policy) (fun _ _ _ => True) (fun sh => sh.tables.Sound)
      (fun _ sh ctrl => ctrl.Sound sh.tables) where
  own ht hc _ ha :=
    ⟨(workerStep_move ha).tables_sound ht hc, (workerStep_move ha).control_sound ht hc⟩
  others _ _ _ hl _ ha := hl.grows (workerStep_move ha).grows

theorem run_sound {c d : System ι} {es : List (ι × Action)}
    (hc : Holds (fun sh : Shared ι => sh.tables.Sound) (fun _ sh ctrl => ctrl.Sound sh.tables) c)
    (h : runSystem policy c es = some d) :
    Holds (fun sh : Shared ι => sh.tables.Sound) (fun _ sh ctrl => ctrl.Sound sh.tables) d :=
  (sound_outline policy).run hc h

theorem run_grows {c d : System ι} {es : List (ι × Action)} (h : runSystem policy c es = some d) :
    c.shared.tables.Grows d.shared.tables := by
  refine Transition.run_related (I := fun _ => True) (R := fun c d : System ι =>
    c.shared.tables.Grows d.shared.tables) (fun c => .refl _) .trans ?_ trivial h
  rintro c ⟨i, a⟩ d _ hs
  obtain ⟨sh, ctrl, ha, rfl⟩ := step_eq_some.mp hs
  exact ⟨trivial, (workerStep_move ha).grows⟩

theorem checkpoints_append_only (policy : LockPolicy ι) (es es' : List (ι × Action))
    {c d : System ι} (hc : runSystem policy (System.start Tables.empty) es = some c)
    (hd : runSystem policy c es' = some d) (runId : String) :
    (d.shared.tables.rowsOf runId).map StepRow.stepIndex =
        List.range (d.shared.tables.rowsOf runId).length ∧
      (∃ more, d.shared.tables.rowsOf runId = c.shared.tables.rowsOf runId ++ more) ∧
      ∀ state, c.shared.tables.load runId = some state →
        ∃ state', d.shared.tables.load runId = some state' ∧
          state.nextIndex ≤ state'.nextIndex := by
  have hs := run_sound (run_sound (start_sound empty_sound) hc) hd
  have hg := run_grows hd
  exact ⟨hs.1.numbered runId, hg.rows runId, fun state h => load_grows hg h⟩

end Moves

def chargePlan : Plan where
  name := "payment"
  steps := [{ name := "charge", effect := true }, { name := "notify" }]

def notifyPlan : Plan where
  name := "payment"
  steps := [{ name := "notify" }]

def chargeSpec : RunSpec where
  plan := chargePlan
  payload := []
  idempotencyKey := "order-0001"

def chargeCall : Call := ⟨["charge", "notify"], "run", chargePlan, none, 900⟩

def epoch : Datetime := ⟨0, some 0, false⟩

def answer (text : String) : PyValue := .dict [(.str (.ofString "answer"), .str (.ofString text))]

def finishes (index : Nat) (previous : Outputs) (result : HandlerResult) : Action :=
  .finish ⟨result, { runId := "run", index := index, payload := [], previous := previous }⟩ epoch

def submits : Action := .submit ["charge", "notify"] 900 "run" chargeSpec 0

def opens : List Action := [.call chargeCall, .store, .lock true, .store]

def charges (text : String) : List Action :=
  [.begin, finishes 0 [] (.returned (answer text)), .store]

def notifies (text : String) : List Action :=
  [.begin, finishes 1 [("charge", answer text)] (.returned (answer "sent")), .store]

def closes : List Action := [.store, .store, .store]

def turns (w : ι) (as : List Action) : List (ι × Action) := as.map fun a => (w, a)

theorem run_split [DecidableEq ι] {policy : LockPolicy ι} {es es' : List (ι × Action)}
    (h : (runSystem policy (System.start Tables.empty) (es ++ es')).isSome = true) :
    ∃ c d, runSystem policy (System.start Tables.empty) es = some c ∧
      runSystem policy c es' = some d := by
  obtain ⟨d, hd⟩ := Option.isSome_iff_exists.mp h
  obtain ⟨c, hc, hcd⟩ := Transition.run_append.mp hd
  exact ⟨c, d, hc, hcd⟩

theorem run_all [DecidableEq ι] {policy : LockPolicy ι} {es : List (ι × Action)}
    {q : System ι → Bool} {c : System ι}
    (h : (runSystem policy (System.start Tables.empty) es).all q = true)
    (hc : runSystem policy (System.start Tables.empty) es = some c) : q c = true := by
  simpa [hc] using h

def racedCharge : List (Bool × Action) :=
  (true, submits) :: turns true opens ++ turns false opens ++ turns true (charges "first")

theorem checkpoints_append_only_raced :
    ∃ c d : System Bool, runSystem noLock (System.start Tables.empty) racedCharge = some c ∧
      runSystem noLock c (turns false (charges "second")) = some d ∧
      ((d.shared.tables.rowsOf "run").map StepRow.stepIndex =
          List.range (d.shared.tables.rowsOf "run").length ∧
        (∃ more, d.shared.tables.rowsOf "run" = c.shared.tables.rowsOf "run" ++ more) ∧
        ∀ state, c.shared.tables.load "run" = some state →
          ∃ state', d.shared.tables.load "run" = some state' ∧
            state.nextIndex ≤ state'.nextIndex) := by
  have h : (runSystem noLock (System.start Tables.empty)
      (racedCharge ++ turns false (charges "second"))).isSome = true := by decide +kernel
  obtain ⟨c, d, hc, hd⟩ := run_split h
  exact ⟨c, d, hc, hd, checkpoints_append_only noLock _ _ hc hd "run"⟩

end DurableAgent
