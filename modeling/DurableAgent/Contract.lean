import DurableAgent.Locking
import DurableAgent.InFlight
import DurableAgent.SinglePlan

namespace DurableAgent

open FirstWriter Interleaving

variable {ι : Type}

-- a stored error goes with a run that failed or escalated, and with no other
def Explained (status : RunStatus) (error : Option String) : Prop :=
  error.isSome = true ↔ status = .failed ∨ status = .escalated

structure SameRun (row row' : RunRow) : Prop where
  idempotencyKey : row'.idempotencyKey = row.idempotencyKey
  planName : row'.planName = row.planName
  payload : row'.payload = row.payload
  createdAt : row'.createdAt = row.createdAt
  started : row.status ≠ .pending → row'.status ≠ .pending

def Tables.Explained (t : Tables) : Prop :=
  ∀ runId row, t.runRow runId = some row → DurableAgent.Explained row.status row.error

def Control.Stated : Control → Prop
  | .settling _ status error _ =>
      status.isTerminal = true ∧ (error.isSome = true ↔ status ≠ .completed)
  | _ => True

theorem SameRun.refl (row : RunRow) : SameRun row row := ⟨rfl, rfl, rfl, rfl, id⟩

theorem SameRun.trans {a b c : RunRow} (hab : SameRun a b) (hbc : SameRun b c) : SameRun a c :=
  ⟨hbc.idempotencyKey.trans hab.idempotencyKey, hbc.planName.trans hab.planName,
    hbc.payload.trans hab.payload, hbc.createdAt.trans hab.createdAt,
    fun h => hbc.started (hab.started h)⟩

theorem explained_settled {status : RunStatus} {error : Option PyStr} {err : Option String}
    (ht : status.isTerminal = true) (hs : error.isSome = true ↔ status ≠ .completed)
    (he : Tables.encodeError error = some err) : Explained status err := by
  have hsome : err.isSome = error.isSome := by
    cases error with
    | none => cases he; rfl
    | some s =>
      obtain ⟨text, _, rfl⟩ := Option.map_eq_some_iff.mp he
      rfl
  unfold Explained
  rw [hsome, hs]
  cases status <;> simp_all [RunStatus.isTerminal]

section Stated

variable {s : Session} {f : Frame} {ctrl : Control}

theorem inert_stated (h : ctrl.inert = true) : ctrl.Stated := by
  cases ctrl <;> trivial

theorem next_stated (index : Nat) (payload : StrDict) (previous : Outputs) :
    (s.next index payload previous).Stated := by
  apply next_cases
  · intro _
    exact ⟨rfl, by simp⟩
  · intro step _
    trivial
  · intro o
    trivial

theorem conclude_stated (e : Execution) (now : Datetime) : (conclude s f e now).Stated := by
  apply conclude_cases <;> intros <;> trivial

end Stated

section Moves

variable {policy : LockPolicy ι} {w : ι} {sh sh' : Shared ι} {ctrl ctrl' : Control} {a : Action}

theorem Move.stated (h : Move policy w sh ctrl a sh' ctrl') (hs : ctrl.Sound sh.tables) :
    ctrl'.Stated := by
  cases h with
  | rest tables log inert => exact inert_stated inert
  | submitted inserted => trivial
  | called => trivial
  | snapshot load active matched => trivial
  | granted free => trivial
  | started writes set next =>
    rcases next with rfl | inert
    · exact next_stated _ _ _
    · exact inert_stated inert
  | began known => trivial
  | missing unknown => exact conclude_stated _ _
  | returned result => exact conclude_stated _ _
  | threw result => exact conclude_stated _ _
  | @appended s f r after a t ctrl' writes stored next =>
    rcases next with rfl | inert
    · cases after with
      | proceed payload previous => exact next_stated _ _ _
      | settle status reason reraise =>
        obtain ⟨_, hterm, hne, _⟩ := hs.2.2.fits
        exact ⟨hterm, by simpa using hne⟩
    · exact inert_stated inert
  | settled writes set inert => exact inert_stated inert

theorem Move.explained (h : Move policy w sh ctrl a sh' ctrl') (hc : ctrl.Stated)
    (ht : sh.tables.Explained) : sh'.tables.Explained := by
  intro runId row hrow
  cases hold : sh.tables.runRow runId with
  | none =>
    obtain ⟨spec, now, payload, rfl⟩ := h.inserted hold hrow
    simp [Explained]
  | some old =>
    rcases h.run_row hold with hsame | ⟨s, _, _, hrun⟩ | ⟨s, status, error, reraise, err, rfl,
      _, herr, _, hset⟩
    · exact ht runId row (hold.trans (hsame.symm.trans hrow))
    · rw [hrun] at hrow
      rw [← Option.some.inj hrow]
      simp [Explained]
    · rw [hset] at hrow
      rw [← Option.some.inj hrow]
      exact explained_settled hc.1 hc.2 herr

theorem Move.sameRun (h : Move policy w sh ctrl a sh' ctrl') (hc : ctrl.Stated) {runId : String}
    {row : RunRow} (hrow : sh.tables.runRow runId = some row) :
    ∃ row', sh'.tables.runRow runId = some row' ∧ SameRun row row' := by
  rcases h.run_row hrow with hsame | ⟨s, _, _, hrun⟩ | ⟨s, status, error, reraise, err, rfl,
    _, _, _, hset⟩
  · exact ⟨row, hsame, .refl row⟩
  · exact ⟨_, hrun, rfl, rfl, rfl, rfl, fun _ => by simp⟩
  · refine ⟨_, hset, rfl, rfl, rfl, rfl, fun _ hp => ?_⟩
    have hterm := hc.1
    obtain rfl : status = .pending := hp
    cases hterm

theorem start_stated : Holds (fun sh : Shared ι => sh.tables.Sound ∧ sh.tables.Explained)
    (fun _ sh ctrl => ctrl.Sound sh.tables ∧ ctrl.Stated) (System.start Tables.empty) := by
  refine ⟨⟨empty_sound, ?_⟩, fun _ => ⟨trivial, trivial⟩⟩
  intro runId row hrow
  cases hrow

variable [DecidableEq ι]

theorem stated_outline (policy : LockPolicy ι) :
    Outline (workerStep policy) (fun _ _ _ => True)
      (fun sh => sh.tables.Sound ∧ sh.tables.Explained)
      (fun _ sh ctrl => ctrl.Sound sh.tables ∧ ctrl.Stated) := by
  apply (sound_outline policy).extend
  · intro i sh ctrl a sh' ctrl' _ hl ht hc _ ha
    have hm := workerStep_move ha
    exact ⟨hm.explained hc ht, hm.stated hl⟩
  · intro i j sh ctrl a sh' ctrl' l _ _ _ _ _ _ hl _ _
    exact hl

-- a stored run stays, with the key, plan and payload it was submitted with, and says why it ended
theorem runs_keep_identity (policy : LockPolicy ι) (es es' : List (ι × Action)) {c d : System ι}
    (hc : runSystem policy (System.start Tables.empty) es = some c)
    (hd : runSystem policy c es' = some d) {runId : String} {row : RunRow}
    (h : c.shared.tables.runRow runId = some row) :
    ∃ row', d.shared.tables.runRow runId = some row' ∧ SameRun row row' ∧
      Explained row'.status row'.error := by
  have hstart := (stated_outline policy).run start_stated hc
  have hend := (stated_outline policy).run hstart hd
  have hkeeps : ∀ row, c.shared.tables.runRow runId = some row →
      ∃ row', d.shared.tables.runRow runId = some row' ∧ SameRun row row' := by
    refine Transition.run_related
      (I := Holds (fun sh : Shared ι => sh.tables.Sound ∧ sh.tables.Explained)
        (fun _ sh ctrl => ctrl.Sound sh.tables ∧ ctrl.Stated))
      (R := fun c d : System ι => ∀ row, c.shared.tables.runRow runId = some row →
        ∃ row', d.shared.tables.runRow runId = some row' ∧ SameRun row row')
      (fun c row hrow => ⟨row, hrow, .refl row⟩) ?_ ?_ hstart hd
    · intro a b c hab hbc row hrow
      obtain ⟨row', hrow', hs⟩ := hab row hrow
      obtain ⟨row'', hrow'', hs'⟩ := hbc row' hrow'
      exact ⟨row'', hrow'', hs.trans hs'⟩
    · rintro c ⟨i, a⟩ d hi hs
      refine ⟨(stated_outline policy).step hi trivial hs, fun row hrow => ?_⟩
      obtain ⟨sh, ctrl, ha, rfl⟩ := step_eq_some.mp hs
      exact (workerStep_move ha).sameRun (hi.2 i).2 hrow
  obtain ⟨row', hrow', hs⟩ := hkeeps row h
  exact ⟨row', hrow', hs, hend.1.2 runId row' hrow'⟩

theorem runs_keep_identity_raced :
    ∃ (c d : System Bool) (row : RunRow),
      runSystem noLock (System.start Tables.empty) racedCharge = some c ∧
      runSystem noLock c (turns false (charges "second")) = some d ∧
      c.shared.tables.runRow "run" = some row ∧
      ∃ row', d.shared.tables.runRow "run" = some row' ∧ SameRun row row' ∧
        Explained row'.status row'.error := by
  have h : (runSystem noLock (System.start Tables.empty)
      (racedCharge ++ turns false (charges "second"))).isSome = true := by decide +kernel
  obtain ⟨c, d, hc, hd⟩ := run_split h
  have hrun : ((runSystem noLock (System.start Tables.empty) racedCharge).all
      fun c => (c.shared.tables.runRow "run").isSome) = true := by decide +kernel
  obtain ⟨row, hrow⟩ := Option.isSome_iff_exists.mp (run_all hrun hc)
  exact ⟨c, d, row, hc, hd, hrow, runs_keep_identity noLock _ _ hc hd hrow⟩

end Moves

structure RunState.Finished (state : RunState) (plan : Plan) : Prop where
  terminal : state.status.isTerminal = true
  covered : state.status = .completed → ∀ i < plan.steps.length, ∃ r ∈ state.steps, r.index = i

def RunState.Covers (state : RunState) (plan : Plan) : Prop :=
  ∀ i step, plan.steps[i]? = some step → ∃ r ∈ state.steps, r.index = i ∧ r.name = step.name

-- `state` is what the tables hold of the session's run, which ended
structure Tables.Ended (t : Tables) (s : Session) (state : RunState) : Prop where
  stored : t.load s.call.runId = some state
  keyed : ∃ row, t.runRow s.call.runId = some row ∧ row.idempotencyKey = s.key
  finished : state.Finished s.call.plan

def Raised.Expected : Raised → Prop
  | .runtimeError _ => False
  | _ => True

-- the end of the run is not yet written, or the call is over
def Control.Early : Control → Prop
  | .atRest (some (.raised e)) => e.Expected
  | .appending _ _ _ (.settle _ _ (some e)) => e.Expected
  | .settling _ _ _ (some e) => e.Expected
  | .reloading _ => False
  | .releasing _ (.raised e) => e.Expected
  | .releasing _ (.returned _) => False
  | _ => True

def Control.Told (t : Tables) : Control → Prop
  | .reloading s => ∃ state, t.load s.call.runId = some state
  | .releasing _ (.returned _) => True
  | ctrl => ctrl.Early

-- inside the block, once the run's end is written
def Control.Closing (w : ι) (sh : Shared ι) : Control → Prop
  | .reloading s => sh.holder s.key = some w ∧ ∃ state, sh.tables.Ended s state
  | .releasing s (.returned state) => sh.holder s.key = some w ∧ sh.tables.Ended s state
  | _ => True

section Closing

variable {policy : LockPolicy ι} {w v : ι} {sh sh' : Shared ι} {ctrl ctrl' : Control} {s : Session}

theorem Tables.Untouched.load {t t' : Tables} {runId : String} (h : t.Untouched t' runId)
    {state : RunState} (hl : t.load runId = some state) : t'.load runId = some state := by
  obtain ⟨row, hr, hid, rfl⟩ := load_eq_some hl
  rw [Tables.load, h.row row hr, Option.map_some]
  simp only [Tables.hydrate, hid, h.rows]

theorem Tables.Ended.untouched {t t' : Tables} {state : RunState} (h : t.Ended s state)
    (hu : t.Untouched t' s.call.runId) : t'.Ended s state := by
  obtain ⟨row, hr, hk⟩ := h.keyed
  exact ⟨hu.load h.stored, ⟨row, hu.row row hr, hk⟩, h.finished⟩

theorem settled_ended {t : Tables} {status : RunStatus} {error : Option PyStr}
    {reraise : Option Raised} (hn : sh.tables.Numbered)
    (h : (Control.settling s status error reraise).Sound sh.tables)
    (hset : sh.tables.setStatus s.call.runId status error = .ok t) :
    ∃ state, t.Ended s state := by
  obtain ⟨hs, hterm, hcov⟩ := h
  obtain ⟨row, hr, hk⟩ := hs.keyed
  have hid : row.runId = s.call.runId := Tables.runRow_runId hr
  obtain ⟨err, herr, _, _⟩ := Tables.setStatus_ok hset
  have hrow : t.runRow s.call.runId = some { row with status := status, error := err } := by
    rw [Tables.runRow_setStatus hset herr, hr, Option.map_some, Tables.settled, if_pos hid]
  have hrows : t.rowsOf row.runId = sh.tables.rowsOf s.call.runId := by
    rw [hid, Tables.rowsOf_setStatus hset]
  refine ⟨t.hydrate { row with status := status, error := err },
    by rw [Tables.load, hrow, Option.map_some], ⟨_, hrow, hk⟩, hterm, fun hc i hi => ?_⟩
  obtain ⟨x, _, hx, hxi⟩ := find_row hn (Nat.lt_of_lt_of_le hi (hcov hc).2)
  exact ⟨_, Tables.mem_hydrate_steps.mpr ⟨x, hrows ▸ hx, rfl⟩, hxi⟩

theorem RunState.Finished.covers {t : Tables} {runId : String} {plan : Plan} {state : RunState}
    (h : state.Finished plan) (hl : t.load runId = some state) (hr : PlanRows t runId plan)
    (hc : state.status = .completed) : state.Covers plan := by
  intro i step hi
  obtain ⟨r, hmem, rfl⟩ := h.covered hc i (List.getElem?_eq_some_iff.mp hi).1
  obtain ⟨row, _, hid, rfl⟩ := load_eq_some hl
  obtain ⟨x, hx, rfl⟩ := Tables.mem_hydrate_steps.mp hmem
  exact ⟨_, hmem, rfl, planRows_name hr (hid ▸ hx) hi⟩

theorem Control.Early.told {t : Tables} (h : ctrl.Early) : ctrl.Told t := by
  cases ctrl with
  | reloading s => exact h.elim
  | releasing s o =>
    cases o with
    | returned state => exact h.elim
    | raised e => exact h
  | _ => exact h

theorem Control.Early.closing (h : ctrl.Early) : ctrl.Closing w sh := by
  cases ctrl with
  | reloading s => exact h.elim
  | releasing s o =>
    cases o with
    | returned state => exact h.elim
    | raised e => trivial
  | _ => trivial

theorem stepRecord_expected {f : Frame} {outcome : StepOutcome} {ctx : StepContext}
    {output : PyValue} {now : Datetime} {e : Raised}
    (h : stepRecord s f outcome ctx output now = .error e) : e.Expected := by
  unfold stepRecord at h
  split at h
  · cases h
    trivial
  · split at h <;> cases h
    trivial

theorem assertPlanMatchesHistory_expected {plan : Plan} {state : RunState} {e : Raised}
    (h : assertPlanMatchesHistory plan state = .error e) : e.Expected := by
  unfold assertPlanMatchesHistory at h
  split at h <;> cases h
  trivial

theorem next_early (index : Nat) (payload : StrDict) (previous : Outputs) :
    (s.next index payload previous).Early := by
  unfold Session.next
  split
  · trivial
  · simp only
    split <;> trivial

theorem concludeFailure_early {f : Frame} {ctx : StepContext} {now : Datetime}
    {status : RunStatus} {reason : PyStr} {reraise : Option Raised}
    (hr : ∀ e, reraise = some e → e.Expected) :
    (concludeFailure s f ctx now status reason reraise).Early := by
  unfold concludeFailure
  split
  · exact stepRecord_expected ‹_›
  · cases reraise with
    | none => trivial
    | some e => exact hr e rfl

theorem conclude_early (f : Frame) (e : Execution) (now : Datetime) : (conclude s f e now).Early := by
  unfold conclude
  split
  · trivial
  · exact concludeFailure_early fun e h => by cases h
  · trivial
  · refine concludeFailure_early fun e h => ?_
    cases h
    trivial
  · split
    · exact stepRecord_expected ‹_›
    · trivial

theorem loaded_early {c : Call} (found : Option RunState) : (loaded c found).Early := by
  unfold loaded
  split
  · trivial
  · split
    · trivial
    · split
      · exact assertPlanMatchesHistory_expected ‹_›
      · trivial

theorem submit_early {handlers : List String} {stack : Nat} {runId : String} {spec : RunSpec}
    {now : Nat} : (submit sh handlers stack runId spec now).2.Early := by
  unfold submit
  simp only
  split
  · trivial
  · split <;> trivial

theorem failed_early (h : ctrl.failed = some ctrl') : ctrl'.Early := by
  cases ctrl <;> cases h <;> trivial

-- the end of a run is written, then read back
theorem workerStep_early [DecidableEq ι] {a : Action} (ht : ctrl.Told sh.tables)
    (h : workerStep policy w sh ctrl a = some (sh', ctrl')) : ctrl'.Early ∨
      (∃ s status error t, ctrl = .settling s status error none ∧ sh' = { sh with tables := t } ∧
        sh.tables.setStatus s.call.runId status error = .ok t ∧ ctrl' = .reloading s) ∨
      ∃ s state, ctrl = .reloading s ∧ sh' = sh ∧ sh.tables.load s.call.runId = some state ∧
        ctrl' = .releasing s (.returned state) := by
  cases workerStep_took h with
  | @submitted last handlers stack runId spec now sh' ctrl' submitted =>
    rw [← show (submit sh handlers stack runId spec now).2 = ctrl' from congrArg Prod.snd submitted]
    exact .inl submit_early
  | conflict e refusal => rcases refusal with ⟨id, rfl⟩ | rfl <;> exact .inl trivial
  | stored performed =>
    cases performed with
    | loaded => exact .inl (loaded_early _)
    | started set => exact .inl (next_early _ _ _)
    | @appended s f r after t stored =>
      cases after with
      | proceed payload previous => exact .inl (next_early _ _ _)
      | settle status reason reraise =>
        cases reraise with
        | none => exact .inl trivial
        | some e => exact .inl ht
    | settled set => exact .inr (.inl ⟨_, _, _, _, rfl, rfl, set, rfl⟩)
    | reraised set => exact .inl ht
    | @reloaded s =>
      obtain ⟨state, hl⟩ := ht
      exact .inr (.inr ⟨s, state, rfl, rfl, hl, by rw [reload, hl]⟩)
    | @released s o =>
      cases o with
      | returned state => exact .inl trivial
      | raised e => exact .inl ht
    | _ => exact .inl trivial
  | missing unknown => exact .inl (conclude_early _ _ _)
  | returned result => exact .inl (conclude_early _ _ _)
  | threw result => exact .inl (conclude_early _ _ _)
  | outage failed => exact .inl (failed_early failed)
  | _ => exact .inl trivial

theorem told_outline [DecidableEq ι] (policy : LockPolicy ι) :
    Outline (workerStep policy) (fun _ _ _ => True) (fun sh => sh.tables.Sound)
      (fun _ sh ctrl => ctrl.Sound sh.tables ∧ ctrl.Told sh.tables) := by
  apply (sound_outline policy).strengthen
  · intro i sh ctrl a sh' ctrl' hsh hc ht _ ha
    rcases workerStep_early ht ha with he | ⟨s, status, error, t, rfl, rfl, set, rfl⟩ |
      ⟨s, state, rfl, rfl, _, rfl⟩
    · exact he.told
    · obtain ⟨state, he⟩ := settled_ended hsh.numbered hc set
      exact ⟨state, he.stored⟩
    · trivial
  · intro i j sh ctrl a sh' ctrl' l _ _ _ _ _ hl _ ha
    cases l with
    | reloading s =>
      obtain ⟨state, hs⟩ := hl
      obtain ⟨state', hs', _⟩ := load_grows (workerStep_move ha).grows hs
      exact ⟨state', hs'⟩
    | releasing s o => cases o <;> exact hl
    | _ => exact hl

-- the run a call works on never disappears, whatever the lock does: `run`'s RuntimeError is dead
theorem run_never_disappears [DecidableEq ι] (policy : LockPolicy ι) (es : List (ι × Action))
    {c : System ι} (h : runSystem policy (System.start Tables.empty) es = some c) (w : ι)
    (message : String) : c.locals w ≠ .atRest (some (.raised (.runtimeError message))) := by
  intro hw
  have hstart : ∀ w : ι, ((System.start (ι := ι) Tables.empty).locals w).Sound Tables.empty ∧
      ((System.start (ι := ι) Tables.empty).locals w).Told Tables.empty :=
    fun _ => ⟨trivial, trivial⟩
  have ht := ((told_outline policy).run ⟨empty_sound, hstart⟩ h).2 w
  rw [hw] at ht
  exact ht.2

def orderServed : List (Bool × Action) :=
  (true, submits) :: turns true (opens ++ charges "done" ++ notifies "done" ++ [.store, .store])

theorem run_never_disappears_served :
    ∃ c : System Bool, runSystem noLock (System.start Tables.empty) orderServed = some c ∧
      ∀ message, c.locals true ≠ .atRest (some (.raised (.runtimeError message))) := by
  have h : (runSystem noLock (System.start Tables.empty) orderServed).isSome = true := by
    decide +kernel
  obtain ⟨c, hc⟩ := Option.isSome_iff_exists.mp h
  exact ⟨c, hc, run_never_disappears noLock _ hc true⟩

theorem closing_step [DecidableEq ι] {a : Action} (hn : sh.tables.Numbered)
    (hc : ctrl.Sound sh.tables)
    (ht : ctrl.Told sh.tables) (hlock : Locked w sh ctrl) (hcl : ctrl.Closing w sh)
    (h : workerStep policy w sh ctrl a = some (sh', ctrl')) : ctrl'.Closing w sh' := by
  rcases workerStep_early ht h with he | ⟨s, status, error, t, rfl, rfl, set, rfl⟩ |
    ⟨s, state, rfl, rfl, hl, rfl⟩
  · exact he.closing
  · exact ⟨hlock s rfl, settled_ended hn hc set⟩
  · obtain ⟨hheld, state', he⟩ := hcl
    obtain rfl : state' = state := Option.some.inj (he.stored.symm.trans hl)
    exact ⟨hheld, he⟩

theorem Control.Closing.others [DecidableEq ι] {a : Action} {l : Control} (hx : Exclusive policy)
    (hwv : w ≠ v) (hc : ctrl.Sound sh.tables ∧ Locked w sh ctrl) (hl : l.Closing v sh)
    (h : workerStep policy w sh ctrl a = some (sh', ctrl')) : l.Closing v sh' := by
  have kept {s : Session} {state : RunState} (hheld : sh.holder s.key = some v)
      (he : sh.tables.Ended s state) : sh'.tables.Ended s state :=
    he.untouched (held_untouched hwv hc (workerStep_move h) hheld he.keyed)
  cases l with
  | reloading s =>
    obtain ⟨hheld, state, he⟩ := hl
    exact ⟨workerStep_keeps hx h hwv.symm hheld, state, kept hheld he⟩
  | releasing s o =>
    cases o with
    | returned state => exact ⟨workerStep_keeps hx h hwv.symm hl.1, kept hl.1 hl.2⟩
    | raised e => trivial
  | _ => trivial

theorem conclude_not_atRest {f : Frame} {e : Execution} {now : Datetime} {last : Option Outcome} :
    conclude s f e now ≠ .atRest last := by
  apply conclude_cases (P := fun ctrl => ctrl ≠ .atRest last) <;> intros <;>
    exact Control.noConfusion

theorem next_not_atRest {index : Nat} {payload : StrDict} {previous : Outputs}
    {last : Option Outcome} :
    s.next index payload previous ≠ .atRest last := by
  apply next_cases (P := fun ctrl => ctrl ≠ .atRest last) <;> intros <;>
    exact Control.noConfusion

theorem loaded_returned {c : Call} {found : Option RunState} {state : RunState}
    (h : loaded c found = .atRest (some (.returned state))) :
    found = some state ∧ state.status.isTerminal = true := by
  unfold loaded at h
  split at h
  · cases h
  · split at h
    · cases h
      exact ⟨rfl, ‹_›⟩
    · split at h <;> cases h

variable [DecidableEq ι]

theorem returned_from {a : Action} {state : RunState} (hcall : ∀ last, ctrl ≠ .atRest last)
    (h : workerStep policy w sh ctrl a = some (sh', ctrl'))
    (hr : ctrl' = .atRest (some (.returned state))) :
    (∃ c, ctrl = .loading c ∧ sh.tables.load c.runId = some state ∧
      state.status.isTerminal = true) ∨ ∃ s, ctrl = .releasing s (.returned state) := by
  cases workerStep_took h with
  | submitted submitted => exact absurd rfl (hcall _)
  | conflict e refusal => cases hr
  | called => exact absurd rfl (hcall _)
  | stored performed =>
    cases performed with
    | loaded => exact .inl ⟨_, rfl, loaded_returned hr⟩
    | started set => exact absurd hr next_not_atRest
    | @appended s f r after t stored =>
      cases after with
      | proceed payload previous => exact absurd hr next_not_atRest
      | settle status reason reraise => cases hr
    | released =>
      cases hr
      exact .inr ⟨_, rfl⟩
    | _ => cases hr
  | missing unknown => exact absurd hr conclude_not_atRest
  | returned result => exact absurd hr conclude_not_atRest
  | threw result => exact absurd hr conclude_not_atRest
  | outage failed =>
    subst hr
    cases ctrl <;> cases failed
  | _ => cases hr

theorem closing_outline (hx : Exclusive policy) :
    Outline (workerStep policy) (fun _ _ _ => True)
      (fun sh => (sh.tables.Sound ∧ sh.tables.Sound) ∧ (sh.tables.Sound ∧ sh.tables.Explained))
      (fun w sh ctrl => (((ctrl.Sound sh.tables ∧ Locked w sh ctrl) ∧
          (ctrl.Sound sh.tables ∧ ctrl.Told sh.tables)) ∧ ctrl.Closing w sh) ∧
        (ctrl.Sound sh.tables ∧ ctrl.Stated)) := by
  have hlock : Outline (workerStep policy) _ _ _ :=
    (exclusive_outline hx fun _ _ _ => True).and (told_outline policy)
  have hclosing : Outline (workerStep policy) _ _ _ := hlock.strengthen
    (fun hsh hl hcl _ ha => closing_step hsh.1.numbered hl.1.1 hl.2.2 hl.1.2 hcl ha)
    (fun hij _ hi _ _ hcl _ ha => hcl.others hx hij hi.1 ha)
  exact hclosing.and (stated_outline policy)

-- what a call to `run` gives back is the stored run, and that run has ended
theorem returned_run_finished (hx : Exclusive policy) (es : List (ι × Action)) {c : System ι}
    (h : runSystem policy (System.start Tables.empty) es = some c) {a : Action} {state : RunState}
    (hcall : ∀ last, c.locals w ≠ .atRest last)
    (hstep : workerStep policy w c.shared (c.locals w) a =
      some (sh', .atRest (some (.returned state)))) :
    c.shared.tables.load state.runId = some state ∧ state.status.isTerminal = true ∧
      Explained state.status state.error ∧
      ∀ s o, c.locals w = .releasing s o → state.runId = s.call.runId ∧
        state.Finished s.call.plan ∧
        ((∀ e ∈ es, e.2.Calls (PlanFor s.call.runId s.call.plan)) → state.status = .completed →
          state.Covers s.call.plan) := by
  have hend := (closing_outline hx).run ⟨⟨⟨empty_sound, empty_sound⟩, start_stated.1⟩,
    fun w => ⟨⟨⟨⟨trivial, fun s hs => by cases hs⟩, trivial, trivial⟩, trivial⟩, trivial, trivial⟩⟩ h
  have explained (runId : String) (hl : c.shared.tables.load runId = some state) :
      state.runId = runId ∧ Explained state.status state.error := by
    obtain ⟨row, hrow, hid, rfl⟩ := load_eq_some hl
    exact ⟨hid, hend.1.2.2 _ row hrow⟩
  rcases returned_from hcall hstep rfl with ⟨call, hc, hl, ht⟩ | ⟨s, hc⟩
  · obtain ⟨hid, hex⟩ := explained _ hl
    refine ⟨hid ▸ hl, ht, hex, fun s o ho => ?_⟩
    rw [hc] at ho
    cases ho
  · have hcl := (hend.2 w).1.2
    rw [hc] at hcl
    obtain ⟨hid, hex⟩ := explained _ hcl.2.stored
    refine ⟨hid ▸ hcl.2.stored, hcl.2.finished.terminal, hex, fun s' o ho => ?_⟩
    rw [hc] at ho
    cases ho
    refine ⟨hid, hcl.2.finished, fun hplan hdone => hcl.2.finished.covers hcl.2.stored ?_ hdone⟩
    have hstart : Holds (fun sh : Shared ι => sh.tables.Sound ∧
        PlanRows sh.tables s.call.runId s.call.plan)
        (fun _ sh ctrl => ctrl.Sound sh.tables ∧ ctrl.Calls (PlanFor s.call.runId s.call.plan))
        (System.start Tables.empty) :=
      ⟨⟨empty_sound, planRows_of_nil rfl⟩, fun _ => ⟨trivial, trivial⟩⟩
    exact ((plan_outline policy fun _ hc => hc).run_along hstart (calls_along hplan) h).1.2

def Control.answering : Control → Option (Session × RunState)
  | .releasing s (.returned state) => some (s, state)
  | _ => none

omit [DecidableEq ι] in
theorem answering_eq_some {state : RunState} (h : ctrl.answering = some (s, state)) :
    ctrl = .releasing s (.returned state) := by
  unfold Control.answering at h
  split at h
  · cases h
    rfl
  · cases h

theorem returned_run_finished_served :
    ∃ (c : System Bool) (s : Session) (state : RunState),
      runSystem perfectLock (System.start Tables.empty) orderServed = some c ∧
      c.locals true = .releasing s (.returned state) ∧
      c.shared.tables.load s.call.runId = some state ∧ Explained state.status state.error ∧
      state.Finished s.call.plan ∧ state.status = .completed ∧ state.Covers s.call.plan := by
  have h : ((runSystem perfectLock (System.start Tables.empty) orderServed).any fun c =>
      (c.locals true).answering.any fun p => decide (p.2.status = .completed) && decide
        (∀ e ∈ orderServed, e.2.Calls (PlanFor p.1.call.runId p.1.call.plan))) = true := by
    decide +kernel
  obtain ⟨c, hc, hq⟩ := (Option.any_eq_true _ _).mp h
  obtain ⟨⟨s, state⟩, hp, hq⟩ := (Option.any_eq_true _ _).mp hq
  rw [Bool.and_eq_true, decide_eq_true_eq, decide_eq_true_eq] at hq
  have hs := answering_eq_some hp
  obtain ⟨h1, _, h2, h3⟩ := returned_run_finished (a := .store) (w := true)
    perfectLock_exclusive orderServed hc
    (fun last hl => by rw [hs] at hl; cases hl) (by rw [hs]; rfl)
  obtain ⟨hid, hfin, hcovers⟩ := h3 s _ hs
  exact ⟨c, s, state, hc, hs, hid ▸ h1, h2, hfin, hq.1, hcovers hq.2 hq.1⟩

end Closing

end DurableAgent
