import DurableAgent.Lineage
import DurableAgent.RoundTrip

namespace DurableAgent

open FirstWriter Interleaving

variable {ι : Type}

def Datetime.wholeMinutes (d : Datetime) : Bool := d.utcoffset.all fun offset => offset % 60000000 = 0

-- `isoformat` writes the seconds of an offset, validation takes hours and minutes only
def readTimestamp (d : Datetime) : Except Raised Datetime :=
  if d.wholeMinutes then .ok d else .error .validationError

-- `json.loads` on a column
def loadsColumn (depth : Nat) (o : JsonObject) : Except Raised StrDict :=
  if (Json.obj o).depth ≤ depth then .ok (loadsObject o) else .error (.store .jsonError)

def readStep (room : Room) (row : StepRow) : Except Raised StepRecord :=
  match loadsColumn room.output row.output, readTimestamp row.createdAt with
  | .ok output, .ok createdAt =>
      .ok { Tables.hydrateStep row with output := output, createdAt := createdAt }
  | .error e, _ => .error e
  | _, .error e => .error e

def Tables.readRow (room : Room) (t : Tables) (row : RunRow) : Except Raised RunState :=
  match ((t.rowsOf row.runId).insertionSort fun a b => a.stepIndex ≤ b.stepIndex).mapM
      (readStep room), loadsColumn room.payload row.payload with
  | .ok steps, .ok payload => .ok { t.hydrate row with steps := steps, payload := payload }
  | .error e, _ => .error e
  | _, .error e => .error e

def Tables.readSome (room : Room) (t : Tables) : Option RunRow → Except Raised (Option RunState)
  | none => .ok none
  | some row =>
      match t.readRow room row with
      | .error e => .error e
      | .ok state => .ok (some state)

def Tables.read (room : Room) (t : Tables) (runId : String) : Except Raised (Option RunState) :=
  t.readSome room (t.runRow runId)

structure StepRecord.Same (r r' : StepRecord) : Prop where
  runId : r.runId = r'.runId
  index : r.index = r'.index
  name : r.name = r'.name
  outcome : r.outcome = r'.outcome
  attempts : r.attempts = r'.attempts
  output : PyValue.same (ofStrDict r.output) (ofStrDict r'.output) = true
  tokensUsed : r.tokensUsed = r'.tokensUsed
  createdAt : r.createdAt.same r'.createdAt = true

def ReadableRow (room : Room) (row : StepRow) : Prop :=
  (Json.obj row.output).depth ≤ room.output ∧ row.createdAt.wholeMinutes = true

structure Readable (room : Room) (t : Tables) (runId : String) : Prop where
  payload : ∀ row, t.runRow runId = some row → (Json.obj row.payload).depth ≤ room.payload
  rows : ∀ row ∈ t.rowsOf runId, ReadableRow room row

def RoundTrips (room : Room) (t : Tables) (r : StepRecord) : Prop :=
  ∃ state, t.read room r.runId = .ok (some state) ∧ ∃ r' ∈ state.steps, r.Same r'

def Control.Hands : Control → Prop
  | .appending _ f r (.proceed _ previous) =>
      ∃ output, Dict.get? previous f.step.name = some output ∧ validateDict output = some r.output
  | _ => True

section Reading

variable {room : Room} {t t' : Tables} {rows : List StepRow} {row : StepRow} {stack : Nat}

theorem loadsColumn_eq_ok {depth : Nat} {o : JsonObject} {d : StrDict} :
    loadsColumn depth o = .ok d ↔ (Json.obj o).depth ≤ depth ∧ loadsObject o = d := by
  unfold loadsColumn
  split
  · rename_i h
    rw [Except.ok.injEq, and_iff_right h]
  · rename_i h
    exact iff_of_false nofun fun hd => h hd.1

theorem readTimestamp_eq_ok {d d' : Datetime} :
    readTimestamp d = .ok d' ↔ d.wholeMinutes = true ∧ d = d' := by
  unfold readTimestamp
  split
  · rename_i h
    rw [Except.ok.injEq, and_iff_right h]
  · rename_i h
    exact iff_of_false nofun fun hd => h hd.1

theorem readStep_eq_ok {r : StepRecord} :
    readStep room row = .ok r ↔ ReadableRow room row ∧ Tables.hydrateStep row = r := by
  unfold readStep
  constructor
  · intro h
    split at h
    · rename_i output createdAt ho hc
      obtain ⟨hdepth, rfl⟩ := loadsColumn_eq_ok.mp ho
      obtain ⟨hw, rfl⟩ := readTimestamp_eq_ok.mp hc
      exact ⟨⟨hdepth, hw⟩, Except.ok.inj h⟩
    · cases h
    · cases h
  · rintro ⟨hrow, rfl⟩
    rw [loadsColumn_eq_ok.mpr ⟨hrow.1, rfl⟩, readTimestamp_eq_ok.mpr ⟨hrow.2, rfl⟩]
    rfl

theorem readSteps_eq_ok {steps : List StepRecord} : rows.mapM (readStep room) = .ok steps ↔
    (∀ row ∈ rows, ReadableRow room row) ∧ rows.map Tables.hydrateStep = steps := by
  induction rows generalizing steps with
  | nil => simp [pure, Except.pure]
  | cons row rows ih =>
    rw [List.mapM_cons]
    simp only [List.forall_mem_cons, List.map_cons]
    cases hr : readStep room row with
    | error e =>
      have hn : ¬ ReadableRow room row := by
        intro hw
        rw [readStep_eq_ok.mpr ⟨hw, rfl⟩] at hr
        cases hr
      simp [bind, Except.bind, hn]
    | ok r =>
      obtain ⟨hw, rfl⟩ := readStep_eq_ok.mp hr
      cases hrs : rows.mapM (readStep room) with
      | error e =>
        have hn : ¬ ∀ row ∈ rows, ReadableRow room row := by
          intro h
          rw [ih.mpr ⟨h, rfl⟩] at hrs
          cases hrs
        refine iff_of_false (by simp [bind, Except.bind]) fun h => hn h.1.2
      | ok rs =>
        obtain ⟨h, rfl⟩ := ih.mp hrs
        exact ⟨fun he => ⟨⟨hw, h⟩, Except.ok.inj he⟩, fun he => congrArg Except.ok he.2⟩

theorem readRow_eq_ok {run : RunRow} {state : RunState} : t.readRow room run = .ok state ↔
    ((Json.obj run.payload).depth ≤ room.payload ∧
      ∀ row ∈ t.rowsOf run.runId, ReadableRow room row) ∧ t.hydrate run = state := by
  have hsort (row : StepRow) : row ∈ (t.rowsOf run.runId).insertionSort
      (fun a b => a.stepIndex ≤ b.stepIndex) ↔ row ∈ t.rowsOf run.runId := List.mem_insertionSort _
  unfold Tables.readRow
  constructor
  · intro h
    split at h
    · rename_i steps payload hs hp
      obtain ⟨hrows, rfl⟩ := readSteps_eq_ok.mp hs
      obtain ⟨hdepth, rfl⟩ := loadsColumn_eq_ok.mp hp
      exact ⟨⟨hdepth, fun row hrow => hrows row ((hsort row).mpr hrow)⟩, Except.ok.inj h⟩
    · cases h
    · cases h
  · rintro ⟨⟨hdepth, hrows⟩, rfl⟩
    rw [readSteps_eq_ok.mpr ⟨fun row hrow => hrows row ((hsort row).mp hrow), rfl⟩,
      loadsColumn_eq_ok.mpr ⟨hdepth, rfl⟩]
    rfl

theorem read_eq_ok {runId : String} {state : RunState} :
    t.read room runId = .ok (some state) ↔
      Readable room t runId ∧ t.load runId = some state := by
  unfold Tables.read Tables.load
  cases hr : t.runRow runId with
  | none => simp [Tables.readSome]
  | some run =>
    have hid := Tables.runRow_runId hr
    have hread : Readable room t runId ↔ (Json.obj run.payload).depth ≤ room.payload ∧
        ∀ row ∈ t.rowsOf run.runId, ReadableRow room row := by
      rw [hid]
      refine ⟨fun h => ⟨h.payload run hr, h.rows⟩, fun h => ⟨fun row hrow => ?_, h.2⟩⟩
      rw [hr] at hrow
      exact Option.some.inj hrow ▸ h.1
    rw [Option.map_some, Option.some.injEq, hread, ← readRow_eq_ok, Tables.readSome]
    cases t.readRow room run <;> simp

theorem rowsOf_fresh {r : StepRecord} {o : JsonObject} (h : t.append stack r = .ok t')
    (ho : toJsonObject r.output = some o)
    (hfresh : ∀ row ∈ t.rowsOf r.runId, row.stepIndex ≠ r.index) :
    t'.rowsOf r.runId = t.rowsOf r.runId ++ [r.row o] := by
  rw [Tables.rowsOf_append h ho, if_pos rfl, insertOrIgnore_of_not_mem]
  rw [List.mem_map]
  rintro ⟨row, hrow, he⟩
  exact hfresh row hrow he

theorem same_stored {r : StepRecord} {o : JsonObject} (ho : toJsonObject r.output = some o) :
    r.Same (Tables.hydrateStep (r.row o)) ↔
      PyValue.exact (ofStrDict r.output) = true ∧ r.createdAt.folds = false := by
  have htime : r.createdAt.same r.createdAt.isoformat = true ↔ r.createdAt.folds = false := by
    simp [Datetime.same, Datetime.isoformat]
  rw [← same_loadsObject ho, ← htime]
  exact ⟨fun h => ⟨h.output, h.createdAt⟩, fun h => ⟨rfl, rfl, rfl, rfl, rfl, h.1, rfl, h.2⟩⟩

theorem readable_append {r : StepRecord} (h : t.append stack r = .ok t')
    (hfresh : ∀ row ∈ t.rowsOf r.runId, row.stepIndex ≠ r.index) :
    Readable room t' r.runId ↔ Readable room t r.runId ∧
      (dumpsObject room.output r.output).isSome = true ∧ r.createdAt.wholeMinutes = true := by
  obtain ⟨o, ho, _, _⟩ := Tables.append_ok h
  have hrows := rowsOf_fresh h ho hfresh
  have hrun := Tables.runRow_append h r.runId
  have hdepth : (dumpsObject room.output r.output).isSome = true ↔
      (Json.obj o).depth ≤ room.output := by
    simp [dumpsObject, ho, Option.filter]
  rw [hdepth]
  constructor
  · rintro ⟨hpayload, hall⟩
    rw [hrows, List.forall_mem_append, List.forall_mem_singleton] at hall
    exact ⟨⟨fun row hrow => hpayload row (hrun.trans hrow), hall.1⟩, hall.2⟩
  · rintro ⟨⟨hpayload, hall⟩, hnew⟩
    refine ⟨fun row hrow => hpayload row (hrun.symm.trans hrow), ?_⟩
    rw [hrows, List.forall_mem_append, List.forall_mem_singleton]
    exact ⟨hall, hnew⟩

theorem append_roundTrips_iff {r : StepRecord} (h : t.append stack r = .ok t')
    (hfresh : ∀ row ∈ t.rowsOf r.runId, row.stepIndex ≠ r.index) :
    RoundTrips room t' r ↔ (PyValue.exact (ofStrDict r.output) = true ∧
        r.createdAt.folds = false) ∧ Readable room t r.runId ∧
      (dumpsObject room.output r.output).isSome = true ∧ r.createdAt.wholeMinutes = true := by
  obtain ⟨o, ho, ⟨run, hrun⟩, _⟩ := Tables.append_ok h
  have hrows := rowsOf_fresh h ho hfresh
  have hrun' : t'.runRow r.runId = some run := (Tables.runRow_append h r.runId).trans hrun
  have hid := Tables.runRow_runId hrun
  rw [← same_stored ho, ← readable_append h hfresh]
  constructor
  · rintro ⟨state, hs, r', hr', hsame⟩
    obtain ⟨hre, hl⟩ := read_eq_ok.mp hs
    refine ⟨?_, hre⟩
    rw [Tables.load, hrun', Option.map_some, Option.some.injEq] at hl
    rw [← hl, Tables.mem_hydrate_steps, hid, hrows] at hr'
    obtain ⟨row, hrow, rfl⟩ := hr'
    rcases List.mem_append.mp hrow with hrow | hrow
    · exact absurd hsame.index.symm (hfresh row hrow)
    · rwa [← List.mem_singleton.mp hrow]
  · rintro ⟨hsame, hre⟩
    refine ⟨t'.hydrate run, read_eq_ok.mpr ⟨hre, by rw [Tables.load, hrun', Option.map_some]⟩,
      _, ?_, hsame⟩
    rw [Tables.mem_hydrate_steps, hid, hrows]
    exact ⟨r.row o, List.mem_append_right _ List.mem_cons_self, rfl⟩

theorem get?_previousOf {runId : String} {plan : Plan} (hn : t.Numbered)
    (hp : PlanRows t runId plan) {state : RunState} (hl : t.load runId = some state)
    (hrow : row ∈ t.rowsOf runId) : Dict.get? (previousOf state) row.name =
      some (ofStrDict (Tables.hydrateStep row).output) := by
  obtain ⟨run, _, hid, rfl⟩ := load_eq_some hl
  have hkeys : ((t.rowsOf runId).map StepRow.name).Nodup := planRows_names_nodup hn hp
  have heq : previousOf (t.hydrate run) = (t.rowsOf runId).map fun row =>
      (row.name, ofStrDict (Tables.hydrateStep row).output) := by
    rw [previousOf, hydrate_steps _ (hn _), hid, List.map_map]
    apply Dict.ofPairs_of_nodup
    simpa [Dict.keys, Function.comp_def, Tables.hydrateStep] using hkeys
  rw [heq]
  apply Dict.get?_of_mem
  · simpa [Dict.keys, Function.comp_def] using hkeys
  · exact List.mem_map_of_mem hrow

end Reading

section Handing

variable {policy : LockPolicy ι} {w : ι} {sh sh' : Shared ι} {ctrl ctrl' : Control} {a : Action}
  {s : Session} {f : Frame}

theorem next_hands (index : Nat) (payload : StrDict) (previous : Outputs) :
    (s.next index payload previous).Hands := by
  apply next_cases
  · exact fun _ => trivial
  · exact fun _ _ => trivial
  · exact fun _ => trivial

theorem conclude_hands (e : Execution) (now : Datetime) : (conclude s f e now).Hands := by
  apply conclude_cases
  · exact fun _ => trivial
  · exact fun _ _ _ _ _ _ => trivial
  · intro output r _ hr
    exact ⟨output, Dict.get?_set_self _ _ _, (stepRecord_ok hr).2.2.2.2⟩

theorem inert_hands (h : ctrl.inert = true) : ctrl.Hands := by
  cases ctrl with
  | appending s f r after => cases h
  | _ => trivial

theorem Move.hands (h : Move policy w sh ctrl a sh' ctrl') : ctrl'.Hands := by
  cases h with
  | rest tables log inert => exact inert_hands inert
  | started writes set next =>
    rcases next with rfl | hi
    · exact next_hands _ _ _
    · exact inert_hands hi
  | missing unknown => exact conclude_hands _ _
  | returned result => exact conclude_hands _ _
  | threw result => exact conclude_hands _ _
  | @appended s f r after a t ctrl' writes stored next =>
    rcases next with rfl | hi
    · cases after with
      | proceed payload previous => exact next_hands _ _ _
      | settle status reason reraise => trivial
    · exact inert_hands hi
  | settled writes set inert => exact inert_hands inert
  | _ => trivial

theorem start_hands (runId : String) (plan : Plan) :
    Holds (fun sh : Shared ι => sh.tables.Sound ∧ PlanRows sh.tables runId plan)
      (fun _ sh ctrl => (ctrl.Sound sh.tables ∧ ctrl.Calls (PlanFor runId plan)) ∧ ctrl.Hands)
      (System.start Tables.empty) :=
  ⟨⟨empty_sound, planRows_of_nil rfl⟩, fun _ => ⟨⟨trivial, trivial⟩, trivial⟩⟩

variable [DecidableEq ι]

theorem hands_outline (policy : LockPolicy ι) (runId : String) (plan : Plan) :
    Outline (workerStep policy) (fun _ _ a => a.Calls (PlanFor runId plan))
      (fun sh => sh.tables.Sound ∧ PlanRows sh.tables runId plan)
      (fun _ sh ctrl => (ctrl.Sound sh.tables ∧ ctrl.Calls (PlanFor runId plan)) ∧ ctrl.Hands) := by
  apply (plan_outline policy (Q := PlanFor runId plan) fun _ h => h).strengthen
  · exact fun _ _ _ _ ha => (workerStep_move ha).hands
  · exact fun _ _ _ _ _ hl _ _ => hl

end Handing

section Claim

def tupleRecord : StepRecord where
  runId := "run"
  index := 0
  name := "charge"
  outcome := .ok
  attempts := 1
  output := [(.ofString "ids", .tuple [.int 1, .int 2])]
  tokensUsed := 0
  createdAt := epoch
  attemptsPositive := by decide

def chargedTables : Tables where
  runs := [⟨"run", "order-0001", "payment", [], .running, none, 0⟩]
  stepRecords := []

theorem tuple_not_read_back :
    ¬ ∀ (room : Room) (stack : Nat) (t t' : Tables) (r : StepRecord),
      (∀ row ∈ t.rowsOf r.runId, row.stepIndex ≠ r.index) →
      t.append stack r = .ok t' → RoundTrips room t' r := by
  intro h
  have happ : (chargedTables.append 900 tupleRecord).isOk = true := by decide
  cases ha : chargedTables.append 900 tupleRecord with
  | error e =>
    rw [ha] at happ
    cases happ
  | ok t' =>
    have hfresh : ∀ row ∈ chargedTables.rowsOf tupleRecord.runId,
        row.stepIndex ≠ tupleRecord.index := by decide
    have he := (append_roundTrips_iff ha hfresh).mp (h ⟨900, 900⟩ _ _ _ _ hfresh ha)
    exact absurd he.1.1 (by decide)

variable [DecidableEq ι]

theorem checkpoint_round_trip_iff (policy : LockPolicy ι) (room : Room) :
    (∀ (stack : Nat) (t t' : Tables) (r : StepRecord),
      (∀ row ∈ t.rowsOf r.runId, row.stepIndex ≠ r.index) → t.append stack r = .ok t' →
      (RoundTrips room t' r ↔ (PyValue.exact (ofStrDict r.output) = true ∧
          r.createdAt.folds = false) ∧ Readable room t r.runId ∧
        (dumpsObject room.output r.output).isSome = true ∧ r.createdAt.wholeMinutes = true)) ∧
    ∀ (es es' : List (ι × Action)) (c c' d : System ι) (w : ι) (s : Session) (f : Frame)
      (r : StepRecord) (payload : StrDict) (previous : Outputs) (output : PyValue),
      (∀ e ∈ es ++ (w, .store) :: es', e.2.Calls (PlanFor s.call.runId s.call.plan)) →
      runSystem policy (System.start Tables.empty) es = some c →
      c.locals w = .appending s f r (.proceed payload previous) →
      Dict.get? previous f.step.name = some output →
      (∀ row ∈ c.shared.tables.rowsOf r.runId, row.stepIndex ≠ r.index) →
      c.shared.tables.append s.call.stack r = .ok c'.shared.tables →
      runSystem policy c [(w, .store)] = some c' →
      runSystem policy c' es' = some d →
      ((∃ state v, d.shared.tables.read room s.call.runId = .ok (some state) ∧
        Dict.get? (previousOf state) f.step.name = some v ∧ PyValue.same output v = true) ↔
        PyValue.exact output = true ∧ Readable room d.shared.tables s.call.runId) := by
  refine ⟨fun stack t t' r hfresh h => append_roundTrips_iff h hfresh, ?_⟩
  intro es es' c c' d w s f r payload previous output hplan hc hw hprev hfresh happ hc' hd
  have hplan' := List.forall_mem_append.mp hplan
  have hbefore := (hands_outline policy s.call.runId s.call.plan).run_along
    (start_hands _ _) (calls_along hplan'.1) hc
  have hafter := (hands_outline policy s.call.runId s.call.plan).run_along hbefore
    (calls_along hplan'.2) (Transition.run_append.mpr ⟨c', hc', hd⟩)
  have hloc := hbefore.2 w
  rw [hw] at hloc
  obtain ⟨⟨⟨_, _, hrec⟩, _⟩, output', hprev', hval⟩ := hloc
  rw [hprev, Option.some.injEq] at hprev'
  rw [← hprev'] at hval
  obtain ⟨o, ho, ⟨run, hrun⟩, _⟩ := Tables.append_ok happ
  have hgrows := run_grows hd
  have hmem : r.row o ∈ d.shared.tables.rowsOf s.call.runId := by
    obtain ⟨more, hmore⟩ := hgrows.rows s.call.runId
    rw [hmore, ← hrec.runId, rowsOf_fresh happ ho hfresh]
    exact List.mem_append_left _ (List.mem_append_right _ List.mem_cons_self)
  have hget {state : RunState} (hl : d.shared.tables.load s.call.runId = some state) :
      Dict.get? (previousOf state) f.step.name = some (ofStrDict (loadsObject o)) := by
    rw [← hrec.name]
    exact get?_previousOf hafter.1.1.numbered hafter.1.2 hl hmem
  rw [← same_validated hval ho]
  constructor
  · rintro ⟨state, v, hread, hv, hsame⟩
    obtain ⟨hre, hl⟩ := read_eq_ok.mp hread
    rw [hget hl, Option.some.injEq] at hv
    exact ⟨hv ▸ hsame, hre⟩
  · rintro ⟨hsame, hre⟩
    have hstored : ∃ row, d.shared.tables.runRow s.call.runId = some row := by
      obtain ⟨row, hrow, hid⟩ := hafter.1.1.wellFormed.references _
        (List.mem_of_mem_filter hmem)
      have hrow' := Tables.runRow_of_mem hafter.1.1.wellFormed hrow
      rw [hid] at hrow'
      exact ⟨row, hrec.runId ▸ hrow'⟩
    obtain ⟨row, hrow⟩ := hstored
    have hl : d.shared.tables.load s.call.runId = some (d.shared.tables.hydrate row) := by
      rw [Tables.load, hrow, Option.map_some]
    exact ⟨_, _, read_eq_ok.mpr ⟨hre, hl⟩, hget hl, hsame⟩

def returnsTuple : PyValue := .dict [(.str (.ofString "ids"), .tuple [.int 1, .int 2])]

def beforeAppend : List (Bool × Action) :=
  (true, submits) :: turns true (opens ++ [.begin, finishes 0 [] (.returned returnsTuple)])

theorem checkpoint_round_trip_iff_tuple :
    ∃ (d : System Bool) (state : RunState),
      runSystem perfectLock (System.start Tables.empty)
        (beforeAppend ++ (true, .store) :: [(true, .die)]) = some d ∧
      d.shared.tables.read ⟨900, 900⟩ "run" = .ok (some state) ∧
      ¬ ∃ v, Dict.get? (previousOf state) "charge" = some v ∧
        PyValue.same returnsTuple v = true := by
  have hs : ((runSystem perfectLock (System.start Tables.empty) beforeAppend).any fun c =>
      match c.locals true with
      | .appending s f r (.proceed _ previous) => s.call.runId = "run" ∧ f.step.name = "charge" ∧
          s.call.plan = chargePlan ∧ Dict.get? previous f.step.name = some returnsTuple ∧
          (∀ row ∈ c.shared.tables.rowsOf r.runId, row.stepIndex ≠ r.index) ∧
          (c.shared.tables.append s.call.stack r).toOption.any fun t =>
            (t.read ⟨900, 900⟩ "run").toOption.any Option.isSome
      | _ => false) = true := by decide +kernel
  obtain ⟨c, hc, hq⟩ := (Option.any_eq_true _ _).mp hs
  split at hq
  · rename_i s f r payload previous hw
    simp only [decide_eq_true_eq] at hq
    obtain ⟨hid, hname, hplan, hprev, hfresh, happ⟩ := hq
    cases ht : c.shared.tables.append s.call.stack r with
    | error e => simp [ht, Except.toOption] at happ
    | ok t =>
      have hl : ∃ state, t.read ⟨900, 900⟩ "run" = .ok (some state) := by
        rw [ht, Except.toOption, Option.any_some, Option.any_eq_true] at happ
        obtain ⟨found, hfound, hsome⟩ := happ
        obtain ⟨state, rfl⟩ := Option.isSome_iff_exists.mp hsome
        cases hr : t.read ⟨900, 900⟩ "run" with
        | error e => simp [hr, Except.toOption] at hfound
        | ok found => exact ⟨state, congrArg _ (by simpa [hr, Except.toOption] using hfound)⟩
      obtain ⟨state, hl⟩ := hl
      have hc' : runSystem perfectLock c [(true, .store)] =
          some ⟨c.shared.checkpoint t (f.context s) r, Function.update c.locals true
            (s.next (f.index + 1) payload previous)⟩ := by
        simp [runSystem, Transition.run, Interleaving.step, workerStep, perform, hw, ht,
          AfterAppend.control]
      have hd : runSystem perfectLock ⟨c.shared.checkpoint t (f.context s) r,
          Function.update c.locals true (s.next (f.index + 1) payload previous)⟩ [(true, .die)] =
          some ⟨(c.shared.checkpoint t (f.context s) r).buried true, Function.update
            (Function.update c.locals true (s.next (f.index + 1) payload previous)) true
            (.atRest none)⟩ := rfl
      have hcalls : ∀ e ∈ beforeAppend ++ (true, .store) :: [(true, .die)],
          e.2.Calls (PlanFor s.call.runId s.call.plan) := by
        rw [hid, hplan]
        decide
      refine ⟨_, state, Transition.run_append.mpr ⟨c, hc, Transition.run_append.mpr ⟨_, hc', hd⟩⟩,
        hl, ?_⟩
      rintro ⟨v, hv, hsame⟩
      have hexact := ((checkpoint_round_trip_iff perfectLock ⟨900, 900⟩).2 _ _ c _ _ true s f r
        payload previous returnsTuple hcalls hc hw hprev hfresh ht hc' hd).mp
          ⟨state, v, hid ▸ hl, hname ▸ hv, hsame⟩
      exact absurd hexact.1 (by decide)
  · cases hq

end Claim

end DurableAgent
