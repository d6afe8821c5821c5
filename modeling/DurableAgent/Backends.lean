import DurableAgent.InFlight
import DurableAgent.Postgres
import DurableAgent.Library.Simulation

namespace DurableAgent

open FirstWriter Simulation

-- `now` is the microsecond the call runs at; each backend breaks its own ties, and of `depths` and
-- `rooms`, what `json.dumps` and `json.loads` have stack for, the first is SQLite's
inductive StoreCall where
  | createRun (depths : Nat × Nat) (rooms : Room × Room) (runId : String) (spec : RunSpec)
      (now tie tie' : Nat)
  | append (depths : Nat × Nat) (record : StepRecord)
  | setStatus (runId : String) (status : RunStatus) (error : Option PyStr)
  | load (rooms : Room × Room) (runId : String)
  | findByKey (rooms : Room × Room) (idempotencyKey : String) (tie tie' : Nat)

inductive CallResult (ε : Type) where
  | created (state : RunState)
  | alreadyActive (runId : String)
  | found (state : Option RunState)
  | done
  | failed (error : ε)

def CallResult.ofFound {ε : Type} : Except ε (Option RunState) → CallResult ε
  | .ok state => .found state
  | .error e => .failed e

-- what a refused insert raises: the run `find_by_key` gives, or the refusal itself
def CallResult.ofConflict {ε : Type} (refusal : ε) : Except ε (Option RunState) → CallResult ε
  | .ok (some existing) => .alreadyActive existing.runId
  | .ok none => .failed refusal
  | .error e => .failed e

def createdState (runId : String) (spec : RunSpec) : RunState :=
  ⟨runId, spec.idempotencyKey, .pending, spec.plan.name, spec.payload, [], none⟩

def second (now : Nat) : Nat := now / 1000000

def Tables.readByKey (room : Room) (t : Tables) (key : String) (tie : Nat) :
    Except Raised (Option RunState) :=
  t.readSome room ((t.latestFor key)[tie % (t.latestFor key).length]?)

def sqliteCall (t : Tables) : StoreCall → Tables × CallResult Raised
  | .createRun depths rooms runId spec now tie _ =>
      match t.insertRun depths.1 runId spec (second now) with
      | .ok t' => (t', .created (createdState runId spec))
      | .error .integrityError =>
          (t, .ofConflict (.store .integrityError) (t.readByKey rooms.1 spec.idempotencyKey tie))
      | .error e => (t, .failed (.store e))
  | .append depths r =>
      match t.append depths.1 r with
      | .ok t' => (t', .done)
      | .error e => (t, .failed (.store e))
  | .setStatus runId status error =>
      match t.setStatus runId status error with
      | .ok t' => (t', .done)
      | .error e => (t, .failed (.store e))
  | .load rooms runId => (t, .ofFound (t.read rooms.1 runId))
  | .findByKey rooms key tie _ => (t, .ofFound (t.readByKey rooms.1 key tie))

def postgresCall (zone : Postgres.Zone) (t : Postgres.Tables) :
    StoreCall → Postgres.Tables × CallResult Postgres.Error
  | .createRun depths rooms runId spec now _ tie =>
      match t.insertRun depths.2 runId spec now with
      | .ok t' => (t', .created (createdState runId spec))
      | .error .integrityError =>
          (t, .ofConflict .integrityError (t.findByKey zone rooms.2 spec.idempotencyKey tie))
      | .error e => (t, .failed e)
  | .append depths r =>
      match t.append zone depths.2 r with
      | .ok t' => (t', .done)
      | .error e => (t, .failed e)
  | .setStatus runId status error =>
      match t.setStatus runId status error with
      | .ok t' => (t', .done)
      | .error e => (t, .failed e)
  | .load rooms runId => (t, .ofFound (t.load zone rooms.2 runId))
  | .findByKey rooms key _ tie => (t, .ofFound (t.findByKey zone rooms.2 key tie))

structure StepRecord.Alike (r r' : StepRecord) : Prop where
  runId : r.runId = r'.runId
  index : r.index = r'.index
  name : r.name = r'.name
  outcome : r.outcome = r'.outcome
  attempts : r.attempts = r'.attempts
  output : SameValue (ofStrDict r.output) (ofStrDict r'.output)
  tokensUsed : r.tokensUsed = r'.tokensUsed
  createdAt : r.createdAt.same r'.createdAt = true

structure RunState.Alike (s s' : RunState) : Prop where
  runId : s.runId = s'.runId
  idempotencyKey : s.idempotencyKey = s'.idempotencyKey
  status : s.status = s'.status
  planName : s.planName = s'.planName
  payload : SameValue (ofStrDict s.payload) (ofStrDict s'.payload)
  steps : List.Forall₂ StepRecord.Alike s.steps s'.steps
  error : s.error = s'.error

def CallResult.refused {ε : Type} : CallResult ε → Bool
  | .alreadyActive _ => true
  | .failed _ => true
  | _ => false

def CallResult.Alike {ε ε' : Type} : CallResult ε → CallResult ε' → Prop
  | .created s, .created s' => s = s'
  | .found none, .found none => True
  | .found (some s), .found (some s') => s.Alike s'
  | .done, .done => True
  | .alreadyActive runId, .alreadyActive runId' => runId = runId'
  | .alreadyActive _, .failed _ => True
  | .failed _, .alreadyActive _ => True
  | .failed _, .failed _ => True
  | _, _ => False

-- what both backends take and keep, of a run that is inserted
structure RunPortable (t : Tables) (runId : String) (spec : RunSpec) (now : Nat) : Prop where
  runId : storableText runId = true
  idempotencyKey : storableText spec.idempotencyKey = true
  planName : storableText spec.plan.name = true
  payload : ∀ o, toJsonObject spec.payload = some o → portableObject o = true
  createdAt : ∀ r ∈ t.runs, r.idempotencyKey = spec.idempotencyKey → r.createdAt ≠ second now

structure StepPortable (t : Tables) (zone : Postgres.Zone) (r : StepRecord) : Prop where
  runId : storableText r.runId = true
  name : storableText r.name = true
  index : Postgres.fitsInteger r.index = true
  attempts : Postgres.fitsInteger r.attempts = true
  tokensUsed : Postgres.fitsInteger r.tokensUsed = true
  accepted : ∀ o, toJsonObject r.output = some o → (jsonbObject o).isSome = true
  kept : (∀ row ∈ t.rowsOf r.runId, row.stepIndex ≠ r.index) →
    (∀ o, toJsonObject r.output = some o → portableObject o = true) ∧
      r.createdAt.utcoffset.isSome = true ∧ r.createdAt.wholeMinutes = true ∧
        (zone.offset r.createdAt.micros).isSome = true ∧ zone.folds r.createdAt.micros = false

-- `json.dumps` has stack for it on both, or on neither
def SameStack (depths : Nat × Nat) (d : StrDict) : Prop :=
  (dumpsObject depths.1 d).isSome = (dumpsObject depths.2 d).isSome

instance (depths : Nat × Nat) (d : StrDict) : Decidable (SameStack depths d) :=
  inferInstanceAs (Decidable (_ = _))

theorem SameStack.dumps {depths : Nat × Nat} {d : StrDict} (h : SameStack depths d) :
    (dumpsObject depths.1 d = none ∧ dumpsObject depths.2 d = none) ∨
      ∃ o, toJsonObject d = some o ∧ dumpsObject depths.1 d = some o ∧
        dumpsObject depths.2 d = some o := by
  rw [SameStack] at h
  cases ho : dumpsObject depths.1 d with
  | none =>
    rw [ho, Option.isSome_none] at h
    exact .inl ⟨rfl, Option.isNone_iff_eq_none.mp (Option.isSome_eq_false_iff.mp h.symm)⟩
  | some o =>
    rw [ho, Option.isSome_some] at h
    obtain ⟨o', ho'⟩ := Option.isSome_iff_exists.mp h.symm
    have hjson := (dumpsObject_eq_some.mp ho).1
    obtain rfl : o = o' := Option.some.inj (hjson.symm.trans (dumpsObject_eq_some.mp ho').1)
    exact .inr ⟨o, hjson, rfl, ho'⟩

-- no column of the run nests deeper than there is room for
structure Tables.Within (room : Room) (t : Tables) (row : RunRow) : Prop where
  payload : (Json.obj row.payload).depth ≤ room.payload
  outputs : ∀ r ∈ t.rowsOf row.runId, (Json.obj r.output).depth ≤ room.output

def Tables.WithinBoth (rooms : Room × Room) (t : Tables) (row : RunRow) : Prop :=
  t.Within rooms.1 row ∧ t.Within rooms.2 row

-- a call that both refuse for want of a free key or of its run asks nothing more
def Portable (zone : Postgres.Zone) (t : Tables) : StoreCall → Prop
  | .createRun depths _ runId spec now _ _ => t.runRow runId = none →
      t.activeClash runId spec.idempotencyKey = false → SameStack depths spec.payload ∧
        ((dumpsObject depths.1 spec.payload).isSome = true → RunPortable t runId spec now)
  | .append depths r => (Tables.bindable r.index && Tables.bindable r.attempts &&
      Tables.bindable r.tokensUsed) = true → (t.runRow r.runId).isSome = true →
        SameStack depths r.output ∧
          ((dumpsObject depths.1 r.output).isSome = true → StepPortable t zone r)
  | .setStatus runId status error => ∀ err, Tables.encodeError error = some err →
      (∀ row, t.runRow runId = some row → (Tables.settled runId status err row).active = true →
        t.activeClash runId row.idempotencyKey = false) →
        storableText runId = true ∧ err.all storableText = true
  | .load rooms runId => storableText runId = true ∧
      ∀ row, t.runRow runId = some row → t.WithinBoth rooms row
  | .findByKey rooms key _ _ => storableText key = true ∧
      ∀ row ∈ t.latestFor key, t.WithinBoth rooms row

structure RunAlike (x : RunRow × Postgres.RunRow) : Prop where
  runId : x.1.runId = x.2.runId
  idempotencyKey : x.1.idempotencyKey = x.2.idempotencyKey
  planName : x.1.planName = x.2.planName
  payload : SameValue (ofStrDict (loadsObject x.1.payload)) (ofStrDict (loadsObject x.2.payload))
  status : x.1.status = x.2.status
  error : x.1.error = x.2.error
  createdAt : x.1.createdAt = second x.2.createdAt
  nesting : (Json.obj x.2.payload).depth ≤ (Json.obj x.1.payload).depth

structure StepAlike (zone : Postgres.Zone) (x : StepRow × Postgres.StepRow) : Prop where
  runId : x.1.runId = x.2.runId
  stepIndex : x.1.stepIndex = x.2.stepIndex
  name : x.1.name = x.2.name
  outcome : x.1.outcome = x.2.outcome
  attempts : x.1.attempts = x.2.attempts
  output : SameValue (ofStrDict (loadsObject x.1.output)) (ofStrDict (loadsObject x.2.output))
  tokensUsed : x.1.tokensUsed = x.2.tokensUsed
  createdAt : x.1.createdAt.micros = x.2.createdAt
  aware : x.1.createdAt.utcoffset.isSome = true
  readable : x.1.createdAt.wholeMinutes = true
  inRange : (zone.offset x.2.createdAt).isSome = true
  folds : x.1.createdAt.folds = false ∧ zone.folds x.2.createdAt = false
  nesting : (Json.obj x.2.output).depth ≤ (Json.obj x.1.output).depth

-- the rows of both backends side by side, in the order they were written
structure Paired (zone : Postgres.Zone) (t : Tables) (t' : Postgres.Tables)
    (runs : List (RunRow × Postgres.RunRow)) (steps : List (StepRow × Postgres.StepRow)) : Prop where
  left : t = ⟨runs.map Prod.fst, steps.map Prod.fst⟩
  right : t' = ⟨runs.map Prod.snd, steps.map Prod.snd⟩
  run : ∀ x ∈ runs, RunAlike x
  step : ∀ x ∈ steps, StepAlike zone x
  distinct : ∀ x ∈ runs, ∀ y ∈ runs, x.1.idempotencyKey = y.1.idempotencyKey →
    x.1.createdAt = y.1.createdAt → x = y

def Agreed (zone : Postgres.Zone) (t : Tables) (t' : Postgres.Tables) : Prop :=
  ∃ runs steps, Paired zone t t' runs steps

section Pairs

variable {zone : Postgres.Zone} {t : Tables} {t' : Postgres.Tables}
  {runs : List (RunRow × Postgres.RunRow)} {steps : List (StepRow × Postgres.StepRow)}

theorem RunAlike.active {x : RunRow × Postgres.RunRow} (h : RunAlike x) : x.1.active = x.2.active := by
  rw [RunRow.active, Postgres.RunRow.active, h.status]

theorem Paired.runRow (h : Paired zone t t' runs steps) (runId : String) :
    (t.runRow runId = none ∧ t'.runRow runId = none) ∨
      ∃ x ∈ runs, t.runRow runId = some x.1 ∧ t'.runRow runId = some x.2 := by
  rw [h.left, h.right]
  exact find?_paired fun x hx => by rw [(h.run x hx).runId]

theorem Paired.activeClash (h : Paired zone t t' runs steps) (runId key : String) :
    t.activeClash runId key = t'.activeClash runId key := by
  rw [h.left, h.right]
  apply any_paired
  intro x hx
  rw [(h.run x hx).runId, (h.run x hx).idempotencyKey, (h.run x hx).active]

theorem Paired.rowsOf (h : Paired zone t t' runs steps) (runId : String) :
    t.rowsOf runId = (steps.filter fun x => x.1.runId = runId).map Prod.fst ∧
      t'.rowsOf runId = (steps.filter fun x => x.1.runId = runId).map Prod.snd := by
  rw [h.left, h.right]
  exact filter_paired fun x hx => by rw [(h.step x hx).runId]

theorem postgres_loadsColumn {depth : Nat} {o : JsonObject} (h : (Json.obj o).depth ≤ depth) :
    Postgres.Tables.loadsColumn depth o = .ok (loadsObject o) := if_pos h

theorem readStep_paired {rooms : Room × Room} {x : StepRow × Postgres.StepRow}
    (hx : StepAlike zone x) (hl : (Json.obj x.1.output).depth ≤ rooms.1.output)
    (hr : (Json.obj x.1.output).depth ≤ rooms.2.output) :
    ∃ r r', readStep rooms.1 x.1 = .ok r ∧ Postgres.Tables.readStep zone rooms.2 x.2 = .ok r' ∧
      r.Alike r' := by
  obtain ⟨offset, ho⟩ := Option.isSome_iff_exists.mp hx.inRange
  refine ⟨Tables.hydrateStep x.1, _, readStep_eq_ok.mpr ⟨⟨hl, hx.readable⟩, rfl⟩,
    by rw [Postgres.Tables.readStep, postgres_loadsColumn (hx.nesting.trans hr), ho], ?_⟩
  refine ⟨hx.runId, hx.stepIndex, hx.name, hx.outcome, hx.attempts, hx.output, hx.tokensUsed, ?_⟩
  simp [Datetime.same, Tables.hydrateStep, hx.createdAt, hx.aware, hx.folds]

theorem readSteps_paired {rooms : Room × Room} {xs : List (StepRow × Postgres.StepRow)}
    (h : ∀ x ∈ xs, StepAlike zone x)
    (hd : ∀ x ∈ xs, (Json.obj x.1.output).depth ≤ rooms.1.output ∧
      (Json.obj x.1.output).depth ≤ rooms.2.output) :
    ∃ rs rs', (xs.map Prod.fst).mapM (readStep rooms.1) = .ok rs ∧
      (xs.map Prod.snd).mapM (Postgres.Tables.readStep zone rooms.2) = .ok rs' ∧
      List.Forall₂ StepRecord.Alike rs rs' := by
  induction xs with
  | nil => exact ⟨[], [], rfl, rfl, .nil⟩
  | cons x xs ih =>
    obtain ⟨hl, hr⟩ := hd x List.mem_cons_self
    obtain ⟨r, r', hr, hr', hx⟩ := readStep_paired (h x List.mem_cons_self) hl hr
    obtain ⟨rs, rs', hrs, hrs', hall⟩ := ih (fun y hy => h y (List.mem_cons_of_mem x hy))
      fun y hy => hd y (List.mem_cons_of_mem x hy)
    refine ⟨r :: rs, r' :: rs', ?_, ?_, .cons hx hall⟩
    · rw [List.map_cons, List.mapM_cons, hr, hrs]
      rfl
    · rw [List.map_cons, List.mapM_cons, hr', hrs']
      rfl

theorem Paired.sortedRows (h : Paired zone t t' runs steps) (runId : String) :
    ∃ xs : List (StepRow × Postgres.StepRow), (∀ x ∈ xs, StepAlike zone x) ∧
      ((t.rowsOf runId).insertionSort fun a b => a.stepIndex ≤ b.stepIndex) = xs.map Prod.fst ∧
      ((t'.rowsOf runId).insertionSort fun a b => a.stepIndex ≤ b.stepIndex) =
        xs.map Prod.snd := by
  obtain ⟨hl, hl'⟩ := h.rowsOf runId
  have hmem : ∀ x ∈ steps.filter fun x => x.1.runId = runId, StepAlike zone x := fun x hx =>
    h.step x (List.mem_of_mem_filter hx)
  refine ⟨(steps.filter fun x => x.1.runId = runId).insertionSort
    fun a b => a.1.stepIndex ≤ b.1.stepIndex, ?_, ?_, ?_⟩
  · intro x hx
    rw [List.mem_insertionSort] at hx
    exact hmem x hx
  · rw [hl]
    symm
    apply List.map_insertionSort
    exact fun a _ b _ => Iff.rfl
  · rw [hl']
    symm
    apply List.map_insertionSort
    intro a ha b hb
    rw [(hmem a ha).stepIndex, (hmem b hb).stepIndex]

theorem Paired.readRow (h : Paired zone t t' runs steps) {rooms : Room × Room}
    {x : RunRow × Postgres.RunRow} (hx : x ∈ runs) (hw : t.WithinBoth rooms x.1) :
    ∃ s s', t.readRow rooms.1 x.1 = .ok s ∧ t'.hydrate zone rooms.2 x.2 = .ok s' ∧ s.Alike s' := by
  have hr := h.run x hx
  obtain ⟨xs, hxs, hl, hl'⟩ := h.sortedRows x.1.runId
  have hrow : ∀ y ∈ xs, y.1 ∈ t.rowsOf x.1.runId := fun y hy =>
    (List.mem_insertionSort _).mp (hl ▸ List.mem_map_of_mem hy)
  obtain ⟨rs, rs', hrs, hrs', hall⟩ := readSteps_paired hxs fun y hy =>
    ⟨hw.1.outputs y.1 (hrow y hy), hw.2.outputs y.1 (hrow y hy)⟩
  refine ⟨{ t.hydrate x.1 with steps := rs }, ⟨x.2.runId, x.2.idempotencyKey, x.2.status,
    x.2.planName, loadsObject x.2.payload, rs', x.2.error⟩, ?_, ?_, ?_⟩
  · rw [Tables.readRow, hl, hrs, loadsColumn_eq_ok.mpr ⟨hw.1.payload, rfl⟩]
    rfl
  · rw [Postgres.Tables.hydrate, ← hr.runId, hl', hrs',
      postgres_loadsColumn (hr.nesting.trans hw.2.payload)]
  · exact ⟨hr.runId, hr.idempotencyKey, hr.status, hr.planName, hr.payload, hall, hr.error⟩

theorem readRow_runId {room : Room} {row : RunRow} {s : RunState} (h : t.readRow room row = .ok s) :
    s.runId = row.runId := by
  obtain ⟨_, rfl⟩ := readRow_eq_ok.mp h
  rfl

theorem hydrate_runId {room : Room} {row : Postgres.RunRow} {s : RunState}
    (h : t'.hydrate zone room row = .ok s) : s.runId = row.runId := by
  unfold Postgres.Tables.hydrate at h
  split at h <;> cases h
  rfl

-- the order in seconds and the one in microseconds differ within a second only
theorem Paired.later (h : Paired zone t t' runs steps) {x y : RunRow × Postgres.RunRow}
    (hx : x ∈ runs) (hy : y ∈ runs) (hk : x.1.idempotencyKey = y.1.idempotencyKey) :
    x.1.createdAt ≤ y.1.createdAt ↔ x.2.createdAt ≤ y.2.createdAt := by
  have hsx := (h.run x hx).createdAt
  have hsy := (h.run y hy).createdAt
  rw [second] at hsx hsy
  constructor
  · intro hle
    rcases Nat.lt_or_eq_of_le hle with hlt | heq
    · omega
    · rw [h.distinct x hx y hy hk heq]
  · intro hle
    rw [hsx, hsy]
    exact Nat.div_le_div_right hle

theorem Paired.latestRows (h : Paired zone t t' runs steps) (key : String) :
    ∃ xs : List (RunRow × Postgres.RunRow), (∀ x ∈ xs, x ∈ runs) ∧
      (∀ x ∈ xs, ∀ y ∈ xs, x = y) ∧ t.latestFor key = xs.map Prod.fst ∧
      ∀ tie, t'.latest key tie = (xs.map Prod.snd)[tie % (xs.map Prod.snd).length]? := by
  let own := runs.filter fun x => x.1.idempotencyKey = key
  have hown : ∀ x ∈ own, x ∈ runs ∧ x.1.idempotencyKey = key := fun x hx => by
    simpa [own] using hx
  have hkey : (runs.map Prod.fst).filter (fun r => decide (r.idempotencyKey = key)) =
      own.map Prod.fst ∧
      (runs.map Prod.snd).filter (fun r => decide (r.idempotencyKey = key)) = own.map Prod.snd :=
    filter_paired fun x hx => by rw [(h.run x hx).idempotencyKey]
  have hlatest := filter_paired
    (p := fun r => (own.map Prod.fst).all fun r' => r'.createdAt ≤ r.createdAt)
    (q := fun r => (own.map Prod.snd).all fun r' => r'.createdAt ≤ r.createdAt)
    fun x (hx : x ∈ own) => all_paired fun y (hy : y ∈ own) => decide_eq_decide.mpr
      (h.later (hown y hy).1 (hown x hx).1 ((hown y hy).2.trans (hown x hx).2.symm))
  refine ⟨own.filter fun x => (own.map Prod.fst).all fun r' => r'.createdAt ≤ x.1.createdAt,
    ?_, ?_, ?_, ?_⟩
  · exact fun x hx => (hown x (List.mem_of_mem_filter hx)).1
  · intro x hx y hy
    obtain ⟨hxo, hxl⟩ := List.mem_filter.mp hx
    obtain ⟨hyo, hyl⟩ := List.mem_filter.mp hy
    simp only [List.all_map, List.all_eq_true, Function.comp_apply, decide_eq_true_eq] at hxl hyl
    exact h.distinct x (hown x hxo).1 y (hown y hyo).1 ((hown x hxo).2.trans (hown y hyo).2.symm)
      (le_antisymm (hyl x hxo) (hxl y hyo))
  · rw [h.left, Tables.latestFor, Tables.rowsFor, hkey.1]
    exact hlatest.1
  · intro tie
    rw [h.right, Postgres.Tables.latest]
    simp only [hkey.2]
    rw [hlatest.2]

-- with one run of a key in a second no tie is left to break
theorem Paired.latest (h : Paired zone t t' runs steps) (key : String) (tie tie' : Nat) :
    ((t.latestFor key)[tie % (t.latestFor key).length]? = none ∧ t'.latest key tie' = none) ∨
      ∃ x ∈ runs, (t.latestFor key)[tie % (t.latestFor key).length]? = some x.1 ∧
        t'.latest key tie' = some x.2 := by
  obtain ⟨xs, hmem, heq, hl, hl'⟩ := h.latestRows key
  rw [hl, hl']
  cases xs with
  | nil => exact .inl ⟨rfl, rfl⟩
  | cons x xs =>
    right
    have hpick (n : Nat) : (x :: xs)[n % (x :: xs).length]? = some x := by
      have hlt : n % (x :: xs).length < (x :: xs).length := Nat.mod_lt _ (Nat.succ_pos _)
      rw [List.getElem?_eq_getElem hlt,
        heq _ (List.getElem_mem hlt) x List.mem_cons_self]
    refine ⟨x, hmem x List.mem_cons_self, ?_, ?_⟩
    · rw [List.getElem?_map, List.length_map, hpick, Option.map_some]
    · rw [List.getElem?_map, List.length_map, hpick, Option.map_some]

theorem Paired.readSome (h : Paired zone t t' runs steps) {rooms : Room × Room}
    {r : Option RunRow} {r' : Option Postgres.RunRow}
    (hr : (r = none ∧ r' = none) ∨ ∃ x ∈ runs, r = some x.1 ∧ r' = some x.2)
    (hw : ∀ row, r = some row → t.WithinBoth rooms row) :
    ∃ s s', t.readSome rooms.1 r = .ok s ∧ t'.hydrateSome zone rooms.2 r' = .ok s' ∧
      Option.Rel RunState.Alike s s' := by
  rcases hr with ⟨rfl, rfl⟩ | ⟨x, hx, rfl, rfl⟩
  · exact ⟨none, none, rfl, rfl, .none⟩
  · obtain ⟨s, s', hs, hs', hall⟩ := h.readRow hx (hw x.1 rfl)
    exact ⟨some s, some s', by rw [Tables.readSome, hs], by rw [Postgres.Tables.hydrateSome, hs'],
      .some hall⟩

theorem ofFound_alike {ε ε' : Type} {o : Option RunState} {o' : Option RunState}
    (h : Option.Rel RunState.Alike o o') :
    (CallResult.ofFound (.ok o) : CallResult ε).Alike (CallResult.ofFound (.ok o') : CallResult ε') := by
  cases h with
  | none => trivial
  | some h => exact h

theorem ofConflict_alike_failed {ε ε' : Type} (e : ε) (e' : ε') (o : Except ε (Option RunState)) :
    (CallResult.ofConflict e o).Alike (.failed e') := by
  cases o with
  | error => trivial
  | ok o => cases o <;> trivial

theorem failed_alike_ofConflict {ε ε' : Type} (e : ε) (e' : ε')
    (o : Except ε' (Option RunState)) : CallResult.Alike (.failed e) (.ofConflict e' o) := by
  cases o with
  | error => trivial
  | ok o => cases o <;> trivial

-- what either can read of the run that holds the key, it names that run
theorem Paired.conflict (h : Paired zone t t' runs steps) (rooms : Room × Room) (e : Raised)
    (e' : Postgres.Error) (key : String) (tie tie' : Nat) :
    (CallResult.ofConflict e (t.readByKey rooms.1 key tie)).Alike
      (CallResult.ofConflict e' (t'.findByKey zone rooms.2 key tie')) := by
  unfold Tables.readByKey Postgres.Tables.findByKey
  split
  · rcases h.latest key tie tie' with ⟨hl, hl'⟩ | ⟨x, hx, hl, hl'⟩
    · rw [hl, hl']
      trivial
    · rw [hl, hl', Tables.readSome, Postgres.Tables.hydrateSome]
      cases hs : t.readRow rooms.1 x.1 with
      | error => cases t'.hydrate zone rooms.2 x.2 <;> trivial
      | ok s =>
        cases hs' : t'.hydrate zone rooms.2 x.2 with
        | error => trivial
        | ok s' =>
          exact (readRow_runId hs).trans ((h.run x hx).runId.trans (hydrate_runId hs').symm)
  · exact ofConflict_alike_failed _ _ _

theorem Paired.readByKey (h : Paired zone t t' runs steps) {rooms : Room × Room} {key : String}
    (hk : storableText key = true) (hw : ∀ row ∈ t.latestFor key, t.WithinBoth rooms row)
    (tie tie' : Nat) :
    ∃ s s', t.readByKey rooms.1 key tie = .ok s ∧ t'.findByKey zone rooms.2 key tie' = .ok s' ∧
      Option.Rel RunState.Alike s s' := by
  obtain ⟨s, s', hs, hs', hall⟩ := h.readSome (h.latest key tie tie') fun row hrow =>
    hw row (List.mem_of_getElem? hrow)
  exact ⟨s, s', hs, by rw [Postgres.Tables.findByKey, if_pos hk, hs'], hall⟩

theorem Paired.taken (h : Paired zone t t' runs steps) (runId key : String) :
    ((t.runRow runId).isSome || t.activeClash runId key) =
      ((t'.runRow runId).isSome || t'.activeClash runId key) := by
  rw [h.activeClash]
  rcases h.runRow runId with ⟨h1, h2⟩ | ⟨x, _, h1, h2⟩ <;> rw [h1, h2] <;> rfl

theorem Paired.insertRun (h : Paired zone t t' runs steps) {runId : String} {spec : RunSpec}
    {now : Nat} {o o' : JsonObject} (hp : RunPortable t runId spec now)
    (ho : jsonbObject o = some o')
    (hs : SameValue (ofStrDict (loadsObject o)) (ofStrDict (loadsObject o'))) :
    Paired zone
      { t with runs := t.runs ++
        [⟨runId, spec.idempotencyKey, spec.plan.name, o, .pending, none, second now⟩] }
      { t' with runs := t'.runs ++
        [⟨runId, spec.idempotencyKey, spec.plan.name, o', .pending, none, now⟩] }
      (runs ++ [(⟨runId, spec.idempotencyKey, spec.plan.name, o, .pending, none, second now⟩,
        ⟨runId, spec.idempotencyKey, spec.plan.name, o', .pending, none, now⟩)]) steps := by
  have hfresh : ∀ x ∈ runs, x.1.idempotencyKey = spec.idempotencyKey →
      x.1.createdAt ≠ second now := by
    intro x hx
    apply hp.createdAt
    rw [h.left]
    exact List.mem_map_of_mem hx
  constructor
  · rw [h.left, List.map_append, List.map_singleton]
  · rw [h.right, List.map_append, List.map_singleton]
  · rw [List.forall_mem_append, List.forall_mem_singleton]
    exact ⟨h.run, ⟨rfl, rfl, rfl, hs, rfl, rfl, rfl, jsonbObject_depth ho⟩⟩
  · exact h.step
  · intro x hx y hy hk hc
    rcases List.mem_append.mp hx with hx | hx <;> rcases List.mem_append.mp hy with hy | hy
    · exact h.distinct x hx y hy hk hc
    · rw [List.mem_singleton] at hy
      subst hy
      exact absurd hc (hfresh x hx hk)
    · rw [List.mem_singleton] at hx
      subst hx
      exact absurd hc.symm (hfresh y hy hk.symm)
    · rw [List.mem_singleton.mp hx, List.mem_singleton.mp hy]

theorem Postgres.insertRun_taken (stack now : Nat) {runId : String} {spec : RunSpec}
    (h : ((t'.runRow runId).isSome || t'.activeClash runId spec.idempotencyKey) = true) :
    t'.insertRun stack runId spec now = .error .integrityError ∨
      t'.insertRun stack runId spec now = .error .jsonError ∨
      t'.insertRun stack runId spec now = .error .dataError := by
  unfold Postgres.Tables.insertRun
  split
  · exact .inr (.inl rfl)
  · split
    · exact .inl (if_pos h)
    · exact .inr (.inr rfl)

theorem insertRun_taken (stack now : Nat) {runId : String} {spec : RunSpec}
    (h : ((t.runRow runId).isSome || t.activeClash runId spec.idempotencyKey) = true) :
    t.insertRun stack runId spec now = .error .integrityError ∨
      t.insertRun stack runId spec now = .error .jsonError := by
  unfold Tables.insertRun
  split
  · exact .inr rfl
  · exact .inl (if_pos h)

theorem agree_taken (h : Paired zone t t' runs steps) {depths : Nat × Nat} {rooms : Room × Room}
    {runId : String} {spec : RunSpec} {now tie tie' : Nat}
    (ht : ((t.runRow runId).isSome || t.activeClash runId spec.idempotencyKey) = true) :
    Agreed zone (sqliteCall t (.createRun depths rooms runId spec now tie tie')).1
        (postgresCall zone t' (.createRun depths rooms runId spec now tie tie')).1 ∧
      (sqliteCall t (.createRun depths rooms runId spec now tie tie')).2.Alike
        (postgresCall zone t' (.createRun depths rooms runId spec now tie tie')).2 := by
  have hsame : Agreed zone t t' := ⟨runs, steps, h⟩
  have ht' := ht
  rw [h.taken] at ht'
  rw [sqliteCall, postgresCall]
  rcases insertRun_taken depths.1 (second now) ht with hi | hi <;>
    rcases Postgres.insertRun_taken depths.2 now ht' with hi' | hi' | hi' <;>
    rw [hi, hi']
  · exact ⟨hsame, h.conflict rooms _ _ _ _ _⟩
  · exact ⟨hsame, ofConflict_alike_failed _ _ _⟩
  · exact ⟨hsame, ofConflict_alike_failed _ _ _⟩
  · exact ⟨hsame, failed_alike_ofConflict _ _ _⟩
  · exact ⟨hsame, trivial⟩
  · exact ⟨hsame, trivial⟩

theorem agree_createRun (h : Paired zone t t' runs steps) {depths : Nat × Nat}
    {rooms : Room × Room} {runId : String} {spec : RunSpec} {now tie tie' : Nat}
    (hp : Portable zone t (.createRun depths rooms runId spec now tie tie')) :
    Agreed zone (sqliteCall t (.createRun depths rooms runId spec now tie tie')).1
        (postgresCall zone t' (.createRun depths rooms runId spec now tie tie')).1 ∧
      (sqliteCall t (.createRun depths rooms runId spec now tie tie')).2.Alike
        (postgresCall zone t' (.createRun depths rooms runId spec now tie tie')).2 := by
  by_cases htaken : ((t.runRow runId).isSome || t.activeClash runId spec.idempotencyKey) = true
  · exact agree_taken h htaken
  · have hfree := htaken
    simp only [Bool.or_eq_true, not_or, Bool.not_eq_true, Option.isSome_eq_false_iff,
      Option.isNone_iff_eq_none] at hfree
    obtain ⟨hstack, hp⟩ := hp hfree.1 hfree.2
    have htaken' := htaken
    rw [h.taken] at htaken'
    rw [sqliteCall, postgresCall, Tables.insertRun, Postgres.Tables.insertRun]
    rcases hstack.dumps with ⟨ho, ho₁⟩ | ⟨o, hjson, ho, ho₁⟩
    · rw [ho, ho₁]
      exact ⟨⟨runs, steps, h⟩, trivial⟩
    · have hp := hp (by rw [ho, Option.isSome_some])
      obtain ⟨o', ho', hs⟩ := same_jsonbObject (hp.payload o hjson)
      simp only [ho, ho₁, hp.runId, hp.idempotencyKey, hp.planName, ho', Bool.and_self,
        if_neg htaken, if_neg htaken']
      exact ⟨⟨_, _, h.insertRun hp ho' hs⟩, rfl⟩

theorem Paired.known (h : Paired zone t t' runs steps) (runId : String) :
    (t.runRow runId).isNone = (t'.runRow runId).isNone := by
  rcases h.runRow runId with ⟨h1, h2⟩ | ⟨x, _, h1, h2⟩ <;> rw [h1, h2] <;> rfl

theorem bindable_of_fits {n : Nat} (h : Postgres.fitsInteger n = true) :
    Tables.bindable n = true := by
  rw [Postgres.fitsInteger, decide_eq_true_eq] at h
  rw [Tables.bindable, decide_eq_true_eq]
  omega

theorem Paired.append_refused (h : Paired zone t t' runs steps) (stack : Nat) {r : StepRecord}
    (hr : ¬ ((Tables.bindable r.index && Tables.bindable r.attempts &&
      Tables.bindable r.tokensUsed) = true ∧ (t.runRow r.runId).isSome = true)) :
    ∃ e, t'.append zone stack r = .error e := by
  unfold Postgres.Tables.append
  split
  · exact ⟨_, rfl⟩
  · split
    · rename_i hc _
      simp only [Bool.and_eq_true] at hc
      have hn : (t'.runRow r.runId).isNone = true := by
        rw [← h.known, ← Option.not_isSome, Bool.not_eq_true']
        by_contra hk
        rw [Bool.not_eq_false] at hk
        exact hr ⟨by simp [bindable_of_fits hc.1.1.2, bindable_of_fits hc.1.2,
          bindable_of_fits hc.2], hk⟩
      exact ⟨_, if_pos hn⟩
    · exact ⟨_, rfl⟩

theorem Paired.stepKeys (h : Paired zone t t' runs steps) :
    t'.stepRecords.map Postgres.StepRow.key = t.stepRecords.map StepRow.key := by
  rw [h.left, h.right, List.map_map, List.map_map]
  apply List.map_congr_left
  intro x hx
  exact Prod.ext (h.step x hx).runId.symm (h.step x hx).stepIndex.symm

theorem Paired.append (h : Paired zone t t' runs steps) {r : StepRecord} {o o' : JsonObject}
    (hp : StepPortable t zone r) (ho : toJsonObject r.output = some o)
    (ho' : jsonbObject o = some o') :
    Agreed zone { t with stepRecords := insertOrIgnore StepRow.key t.stepRecords (r.row o) }
      { t' with stepRecords :=
        insertOrIgnore Postgres.StepRow.key t'.stepRecords (Postgres.row zone r o') } := by
  by_cases hk : (r.row o).key ∈ t.stepRecords.map StepRow.key
  · have hk' : (Postgres.row zone r o').key ∈ t'.stepRecords.map Postgres.StepRow.key := by
      rw [h.stepKeys]
      exact hk
    rw [insertOrIgnore_of_mem hk, insertOrIgnore_of_mem hk']
    exact ⟨runs, steps, h⟩
  · have hk' : (Postgres.row zone r o').key ∉ t'.stepRecords.map Postgres.StepRow.key := by
      rw [h.stepKeys]
      exact hk
    have hfresh : ∀ row ∈ t.rowsOf r.runId, row.stepIndex ≠ r.index := by
      intro row hrow hi
      obtain ⟨hmem, hid⟩ := List.mem_filter.mp hrow
      exact hk (List.mem_map.mpr ⟨row, hmem, Prod.ext (of_decide_eq_true hid) hi⟩)
    obtain ⟨hport, haware, hwhole, hrange, hfolds⟩ := hp.kept hfresh
    obtain ⟨o'', ho'', hs⟩ := same_jsonbObject (hport o ho)
    obtain rfl : o' = o'' := Option.some.inj (ho'.symm.trans ho'')
    obtain ⟨offset, hoffset⟩ := Option.isSome_iff_exists.mp haware
    have hstored : zone.stored r.createdAt = r.createdAt.micros := by
      rw [Postgres.Zone.stored, hoffset]
    rw [insertOrIgnore_of_not_mem hk, insertOrIgnore_of_not_mem hk']
    refine ⟨runs, steps ++ [(r.row o, Postgres.row zone r o')], ?_, ?_, h.run, ?_, h.distinct⟩
    · rw [h.left, List.map_append, List.map_singleton]
    · rw [h.right, List.map_append, List.map_singleton]
    · rw [List.forall_mem_append, List.forall_mem_singleton]
      refine ⟨h.step, rfl, rfl, rfl, rfl, rfl, hs, rfl, hstored.symm, haware, hwhole, ?_, ⟨rfl, ?_⟩,
        jsonbObject_depth ho'⟩
      · rw [Postgres.row, hstored]
        exact hrange
      · rw [Postgres.row, hstored]
        exact hfolds

theorem agree_append (h : Paired zone t t' runs steps) {depths : Nat × Nat} {r : StepRecord}
    (hp : Portable zone t (.append depths r)) :
    Agreed zone (sqliteCall t (.append depths r)).1 (postgresCall zone t' (.append depths r)).1 ∧
      (sqliteCall t (.append depths r)).2.Alike (postgresCall zone t' (.append depths r)).2 := by
  have hsame : Agreed zone t t' := ⟨runs, steps, h⟩
  rw [sqliteCall, postgresCall]
  by_cases hr : (Tables.bindable r.index && Tables.bindable r.attempts &&
      Tables.bindable r.tokensUsed) = true ∧ (t.runRow r.runId).isSome = true
  · obtain ⟨row, hrow⟩ := Option.isSome_iff_exists.mp hr.2
    obtain ⟨hstack, hp⟩ := hp hr.1 hr.2
    rcases hstack.dumps with ⟨ho, ho₁⟩ | ⟨o, hjson, ho, ho₁⟩
    · rw [Tables.append, Postgres.Tables.append, ho, ho₁]
      exact ⟨hsame, trivial⟩
    · have hp := hp (by rw [ho, Option.isSome_some])
      obtain ⟨o', ho'⟩ := Option.isSome_iff_exists.mp (hp.accepted o hjson)
      have hknown : (t'.runRow r.runId).isNone = false := by
        rw [← h.known, hrow, Option.isNone_some]
      have happend : t.append depths.1 r = .ok { t with
          stepRecords := insertOrIgnore StepRow.key t.stepRecords (r.row o) } := by
        simp [Tables.append, ho, hr.1, hrow]
      simp only [happend, Postgres.Tables.append, ho₁, ho', hp.runId, hp.name, hp.index,
        hp.attempts, hp.tokensUsed, Bool.and_self, hknown, Bool.false_eq_true, if_false]
      exact ⟨h.append hp hjson ho', trivial⟩
  · obtain ⟨e', he'⟩ := h.append_refused depths.2 hr
    rw [he']
    cases ha : t.append depths.1 r with
    | error e => exact ⟨hsame, trivial⟩
    | ok t₁ =>
      obtain ⟨_, _, ⟨row, hrow⟩, _⟩ := Tables.append_ok ha
      have hbind := ((Tables.append_ok_iff hrow).mp ⟨_, ha⟩).2
      exact absurd ⟨hbind, by rw [hrow, Option.isSome_some]⟩ hr

theorem Paired.settled (h : Paired zone t t' runs steps) (runId : String) (status : RunStatus)
    (err : Option String) :
    Agreed zone { t with runs := t.runs.map (Tables.settled runId status err) }
      { t' with runs := t'.runs.map (Postgres.Tables.settled runId status err) } := by
  refine ⟨runs.map fun x =>
    (Tables.settled runId status err x.1, Postgres.Tables.settled runId status err x.2), steps,
    ?_, ?_, ?_, h.step, ?_⟩
  · rw [h.left, List.map_map, List.map_map]
    rfl
  · rw [h.right, List.map_map, List.map_map]
    rfl
  · rw [List.forall_mem_map]
    intro x hx
    have hr := h.run x hx
    unfold Tables.settled Postgres.Tables.settled
    simp only [hr.runId]
    split
    · exact ⟨rfl, hr.idempotencyKey, hr.planName, hr.payload, rfl, rfl, hr.createdAt, hr.nesting⟩
    · exact hr
  · simp only [List.forall_mem_map, Tables.settled_key, Tables.settled_createdAt]
    intro x hx y hy hk hc
    rw [h.distinct x hx y hy hk hc]

theorem agree_setStatus (h : Paired zone t t' runs steps) {runId : String} {status : RunStatus}
    {error : Option PyStr} (hp : Portable zone t (.setStatus runId status error)) :
    Agreed zone (sqliteCall t (.setStatus runId status error)).1
        (postgresCall zone t' (.setStatus runId status error)).1 ∧
      (sqliteCall t (.setStatus runId status error)).2.Alike
        (postgresCall zone t' (.setStatus runId status error)).2 := by
  have hsame : Agreed zone t t' := ⟨runs, steps, h⟩
  rw [sqliteCall, postgresCall, Tables.setStatus, Postgres.Tables.setStatus]
  cases he : Tables.encodeError error with
  | none => exact ⟨hsame, trivial⟩
  | some err =>
    have hp := hp err he
    simp only
    rcases h.runRow runId with ⟨hn, hn'⟩ | ⟨x, hx, hs, hs'⟩
    · simp only [hn, hn'] at hp ⊢
      obtain ⟨hid, herr⟩ := hp (fun _ hrow => nomatch hrow)
      rw [if_pos (by rw [hid, herr, Bool.and_self])]
      exact ⟨hsame, trivial⟩
    · have hid : x.1.runId = runId := Tables.runRow_runId hs
      have hclash : ((Tables.settled runId status err x.1).active &&
          t.activeClash runId x.1.idempotencyKey) =
          ((Postgres.Tables.settled runId status err x.2).active &&
            t'.activeClash runId x.2.idempotencyKey) := by
        rw [h.activeClash, (h.run x hx).idempotencyKey, Tables.settled, if_pos hid,
          Postgres.Tables.settled, if_pos ((h.run x hx).runId.symm.trans hid)]
        rfl
      simp only [hs, hs']
      rw [← hclash]
      by_cases hc : ((Tables.settled runId status err x.1).active &&
          t.activeClash runId x.1.idempotencyKey) = true
      · rw [if_pos hc, if_pos hc]
        cases storableText runId && err.all storableText with
        | true => exact ⟨hsame, trivial⟩
        | false => exact ⟨hsame, trivial⟩
      · have hfree : ∀ row, t.runRow runId = some row →
            (Tables.settled runId status err row).active = true →
              t.activeClash runId row.idempotencyKey = false := by
          intro row hrow hact
          obtain rfl : x.1 = row := Option.some.inj (hs.symm.trans hrow)
          simpa [hact] using hc
        obtain ⟨hrun, herr⟩ := hp hfree
        rw [if_neg hc, if_pos (by rw [hrun, herr, Bool.and_self]), if_neg hc]
        exact ⟨h.settled runId status err, trivial⟩

theorem agree (h : Agreed zone t t') (c : StoreCall) (hp : Portable zone t c) :
    Agreed zone (sqliteCall t c).1 (postgresCall zone t' c).1 ∧
      (sqliteCall t c).2.Alike (postgresCall zone t' c).2 := by
  obtain ⟨runs, steps, h⟩ := h
  cases c with
  | createRun depths rooms runId spec now tie tie' => exact agree_createRun h hp
  | append depths r => exact agree_append h hp
  | setStatus runId status error => exact agree_setStatus h hp
  | load rooms runId =>
    obtain ⟨s, s', hs, hs', hall⟩ := h.readSome (h.runRow runId) hp.2
    rw [sqliteCall, postgresCall, Tables.read, hs, Postgres.Tables.load, if_pos hp.1, hs']
    exact ⟨⟨runs, steps, h⟩, ofFound_alike hall⟩
  | findByKey rooms key tie tie' =>
    obtain ⟨s, s', hs, hs', hall⟩ := h.readByKey hp.1 hp.2 tie tie'
    rw [sqliteCall, postgresCall, hs, hs']
    exact ⟨⟨runs, steps, h⟩, ofFound_alike hall⟩

theorem sqliteCall_refused {c : StoreCall} (h : (sqliteCall t c).2.refused = true) :
    (sqliteCall t c).1 = t := by
  revert h
  cases c with
  | load => exact fun _ => rfl
  | findByKey => exact fun _ => rfl
  | _ => simp only [sqliteCall]; split <;> simp [CallResult.refused]

theorem postgresCall_refused {c : StoreCall} (h : (postgresCall zone t' c).2.refused = true) :
    (postgresCall zone t' c).1 = t' := by
  revert h
  cases c with
  | load => exact fun _ => rfl
  | findByKey => exact fun _ => rfl
  | _ => simp only [postgresCall]; split <;> simp [CallResult.refused]

end Pairs

section Nesting

variable {room : Room} {t t' : Tables}

structure Tables.Bounded (room : Room) (t : Tables) : Prop where
  payloads : ∀ row ∈ t.runs, (Json.obj row.payload).depth ≤ room.payload
  outputs : ∀ r ∈ t.stepRecords, (Json.obj r.output).depth ≤ room.output

theorem empty_bounded (room : Room) : Tables.empty.Bounded room :=
  ⟨fun _ h => absurd h List.not_mem_nil, fun _ h => absurd h List.not_mem_nil⟩

theorem Tables.Bounded.within (h : t.Bounded room) {row : RunRow} (hrow : row ∈ t.runs) :
    t.Within room row :=
  ⟨h.payloads row hrow, fun r hr => h.outputs r (List.mem_of_mem_filter hr)⟩

theorem bounded_insertRun {stack : Nat} {runId : String} {spec : RunSpec} {now : Nat}
    (h : t.Bounded room) (hs : stack ≤ room.payload)
    (ht : t.insertRun stack runId spec now = .ok t') : t'.Bounded room := by
  unfold Tables.insertRun at ht
  split at ht
  · cases ht
  · rename_i payload hpayload
    split at ht <;> cases ht
    refine ⟨fun row hrow => ?_, h.outputs⟩
    rcases List.mem_append.mp hrow with hrow | hrow
    · exact h.payloads row hrow
    · rw [List.mem_singleton.mp hrow]
      exact (dumpsObject_eq_some.mp hpayload).2.trans hs

theorem bounded_append {stack : Nat} {r : StepRecord} (h : t.Bounded room)
    (hs : stack ≤ room.output) (ht : t.append stack r = .ok t') : t'.Bounded room := by
  obtain ⟨o, ho, ⟨row, hrow⟩, rfl⟩ := Tables.append_ok ht
  obtain ⟨o', ho'⟩ := Option.isSome_iff_exists.mp ((Tables.append_ok_iff hrow).mp ⟨_, ht⟩).1
  obtain ⟨hjson, hdepth⟩ := dumpsObject_eq_some.mp ho'
  obtain rfl : o = o' := Option.some.inj (ho.symm.trans hjson)
  refine ⟨h.payloads, fun x hx => ?_⟩
  rcases mem_insertOrIgnore hx with hx | ⟨rfl, _⟩
  · exact h.outputs x hx
  · exact hdepth.trans hs

theorem bounded_setStatus {runId : String} {status : RunStatus} {error : Option PyStr}
    (h : t.Bounded room) (ht : t.setStatus runId status error = .ok t') : t'.Bounded room := by
  obtain ⟨err, _, rfl, _⟩ := Tables.setStatus_ok ht
  refine ⟨fun row hrow => ?_, h.outputs⟩
  obtain ⟨row', hrow', rfl⟩ := List.mem_map.mp hrow
  unfold Tables.settled
  split <;> exact h.payloads row' hrow'

def StoreCall.WritesWithin (room : Room) : StoreCall → Prop
  | .createRun depths _ _ _ _ _ _ => depths.1 ≤ room.payload
  | .append depths _ => depths.1 ≤ room.output
  | _ => True

theorem bounded_sqliteCall (h : t.Bounded room) {c : StoreCall} (hc : c.WritesWithin room) :
    (sqliteCall t c).1.Bounded room := by
  cases c with
  | createRun depths rooms runId spec now tie tie' =>
    rw [sqliteCall]
    split
    · exact bounded_insertRun h hc ‹_›
    · exact h
    · exact h
  | append depths r =>
    rw [sqliteCall]
    split
    · exact bounded_append h hc ‹_›
    · exact h
  | setStatus runId status error =>
    rw [sqliteCall]
    split
    · exact bounded_setStatus h ‹_›
    · exact h
  | load rooms runId => exact h
  | findByKey rooms key tie tie' => exact h

end Nesting

-- each call has the same outcome on both, and one that raises changes neither
def BackendsAgree (zone : Postgres.Zone) (calls : List StoreCall) : Prop :=
  ∀ before c later, calls = before ++ c :: later →
    let t := after sqliteCall Tables.empty before
    let t' := after (postgresCall zone) Postgres.Tables.empty before
    (sqliteCall t c).2.Alike (postgresCall zone t' c).2 ∧
      ((sqliteCall t c).2.refused = true ∨ (postgresCall zone t' c).2.refused = true →
        (sqliteCall t c).1 = t ∧ (postgresCall zone t' c).1 = t')

theorem alike_refused {ε ε' : Type} {x : CallResult ε} {y : CallResult ε'} (h : x.Alike y) :
    x.refused = y.refused := by
  unfold CallResult.Alike at h
  split at h <;> first | rfl | exact h.elim

theorem empty_agreed (zone : Postgres.Zone) : Agreed zone Tables.empty Postgres.Tables.empty :=
  ⟨[], [], rfl, rfl, by simp, by simp, by simp⟩

theorem backends_are_one_store {zone : Postgres.Zone} {calls : List StoreCall}
    (h : Each sqliteCall (Portable zone) Tables.empty calls) : BackendsAgree zone calls := by
  rintro before c later rfl t t'
  have hagreed : Agreed zone t t' :=
    related (R := Agreed zone) (fun _ _ c hs hp => (agree hs c hp).1) (empty_agreed zone) h.left
  have halike := (agree hagreed c (h before c later rfl)).2
  refine ⟨halike, fun hr => ?_⟩
  rw [← alike_refused halike, or_self] at hr
  exact ⟨sqliteCall_refused hr, postgresCall_refused ((alike_refused halike).symm.trans hr)⟩

def utc : Postgres.Zone := ⟨id, fun _ => some 0, fun _ => false⟩

def chargedRecord : StepRecord where
  runId := "run"
  index := 0
  name := "charge"
  outcome := .ok
  attempts := 1
  output := [(.ofString "answer", .str (.ofString "done"))]
  tokensUsed := 40
  createdAt := ⟨0, some 0, false⟩
  attemptsPositive := Nat.one_pos

def depths : Nat × Nat := (900, 900)

def rooms : Room × Room := (⟨900, 900⟩, ⟨900, 900⟩)

def ordinaryCalls : List StoreCall :=
  [.createRun depths rooms "run" chargeSpec 0 0 0, .append depths chargedRecord,
    .setStatus "run" .completed none, .load rooms "run"]

theorem ordinary_calls_agree : BackendsAgree utc ordinaryCalls := by
  apply backends_are_one_store
  rw [ordinaryCalls, each_cons, each_cons, each_cons, each_cons]
  refine ⟨fun _ _ => ⟨rfl, fun _ => ?_⟩, fun _ _ => ⟨rfl, fun _ => ?_⟩, fun err herr _ => ?_,
    ⟨by decide, fun row hrow => ?_⟩, each_nil⟩
  · exact ⟨by decide, by decide, by decide, fun o ho => by
      rw [← Option.some.inj ho]
      rfl, fun r hr => absurd hr List.not_mem_nil⟩
  · have hport : ∀ o, toJsonObject chargedRecord.output = some o → portableObject o = true := by
      intro o ho
      have ho' : toJsonObject chargedRecord.output =
          some [(.ofString "answer", .str (.ofString "done"))] := by
        simp [toJsonObject, chargedRecord, toJson]
      rw [ho', Option.some.injEq] at ho
      subst ho
      decide
    refine ⟨by decide, by decide, by decide, by decide, by decide, fun o ho => ?_,
      fun _ => ⟨hport, rfl, rfl, rfl, rfl⟩⟩
    obtain ⟨o', ho', _⟩ := same_jsonbObject (hport o ho)
    exact Option.isSome_iff_exists.mpr ⟨o', ho'⟩
  · rw [← Option.some.inj herr]
    exact ⟨by decide, rfl⟩
  · have hcreated := bounded_sqliteCall (c := .createRun depths rooms "run" chargeSpec 0 0 0)
      (empty_bounded ⟨900, 900⟩) le_rfl
    have happended := bounded_sqliteCall (c := .append depths chargedRecord) hcreated le_rfl
    have hsettled := bounded_sqliteCall (c := .setStatus "run" .completed none) happended trivial
    have hwithin := hsettled.within (Tables.runRow_mem hrow)
    exact ⟨hwithin, hwithin⟩

def nulSpec : RunSpec where
  plan := chargePlan
  payload := [(.ofString "note", .str (.ofString "\x00"))]
  idempotencyKey := "order-0003"

theorem nul_kept_by_one_backend :
    ¬ ∀ (zone : Postgres.Zone) (calls : List StoreCall), BackendsAgree zone calls := by
  intro h
  exact (h utc [.createRun depths rooms "run" nulSpec 0 0 0] [] _ [] rfl).1

end DurableAgent
