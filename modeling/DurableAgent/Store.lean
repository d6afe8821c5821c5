import DurableAgent.Models
import DurableAgent.Library.FirstWriter
import Mathlib.Data.List.Sort

namespace DurableAgent

open FirstWriter

inductive StoreError where
  | jsonError
  | unicodeEncodeError
  | overflowError
  | integrityError
deriving DecidableEq, Repr

structure RunRow where
  runId : String
  idempotencyKey : String
  planName : String
  payload : JsonObject
  status : RunStatus
  error : Option String
  createdAt : Nat

structure StepRow where
  runId : String
  stepIndex : Nat
  name : String
  outcome : StepOutcome
  attempts : Nat
  output : JsonObject
  tokensUsed : Nat
  createdAt : Datetime
  attemptsPositive : 1 ≤ attempts

structure Tables where
  runs : List RunRow
  stepRecords : List StepRow

-- the nesting `json.loads` has stack for, at the payload of a run and at the output of a step
structure Room where
  payload : Nat
  output : Nat
deriving DecidableEq

def RunRow.active (r : RunRow) : Bool := ["pending", "running"].contains r.status.value

-- `isoformat` writes the offset in force and says nothing of the other one
def Datetime.isoformat (d : Datetime) : Datetime := { d with folds := false }

def StepRecord.row (r : StepRecord) (output : JsonObject) : StepRow where
  runId := r.runId
  stepIndex := r.index
  name := r.name
  outcome := r.outcome
  attempts := r.attempts
  output := output
  tokensUsed := r.tokensUsed
  createdAt := r.createdAt.isoformat
  attemptsPositive := r.attemptsPositive

def StepRow.key (r : StepRow) : String × Nat := (r.runId, r.stepIndex)

theorem RunRow.active_eq (r : RunRow) : r.active = !r.status.isTerminal := by
  unfold RunRow.active
  cases r.status <;> decide

namespace Tables

def empty : Tables := ⟨[], []⟩

def runRow (t : Tables) (runId : String) : Option RunRow := t.runs.find? fun r => r.runId = runId

def rowsOf (t : Tables) (runId : String) : List StepRow :=
  t.stepRecords.filter fun r => r.runId = runId

def activeClash (t : Tables) (runId idempotencyKey : String) : Bool :=
  t.runs.any fun r => r.runId ≠ runId && r.idempotencyKey = idempotencyKey && r.active

def insertRun (t : Tables) (stack : Nat) (runId : String) (spec : RunSpec) (now : Nat) :
    Except StoreError Tables :=
  match dumpsObject stack spec.payload with
  | none => .error .jsonError
  | some payload =>
      let row : RunRow := ⟨runId, spec.idempotencyKey, spec.plan.name, payload, .pending, none, now⟩
      if (t.runRow runId).isSome || t.activeClash runId spec.idempotencyKey then
        .error .integrityError
      else .ok { t with runs := t.runs ++ [row] }

def hydrateStep (r : StepRow) : StepRecord where
  runId := r.runId
  index := r.stepIndex
  name := r.name
  outcome := r.outcome
  attempts := r.attempts
  output := loadsObject r.output
  tokensUsed := r.tokensUsed
  createdAt := r.createdAt
  attemptsPositive := r.attemptsPositive

def hydrate (t : Tables) (row : RunRow) : RunState where
  runId := row.runId
  idempotencyKey := row.idempotencyKey
  status := row.status
  planName := row.planName
  payload := loadsObject row.payload
  steps := ((t.rowsOf row.runId).insertionSort fun a b => a.stepIndex ≤ b.stepIndex).map hydrateStep
  error := row.error

def load (t : Tables) (runId : String) : Option RunState := (t.runRow runId).map t.hydrate

-- no column of the run nests deeper than `load` has stack for
def shallow (room : Room) (t : Tables) (runId : String) : Bool :=
  ((t.runRow runId).all fun row => (Json.obj row.payload).depth ≤ room.payload) &&
    (t.rowsOf runId).all fun row => (Json.obj row.output).depth ≤ room.output

-- `ORDER BY created_at DESC LIMIT 1`: any of the rows with the latest second, `tie` chooses
def findByKey (t : Tables) (idempotencyKey : String) (tie : Nat) : Option RunState :=
  let rows := t.runs.filter fun r => r.idempotencyKey = idempotencyKey
  let latest := rows.filter fun r => rows.all fun r' => r'.createdAt ≤ r.createdAt
  (latest[tie % latest.length]?).map t.hydrate

def bindable (n : Nat) : Bool := n < 0x8000000000000000

def append (t : Tables) (stack : Nat) (r : StepRecord) : Except StoreError Tables :=
  match dumpsObject stack r.output with
  | none => .error .jsonError
  | some output =>
      if !(bindable r.index && bindable r.attempts && bindable r.tokensUsed) then
        .error .overflowError
      else if (t.runRow r.runId).isNone then .error .integrityError
      else .ok { t with
        stepRecords := insertOrIgnore StepRow.key t.stepRecords (r.row output) }

def encodeError : Option PyStr → Option (Option String)
  | none => some none
  | some s => s.encode.map some

def settled (runId : String) (status : RunStatus) (error : Option String) (r : RunRow) : RunRow :=
  if r.runId = runId then { r with status := status, error := error } else r

def setStatus (t : Tables) (runId : String) (status : RunStatus) (error : Option PyStr) :
    Except StoreError Tables :=
  match encodeError error with
  | none => .error .unicodeEncodeError
  | some err =>
      match t.runRow runId with
      | none => .ok t
      | some row =>
          if (settled runId status err row).active && t.activeClash runId row.idempotencyKey then
            .error .integrityError
          else .ok { t with runs := t.runs.map (settled runId status err) }

structure WellFormed (t : Tables) : Prop where
  runIds : (t.runs.map RunRow.runId).Nodup
  oneActive : ∀ r ∈ t.runs, ∀ r' ∈ t.runs, r.idempotencyKey = r'.idempotencyKey →
    r.active = true → r'.active = true → r.runId = r'.runId
  references : ∀ s ∈ t.stepRecords, ∃ r ∈ t.runs, r.runId = s.runId

theorem empty_wellFormed : WellFormed empty := ⟨List.nodup_nil, by simp [empty], by simp [empty]⟩

variable {t t' : Tables} {stack : Nat} {runId : String} {row : RunRow}

theorem runRow_mem (h : t.runRow runId = some row) : row ∈ t.runs := List.mem_of_find?_eq_some h

theorem runRow_runId (h : t.runRow runId = some row) : row.runId = runId := by
  simpa using List.find?_some h

theorem runRow_of_mem (hw : t.WellFormed) (h : row ∈ t.runs) :
    t.runRow row.runId = some row := by
  have hs : (t.runRow row.runId).isSome := by
    simp only [runRow, List.find?_isSome, decide_eq_true_eq]
    exact ⟨row, h, rfl⟩
  obtain ⟨r, hr⟩ := Option.isSome_iff_exists.mp hs
  rw [hr, List.inj_on_of_nodup_map hw.runIds (runRow_mem hr) h (runRow_runId hr)]

theorem runRow_eq_none : t.runRow runId = none ↔ ∀ r ∈ t.runs, r.runId ≠ runId := by
  simp [runRow]

theorem activeClash_eq_true {key : String} : t.activeClash runId key = true ↔
    ∃ r ∈ t.runs, r.runId ≠ runId ∧ r.idempotencyKey = key ∧ r.active = true := by
  simp [activeClash, and_assoc]

theorem insertRun_ok {spec : RunSpec} {now : Nat} (h : t.insertRun stack runId spec now = .ok t') :
    ∃ payload, t.runRow runId = none ∧ t.activeClash runId spec.idempotencyKey = false ∧
      t' = { t with runs := t.runs ++
        [⟨runId, spec.idempotencyKey, spec.plan.name, payload, .pending, none, now⟩] } := by
  unfold insertRun at h
  split at h
  · cases h
  · rename_i payload _
    split at h
    · cases h
    · rename_i hc
      simp only [Bool.or_eq_true, not_or, Bool.not_eq_true, Option.isSome_eq_false_iff,
        Option.isNone_iff_eq_none] at hc
      exact ⟨payload, hc.1, hc.2, (Except.ok.inj h).symm⟩

theorem append_ok {r : StepRecord} (h : t.append stack r = .ok t') :
    ∃ output, toJsonObject r.output = some output ∧ (∃ row, t.runRow r.runId = some row) ∧
      t' = { t with stepRecords := insertOrIgnore StepRow.key t.stepRecords (r.row output) } := by
  unfold append at h
  split at h
  · cases h
  · rename_i output ho
    split at h
    · cases h
    · split at h
      · cases h
      · rename_i hn
        simp only [Bool.not_eq_true, Option.isNone_eq_false_iff] at hn
        exact ⟨output, (dumpsObject_eq_some.mp ho).1, Option.isSome_iff_exists.mp hn,
          (Except.ok.inj h).symm⟩

theorem append_ok_iff {r : StepRecord} (hrow : t.runRow r.runId = some row) :
    (∃ t', t.append stack r = .ok t') ↔ (dumpsObject stack r.output).isSome = true ∧
      (bindable r.index && bindable r.attempts && bindable r.tokensUsed) = true := by
  unfold append
  cases dumpsObject stack r.output with
  | none => simp
  | some output =>
    cases (bindable r.index && bindable r.attempts && bindable r.tokensUsed) <;> simp [hrow]

theorem settled_runId (id : String) (status : RunStatus) (err : Option String) (r : RunRow) :
    (settled id status err r).runId = r.runId := by
  unfold settled
  split <;> rfl

theorem settled_key (id : String) (status : RunStatus) (err : Option String) (r : RunRow) :
    (settled id status err r).idempotencyKey = r.idempotencyKey := by
  unfold settled
  split <;> rfl

theorem settled_createdAt (id : String) (status : RunStatus) (err : Option String) (r : RunRow) :
    (settled id status err r).createdAt = r.createdAt := by
  unfold settled
  split <;> rfl

theorem settled_of_ne {status : RunStatus} {err : Option String} {r : RunRow}
    (h : r.runId ≠ runId) : settled runId status err r = r := if_neg h

theorem setStatus_ok {status : RunStatus} {error : Option PyStr}
    (h : t.setStatus runId status error = .ok t') :
    ∃ err, encodeError error = some err ∧
      t' = { t with runs := t.runs.map (settled runId status err) } ∧
      ∀ row, t.runRow runId = some row → (settled runId status err row).active = true →
        t.activeClash runId row.idempotencyKey = false := by
  unfold setStatus at h
  split at h
  · cases h
  · rename_i err herr
    refine ⟨err, herr, ?_⟩
    split at h
    · rename_i hn
      have hid : t.runs.map (settled runId status err) = t.runs := by
        conv_rhs => rw [← List.map_id t.runs]
        exact List.map_congr_left fun r hr => settled_of_ne (runRow_eq_none.mp hn r hr)
      exact ⟨by rw [hid, ← Except.ok.inj h], fun row hr => by simp [hn] at hr⟩
    · rename_i row hrow
      split at h
      · cases h
      · rename_i hc
        refine ⟨(Except.ok.inj h).symm, fun row' hr ha => ?_⟩
        obtain rfl : row = row' := Option.some.inj (hrow.symm.trans hr)
        simpa [ha] using hc

theorem setStatus_integrity {status : RunStatus} {error : Option PyStr}
    (h : t.setStatus runId status error = .error .integrityError) :
    ∃ row, t.runRow runId = some row ∧ status.isTerminal = false ∧
      t.activeClash runId row.idempotencyKey = true := by
  unfold setStatus at h
  split at h
  · cases h
  · split at h
    · cases h
    · rename_i row hrow
      split at h
      · rename_i hc
        simp only [Bool.and_eq_true, RunRow.active_eq, settled, runRow_runId hrow, if_true,
          Bool.not_eq_true'] at hc
        exact ⟨row, hrow, hc.1, hc.2⟩
      · cases h

theorem runRow_insertRun {spec : RunSpec} {now : Nat}
    (h : t.insertRun stack runId spec now = .ok t')
    (id : String) (hne : id ≠ runId) : t'.runRow id = t.runRow id := by
  obtain ⟨payload, _, _, rfl⟩ := insertRun_ok h
  simp [runRow, List.find?_append, Ne.symm hne]

theorem runRow_inserted {spec : RunSpec} {now : Nat}
    (h : t.insertRun stack runId spec now = .ok t') :
    ∃ row, t'.runRow runId = some row ∧ row.status = .pending := by
  obtain ⟨payload, hn, _, rfl⟩ := insertRun_ok h
  refine ⟨⟨runId, spec.idempotencyKey, spec.plan.name, payload, .pending, none, now⟩, ?_, rfl⟩
  have hnone : t.runs.find? (fun r => r.runId = runId) = none := hn
  simp [runRow, List.find?_append, hnone]

theorem runRow_setStatus {status : RunStatus} {error : Option PyStr} {err : Option String}
    (h : t.setStatus runId status error = .ok t') (he : encodeError error = some err)
    (id : String) : t'.runRow id = (t.runRow id).map (settled runId status err) := by
  obtain ⟨err', he', rfl, _⟩ := setStatus_ok h
  obtain rfl : err = err' := Option.some.inj (he.symm.trans he')
  simp only [runRow, List.find?_map, Function.comp_def, settled_runId]

theorem runRow_append {r : StepRecord} (h : t.append stack r = .ok t') (id : String) :
    t'.runRow id = t.runRow id := by
  obtain ⟨output, _, _, rfl⟩ := append_ok h
  rfl

theorem rowsOf_insertRun {spec : RunSpec} {now : Nat}
    (h : t.insertRun stack runId spec now = .ok t')
    (id : String) : t'.rowsOf id = t.rowsOf id := by
  obtain ⟨payload, _, _, rfl⟩ := insertRun_ok h
  rfl

theorem rowsOf_setStatus {status : RunStatus} {error : Option PyStr}
    (h : t.setStatus runId status error = .ok t') (id : String) : t'.rowsOf id = t.rowsOf id := by
  obtain ⟨err, _, rfl, _⟩ := setStatus_ok h
  rfl

theorem rowsOf_append {r : StepRecord} {output : JsonObject} (h : t.append stack r = .ok t')
    (ho : toJsonObject r.output = some output) (id : String) :
    t'.rowsOf id = if r.runId = id then
      insertOrIgnore StepRow.stepIndex (t.rowsOf id) (r.row output)
      else t.rowsOf id := by
  obtain ⟨output', ho', _, rfl⟩ := append_ok h
  obtain rfl : output = output' := Option.some.inj (ho.symm.trans ho')
  exact filter_insertOrIgnore StepRow.key t.stepRecords (r.row output) id

theorem rowsOf_append_ne {r : StepRecord} (h : t.append stack r = .ok t') {id : String}
    (hne : r.runId ≠ id) : t'.rowsOf id = t.rowsOf id := by
  obtain ⟨output, ho, _, _⟩ := append_ok h
  rw [rowsOf_append h ho, if_neg hne]

theorem rowsOf_eq_nil (hw : t.WellFormed) (h : t.runRow runId = none) : t.rowsOf runId = [] := by
  refine List.filter_eq_nil_iff.mpr fun s hs heq => ?_
  obtain ⟨r, hr, he⟩ := hw.references s hs
  exact runRow_eq_none.mp h r hr (he.trans (by simpa using heq))

theorem mem_hydrate_steps {r : StepRecord} :
    r ∈ (t.hydrate row).steps ↔ ∃ s ∈ t.rowsOf row.runId, hydrateStep s = r := by
  simp [hydrate, List.mem_insertionSort]

theorem insertRun_wellFormed {spec : RunSpec} {now : Nat} (hw : t.WellFormed)
    (h : t.insertRun stack runId spec now = .ok t') : t'.WellFormed := by
  obtain ⟨payload, hn, hc, rfl⟩ := insertRun_ok h
  have hnew := runRow_eq_none.mp hn
  have hfree : ∀ r ∈ t.runs, r.idempotencyKey = spec.idempotencyKey → r.active = false := by
    intro r hr hk
    by_contra ha
    rw [Bool.not_eq_false] at ha
    exact absurd (activeClash_eq_true.mpr ⟨r, hr, hnew r hr, hk, ha⟩) (by simp [hc])
  refine ⟨?_, ?_, ?_⟩
  · rw [List.map_append]
    refine List.nodup_append.mpr ⟨hw.runIds, by simp, ?_⟩
    intro a ha b hb
    obtain ⟨r, hr, rfl⟩ := List.mem_map.mp ha
    simp only [List.map_cons, List.map_nil, List.mem_singleton] at hb
    exact hb ▸ hnew r hr
  · intro r hr r' hr' hk ha ha'
    simp only [List.mem_append, List.mem_singleton] at hr hr'
    rcases hr with hr | rfl <;> rcases hr' with hr' | rfl
    · exact hw.oneActive r hr r' hr' hk ha ha'
    · simp [hfree r hr hk] at ha
    · simp [hfree r' hr' hk.symm] at ha'
    · rfl
  · intro s hs
    obtain ⟨r, hr, he⟩ := hw.references s hs
    exact ⟨r, List.mem_append_left _ hr, he⟩

theorem append_wellFormed {r : StepRecord} (hw : t.WellFormed) (h : t.append stack r = .ok t') :
    t'.WellFormed := by
  obtain ⟨output, _, ⟨row, hrow⟩, rfl⟩ := append_ok h
  refine ⟨hw.runIds, hw.oneActive, fun s hs => ?_⟩
  rcases mem_insertOrIgnore hs with hs | ⟨rfl, _⟩
  · exact hw.references s hs
  · exact ⟨row, runRow_mem hrow, runRow_runId hrow⟩

theorem setStatus_wellFormed {status : RunStatus} {error : Option PyStr} (hw : t.WellFormed)
    (h : t.setStatus runId status error = .ok t') : t'.WellFormed := by
  obtain ⟨err, _, rfl, hc⟩ := setStatus_ok h
  refine ⟨?_, ?_, ?_⟩
  · simpa [Function.comp_def, settled_runId] using hw.runIds
  · -- the one row whose activity can change is checked against the index, the others are not touched
    have key : ∀ r ∈ t.runs, ∀ r' ∈ t.runs, r.runId = runId → r'.runId ≠ runId →
        r.idempotencyKey = r'.idempotencyKey → (settled runId status err r).active = true →
        r'.active = false := by
      intro r hr r' hr' hid hid' hk ha
      have hrow := runRow_of_mem hw hr
      rw [hid] at hrow
      have hclash := hc r hrow ha
      by_contra hact
      rw [Bool.not_eq_false] at hact
      exact absurd (activeClash_eq_true.mpr ⟨r', hr', hid', hk.symm, hact⟩) (by simp [hclash])
    intro a ha b hb hk haa hba
    obtain ⟨r, hr, rfl⟩ := List.mem_map.mp ha
    obtain ⟨r', hr', rfl⟩ := List.mem_map.mp hb
    simp only [settled_runId, settled_key] at hk ⊢
    by_cases h1 : r.runId = runId <;> by_cases h2 : r'.runId = runId
    · rw [h1, h2]
    · rw [settled_of_ne h2, key r hr r' hr' h1 h2 hk haa] at hba
      cases hba
    · rw [settled_of_ne h1, key r' hr' r hr h2 h1 hk.symm hba] at haa
      cases haa
    · rw [settled_of_ne h1] at haa
      rw [settled_of_ne h2] at hba
      exact hw.oneActive r hr r' hr' hk haa hba
  · intro s hs
    obtain ⟨r, hr, he⟩ := hw.references s hs
    exact ⟨settled runId status err r, List.mem_map_of_mem hr, by rw [settled_runId, he]⟩

structure Grows (t t' : Tables) : Prop where
  rows : ∀ id, ∃ more, t'.rowsOf id = t.rowsOf id ++ more
  runs : ∀ id row, t.runRow id = some row → ∃ row', t'.runRow id = some row' ∧
    row'.idempotencyKey = row.idempotencyKey

theorem Grows.refl (t : Tables) : Grows t t :=
  ⟨fun _ => ⟨[], by simp⟩, fun _ row h => ⟨row, h, rfl⟩⟩

theorem Grows.trans {a b c : Tables} (hab : Grows a b) (hbc : Grows b c) : Grows a c := by
  refine ⟨fun id => ?_, fun id row h => ?_⟩
  · obtain ⟨m, hm⟩ := hab.rows id
    obtain ⟨n, hn⟩ := hbc.rows id
    exact ⟨m ++ n, by rw [hn, hm, List.append_assoc]⟩
  · obtain ⟨row', h', hk'⟩ := hab.runs id row h
    obtain ⟨row'', h'', hk''⟩ := hbc.runs id row' h'
    exact ⟨row'', h'', hk''.trans hk'⟩

theorem insertRun_grows {spec : RunSpec} {now : Nat}
    (h : t.insertRun stack runId spec now = .ok t') :
    Grows t t' := by
  refine ⟨fun id => ⟨[], by simp [rowsOf_insertRun h]⟩, fun id row hr => ⟨row, ?_, rfl⟩⟩
  obtain ⟨payload, hn, _, _⟩ := insertRun_ok h
  have hne : id ≠ runId := by
    rintro rfl
    simp [hn] at hr
  rw [runRow_insertRun h id hne, hr]

theorem setStatus_grows {status : RunStatus} {error : Option PyStr}
    (h : t.setStatus runId status error = .ok t') : Grows t t' := by
  obtain ⟨err, he, _, _⟩ := setStatus_ok h
  refine ⟨fun id => ⟨[], by simp [rowsOf_setStatus h]⟩, fun id row hr => ?_⟩
  exact ⟨settled runId status err row, by rw [runRow_setStatus h he, hr]; rfl, settled_key ..⟩

theorem append_grows {r : StepRecord} (h : t.append stack r = .ok t') : Grows t t' := by
  refine ⟨fun id => ?_, fun id row hr => ⟨row, by rw [runRow_append h, hr], rfl⟩⟩
  obtain ⟨output, ho, _, _⟩ := append_ok h
  rw [rowsOf_append h ho]
  split
  · exact insertOrIgnore_extends ..
  · exact ⟨[], by simp⟩

end Tables

end DurableAgent
