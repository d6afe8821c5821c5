import DurableAgent.Answers
import DurableAgent.Checkpoints
import DurableAgent.Rendering

namespace DurableAgent

open FirstWriter Interleaving Decoder

variable {ι : Type}

-- what a column holds: the text `json.dumps` wrote, which sqlite keeps as UTF-8
def columnText (o : JsonObject) : Option String :=
  PyStr.encode ⟨(Json.obj o).written asciiEscape⟩

section Reading

variable (maxDepth : Nat) (float : List Char → PyFloat)

-- `none` when `json.loads` or the model's check of the field raises
def readColumn (text : String) : Option StrDict :=
  (decode maxDepth float (PyStr.ofString text).chars).toOption.bind validateDict

def readObject (o : JsonObject) : Option StrDict := (columnText o).bind (readColumn maxDepth float)

def hydrateStepText (row : StepRow) : Option StepRecord :=
  match readObject maxDepth float row.output, (readTimestamp row.createdAt).toOption with
  | some output, some createdAt =>
      some { Tables.hydrateStep row with output := output, createdAt := createdAt }
  | _, _ => none

def Tables.hydrateText (t : Tables) (row : RunRow) : Option RunState :=
  match ((t.rowsOf row.runId).insertionSort fun a b => a.stepIndex ≤ b.stepIndex).mapM
      (hydrateStepText maxDepth float), readObject maxDepth float row.payload with
  | some steps, some payload => some { t.hydrate row with steps := steps, payload := payload }
  | _, _ => none

-- `SqliteStore.load` on the texts its columns hold
def Tables.loadText (t : Tables) (runId : String) : Option (Option RunState) :=
  match t.runRow runId with
  | none => some none
  | some row => (t.hydrateText maxDepth float row).map some

end Reading

namespace Tables

def columns (t : Tables) (runId : String) : List JsonObject :=
  (t.runRow runId).toList.map RunRow.payload ++ (t.rowsOf runId).map StepRow.output

-- every column holds what `json.dumps` made of some dictionary
structure Written (t : Tables) : Prop where
  payloads : ∀ row ∈ t.runs, ∃ d, toJsonObject d = some row.payload
  outputs : ∀ r ∈ t.stepRecords, ∃ d, toJsonObject d = some r.output

end Tables

section Columns

variable {maxDepth : Nat} {float : List Char → PyFloat} {o : JsonObject} {d : StrDict}

theorem mapM_encode_printable {cs : List PyChar} (h : Printable cs) :
    ∃ ds, cs.mapM PyChar.encode = some ds := by
  induction cs with
  | nil => exact ⟨[], rfl⟩
  | cons c cs ih =>
    obtain ⟨ds, hds⟩ := ih fun c hc => h c (List.mem_cons_of_mem _ hc)
    have hc := h c List.mem_cons_self
    cases c with
    | surrogate n => cases hc
    | scalar c => exact ⟨c :: ds, by rw [List.mapM_cons, hds]; rfl⟩

theorem encode_printable {s : PyStr} (h : Printable s.chars) : ∃ text, s.encode = some text := by
  obtain ⟨ds, hds⟩ := mapM_encode_printable h
  exact ⟨_, by rw [PyStr.encode, hds]; rfl⟩

theorem loadsObject_nodup (o : JsonObject) : (Dict.keys (loadsObject o)).Nodup :=
  Dict.nodup_ofPairs _

theorem validate_ofStrDict (hn : (Dict.keys d).Nodup) : validateDict (ofStrDict d) = some d := by
  have hitems : ∀ d : StrDict, (d.map fun kv => (PyKey.str kv.1, kv.2)).mapM
      (fun kv => (strOfKey kv.1).map fun k => (k, kv.2)) = some d := by
    intro d
    induction d with
    | nil => rfl
    | cons kv d ih =>
      rw [List.map_cons, List.mapM_cons, ih]
      rfl
  rw [ofStrDict, validateDict, validateItems, hitems, Option.map_some, Dict.ofPairs_of_nodup hn]

theorem column_reads (h : toJsonObject d = some o) (hd : (Json.obj o).depth ≤ maxDepth)
    (hf : ReadFloats float (Json.obj o).floats) :
    ∃ text, columnText o = some text ∧ Printable (PyStr.ofString text).chars ∧
      readColumn maxDepth float text = some (loadsObject o) := by
  have hfits := toJson_fits _ _ (toJson_ofStrDict h)
  have hprint := printable_written (.obj o) hfits hf
  obtain ⟨text, htext⟩ := encode_printable (s := ⟨(Json.obj o).written asciiEscape⟩) hprint
  have hback := PyStr.ofString_of_encode htext
  refine ⟨text, htext, by rw [hback]; exact hprint, ?_⟩
  rw [readColumn, hback, decode_written (toJson_ofStrDict h) hd hf, loads_ofStrDict]
  exact validate_ofStrDict (loadsObject_nodup o)

end Columns

section Loading

variable {maxDepth depth n stack : Nat} {float : List Char → PyFloat} {t t' : Tables}
  {runId : String}

theorem hydrateStepText_eq {row : StepRow}
    (h : readObject maxDepth float row.output = (loadsColumn depth row.output).toOption) :
    hydrateStepText maxDepth float row = (readStep ⟨n, depth⟩ row).toOption := by
  unfold hydrateStepText readStep
  rw [h]
  cases loadsColumn depth row.output <;> cases readTimestamp row.createdAt <;> rfl

theorem hydrateStepsText_eq {rows : List StepRow} (h : ∀ row ∈ rows,
      readObject maxDepth float row.output = (loadsColumn depth row.output).toOption) :
    rows.mapM (hydrateStepText maxDepth float) = (rows.mapM (readStep ⟨n, depth⟩)).toOption := by
  induction rows with
  | nil => rfl
  | cons row rows ih =>
    rw [List.mapM_cons, List.mapM_cons, hydrateStepText_eq (h row List.mem_cons_self),
      ih fun row hrow => h row (List.mem_cons_of_mem _ hrow)]
    cases readStep ⟨n, depth⟩ row with
    | error e => rfl
    | ok r => cases rows.mapM (readStep ⟨n, depth⟩) <;> rfl

theorem hydrateText_eq {row : RunRow}
    (hp : readObject maxDepth float row.payload = (loadsColumn depth row.payload).toOption)
    (ho : ∀ r ∈ t.rowsOf row.runId,
      readObject maxDepth float r.output = (loadsColumn depth r.output).toOption) :
    t.hydrateText maxDepth float row = (t.readRow ⟨depth, depth⟩ row).toOption := by
  unfold Tables.hydrateText Tables.readRow
  rw [hp, hydrateStepsText_eq fun r hr => ho r ((List.perm_insertionSort _ _).mem_iff.mp hr)]
  cases ((t.rowsOf row.runId).insertionSort fun a b => a.stepIndex ≤ b.stepIndex).mapM
    (readStep ⟨depth, depth⟩) <;> cases loadsColumn depth row.payload <;> rfl

theorem loadText_eq (h : ∀ o ∈ t.columns runId,
      readObject maxDepth float o = (loadsColumn depth o).toOption) :
    t.loadText maxDepth float runId = (t.read ⟨depth, depth⟩ runId).toOption := by
  unfold Tables.loadText Tables.read
  cases hrow : t.runRow runId with
  | none => rfl
  | some row =>
    have hcolumns : t.columns runId = row.payload :: (t.rowsOf row.runId).map StepRow.output := by
      rw [Tables.columns, hrow, Tables.runRow_runId hrow]
      rfl
    rw [hcolumns, List.forall_mem_cons] at h
    have houtputs : ∀ r ∈ t.rowsOf row.runId,
        readObject maxDepth float r.output = (loadsColumn depth r.output).toOption :=
      fun r hr => h.2 r.output (List.mem_map_of_mem hr)
    simp only [hydrateText_eq h.1 houtputs, Tables.readSome]
    cases t.readRow ⟨depth, depth⟩ row <;> rfl

theorem insertRun_written {spec : RunSpec} {now : Nat} (ht : t.Written)
    (h : t.insertRun stack runId spec now = .ok t') : t'.Written := by
  unfold Tables.insertRun at h
  split at h
  · cases h
  · rename_i payload hpayload
    simp only at h
    split at h
    · cases h
    · cases h
      refine ⟨fun row hrow => ?_, ht.outputs⟩
      rcases List.mem_append.mp hrow with hold | hnew
      · exact ht.payloads row hold
      · obtain rfl := List.mem_singleton.mp hnew
        exact ⟨spec.payload, (dumpsObject_eq_some.mp hpayload).1⟩

theorem setStatus_written {status : RunStatus} {error : Option PyStr} (ht : t.Written)
    (h : t.setStatus runId status error = .ok t') : t'.Written := by
  obtain ⟨err, _, rfl, _⟩ := Tables.setStatus_ok h
  refine ⟨fun row hrow => ?_, ht.outputs⟩
  obtain ⟨old, hold, rfl⟩ := List.mem_map.mp hrow
  have hpayload : (Tables.settled runId status err old).payload = old.payload := by
    unfold Tables.settled
    split <;> rfl
  rw [hpayload]
  exact ht.payloads old hold

theorem append_written {r : StepRecord} (ht : t.Written) (h : t.append stack r = .ok t') :
    t'.Written := by
  obtain ⟨output, ho, _, rfl⟩ := Tables.append_ok h
  refine ⟨ht.payloads, fun row hrow => ?_⟩
  rcases mem_insertOrIgnore hrow with hold | ⟨rfl, _⟩
  · exact ht.outputs row hold
  · exact ⟨r.output, ho⟩

end Loading

section Moves

variable {policy : LockPolicy ι} {w : ι} {sh sh' : Shared ι} {ctrl ctrl' : Control} {a : Action}

theorem Move.written (h : Move policy w sh ctrl a sh' ctrl') (ht : sh.tables.Written) :
    sh'.tables.Written := by
  cases h with
  | rest tables log inert => exact tables ▸ ht
  | submitted inserted => exact insertRun_written ht inserted
  | started writes set next => exact setStatus_written ht set
  | settled writes set inert => exact setStatus_written ht set
  | appended writes stored next => exact append_written ht stored
  | _ => exact ht

variable [DecidableEq ι]

theorem written_outline (policy : LockPolicy ι) :
    Outline (workerStep policy) (fun _ _ _ => True) (fun sh => sh.tables.Written)
      (fun _ _ _ => True) where
  own ht _ _ ha := ⟨(workerStep_move ha).written ht, trivial⟩
  others _ _ _ _ _ _ := trivial

theorem empty_written : Tables.empty.Written :=
  ⟨fun _ h => (List.not_mem_nil h).elim, fun _ h => (List.not_mem_nil h).elim⟩

-- the texts in the columns of a run give back, read as `load` reads them, the run the rest holds
theorem columns_read_back (policy : LockPolicy ι) (es : List (ι × Action)) {c : System ι}
    (h : runSystem policy (System.start Tables.empty) es = some c) {maxDepth : Nat}
    {float : List Char → PyFloat} {runId : String}
    (hd : ∀ o ∈ c.shared.tables.columns runId, (Json.obj o).depth ≤ maxDepth)
    (hf : ∀ o ∈ c.shared.tables.columns runId, ReadFloats float (Json.obj o).floats) :
    (∀ o ∈ c.shared.tables.columns runId, ∃ text, columnText o = some text ∧
        Printable (PyStr.ofString text).chars) ∧
      c.shared.tables.loadText maxDepth float runId =
        (c.shared.tables.read ⟨maxDepth, maxDepth⟩ runId).toOption := by
  have hwritten := ((written_outline policy).run ⟨empty_written, fun _ => trivial⟩ h).1
  have hdumped : ∀ o ∈ c.shared.tables.columns runId, ∃ d, toJsonObject d = some o := by
    intro o ho
    rcases List.mem_append.mp ho with hpay | hout
    · obtain ⟨row, hrow, rfl⟩ := List.mem_map.mp hpay
      exact hwritten.payloads row (Tables.runRow_mem (Option.mem_toList.mp hrow))
    · obtain ⟨row, hrow, rfl⟩ := List.mem_map.mp hout
      exact hwritten.outputs row (List.mem_of_mem_filter hrow)
  have hreads : ∀ o ∈ c.shared.tables.columns runId, ∃ text, columnText o = some text ∧
      Printable (PyStr.ofString text).chars ∧
      readColumn maxDepth float text = some (loadsObject o) := by
    intro o ho
    obtain ⟨d, hdump⟩ := hdumped o ho
    exact column_reads hdump (hd o ho) (hf o ho)
  refine ⟨fun o ho => ?_, loadText_eq fun o ho => ?_⟩
  · obtain ⟨text, htext, hprint, _⟩ := hreads o ho
    exact ⟨text, htext, hprint⟩
  · obtain ⟨text, htext, _, hread⟩ := hreads o ho
    rw [readObject, htext, Option.bind_some, hread, loadsColumn, if_pos (hd o ho)]
    rfl

-- an emoji, a half of one, quotes and a float in one checkpoint
def invoice : PyValue :=
  .dict [(.str (.ofString "note"),
      .str ⟨[.scalar '😀', .scalar '"', .surrogate 0x3D, .scalar '\n']⟩),
    (.str (.ofString "total"), .float (.finite "12.5")),
    (.str (.ofString "lines"), .list [.int (-3), .dict []])]

def invoices : List (Unit × Action) :=
  ((), submits) :: turns () opens ++ turns () [.begin, finishes 0 [] (.returned invoice), .store]

theorem columns_read_back_invoice :
    ∃ c : System Unit, runSystem perfectLock (System.start Tables.empty) invoices = some c ∧
      (c.shared.tables.columns "run").length = 2 ∧
      (∀ o ∈ c.shared.tables.columns "run", ∃ text, columnText o = some text ∧
        Printable (PyStr.ofString text).chars) ∧
      c.shared.tables.loadText 1000 writtenFloat "run" =
        (c.shared.tables.read ⟨1000, 1000⟩ "run").toOption := by
  have hsome : (runSystem perfectLock (System.start Tables.empty) invoices).isSome = true := by
    decide +kernel
  obtain ⟨c, hc⟩ := Option.isSome_iff_exists.mp hsome
  have hall : ((runSystem perfectLock (System.start Tables.empty) invoices).all fun c =>
      decide ((c.shared.tables.columns "run").length = 2) &&
        (c.shared.tables.columns "run").all fun o => decide ((Json.obj o).depth ≤ 1000) &&
          (Json.obj o).floats.all fun f => f = .finite "12.5") = true := by decide +kernel
  have hcolumns := run_all hall hc
  simp only [Bool.and_eq_true, decide_eq_true_eq, List.all_eq_true] at hcolumns
  have hnumber : (PyFloat.finite "12.5").Reads writtenFloat := by
    intro r hr
    obtain rfl := PyFloat.finite.inj hr
    have htext : "12.5".toList = [] ++ (['1', '2'] ++ (['.', '5'] ++ [])) := by decide
    have hvalue : PyFloat.finite "12.5" = writtenFloat "12.5".toList := by
      rw [writtenFloat, String.ofList_toList]
    rw [hvalue, htext]
    exact .real (.inl rfl) (.digits rfl (by decide) (by decide))
      (.digits ⟨by decide, by decide⟩) .absent (by decide)
  refine ⟨c, hc, hcolumns.1, columns_read_back perfectLock invoices hc
    (fun o ho => (hcolumns.2 o ho).1) fun o ho f hf => ?_⟩
  rw [(hcolumns.2 o ho).2 f hf]
  exact hnumber

end Moves

end DurableAgent
