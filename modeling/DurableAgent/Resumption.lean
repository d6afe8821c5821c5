import DurableAgent.Straight
import DurableAgent.Agreement
import DurableAgent.Lineage
import DurableAgent.Outcomes

namespace DurableAgent

open FirstWriter Interleaving Replay

variable {ι : Type}

-- the rows are the start of what the straight run writes, the failure that ends it included
structure OnTrack (handle : String → StepContext → Execution) (origin : Session)
    (final : List Checkpoint) (ending : Ending) (log rows : List Checkpoint) : Prop where
  halts : Halts (straight handle origin) log final ending
  succeeded : ∀ entry ∈ log, entry.outcome ≠ .failed ∧ isJsonDict (ofStrDict entry.output)
  rows : rows = log ∨ ∃ entry status reason,
    straight handle origin log = .halt (.failed entry status reason) ∧ rows = log ++ [entry]

section Track

variable {handle : String → StepContext → Execution} {origin s : Session} {f : Frame}
  {final log rows : List Checkpoint} {ending : Ending} {t t' : Tables} {r : StepRecord}
  {stack : Nat}

theorem stored_of_append (ha : t.append stack r = .ok t') :
    ∃ output, toJsonObject r.output = some output ∧
      r.stored stack = some (Tables.hydrateStep (r.row output)).checkpoint := by
  obtain ⟨output, ho, ⟨row, hrow⟩, _⟩ := Tables.append_ok ha
  refine ⟨output, ho, ?_⟩
  obtain ⟨hd, hb⟩ := (Tables.append_ok_iff hrow).mp ⟨t', ha⟩
  obtain ⟨output', ho'⟩ := Option.isSome_iff_exists.mp hd
  obtain rfl : output = output' := Option.some.inj (ho.symm.trans (dumpsObject_eq_some.mp ho').1)
  simp only [StepRecord.stored, ho', hb, if_true]
  rfl

theorem stored_of_append_error {row : RunRow} {x : StoreError}
    (hrow : t.runRow r.runId = some row) (ha : t.append stack r = .error x) :
    r.stored stack = none := by
  cases hs : r.stored stack with
  | none => rfl
  | some entry =>
    have hok : ∃ t', t.append stack r = .ok t' := by
      rw [Tables.append_ok_iff hrow]
      unfold StepRecord.stored at hs
      split at hs
      · cases hs
      · rename_i output ho
        rw [ho]
        split at hs
        · exact ⟨rfl, ‹_›⟩
        · cases hs
    obtain ⟨t', ht'⟩ := hok
    rw [ha] at ht'
    cases ht'

theorem checkpoints_append {runId : String} {entry : Checkpoint} (hn : t.Numbered)
    (hid : r.runId = runId) (ha : t.append stack r = .ok t')
    (hs : r.stored stack = some entry) :
    (r.index < (checkpoints t runId).length → checkpoints t' runId = checkpoints t runId) ∧
      (r.index = (checkpoints t runId).length →
        checkpoints t' runId = checkpoints t runId ++ [entry]) := by
  subst hid
  obtain ⟨output, ho, hst⟩ := stored_of_append ha
  rw [hst] at hs
  cases hs
  have hrows := Tables.rowsOf_append ha ho r.runId
  rw [if_pos rfl] at hrows
  simp only [checkpoints, List.length_map, hrows]
  constructor
  · intro hlt
    rw [(hn r.runId).insert_of_lt hlt]
  · intro heq
    have hins : insertOrIgnore StepRow.stepIndex (t.rowsOf r.runId) (r.row output) =
        t.rowsOf r.runId ++ [r.row output] := Numbered.insert_of_eq (hn r.runId) heq
    rw [hins, List.map_append, List.map_singleton]

theorem checkpoints_congr {runId : String} (h : t'.rowsOf runId = t.rowsOf runId) :
    checkpoints t' runId = checkpoints t runId := by rw [checkpoints, h, checkpoints]

-- an append the straight run makes too either repeats its last row or adds its next one
theorem OnTrack.append {after : AfterAppend} (h : OnTrack handle origin final ending log
      (checkpoints t origin.call.runId)) (hn : t.Numbered) (hid : r.runId = origin.call.runId)
    (hi : r.index = log.length)
    (hentry : (Control.appending s f r after).entry = straight handle origin log)
    (ha : t.append s.call.stack r = .ok t') :
    ∃ entry, r.stored s.call.stack = some entry ∧
      match after with
      | .proceed _ _ => straight handle origin log = .emit entry ∧
          checkpoints t' origin.call.runId = log ++ [entry]
      | .settle status reason _ => straight handle origin log =
          .halt (.failed entry status reason) ∧ checkpoints t' origin.call.runId = log ++ [entry] := by
  obtain ⟨output, _, hst⟩ := stored_of_append ha
  have hck := checkpoints_append hn hid ha hst
  refine ⟨_, hst, ?_⟩
  rcases h.rows with hrows | ⟨entry, status, reason, hstop, hrows⟩
  · have hnew := hck.2 (by rw [hi, hrows])
    rw [hrows] at hnew
    cases after with
    | proceed payload previous =>
      simp only [Control.entry, hst] at hentry
      exact ⟨hentry.symm, hnew⟩
    | settle status reason reraise =>
      simp only [Control.entry, hst] at hentry
      exact ⟨hentry.symm, hnew⟩
  · have hsame := hck.1 (by rw [hi, hrows, List.length_append]; simp)
    cases after with
    | proceed payload previous =>
      simp only [Control.entry, hst] at hentry
      rw [hstop] at hentry
      cases hentry
    | settle status' reason' reraise =>
      simp only [Control.entry, hst] at hentry
      refine ⟨hentry.symm, ?_⟩
      rw [hstop] at hentry
      cases hentry
      rw [hsame, hrows]

theorem straight_emit {entry : Checkpoint} (h : straight handle origin log = .emit entry) :
    entry.outcome ≠ .failed := by
  unfold straight at h
  split at h
  · cases h
  · exact emit_outcome h

theorem straight_failed {entry : Checkpoint} {status : RunStatus} {reason : PyStr}
    (h : straight handle origin log = .halt (.failed entry status reason)) :
    entry.outcome = .failed := by
  unfold straight at h
  split at h
  · cases h
  · exact failed_outcome h

theorem OnTrack.emit {entry : Checkpoint} (h : OnTrack handle origin final ending log rows)
    (hs : straight handle origin log = .emit entry) (hj : isJsonDict (ofStrDict entry.output)) :
    OnTrack handle origin final ending (log ++ [entry]) (log ++ [entry]) := by
  refine ⟨h.halts.of_emit hs, ?_, .inl rfl⟩
  intro x hx
  rcases List.mem_append.mp hx with hold | hnew
  · exact h.succeeded x hold
  · rw [List.mem_singleton.mp hnew]
    exact ⟨straight_emit hs, hj⟩

theorem OnTrack.fail {entry : Checkpoint} {status : RunStatus} {reason : PyStr}
    (h : OnTrack handle origin final ending log rows)
    (hs : straight handle origin log = .halt (.failed entry status reason)) :
    OnTrack handle origin final ending log (log ++ [entry]) :=
  ⟨h.halts, h.succeeded, .inr ⟨entry, status, reason, hs, rfl⟩⟩

theorem OnTrack.left (h : OnTrack handle origin final ending log rows) :
    ∃ more, rows = log ++ more := by
  rcases h.rows with hrows | ⟨entry, status, reason, _, hrows⟩
  · exact ⟨[], by rw [hrows, List.append_nil]⟩
  · exact ⟨[entry], hrows⟩

theorem checkpoints_getElem? {runId : String} {row : StepRow} (hn : t.Numbered)
    (hrow : row ∈ t.rowsOf runId) :
    (checkpoints t runId)[row.stepIndex]? = some (Tables.hydrateStep row).checkpoint := by
  rw [checkpoints, List.getElem?_map, (hn runId).getElem?_idx hrow, Option.map_some]

theorem OnTrack.front {runId : String} (hn : t.Numbered)
    (h : OnTrack handle origin final ending log (checkpoints t runId)) :
    Front (t.rowsOf runId) log.length := by
  constructor
  · obtain ⟨more, hm⟩ := h.left
    have hlen := congrArg List.length hm
    rw [checkpoints, List.length_map, List.length_append] at hlen
    omega
  · intro row hrow hlt
    obtain ⟨more, hm⟩ := h.left
    have hget := checkpoints_getElem? hn hrow
    rw [hm, List.getElem?_append_left hlt] at hget
    exact (h.succeeded _ (List.mem_of_getElem? hget)).1
  · intro row hrow hle
    have hget := checkpoints_getElem? hn hrow
    rcases h.rows with hrows | ⟨entry, status, reason, hstop, hrows⟩
    · rw [hrows] at hget
      have hlt := (List.getElem?_eq_some_iff.mp hget).1
      omega
    · rw [hrows] at hget
      have hlt := (List.getElem?_eq_some_iff.mp hget).1
      rw [List.length_append, List.length_singleton] at hlt
      have heq : row.stepIndex = log.length := by omega
      rw [heq, List.getElem?_concat_length] at hget
      cases hget
      exact ⟨heq, straight_failed hstop⟩

theorem OnTrack.previousOf (hs : s.Sound t) (hn : t.Numbered)
    (hr : PlanRows t s.call.runId s.call.plan)
    (h : OnTrack handle origin final ending log (checkpoints t s.call.runId))
    (hnext : s.state.nextIndex = log.length) :
    Agrees s.call.plan log (previousOf s.state) := by
  intro j step entry hstep he
  have hlt := (List.getElem?_eq_some_iff.mp he).1
  obtain ⟨more, hm⟩ := h.left
  have hget : (checkpoints t s.call.runId)[j]? = some entry := by
    rw [hm, List.getElem?_append_left hlt, he]
  rw [checkpoints, List.getElem?_map, Option.map_eq_some_iff] at hget
  obtain ⟨row, hrow, rfl⟩ := hget
  have hmem := List.mem_of_getElem? hrow
  have hi := (hn s.call.runId).idx_of_getElem? hrow
  have hknown := (previousOf_known hs hn hr).1 row hmem (by rw [hi, hnext]; exact hlt)
  rw [planRows_name hr hmem (hi.symm ▸ hstep)] at hknown
  exact hknown

end Track

structure Tracked (handle : String → StepContext → Execution) (origin : Session)
    (final : List Checkpoint) (ending : Ending) (t : Tables) : Prop where
  run : ∃ row, t.runRow origin.call.runId = some row ∧
    loadsObject row.payload = origin.state.payload ∧
    (row.status.isTerminal = true → durable t origin.call.runId = some (ending.durable final))
  track : ∃ log, OnTrack handle origin final ending log (checkpoints t origin.call.runId)

section Alone

variable {handle : String → StepContext → Execution} {origin s : Session} {f : Frame}
  {final log : List Checkpoint} {ending : Ending} {t t' : Tables} {row : RunRow}

theorem durable_eq {runId : String} (hn : t.Numbered) (hrow : t.runRow runId = some row) :
    durable t runId = some ⟨row.status, row.error, checkpoints t runId⟩ := by
  have hid : row.runId = runId := Tables.runRow_runId hrow
  have hsteps := hydrate_steps row (hn _)
  rw [hid] at hsteps
  rw [durable, Tables.load, hrow, Option.map_some, Option.map_some, hsteps, List.map_map]
  rfl

theorem finishRun_durable {status : RunStatus} {error : Option PyStr} {reraise : Option Raised}
    (hn : t.Numbered) (hrow : t.runRow s.call.runId = some row)
    (ht : status.isTerminal = true) :
    durable (finishRun t s status error reraise).1 s.call.runId =
      some (match Tables.encodeError error with
        | some err => ⟨status, err, checkpoints t s.call.runId⟩
        | none => ⟨row.status, row.error, checkpoints t s.call.runId⟩) := by
  cases he : Tables.encodeError error with
  | none =>
    rw [finishRun, setStatus_unencodable he]
    exact durable_eq hn hrow
  | some err =>
    obtain ⟨t', hs, hrow'⟩ := setStatus_terminal hrow ht he
    have hn' : t'.Numbered := fun id => Tables.rowsOf_setStatus hs id ▸ hn id
    rw [finishRun_fst hs, durable_eq hn' hrow', checkpoints_congr (Tables.rowsOf_setStatus hs _)]

theorem stuck_durable (hn : t.Numbered) (hrow : t.runRow origin.call.runId = some row)
    (hrun : row.status = .running ∧ row.error = none)
    (h : OnTrack handle origin final ending log (checkpoints t origin.call.runId))
    (hs : straight handle origin log = .halt .stuck) :
    durable t origin.call.runId = some (Ending.stuck.durable log) := by
  have hrows : checkpoints t origin.call.runId = log := by
    rcases h.rows with hrows | ⟨entry, status, reason, hstop, _⟩
    · exact hrows
    · rw [hs] at hstop
      cases hstop
  rw [durable_eq hn hrow, hrun.1, hrun.2, hrows]
  rfl

theorem OnTrack.reached (h : OnTrack handle origin final ending log
    (checkpoints t origin.call.runId)) : log.length ≤ (t.rowsOf origin.call.runId).length := by
  obtain ⟨more, hm⟩ := h.left
  have hlen := congrArg List.length hm
  rw [checkpoints, List.length_map, List.length_append] at hlen
  omega

theorem OnTrack.numbered {r : StepRecord} (h : OnTrack handle origin final ending log
      (checkpoints t origin.call.runId)) (hn : t.Numbered) (hid : r.runId = origin.call.runId)
    (hi : r.index = log.length) (ha : t.append stack r = .ok t') : t'.Numbered := by
  refine append_numbered hn ?_ ha
  rw [hid, hi]
  exact h.reached

theorem halt_durable (now : Nat → Datetime)
    (hr : Reproducible origin.call.plan origin.state.payload handle)
    (hcall : s.call = origin.call) (hf : Follows origin log f) (hn : t.Numbered)
    (hrow : t.runRow origin.call.runId = some row)
    (hrun : row.status = .running ∧ row.error = none)
    (h : OnTrack handle origin final ending log (checkpoints t origin.call.runId))
    {b : Ending} (hb : straight handle origin log = .halt b) (rest : List Step) (at' : Datetime) :
    durable (proceedWith handle now rest t (conclude s f (execute handle s f) at')).1
      origin.call.runId = some (b.durable log) := by
  have hentry := conclude_straight hr (congrArg Call.runId hcall) (congrArg Call.handlers hcall)
    (congrArg Call.stack hcall) hf at'
  revert hentry
  have hrow' : t.runRow s.call.runId = some row := hcall.symm ▸ hrow
  apply conclude_cases (P := fun ctrl => ctrl.entry = straight handle origin log →
    durable (proceedWith handle now rest t ctrl).1 origin.call.runId = some (b.durable log))
  · intro o he
    rw [hb] at he
    cases he
    exact stuck_durable hn hrow hrun h hb
  · intro status reason reraise r hfail hrec he
    obtain ⟨hrid, hri, _⟩ := stepRecord_ok hrec
    have hid : r.runId = origin.call.runId := hrid.trans (congrArg Call.runId hcall)
    have hi : r.index = log.length := hri.trans hf.length.symm
    simp only [proceedWith]
    cases ha : t.append s.call.stack r with
    | error x =>
      rw [entry_refused (stored_of_append_error (hid.symm ▸ hrow) ha), hb] at he
      cases he
      exact stuck_durable hn hrow hrun h hb
    | ok t' =>
      obtain ⟨entry, hst, hstop, hck⟩ := h.append hn hid hi he ha
      rw [hb] at hstop
      cases hstop
      have hn' := h.numbered hn hid hi ha
      have hrow'' : t'.runRow s.call.runId = some row := (Tables.runRow_append ha _).trans hrow'
      simp only
      rw [← hcall, finishRun_durable hn' hrow'' (HandlerResult.failure_status hfail).1, hcall, hck,
        hrun.1, hrun.2, Ending.durable, Tables.encodeError]
      cases reason.encode <;> rfl
  · intro output r ho hrec he
    obtain ⟨hrid, hri, _⟩ := stepRecord_ok hrec
    have hid : r.runId = origin.call.runId := hrid.trans (congrArg Call.runId hcall)
    simp only [proceedWith]
    cases ha : t.append s.call.stack r with
    | error x =>
      rw [entry_refused (stored_of_append_error (hid.symm ▸ hrow) ha), hb] at he
      cases he
      exact stuck_durable hn hrow hrun h hb
    | ok t' =>
      obtain ⟨entry, hst, hemit, hck⟩ := h.append hn hid (hri.trans hf.length.symm) he ha
      rw [hb] at hemit
      cases hemit

theorem emit_proceeds (now : Nat → Datetime)
    (hr : Reproducible origin.call.plan origin.state.payload handle)
    (hcall : s.call = origin.call) (hf : Follows origin log f) (hn : t.Numbered)
    (hrow : t.runRow origin.call.runId = some row)
    (h : OnTrack handle origin final ending log (checkpoints t origin.call.runId))
    {entry : Checkpoint} (hb : straight handle origin log = .emit entry) (rest : List Step)
    (at' : Datetime) :
    ∃ t' previous,
      proceedWith handle now rest t (conclude s f (execute handle s f) at') =
        runSteps handle now s rest (f.index + 1) origin.state.payload previous t' ∧
      t'.Numbered ∧ t'.runRow origin.call.runId = some row ∧
      OnTrack handle origin final ending (log ++ [entry]) (checkpoints t' origin.call.runId) ∧
      Agrees origin.call.plan (log ++ [entry]) previous := by
  have hentry := conclude_straight hr (congrArg Call.runId hcall) (congrArg Call.handlers hcall)
    (congrArg Call.stack hcall) hf at'
  revert hentry
  apply conclude_cases (P := fun ctrl => ctrl.entry = straight handle origin log → ∃ t' previous,
    proceedWith handle now rest t ctrl =
      runSteps handle now s rest (f.index + 1) origin.state.payload previous t' ∧
    t'.Numbered ∧ t'.runRow origin.call.runId = some row ∧
    OnTrack handle origin final ending (log ++ [entry]) (checkpoints t' origin.call.runId) ∧
    Agrees origin.call.plan (log ++ [entry]) previous)
  · intro o he
    rw [hb] at he
    cases he
  · intro status reason reraise r _ _ he
    rw [hb] at he
    simp only [Control.entry] at he
    split at he <;> cases he
  · intro output r ho hrec he
    obtain ⟨hrid, hri, _⟩ := stepRecord_ok hrec
    have hid : r.runId = origin.call.runId := hrid.trans (congrArg Call.runId hcall)
    have hi : r.index = log.length := hri.trans hf.length.symm
    simp only [proceedWith]
    cases ha : t.append s.call.stack r with
    | error x =>
      rw [entry_refused (stored_of_append_error (hid.symm ▸ hrow) ha), hb] at he
      cases he
    | ok t' =>
      obtain ⟨entry', hst, hemit, hck⟩ := h.append hn hid hi he ha
      rw [hb] at hemit
      cases hemit
      obtain ⟨hpay, hcarry⟩ := proceed_carries hr hf (fun x hx => (h.succeeded x hx).2) ho hrec
      rw [hcall] at hst
      obtain ⟨hagree, hjson⟩ := hcarry entry hst
      refine ⟨t', _, ?_, h.numbered hn hid hi ha, (Tables.runRow_append ha _).trans hrow, ?_, hagree⟩
      · rw [← hpay]
      · rw [hck]
        exact h.emit hb hjson

theorem runSteps_durable (now : Nat → Datetime)
    (hr : Reproducible origin.call.plan origin.state.payload handle)
    (hcall : s.call = origin.call) (hcrash : origin.call.crashAt = none)
    {log : List Checkpoint} (hh : Halts (straight handle origin) log final ending)
    {previous : Outputs} (hn : t.Numbered) (hrow : t.runRow origin.call.runId = some row)
    (hrun : row.status = .running ∧ row.error = none)
    (h : OnTrack handle origin final ending log (checkpoints t origin.call.runId))
    (hag : Agrees origin.call.plan log previous) :
    durable (runSteps handle now s (origin.call.plan.steps.drop log.length) log.length
      origin.state.payload previous t).1 origin.call.runId = some (ending.durable final) := by
  have hc {index : Nat} : s.call.crashAt ≠ some index := by simp [hcall, hcrash]
  induction hh generalizing t previous with
  | @halt log ending hb =>
    cases hs : origin.call.plan.steps[log.length]? with
    | none =>
      have hdrop : origin.call.plan.steps.drop log.length = [] :=
        List.drop_eq_nil_of_le (List.getElem?_eq_none_iff.mp hs)
      have hcompleted : ending = .completed := by
        simp only [straight, hs] at hb
        cases hb
        rfl
      have hrows : checkpoints t origin.call.runId = log := by
        rcases h.rows with hrows | ⟨entry, status, reason, hstop, _⟩
        · exact hrows
        · rw [hb, hcompleted] at hstop
          cases hstop
      rw [hdrop, hcompleted]
      simp only [runSteps]
      rw [← hcall] at hrow ⊢
      rw [finishRun_durable hn hrow rfl, hcall, hrows]
      rfl
    | some step =>
      have hf : Follows origin log ⟨log.length, step, origin.state.payload, previous⟩ :=
        ⟨hs, rfl, rfl, hag⟩
      rw [runSteps_drop handle now s _ _ _ hs hc]
      exact halt_durable now hr hcall hf hn hrow hrun h hb _ _
  | @emit log final entry ending hb rest ih =>
    cases hs : origin.call.plan.steps[log.length]? with
    | none =>
      simp only [straight, hs] at hb
      cases hb
    | some step =>
      have hf : Follows origin log ⟨log.length, step, origin.state.payload, previous⟩ :=
        ⟨hs, rfl, rfl, hag⟩
      rw [runSteps_drop handle now s _ _ _ hs hc]
      rcases emit_proceeds now hr hcall hf hn hrow h hb
        (origin.call.plan.steps.drop (log.length + 1)) (now log.length) with
        ⟨t', previous', heq, hn', hrow', htrack, hag'⟩
      rw [heq]
      have hlen : (log ++ [entry]).length = log.length + 1 := by simp
      have hrest := ih hn' hrow' htrack hag'
      rw [hlen] at hrest
      exact hrest

theorem run_durable (hr : Reproducible origin.call.plan origin.state.payload handle)
    (hcrash : origin.call.crashAt = none) (ht : t.Sound)
    (hplan : PlanRows t origin.call.runId origin.call.plan)
    (h : Tracked handle origin final ending t) (now : Nat → Datetime) :
    durable (run handle now true t origin.call).1 origin.call.runId =
      some (ending.durable final) := by
  obtain ⟨row, hrow, hpay, hterm⟩ := h.run
  obtain ⟨log, hlog⟩ := h.track
  have hload : t.load origin.call.runId = some (t.hydrate row) := by
    rw [Tables.load, hrow, Option.map_some]
  have hmatch := planRows_match hplan hload
  cases hact : row.status.isTerminal with
  | true =>
    have hstatus : (t.hydrate row).status.isTerminal = true := hact
    simp only [run, hload, hstatus, if_true]
    exact hterm hact
  | false =>
    have hstatus : (t.hydrate row).status.isTerminal = false := hact
    obtain ⟨t', hset, hrow'⟩ := setStatus_running ht.wellFormed hrow hact
    have hsame := checkpoints_congr (Tables.rowsOf_setStatus hset origin.call.runId)
    have hnext : (t.hydrate row).nextIndex = log.length := by
      have hid : row.runId = origin.call.runId := Tables.runRow_runId hrow
      exact (hid.symm ▸ hlog.front ht.numbered : Front (t.rowsOf row.runId) log.length).nextIndex
        ht.numbered
    have hsound : Session.Sound t ⟨origin.call, t.hydrate row⟩ :=
      snapshot_sound ht hload hstatus hmatch
    have hag : Agrees origin.call.plan log (previousOf (t.hydrate row)) :=
      OnTrack.previousOf hsound ht.numbered hplan hlog hnext
    have hn' : t'.Numbered := fun id => Tables.rowsOf_setStatus hset id ▸ ht.numbered id
    simp only [run, hload, hstatus, hmatch, hset, Bool.false_eq_true, if_false, if_true]
    rw [hnext, show (t.hydrate row).payload = origin.state.payload from hpay]
    exact runSteps_durable (s := ⟨origin.call, t.hydrate row⟩) now hr rfl hcrash hlog.halts hn' hrow'
      ⟨rfl, rfl⟩ (hsame ▸ hlog) hag

end Alone

end DurableAgent
