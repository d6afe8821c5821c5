import DurableAgent.Progression

namespace DurableAgent

open FirstWriter Interleaving

variable {ι : Type}

def Control.Calls (Q : Call → Prop) : Control → Prop
  | .loading c => Q c
  | .locking s => Q s.call
  | .starting s => Q s.call
  | .calling s _ => Q s.call
  | .handling s _ => Q s.call
  | .appending s _ _ _ => Q s.call
  | .settling s _ _ _ => Q s.call
  | _ => True

def PlanRows (t : Tables) (runId : String) (plan : Plan) : Prop :=
  ∀ row ∈ t.rowsOf runId, ∃ step, plan.steps[row.stepIndex]? = some step ∧ step.name = row.name

section Calls

variable {Q : Call → Prop} {s : Session} {f : Frame} {ctrl : Control}

theorem inert_calls (h : ctrl.inert = true) : ctrl.Calls Q := by
  cases ctrl <;> trivial

theorem next_calls (h : Q s.call) (index : Nat) (payload : StrDict) (previous : Outputs) :
    (s.next index payload previous).Calls Q := by
  apply next_cases
  · intro _
    exact h
  · intro step _
    exact h
  · intro o
    trivial

theorem conclude_calls (h : Q s.call) (e : Execution) (now : Datetime) :
    (conclude s f e now).Calls Q := by
  apply conclude_cases
  · intro o
    trivial
  · intro status reason reraise r _ _
    exact h
  · intro output r _ _
    exact h

theorem after_calls (h : Q s.call) (after : AfterAppend) : (after.control s f).Calls Q := by
  cases after with
  | proceed payload previous => exact next_calls h _ _ _
  | settle status reason reraise => exact h

end Calls

section Moves

variable {policy : LockPolicy ι} {w : ι} {sh sh' : Shared ι} {ctrl ctrl' : Control} {a : Action}
  {Q : Call → Prop} {runId : String} {plan : Plan}

theorem Move.calls (h : Move policy w sh ctrl a sh' ctrl') (hc : ctrl.Calls Q) (ha : a.Calls Q) :
    ctrl'.Calls Q := by
  cases h with
  | rest tables log inert => exact inert_calls inert
  | submitted inserted => trivial
  | called => exact ha
  | snapshot load active matched => exact hc
  | granted free => exact hc
  | started writes set next =>
    rcases next with rfl | inert
    · exact next_calls hc _ _ _
    · exact inert_calls inert
  | began known => exact hc
  | missing unknown => exact conclude_calls hc _ _
  | returned result => exact conclude_calls hc _ _
  | threw result => exact conclude_calls hc _ _
  | appended writes stored next =>
    rcases next with rfl | inert
    · exact after_calls hc _
    · exact inert_calls inert
  | settled writes set inert => exact inert_calls inert

theorem Move.planRows (h : Move policy w sh ctrl a sh' ctrl') (hs : ctrl.Sound sh.tables)
    (hc : ctrl.Calls (PlanFor runId plan)) (hr : PlanRows sh.tables runId plan) :
    PlanRows sh'.tables runId plan := by
  intro row hrow
  rcases h.new_row hrow with hold | ⟨s, f, r, after, output, rfl, hid, _, rfl, _⟩
  · exact hr row hold
  · have hp : s.call.plan = plan := hc (hs.2.2.runId.symm.trans hid)
    have hi : plan.steps[r.index]? = some f.step := by
      rw [hs.2.2.index, ← hp]
      exact hs.2.1.step
    exact ⟨f.step, hi, hs.2.2.name.symm⟩

theorem planRows_of_nil {t : Tables} (h : t.rowsOf runId = []) : PlanRows t runId plan := by
  intro row hrow
  rw [h] at hrow
  cases hrow

theorem planRows_name {t : Tables} (hr : PlanRows t runId plan) {row : StepRow}
    (hrow : row ∈ t.rowsOf runId) {step : Step} (hs : plan.steps[row.stepIndex]? = some step) :
    row.name = step.name := by
  obtain ⟨step', hs', hn⟩ := hr row hrow
  rw [hs] at hs'
  cases hs'
  exact hn.symm

theorem planRows_name_ne {t : Tables} (hr : PlanRows t runId plan) {row : StepRow}
    (hrow : row ∈ t.rowsOf runId) {i : Nat} {step : Step} (hs : plan.steps[i]? = some step)
    (hne : row.stepIndex ≠ i) : row.name ≠ step.name := by
  obtain ⟨step', hs', hn⟩ := hr row hrow
  intro he
  exact hne (plan.name_injective hs' hs (hn.trans he))

theorem find_row {t : Tables} (hn : t.Numbered) {i : Nat} (hi : i < (t.rowsOf runId).length) :
    ∃ row, (t.rowsOf runId).find? (fun row => row.stepIndex = i) = some row ∧
      row ∈ t.rowsOf runId ∧ row.stepIndex = i := by
  have hf : ((t.rowsOf runId).find? fun row => row.stepIndex = i).isSome := by
    rw [List.find?_isSome]
    obtain ⟨row, hrow, he⟩ := List.mem_map.mp ((hn runId).mem_map_iff.mpr hi)
    exact ⟨row, hrow, by simpa using he⟩
  obtain ⟨row, hrow⟩ := Option.isSome_iff_exists.mp hf
  exact ⟨row, hrow, List.mem_of_find?_eq_some hrow, by simpa using List.find?_some hrow⟩

theorem appending_reached {s : Session} {f : Frame} {r : StepRecord} {after : AfterAppend}
    {t : Tables} (hs : (Control.appending s f r after).Sound t) :
    r.index ≤ (t.rowsOf r.runId).length := by
  rw [hs.2.2.index, hs.2.2.runId]
  exact hs.2.1.reached

-- an append is either ignored, and then leaves no trace, or adds the next row of the run
theorem append_cases {t : Tables} {stack : Nat} (ctx : StepContext) {r : StepRecord}
    (hn : sh.tables.Numbered) (hi : r.index ≤ (sh.tables.rowsOf r.runId).length)
    (h : sh.tables.append stack r = .ok t) :
    (r.index < (sh.tables.rowsOf r.runId).length ∧
      t.rowsOf r.runId = sh.tables.rowsOf r.runId ∧ (sh.checkpoint t ctx r).log = sh.log) ∨
    ∃ output, toJsonObject r.output = some output ∧
      r.index = (sh.tables.rowsOf r.runId).length ∧
      t.rowsOf r.runId = sh.tables.rowsOf r.runId ++ [r.row output] ∧
      (sh.checkpoint t ctx r).log = sh.log ++ [.inserted ctx r] := by
  obtain ⟨output, ho, _, _⟩ := Tables.append_ok h
  have hrows := Tables.rowsOf_append h ho r.runId
  rw [if_pos rfl] at hrows
  have hany : ((sh.tables.rowsOf r.runId).any fun row => row.stepIndex = r.index) = true ↔
      r.index ∈ (sh.tables.rowsOf r.runId).map StepRow.stepIndex := by
    simp
  rw [(hn r.runId).mem_map_iff] at hany
  rcases Nat.lt_or_ge r.index (sh.tables.rowsOf r.runId).length with hlt | hge
  · refine .inl ⟨hlt, ?_, if_pos (hany.mpr hlt)⟩
    rw [hrows]
    exact (hn r.runId).insert_of_lt hlt
  · have heq := Nat.le_antisymm hi hge
    refine .inr ⟨output, ho, heq, ?_, if_neg (fun hc => ?_)⟩
    · rw [hrows]
      exact Numbered.insert_of_eq (hn r.runId) heq
    · have hlt := hany.mp hc
      omega

variable [DecidableEq ι]

theorem calls_along {policy : LockPolicy ι} {c : System ι} {es : List (ι × Action)}
    (h : ∀ e ∈ es, e.2.Calls Q) : alongSystem policy (fun _ _ a => a.Calls Q) c es :=
  Transition.along_of_forall (fun _ e he => h e he) c

theorem plan_outline (policy : LockPolicy ι) (hQ : ∀ c, Q c → PlanFor runId plan c) :
    Outline (workerStep policy) (fun _ _ a => a.Calls Q)
      (fun sh => sh.tables.Sound ∧ PlanRows sh.tables runId plan)
      (fun _ sh ctrl => ctrl.Sound sh.tables ∧ ctrl.Calls Q) := by
  apply ((sound_outline policy).restrict fun _ => trivial).extend
  · intro i sh ctrl a sh' ctrl' _ hs hr hc ha hstep
    have hm := workerStep_move hstep
    have hp : ctrl.Calls (PlanFor runId plan) := by
      cases ctrl <;> first | trivial | exact hQ _ hc
    exact ⟨hm.planRows hs hp hr, hm.calls hc ha⟩
  · intro i j sh ctrl a sh' ctrl' l _ _ _ _ _ _ hl _ _
    exact hl

end Moves

end DurableAgent
