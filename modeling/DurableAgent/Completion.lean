import DurableAgent.Progression

namespace DurableAgent

open FirstWriter Interleaving

variable {ι : Type}

def Executed (log : List Event) (runId name : String) (index : Nat) : Prop :=
  ∃ ctx output, Event.returned name ctx output ∈ log ∧ ctx.runId = runId ∧ ctx.index = index

def RowsExecuted (sh : Shared ι) : Prop :=
  ∀ runId, ∀ row ∈ sh.tables.rowsOf runId, row.outcome ≠ .failed →
    Executed sh.log runId row.name row.stepIndex

def Covered (log : List Event) (s : Session) (n : Nat) : Prop :=
  ∀ i < n, ∀ step, s.call.plan.steps[i]? = some step → Executed log s.call.runId step.name i

def Control.Covered (log : List Event) : Control → Prop
  | .calling s f => DurableAgent.Covered log s f.index
  | .handling s f => DurableAgent.Covered log s f.index
  | .appending s f r _ => DurableAgent.Covered log s f.index ∧
      (r.outcome ≠ .failed → Executed log s.call.runId f.step.name f.index)
  | .settling s status _ _ =>
      status = .completed → DurableAgent.Covered log s s.call.plan.steps.length
  | _ => True

def Control.completing : Control → Option Session
  | .settling s .completed _ _ => some s
  | _ => none

theorem completing_eq_some {ctrl : Control} {s : Session} (h : ctrl.completing = some s) :
    ∃ error reraise, ctrl = .settling s .completed error reraise := by
  unfold Control.completing at h
  split at h
  · cases h
    exact ⟨_, _, rfl⟩
  · cases h

theorem inert_covered {log : List Event} {ctrl : Control} (h : ctrl.inert = true) :
    ctrl.Covered log := by
  cases ctrl <;> trivial

section Log

variable {log more : List Event} {s : Session} {f : Frame} {runId name : String} {n index : Nat}

theorem Executed.append (h : Executed log runId name index) :
    Executed (log ++ more) runId name index := by
  obtain ⟨ctx, output, hm, hr, hi⟩ := h
  exact ⟨ctx, output, List.mem_append_left more hm, hr, hi⟩

theorem Covered.append (h : Covered log s n) : Covered (log ++ more) s n := by
  intro i hi step hs
  exact (h i hi step hs).append

theorem Control.Covered.append {ctrl : Control} (h : ctrl.Covered log) :
    ctrl.Covered (log ++ more) := by
  cases ctrl with
  | calling s f => exact DurableAgent.Covered.append h
  | handling s f => exact DurableAgent.Covered.append h
  | appending s f r after => exact ⟨h.1.append, fun ho => (h.2 ho).append⟩
  | settling s status error reraise => exact fun hc => (h hc).append
  | _ => trivial

theorem executed_returned (f : Frame) (s : Session) (output : PyValue) :
    Executed (log ++ [.returned f.step.name (f.context s) output]) s.call.runId f.step.name
      f.index :=
  ⟨f.context s, output, by simp, rfl, rfl⟩

theorem Covered.succ (h : Covered log s n) {step : Step} (hs : s.call.plan.steps[n]? = some step)
    (he : Executed log s.call.runId step.name n) : Covered log s (n + 1) := by
  intro i hi step' hs'
  rcases Nat.lt_succ_iff_lt_or_eq.mp hi with hlt | rfl
  · exact h i hlt step' hs'
  · have heq : step = step' := Option.some.inj (hs.symm.trans hs')
    exact heq ▸ he

theorem next_covered (h : Covered log s n) (payload : StrDict) (previous : Outputs) :
    (s.next n payload previous).Covered log := by
  apply next_cases
  · intro hn _ i hi
    exact h i (hi.trans_le hn)
  · intro step _
    exact h
  · intro o
    trivial

theorem conclude_covered (h : Covered log s f.index) (e : Execution) (now : Datetime)
    (he : ∀ output, e.result = .returned output →
      Executed log s.call.runId f.step.name f.index) :
    (conclude s f e now).Covered log := by
  apply conclude_cases
  · intro o
    trivial
  · intro status reason reraise r _ hr
    exact ⟨h, fun hne => absurd (stepRecord_ok hr).2.2.2.1 hne⟩
  · intro output r ho _
    exact ⟨h, fun _ => he output ho⟩

end Log

section Moves

variable {policy : LockPolicy ι} {w : ι} {sh sh' : Shared ι} {ctrl ctrl' : Control} {a : Action}

-- the recorded prefix is covered by the rows under it: the guard compared their names with the plan
theorem snapshot_covered {s : Session} (hs : s.Sound sh.tables) (hx : RowsExecuted sh) :
    Covered sh.log s s.state.nextIndex := by
  intro i hi step hstep
  obtain ⟨r, hr, rfl, ho⟩ := RunState.mem_done_of_lt hi
  obtain ⟨step', hs', hn⟩ := assertPlanMatchesHistory_ok.mp hs.matched r hr
  obtain ⟨row, hrow, rfl⟩ := hs.row_of_step hr
  have heq : step' = step := Option.some.inj (hs'.symm.trans hstep)
  rw [← heq, hn]
  exact hx s.call.runId row hrow ho

theorem Shared.checkpoint_log (sh : Shared ι) (t : Tables) (ctx : StepContext) (r : StepRecord) :
    ∃ more, (sh.checkpoint t ctx r).log = sh.log ++ more := by
  unfold Shared.checkpoint
  split
  · exact ⟨[], by simp⟩
  · exact ⟨_, rfl⟩

theorem Move.log_grows (h : Move policy w sh ctrl a sh' ctrl') :
    ∃ more, sh'.log = sh.log ++ more := by
  cases h with
  | rest tables log inert => exact ⟨[], by simp [log]⟩
  | began known => exact ⟨_, rfl⟩
  | returned result => exact ⟨_, rfl⟩
  | appended writes stored next => exact sh.checkpoint_log _ _ _
  | _ => exact ⟨[], by simp [Shared.acquire]⟩

theorem Move.rowsExecuted (h : Move policy w sh ctrl a sh' ctrl') (hc : ctrl.Sound sh.tables)
    (hv : ctrl.Covered sh.log) (hx : RowsExecuted sh) : RowsExecuted sh' := by
  intro runId row hrow hne
  obtain ⟨more, hm⟩ := h.log_grows
  rw [hm]
  rcases h.new_row hrow with hold | ⟨s, f, r, after, output, rfl, hid, _, rfl, _⟩
  · exact (hx runId row hold hne).append
  · have he := hv.2 hne
    rw [← hc.2.2.name, ← hc.2.2.index, ← hc.2.2.runId, hid] at he
    exact he.append

theorem Move.covered (h : Move policy w sh ctrl a sh' ctrl') (hc : ctrl.Sound sh.tables)
    (hv : ctrl.Covered sh.log) (hx : RowsExecuted sh) : ctrl'.Covered sh'.log := by
  cases h with
  | rest tables log inert => exact inert_covered inert
  | submitted inserted => trivial
  | called => trivial
  | snapshot load active matched => trivial
  | granted free => trivial
  | started writes set next =>
    rcases next with rfl | inert
    · exact next_covered (snapshot_covered hc hx) _ _
    · exact inert_covered inert
  | began known => exact Covered.append hv
  | @missing s f now unknown =>
    apply conclude_covered hv
    intro output ho
    cases ho
  | returned result => exact conclude_covered hv.append _ _ fun _ _ => executed_returned _ _ _
  | threw result => exact conclude_covered hv _ _ fun output ho => absurd ho (result output)
  | @appended s f r after a t ctrl' writes stored next =>
    rcases next with rfl | inert
    · obtain ⟨more, hm⟩ := sh.checkpoint_log t (f.context s) r
      rw [hm]
      cases after with
      | proceed payload previous =>
        have he := hv.2 hc.2.2.fits
        exact next_covered (hv.1.append.succ hc.2.1.step he.append) _ _
      | settle status reason reraise =>
        intro hcompleted
        exact absurd hcompleted hc.2.2.fits.2.2.1
    · exact inert_covered inert
  | settled writes set inert => exact inert_covered inert

variable [DecidableEq ι]

theorem covered_outline (policy : LockPolicy ι) :
    Outline (workerStep policy) (fun _ _ _ => True)
      (fun sh => sh.tables.Sound ∧ RowsExecuted sh)
      (fun _ sh ctrl => ctrl.Sound sh.tables ∧ ctrl.Covered sh.log) := by
  apply (sound_outline policy).extend
  · intro i sh ctrl a sh' ctrl' _ hl hx hv _ ha
    have hm := workerStep_move ha
    exact ⟨hm.rowsExecuted hl hv hx, hm.covered hl hv hx⟩
  · intro i j sh ctrl a sh' ctrl' l _ _ _ _ _ _ hv _ ha
    obtain ⟨more, hm⟩ := (workerStep_move ha).log_grows
    exact hm ▸ hv.append

theorem completed_run_skipped_nothing (policy : LockPolicy ι) (es : List (ι × Action))
    {c : System ι} (h : runSystem policy (System.start Tables.empty) es = some c) {w : ι}
    {s : Session} (hw : (c.locals w).completing = some s) {i : Nat} {step : Step}
    (hi : s.call.plan.steps[i]? = some step) :
    Executed c.shared.log s.call.runId step.name i := by
  have hstart : Holds (fun sh : Shared ι => sh.tables.Sound ∧ RowsExecuted sh)
      (fun _ sh ctrl => ctrl.Sound sh.tables ∧ ctrl.Covered sh.log)
      (System.start Tables.empty) := by
    refine ⟨⟨empty_sound, ?_⟩, fun _ => ⟨trivial, trivial⟩⟩
    intro runId row hrow
    cases hrow
  have hd := (covered_outline policy).run hstart h
  have hc := (hd.2 w).2
  obtain ⟨error, reraise, he⟩ := completing_eq_some hw
  rw [he] at hc
  exact hc rfl i (List.getElem?_eq_some_iff.mp hi).1 step hi

end Moves

def resumedCharge : List (Bool × Action) :=
  (true, submits) :: turns true (opens ++ charges "first" ++ [.die]) ++
    turns false (opens ++ notifies "first")

theorem completed_run_skipped_nothing_resumed :
    ∃ (c : System Bool) (s : Session),
      runSystem noLock (System.start Tables.empty) resumedCharge = some c ∧
      (c.locals false).completing = some s ∧
      ∃ step, s.call.plan.steps[0]? = some step ∧
        Executed c.shared.log s.call.runId step.name 0 := by
  have h : ((runSystem noLock (System.start Tables.empty) resumedCharge).any fun c =>
      (c.locals false).completing.any fun s => s.call.plan.steps[0]?.isSome) = true := by decide +kernel
  obtain ⟨c, hc, hq⟩ := (Option.any_eq_true _ _).mp h
  obtain ⟨s, hs, hq⟩ := (Option.any_eq_true _ _).mp hq
  obtain ⟨step, hstep⟩ := Option.isSome_iff_exists.mp hq
  exact ⟨c, s, hc, hs, step, hstep, completed_run_skipped_nothing noLock _ hc hs hstep⟩

end DurableAgent
