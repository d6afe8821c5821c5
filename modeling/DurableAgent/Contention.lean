import DurableAgent.Locking
import DurableAgent.SinglePlan

namespace DurableAgent

open FirstWriter Interleaving

variable {ι : Type}

def AtGrant (P : Tables → Session → Prop) (sh : Shared ι) : Control → Action → Prop
  | .locking s, .lock true => P sh.tables s
  | _, _ => True

instance {P : Tables → Session → Prop} [inst : ∀ t s, Decidable (P t s)] (sh : Shared ι)
    (ctrl : Control) (a : Action) : Decidable (AtGrant P sh ctrl a) := by
  unfold AtGrant
  split
  · exact inst _ _
  · exact instDecidableTrue

section Conditions

variable (t : Tables) (s : Session)

def SnapshotCurrent : Prop :=
  match t.load s.call.runId with
  | none => True
  | some state => ∀ r ∈ state.steps, r.outcome = .failed ∨ r.index < s.state.nextIndex

def StillActive : Prop :=
  match t.load s.call.runId with
  | none => True
  | some state => state.status.isTerminal = false

def StillMatches : Prop :=
  match t.load s.call.runId with
  | none => True
  | some state => ∀ r ∈ state.steps, planMismatch s.call.plan state.runId r = none

instance : Decidable (SnapshotCurrent t s) := by
  unfold SnapshotCurrent
  split <;> infer_instance

instance : Decidable (StillActive t s) := by
  unfold StillActive
  split <;> infer_instance

instance : Decidable (StillMatches t s) := by
  unfold StillMatches
  split <;> infer_instance

end Conditions

def begins [DecidableEq ι] (policy : LockPolicy ι) (c : System ι) (w : ι) :
    Option (Session × Frame) :=
  match workerStep policy w c.shared (c.locals w) .begin with
  | some (_, .handling s f) => some (s, f)
  | _ => none

theorem begins_calling [DecidableEq ι] {policy : LockPolicy ι} {c : System ι} {w : ι}
    {s : Session} {f : Frame} (h : begins policy c w = some (s, f)) :
    c.locals w = .calling s f := by
  unfold begins at h
  split at h
  · rename_i sh s' f' hs
    cases h
    have hm := workerStep_move hs
    generalize c.locals w = ctrl at hm
    cases hm with
    | rest tables log inert => cases inert
    | began known => rfl
    | started writes set next => cases writes
    | appended writes stored next => cases writes
    | settled writes set inert => cases writes
  · cases h

def UndoneFrom (t : Tables) (s : Session) (n : Nat) : Prop :=
  ∀ row ∈ t.rowsOf s.call.runId, row.outcome = .failed ∨ row.stepIndex < n

def Control.Undone (t : Tables) : Control → Prop
  | .starting s => UndoneFrom t s s.state.nextIndex
  | .calling s f => UndoneFrom t s f.index
  | .handling s f => UndoneFrom t s f.index
  | .appending s f _ _ => UndoneFrom t s f.index
  | _ => True

def Control.Matches (t : Tables) (ctrl : Control) : Prop :=
  ∀ s, ctrl.working = some s → PlanRows t s.call.runId s.call.plan

def Control.Live (t : Tables) (ctrl : Control) : Prop :=
  ∀ s, ctrl.working = some s → ∃ row, t.runRow s.call.runId = some row ∧
    row.status.isTerminal = false

section Steps

variable {policy : LockPolicy ι} {w : ι} {sh sh' : Shared ι} {ctrl ctrl' : Control} {a : Action}
  {t t' : Tables} {s : Session} {f : Frame}

theorem Session.Sound.load (h : s.Sound t) :
    ∃ row, t.runRow s.call.runId = some row ∧ t.load s.call.runId = some (t.hydrate row) ∧
      row.runId = s.call.runId := by
  obtain ⟨row, hr, _⟩ := h.keyed
  exact ⟨row, hr, by rw [Tables.load, hr, Option.map_some], Tables.runRow_runId hr⟩

theorem mem_loaded_steps (h : s.Sound t) {state : RunState}
    (hl : t.load s.call.runId = some state) {row : StepRow} (hr : row ∈ t.rowsOf s.call.runId) :
    Tables.hydrateStep row ∈ state.steps := by
  obtain ⟨r, _, he, hid⟩ := h.load
  have hs : state = t.hydrate r := Option.some.inj (hl.symm.trans he)
  rw [hs]
  exact Tables.mem_hydrate_steps.mpr ⟨row, hid ▸ hr, rfl⟩

theorem snapshotCurrent_undone (h : s.Sound t) (hc : SnapshotCurrent t s) :
    UndoneFrom t s s.state.nextIndex := by
  intro row hr
  obtain ⟨r, _, he, _⟩ := h.load
  simp only [SnapshotCurrent, he] at hc
  exact hc _ (mem_loaded_steps h he hr)

theorem stillMatches_rows (h : s.Sound t) (hc : StillMatches t s) : PlanRows t s.call.runId s.call.plan := by
  intro row hr
  obtain ⟨r, _, he, _⟩ := h.load
  simp only [StillMatches, he] at hc
  exact planMismatch_eq_none.mp (hc _ (mem_loaded_steps h he hr))

theorem stillActive_live (h : s.Sound t) (hc : StillActive t s) :
    ∃ row, t.runRow s.call.runId = some row ∧ row.status.isTerminal = false := by
  obtain ⟨row, hr, he, _⟩ := h.load
  simp only [StillActive, he] at hc
  exact ⟨row, hr, hc⟩

theorem next_undone {n : Nat} (h : UndoneFrom t s n) (payload : StrDict) (previous : Outputs) :
    (s.next n payload previous).Undone t := by
  apply next_cases
  · intro _
    trivial
  · intro step _
    exact h
  · intro o
    trivial

theorem conclude_undone (h : UndoneFrom t s f.index) (e : Execution) (now : Datetime) :
    (conclude s f e now).Undone t := by
  apply conclude_cases
  · intro o
    trivial
  · intro status reason reraise r _ _
    exact h
  · intro output r _ _
    exact h

theorem inert_undone (h : ctrl.inert = true) : ctrl.Undone t := by
  cases ctrl <;> trivial

theorem Move.undone (h : Move policy w sh ctrl a sh' ctrl')
    (hc : ctrl.Sound sh.tables) (hu : ctrl.Undone sh.tables)
    (hp : AtGrant SnapshotCurrent sh ctrl a) : ctrl'.Undone sh'.tables := by
  have rows := @h.new_row
  cases h with
  | rest tables log inert => exact inert_undone inert
  | submitted inserted => trivial
  | called => trivial
  | snapshot load active matched => trivial
  | granted free => exact snapshotCurrent_undone hc hp
  | @started s a t ctrl' writes set next =>
    rcases next with rfl | inert
    · apply next_undone
      intro row hr
      rw [Tables.rowsOf_setStatus set] at hr
      exact hu row hr
    · exact inert_undone inert
  | began known => exact hu
  | missing unknown => exact conclude_undone hu _ _
  | returned result => exact conclude_undone hu _ _
  | threw result => exact conclude_undone hu _ _
  | @appended s f r after a t ctrl' writes stored next =>
    rcases next with rfl | inert
    · cases after with
      | proceed payload previous =>
        apply next_undone
        intro row hr
        rcases rows hr with hold | ⟨s', f', r', _, output, heq, _, _, rfl, _⟩
        · rcases hu row hold with hf | hlt
          · exact .inl hf
          · exact .inr (Nat.lt_succ_of_lt hlt)
        · cases heq
          exact .inr (Nat.lt_succ_of_le (Nat.le_of_eq hc.2.2.index))
      | settle status reason reraise => trivial
    · exact inert_undone inert
  | settled writes set inert => exact inert_undone inert

theorem Move.matches (h : Move policy w sh ctrl a sh' ctrl')
    (hc : ctrl.Sound sh.tables) (hm : ctrl.Matches sh.tables)
    (hp : AtGrant StillMatches sh ctrl a) : ctrl'.Matches sh'.tables := by
  intro s hs row hr
  rcases h.working hs with ⟨hw, _⟩ | ⟨rfl, rfl, rfl⟩
  · rcases h.new_row hr with hold | ⟨s', f, r, after, output, rfl, _, _, rfl, _⟩
    · exact hm s hw row hold
    · cases hw
      have hi : s.call.plan.steps[r.index]? = some f.step := by
        rw [hc.2.2.index]
        exact hc.2.1.step
      exact ⟨f.step, hi, hc.2.2.name.symm⟩
  · exact stillMatches_rows hc hp row hr

theorem Move.live (h : Move policy w sh ctrl a sh' ctrl')
    (hc : ctrl.Sound sh.tables) (hl : ctrl.Live sh.tables)
    (hp : AtGrant StillActive sh ctrl a) : ctrl'.Live sh'.tables := by
  intro s hs
  rcases h.working hs with ⟨hw, _⟩ | ⟨rfl, rfl, rfl⟩
  · obtain ⟨row, hr, ha⟩ := hl s hw
    rcases h.run_row hr with hk | ⟨s', _, _, hk⟩ | ⟨s', status, error, reraise, err, _, _, _, hi, _⟩
    · exact ⟨row, hk, ha⟩
    · exact ⟨_, hk, rfl⟩
    · rw [inert_working hi] at hs
      cases hs
  · exact stillActive_live hc hp

theorem Move.final (h : Move policy w sh ctrl a sh' ctrl')
    (hl : ctrl.Live sh.tables) {runId : String} {row : RunRow}
    (hr : sh.tables.runRow runId = some row) (ht : row.status.isTerminal = true) :
    sh'.tables.runRow runId = some row := by
  have idle : ∀ s, ctrl.working = some s → s.call.runId ≠ runId := by
    intro s hs he
    obtain ⟨row', hr', ha⟩ := hl s hs
    rw [he, hr] at hr'
    cases hr'
    rw [ht] at ha
    cases ha
  rcases h.run_row hr with hk | ⟨s, rfl, he, _⟩ | ⟨s, status, error, reraise, err, rfl, he, _⟩
  · exact hk
  · exact absurd he (idle s rfl)
  · exact absurd he (idle s rfl)

end Steps

section Frames

variable {t t' : Tables} {ctrl : Control}
  (hu : ∀ s, ctrl.working = some s → t.Untouched t' s.call.runId)

include hu

theorem undone_frame (h : ctrl.Undone t) : ctrl.Undone t' := by
  have keep : ∀ s n, ctrl.working = some s → UndoneFrom t s n → UndoneFrom t' s n := by
    intro s n hs hn row hr
    rw [(hu s hs).rows] at hr
    exact hn row hr
  cases ctrl with
  | starting s => exact keep s _ rfl h
  | calling s f => exact keep s _ rfl h
  | handling s f => exact keep s _ rfl h
  | appending s f r after => exact keep s _ rfl h
  | _ => trivial

theorem matches_frame (h : ctrl.Matches t) : ctrl.Matches t' := by
  intro s hs row hr
  rw [(hu s hs).rows] at hr
  exact h s hs row hr

theorem live_frame (h : ctrl.Live t) : ctrl.Live t' := by
  intro s hs
  obtain ⟨row, hr, ha⟩ := h s hs
  exact ⟨row, (hu s hs).row row hr, ha⟩

end Frames

section Runs

theorem start_critical {P : Tables → Control → Prop}
    (hP : P Tables.empty (.atRest none)) :
    Holds (fun sh : Shared ι => sh.tables.Sound)
      (fun w sh ctrl => (ctrl.Sound sh.tables ∧ Locked w sh ctrl) ∧ P sh.tables ctrl)
      (System.start Tables.empty) := by
  refine ⟨empty_sound, fun _ => ⟨⟨trivial, fun s hs => ?_⟩, hP⟩⟩
  cases hs

variable [DecidableEq ι]

def RepeatsNothing (policy : LockPolicy ι) (c : System ι) : Prop :=
  ∀ w s f, begins policy c w = some (s, f) → ∀ row ∈ c.shared.tables.rowsOf s.call.runId,
    row.stepIndex = f.index → row.outcome = .failed

def staleCharge : List (Bool × Action) :=
  (true, submits) :: turns false [.call chargeCall, .store] ++
    turns true (opens ++ charges "first" ++ [.die]) ++ turns false [.lock true, .store]

theorem stale_snapshot_repeats_work :
    ¬ ∀ (es : List (Bool × Action)) (c : System Bool),
      (∀ e ∈ es, e.2.Calls (PlanFor "run" chargePlan)) →
      runSystem perfectLock (System.start Tables.empty) es = some c →
      RepeatsNothing perfectLock c := by
  intro h
  have hs : ((runSystem perfectLock (System.start Tables.empty) staleCharge).any fun c =>
      (begins perfectLock c false).any fun sf =>
        (c.shared.tables.rowsOf sf.1.call.runId).any fun row =>
          row.stepIndex = sf.2.index ∧ row.outcome = .ok) = true := by decide +kernel
  obtain ⟨c, hc, hq⟩ := (Option.any_eq_true _ _).mp hs
  have hr := h staleCharge c (by decide +kernel) hc false
  cases hb : begins perfectLock c false with
  | none => simp [hb] at hq
  | some sf =>
    simp only [hb, Option.any_some, List.any_eq_true, decide_eq_true_eq] at hq
    obtain ⟨row, hrow, hi, ho⟩ := hq
    have hf := hr sf.1 sf.2 hb row hrow hi
    rw [ho] at hf
    cases hf

theorem no_repeated_work (es : List (ι × Action)) {c : System ι}
    (hp : alongSystem perfectLock (AtGrant SnapshotCurrent) (System.start Tables.empty) es)
    (h : runSystem perfectLock (System.start Tables.empty) es = some c) :
    RepeatsNothing perfectLock c := by
  have ho := critical_outline (ι := ι) (p := AtGrant SnapshotCurrent)
    (fun _ hc hu hp hm => hm.undone hc hu hp) undone_frame
  have hd := ho.run_along (start_critical trivial) hp h
  intro w s f hb row hr hi
  have hu := (hd.2 w).2
  rw [begins_calling hb] at hu
  rcases hu row hr with hf | hlt
  · exact hf
  · omega

def resumedUnderLock : List (Bool × Action) :=
  (true, submits) :: turns true (opens ++ charges "first") ++
    turns false [.call chargeCall, .store, .lock false] ++ turns true [.die] ++ turns false opens

theorem no_repeated_work_resumed :
    ∃ c : System Bool, runSystem perfectLock (System.start Tables.empty) resumedUnderLock = some c ∧
      alongSystem perfectLock (AtGrant SnapshotCurrent) (System.start Tables.empty)
        resumedUnderLock ∧ RepeatsNothing perfectLock c := by
  have hp : alongSystem perfectLock (AtGrant SnapshotCurrent) (System.start Tables.empty)
    resumedUnderLock := by decide +kernel
  have hr : (runSystem perfectLock (System.start Tables.empty) resumedUnderLock).isSome = true := by
    decide
  obtain ⟨c, hc⟩ := Option.isSome_iff_exists.mp hr
  exact ⟨c, hc, hp, no_repeated_work _ hp hc⟩

def Final (c d : System ι) : Prop :=
  ∀ runId row, c.shared.tables.runRow runId = some row → row.status.isTerminal = true →
    ∃ row', d.shared.tables.runRow runId = some row' ∧ row'.status = row.status ∧
      row'.error = row.error

def Control.statusWrite : Control → Option (String × RunStatus × Option PyStr)
  | .starting s => some (s.call.runId, .running, none)
  | .settling s status error _ => some (s.call.runId, status, error)
  | _ => none

def ViolatesNoIndex (c : System ι) : Prop :=
  ∀ w runId status error, (c.locals w).statusWrite = some (runId, status, error) →
    c.shared.tables.setStatus runId status error ≠ .error .integrityError

theorem live_no_clash {t : Tables} (ht : t.WellFormed) {runId : String} {row : RunRow}
    (hr : t.runRow runId = some row) (ha : row.status.isTerminal = false) :
    t.activeClash runId row.idempotencyKey = false := by
  by_contra hc
  rw [Bool.not_eq_false, Tables.activeClash_eq_true] at hc
  obtain ⟨r, hmem, hne, hk, hact⟩ := hc
  have hrow : row.active = true := by rw [RunRow.active_eq, ha]; rfl
  have hid := ht.oneActive r hmem row (Tables.runRow_mem hr) hk hact hrow
  exact hne (hid.trans (Tables.runRow_runId hr))

theorem statusWrite_no_clash {t : Tables} (ht : t.Sound) {ctrl : Control} (hc : ctrl.Sound t)
    (hl : ctrl.Live t) {runId : String} {status : RunStatus} {error : Option PyStr}
    (hw : ctrl.statusWrite = some (runId, status, error)) :
    t.setStatus runId status error ≠ .error .integrityError := by
  intro hv
  obtain ⟨row, hr, ha, hclash⟩ := Tables.setStatus_integrity hv
  cases ctrl with
  | starting s =>
    cases hw
    obtain ⟨row', hr', ha'⟩ := hl s rfl
    cases hr.symm.trans hr'
    rw [live_no_clash ht.wellFormed hr ha'] at hclash
    cases hclash
  | settling s status' error' reraise =>
    cases hw
    have hterm := hc.2.1
    rw [ha] at hterm
    cases hterm
  | _ => cases hw

def lateGrant : List (Bool × Action) :=
  (true, submits) :: turns false [.call chargeCall, .store] ++
    turns true (opens ++ charges "first" ++ notifies "first" ++ closes)

theorem late_grant_reopens :
    ¬ ∀ (es es' : List (Bool × Action)) (c d : System Bool),
      (∀ e ∈ es ++ es', e.2.uninterrupted = true) →
      runSystem perfectLock (System.start Tables.empty) es = some c →
      runSystem perfectLock c es' = some d → Final c d ∧ ViolatesNoIndex d := by
  intro h
  have hr : (runSystem perfectLock (System.start Tables.empty)
      (lateGrant ++ turns false [.lock true, .store])).isSome = true := by decide +kernel
  obtain ⟨c, d, hc, hd⟩ := run_split hr
  have hcd := Transition.run_append.mpr ⟨c, hc, hd⟩
  have hf := (h _ _ c d (by decide +kernel) hc hd).1
  have hq : (c.shared.tables.runRow "run").any (fun row => row.status = .completed) = true :=
    run_all (q := fun c => (c.shared.tables.runRow "run").any fun row => row.status = .completed)
      (by decide +kernel) hc
  have hq' : (d.shared.tables.runRow "run").any (fun row => row.status = .running) = true :=
    run_all (q := fun c => (c.shared.tables.runRow "run").any fun row => row.status = .running)
      (by decide +kernel) hcd
  cases hrow : c.shared.tables.runRow "run" with
  | none => simp [hrow] at hq
  | some row =>
    simp only [hrow, Option.any_some, decide_eq_true_eq] at hq
    obtain ⟨row', hrow', hs, _⟩ := hf "run" row hrow (by rw [hq]; rfl)
    simp only [hrow', Option.any_some, decide_eq_true_eq] at hq'
    rw [hq', hq] at hs
    cases hs

theorem terminal_states_final (es es' : List (ι × Action)) {c d : System ι}
    (hp : alongSystem perfectLock (AtGrant StillActive) (System.start Tables.empty) (es ++ es'))
    (hc : runSystem perfectLock (System.start Tables.empty) es = some c)
    (hd : runSystem perfectLock c es' = some d) : Final c d ∧ ViolatesNoIndex d := by
  have ho := critical_outline (ι := ι) (p := AtGrant StillActive)
    (fun _ hc hl hp hm => hm.live hc hl hp) live_frame
  have hs := start_critical (ι := ι) (P := fun t ctrl => ctrl.Live t) (fun s hs => by cases hs)
  have hpc := Transition.along_append.mp hp
  have hhc := ho.run_along hs hpc.1 hc
  constructor
  · intro runId row hr ht
    have hf : Outline (workerStep perfectLock) (AtGrant StillActive)
        (fun sh : Shared ι => sh.tables.Sound ∧ sh.tables.runRow runId = some row) _ :=
      ho.share fun _ hl hr _ ha => (workerStep_move ha).final hl.2 hr ht
    have hhd := hf.run_along ⟨⟨hhc.1, hr⟩, hhc.2⟩ (hpc.2 c hc) hd
    exact ⟨row, hhd.1.2, rfl, rfl⟩
  · intro w runId status error hw
    have hhd := ho.run_along hhc (hpc.2 c hc) hd
    exact statusWrite_no_clash hhd.1 (hhd.2 w).1.1 (hhd.2 w).2 hw

theorem terminal_states_final_refused :
    ∃ c d : System Bool,
      runSystem perfectLock (System.start Tables.empty)
        ((true, submits) :: turns true opens ++ turns false [.call chargeCall, .store] ++
          turns true (charges "first" ++ notifies "first" ++ closes)) = some c ∧
      runSystem perfectLock c (turns true [.call chargeCall, .store]) = some d ∧
      Final c d ∧ ViolatesNoIndex d := by
  have hr : (runSystem perfectLock (System.start Tables.empty)
      (((true, submits) :: turns true opens ++ turns false [.call chargeCall, .store] ++
        turns true (charges "first" ++ notifies "first" ++ closes)) ++
        turns true [.call chargeCall, .store])).isSome = true := by decide +kernel
  obtain ⟨c, d, hc, hd⟩ := run_split hr
  exact ⟨c, d, hc, hd, terminal_states_final _ _ (by decide +kernel) hc hd⟩

def MixesNoPlans (policy : LockPolicy ι) (c : System ι) : Prop :=
  (∀ w s f, begins policy c w = some (s, f) → ∀ row ∈ c.shared.tables.rowsOf s.call.runId,
    row.stepIndex = f.index → row.name = f.step.name) ∧
  ∀ w s, (c.locals w).completing = some s → ∀ row ∈ c.shared.tables.rowsOf s.call.runId,
    ∃ step, s.call.plan.steps[row.stepIndex]? = some step ∧ step.name = row.name

def staleDeploy : List (Bool × Action) :=
  (true, submits) :: turns false [.call ⟨["notify"], "run", notifyPlan, none, 900⟩, .store] ++
    turns true (opens ++ charges "first" ++ [.die]) ++ turns false [.lock true, .store]

theorem stale_deploy_mixes :
    ¬ ∀ (es : List (Bool × Action)) (c : System Bool),
      runSystem perfectLock (System.start Tables.empty) es = some c →
      MixesNoPlans perfectLock c := by
  intro h
  have hs : ((runSystem perfectLock (System.start Tables.empty) staleDeploy).any fun c =>
      (begins perfectLock c false).any fun sf =>
        (c.shared.tables.rowsOf sf.1.call.runId).any fun row =>
          row.stepIndex = sf.2.index ∧ row.name ≠ sf.2.step.name) = true := by decide +kernel
  obtain ⟨c, hc, hq⟩ := (Option.any_eq_true _ _).mp hs
  have hr := (h staleDeploy c hc).1 false
  obtain ⟨sf, hb, hq⟩ := (Option.any_eq_true _ _).mp hq
  simp only [List.any_eq_true, decide_eq_true_eq] at hq
  obtain ⟨row, hrow, hi, hn⟩ := hq
  exact hn (hr sf.1 sf.2 hb row hrow hi)

theorem deploys_never_mix (es : List (ι × Action)) {c : System ι}
    (hp : alongSystem perfectLock (AtGrant StillMatches) (System.start Tables.empty) es)
    (h : runSystem perfectLock (System.start Tables.empty) es = some c) :
    MixesNoPlans perfectLock c := by
  have ho := critical_outline (ι := ι) (p := AtGrant StillMatches)
    (fun _ hc hm hp h => h.matches hc hm hp) matches_frame
  have hd := ho.run_along (start_critical (fun s hs => by cases hs)) hp h
  constructor
  · intro w s f hb row hr hi
    have hl := hd.2 w
    rw [begins_calling hb] at hl
    obtain ⟨step, hs, hn⟩ := hl.2 s rfl row hr
    have hf := hl.1.1.2.step
    rw [hi, hf] at hs
    cases hs
    exact hn.symm
  · intro w s hs row hr
    have hl := (hd.2 w).2
    obtain ⟨error, reraise, he⟩ := completing_eq_some hs
    rw [he] at hl
    exact hl s rfl row hr

theorem deploys_never_mix_resumed :
    ∃ c : System Bool,
      runSystem perfectLock (System.start Tables.empty)
        ((true, submits) :: turns true (opens ++ charges "first" ++ [.die]) ++
          turns false opens) = some c ∧ MixesNoPlans perfectLock c := by
  have hr : (runSystem perfectLock (System.start Tables.empty)
      ((true, submits) :: turns true (opens ++ charges "first" ++ [.die]) ++
        turns false opens)).isSome = true := by decide +kernel
  obtain ⟨c, hc⟩ := Option.isSome_iff_exists.mp hr
  exact ⟨c, hc, deploys_never_mix _ (by decide +kernel) hc⟩

end Runs

end DurableAgent
