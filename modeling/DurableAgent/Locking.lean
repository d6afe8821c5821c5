import DurableAgent.Completion

namespace DurableAgent

open FirstWriter Interleaving

variable {ι : Type}

-- the controls inside the `with` block from which a table of the run may still be written
def Control.working : Control → Option Session
  | .starting s => some s
  | .calling s _ => some s
  | .handling s _ => some s
  | .appending s _ _ _ => some s
  | .settling s _ _ _ => some s
  | _ => none

def Control.engaged : Control → Option Session
  | .locking s => some s
  | ctrl => ctrl.working

structure Tables.Untouched (t t' : Tables) (runId : String) : Prop where
  rows : t'.rowsOf runId = t.rowsOf runId
  row : ∀ row, t.runRow runId = some row → t'.runRow runId = some row

-- a lock that may refuse at will but never grants a key that is held
def Exclusive (policy : LockPolicy ι) : Prop := ∀ holder, policy holder true = true → holder = none

def Locked (w : ι) (sh : Shared ι) (ctrl : Control) : Prop :=
  ∀ s, ctrl.working = some s → sh.holder s.key = some w

section Working

variable {s s' : Session} {f : Frame} {ctrl ctrl' : Control}

theorem working_engaged (h : ctrl.working = some s) : ctrl.engaged = some s := by
  cases ctrl <;> first | exact h | cases h

theorem next_engaged {index : Nat} {payload : StrDict} {previous : Outputs} :
    (s.next index payload previous).engaged = some s' → s = s' := by
  apply next_cases (P := fun ctrl => ctrl.engaged = some s' → s = s')
  · intro _ h
    exact Option.some.inj h
  · intro step _ h
    exact Option.some.inj h
  · intro o h
    cases h

theorem conclude_engaged {e : Execution} {now : Datetime} :
    (conclude s f e now).engaged = some s' → s = s' := by
  apply conclude_cases (P := fun ctrl => ctrl.engaged = some s' → s = s')
  · intro o h
    cases h
  · intro status reason reraise r _ _ h
    exact Option.some.inj h
  · intro output r _ _ h
    exact Option.some.inj h

theorem after_engaged {after : AfterAppend} (h : (after.control s f).engaged = some s') :
    s = s' := by
  cases after with
  | proceed payload previous => exact next_engaged h
  | settle status reason reraise => exact Option.some.inj h

theorem inert_engaged (h : ctrl.inert = true) : ctrl.engaged = none := by
  cases ctrl <;> first | rfl | cases h

theorem inert_working (h : ctrl.inert = true) : ctrl.working = none := by
  cases ctrl <;> first | rfl | cases h

theorem Control.Sound.session {t : Tables} (h : ctrl.Sound t) (hw : ctrl.working = some s) :
    s.Sound t := by
  cases ctrl with
  | starting s => exact Option.some.inj hw ▸ h
  | calling s f => exact Option.some.inj hw ▸ h.1
  | handling s f => exact Option.some.inj hw ▸ h.1
  | appending s f r after => exact Option.some.inj hw ▸ h.1
  | settling s status error reraise => exact Option.some.inj hw ▸ h.1
  | _ => cases hw

end Working

section Moves

variable {policy : LockPolicy ι} {w : ι} {sh sh' : Shared ι} {ctrl ctrl' : Control} {a : Action}

theorem Move.working (h : Move policy w sh ctrl a sh' ctrl') {s : Session}
    (hw : ctrl'.working = some s) :
    (ctrl.working = some s ∧ sh'.holder = sh.holder) ∨
      (ctrl = .locking s ∧ a = .lock true ∧ sh' = sh.acquire w s.key) := by
  cases h with
  | rest tables log inert => rw [inert_working inert] at hw; cases hw
  | submitted inserted => cases hw
  | called => cases hw
  | snapshot load active matched => cases hw
  | granted free =>
    cases hw
    exact .inr ⟨rfl, rfl, rfl⟩
  | started writes set next =>
    rcases next with rfl | inert
    · exact .inl ⟨congrArg some (next_engaged (working_engaged hw)), rfl⟩
    · rw [inert_working inert] at hw; cases hw
  | began known => exact .inl ⟨hw, rfl⟩
  | missing unknown => exact .inl ⟨congrArg some (conclude_engaged (working_engaged hw)), rfl⟩
  | returned result => exact .inl ⟨congrArg some (conclude_engaged (working_engaged hw)), rfl⟩
  | threw result => exact .inl ⟨congrArg some (conclude_engaged (working_engaged hw)), rfl⟩
  | appended writes stored next =>
    rcases next with rfl | inert
    · exact .inl ⟨congrArg some (after_engaged (working_engaged hw)), rfl⟩
    · rw [inert_working inert] at hw; cases hw
  | settled writes set inert => rw [inert_working inert] at hw; cases hw

theorem Move.engaged (h : Move policy w sh ctrl a sh' ctrl') {s : Session}
    (hs : ctrl'.engaged = some s) :
    ctrl.engaged = some s ∨
      (ctrl = .loading s.call ∧ a = .store ∧ sh' = sh ∧
        sh.tables.load s.call.runId = some s.state ∧
        assertPlanMatchesHistory s.call.plan s.state = .ok ()) := by
  cases h with
  | rest tables log inert => rw [inert_engaged inert] at hs; cases hs
  | submitted inserted => cases hs
  | called => cases hs
  | snapshot load active matched =>
    cases hs
    exact .inr ⟨rfl, rfl, rfl, load, matched⟩
  | granted free => exact .inl hs
  | started writes set next =>
    rcases next with rfl | inert
    · exact .inl (congrArg some (next_engaged hs))
    · rw [inert_engaged inert] at hs; cases hs
  | began known => exact .inl hs
  | missing unknown => exact .inl (congrArg some (conclude_engaged hs))
  | returned result => exact .inl (congrArg some (conclude_engaged hs))
  | threw result => exact .inl (congrArg some (conclude_engaged hs))
  | appended writes stored next =>
    rcases next with rfl | inert
    · exact .inl (congrArg some (after_engaged hs))
    · rw [inert_engaged inert] at hs; cases hs
  | settled writes set inert => rw [inert_engaged inert] at hs; cases hs

theorem Move.keeps_rows (h : Move policy w sh ctrl a sh' ctrl') {runId : String}
    (hn : ∀ s f r after, ctrl = .appending s f r after → r.runId ≠ runId) :
    sh'.tables.rowsOf runId = sh.tables.rowsOf runId := by
  cases h with
  | rest tables log inert => rw [tables]
  | submitted inserted => exact Tables.rowsOf_insertRun inserted runId
  | started writes set next => exact Tables.rowsOf_setStatus set runId
  | appended writes stored next => exact Tables.rowsOf_append_ne stored (hn _ _ _ _ rfl)
  | settled writes set inert => exact Tables.rowsOf_setStatus set runId
  | _ => rfl

-- only the worker inside the `with` block of a run writes to what the tables hold of that run
theorem Move.writes_run (h : Move policy w sh ctrl a sh' ctrl') (hc : ctrl.Sound sh.tables)
    (runId : String) :
    sh.tables.Untouched sh'.tables runId ∨ ∃ s, ctrl.working = some s ∧ s.call.runId = runId := by
  by_cases hs : ∃ s, ctrl.working = some s ∧ s.call.runId = runId
  · exact .inr hs
  · have hn : ∀ s, ctrl.working = some s → s.call.runId ≠ runId := fun s hw he => hs ⟨s, hw, he⟩
    refine .inl ⟨h.keeps_rows ?_, fun row hr => ?_⟩
    · rintro s f r after rfl
      rw [hc.2.2.runId]
      exact hn s rfl
    · rcases h.run_row hr with hk | ⟨s, rfl, he, _⟩ | ⟨s, status, error, reraise, err, rfl, he, _⟩
      · exact hk
      · exact absurd he (hn s rfl)
      · exact absurd he (hn s rfl)

theorem acquire_keeps {key k : String} {v : ι} (hf : sh.holder key = none)
    (hk : sh.holder k = some v) : (sh.acquire w key).holder k = some v := by
  have hne : k ≠ key := by
    rintro rfl
    rw [hf] at hk
    cases hk
  simp [Shared.acquire, Function.update_of_ne hne, hk]

theorem perfectLock_exclusive : Exclusive (perfectLock (ι := ι)) := by
  intro holder h
  cases holder with
  | none => rfl
  | some v => cases h

theorem submit_holder {handlers : List String} {runId : String} {spec : RunSpec} {now : Nat} :
    (submit sh handlers stack runId spec now).1.holder = sh.holder := by
  unfold submit
  simp only
  split
  · rfl
  · split <;> rfl

-- a run whose key another worker holds is not written to
theorem held_untouched {v : ι} (hwv : w ≠ v) (hw : ctrl.Sound sh.tables ∧ Locked w sh ctrl)
    (h : Move policy w sh ctrl a sh' ctrl') {key runId : String} (hheld : sh.holder key = some v)
    (hkeyed : ∃ row, sh.tables.runRow runId = some row ∧ row.idempotencyKey = key) :
    sh.tables.Untouched sh'.tables runId := by
  rcases h.writes_run hw.1 runId with hu | ⟨s', hs', hid⟩
  · exact hu
  · obtain ⟨row', hr', hk'⟩ := (hw.1.session hs').keyed
    obtain ⟨row, hr, hk⟩ := hkeyed
    have heq : row' = row := by
      rw [hid] at hr'
      exact Option.some.inj (hr'.symm.trans hr)
    have hkey : s'.key = key := by rw [← hk', ← hk, heq]
    have h1 := hw.2 s' hs'
    rw [hkey, hheld] at h1
    exact absurd (Option.some.inj h1).symm hwv

theorem others_untouched {v : ι} {l : Control} (hwv : w ≠ v)
    (hw : ctrl.Sound sh.tables ∧ Locked w sh ctrl) (hv : l.Sound sh.tables ∧ Locked v sh l)
    (h : Move policy w sh ctrl a sh' ctrl') {s : Session} (hs : l.working = some s) :
    sh.tables.Untouched sh'.tables s.call.runId :=
  held_untouched hwv hw h (hv.2 s hs) (hv.1.session hs).keyed

variable [DecidableEq ι]

theorem release_keeps {key k : String} {v : ι} (hv : v ≠ w) (hk : sh.holder k = some v) :
    (sh.release w key).holder k = some v := by
  simp [Shared.release, hv, hk]

theorem buried_keeps {k : String} {v : ι} (hv : v ≠ w) (hk : sh.holder k = some v) :
    (sh.buried w).holder k = some v := by
  simp [Shared.buried, hv, hk]

theorem Performed.keeps (h : Performed w sh ctrl sh' ctrl') {k : String} {v : ι}
    (hv : v ≠ w) (hk : sh.holder k = some v) : sh'.holder k = some v := by
  cases h with
  | released => exact release_keeps hv hk
  | _ => exact hk

theorem outageEffect_keeps (hx : Exclusive policy) {k : String} {v : ι} (hv : v ≠ w)
    (hk : sh.holder k = some v) : (outageEffect policy w sh ctrl).holder k = some v := by
  apply outageEffect_cases (P := fun sh' => sh'.holder k = some v) hk
  · exact fun s _ hp => acquire_keeps (hx _ hp) hk
  · exact fun sh' ctrl' hp => hp.keeps hv hk

theorem workerStep_keeps (hx : Exclusive policy)
    (h : workerStep policy w sh ctrl a = some (sh', ctrl'))
    {k : String} {v : ι} (hv : v ≠ w) (hk : sh.holder k = some v) : sh'.holder k = some v := by
  cases workerStep_took h with
  | @submitted last handlers stack runId spec now sh' ctrl' submitted =>
    have hs : (submit sh handlers stack runId spec now).1 = sh' := congrArg Prod.fst submitted
    rw [← hs, submit_holder]
    exact hk
  | stored performed => exact performed.keeps hv hk
  | granted free => exact acquire_keeps (hx _ free) hk
  | outage failed =>
    split
    · exact outageEffect_keeps hx hv hk
    · exact hk
  | died => exact buried_keeps hv hk
  | _ => exact hk

theorem exclusive_outline (hx : Exclusive policy) (p : Shared ι → Control → Action → Prop) :
    Outline (workerStep policy) p (fun sh => sh.tables.Sound)
      (fun w sh ctrl => ctrl.Sound sh.tables ∧ Locked w sh ctrl) := by
  apply ((sound_outline policy).restrict fun _ => trivial).strengthen
  · intro i sh ctrl a sh' ctrl' _ _ hl _ ha s hs
    rcases (workerStep_move ha).working hs with ⟨hw, hh⟩ | ⟨rfl, rfl, rfl⟩
    · rw [hh]
      exact hl s hw
    · exact Function.update_self ..
  · intro i j sh ctrl a sh' ctrl' l hij _ _ _ _ hl _ ha s hs
    exact workerStep_keeps hx ha hij.symm (hl s hs)

theorem one_worker_per_key (hx : Exclusive policy) {es : List (ι × Action)} {c : System ι}
    (h : runSystem policy (System.start Tables.empty) es = some c) {v : ι} {s s' : Session}
    (hw : (c.locals w).working = some s) (hv : (c.locals v).working = some s')
    (hk : s.key = s'.key) : w = v := by
  have hstart : Holds (fun sh : Shared ι => sh.tables.Sound)
      (fun w sh ctrl => ctrl.Sound sh.tables ∧ Locked w sh ctrl)
      (System.start Tables.empty) := by
    refine ⟨empty_sound, fun _ => ⟨trivial, fun s hs => ?_⟩⟩
    cases hs
  have hd := (exclusive_outline hx _).run hstart h
  have h1 := (hd.2 w).2 s hw
  have h2 := (hd.2 v).2 s' hv
  rw [hk, h2] at h1
  exact (Option.some.inj h1).symm

-- what a worker knows of the run it holds survives every other worker's step
theorem critical_outline {p : Shared ι → Control → Action → Prop} {P : Tables → Control → Prop}
    (own : ∀ {w sh ctrl a sh' ctrl'}, sh.tables.Sound → ctrl.Sound sh.tables → P sh.tables ctrl →
      p sh ctrl a → Move (perfectLock (ι := ι)) w sh ctrl a sh' ctrl' → P sh'.tables ctrl')
    (frame : ∀ {t t' : Tables} {ctrl : Control},
      (∀ s, ctrl.working = some s → t.Untouched t' s.call.runId) → P t ctrl → P t' ctrl) :
    Outline (workerStep (perfectLock (ι := ι))) p (fun sh => sh.tables.Sound)
      (fun w sh ctrl => (ctrl.Sound sh.tables ∧ Locked w sh ctrl) ∧ P sh.tables ctrl) := by
  apply (exclusive_outline perfectLock_exclusive p).strengthen
  · intro i sh ctrl a sh' ctrl' ht hl hP hp ha
    exact own ht hl.1 hP hp (workerStep_move ha)
  · intro i j sh ctrl a sh' ctrl' l hij _ hi hj _ hP _ ha
    exact frame (fun s hs => others_untouched hij hi hj (workerStep_move ha) hs) hP

end Moves

end DurableAgent
