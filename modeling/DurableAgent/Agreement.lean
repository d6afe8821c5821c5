import DurableAgent.Sequential

namespace DurableAgent

open FirstWriter Interleaving

variable {ι : Type}

structure StatusAgrees (plan : Plan) (state : RunState) : Prop where
  completed : state.status = .completed →
    state.steps.map StepRecord.index = List.range plan.steps.length ∧
    (∀ r ∈ state.steps, r.outcome ≠ .failed) ∧ state.error = none
  ended : state.status = .failed ∨ state.status = .escalated →
    ∃ good bad error, state.steps = good ++ [bad] ∧
      good.map StepRecord.index = List.range good.length ∧ (∀ r ∈ good, r.outcome ≠ .failed) ∧
      bad.index = good.length ∧ bad.outcome = .failed ∧ state.error = some error ∧
      Dict.get? bad.output (.ofString "error") = some (.str (.ofString error))

def RepeatsFailure (sh : Shared ι) : Control → Action → Prop
  | .appending _ _ r _, a =>
      match a.writes, (sh.tables.rowsOf r.runId).find? fun row => row.stepIndex = r.index with
      | true, some row => row.outcome = .failed → r.outcome = .failed ∧
          (toJsonObject r.output).map loadsObject = some (Tables.hydrateStep row).output
      | _, _ => True
  | _, _ => True

-- a record that is ignored, and the row of its index
def Control.ignored (sh : Shared ι) : Control → Action → Option (StepRecord × StepRow)
  | .appending _ _ r _, a =>
      if a.writes then
        ((sh.tables.rowsOf r.runId).find? fun row => row.stepIndex = r.index).map fun row => (r, row)
      else none
  | _, _ => none

theorem repeatsFailure_iff {sh : Shared ι} {ctrl : Control} {a : Action} :
    RepeatsFailure sh ctrl a ↔ ∀ x ∈ ctrl.ignored sh a, x.2.outcome = .failed →
      x.1.outcome = .failed ∧
        (toJsonObject x.1.output).map loadsObject = some (Tables.hydrateStep x.2).output := by
  unfold RepeatsFailure Control.ignored
  split
  · rename_i r _
    cases a.writes <;>
      cases (sh.tables.rowsOf r.runId).find? (fun row => row.stepIndex = r.index) <;> simp
  · simp

instance (sh : Shared ι) (ctrl : Control) (a : Action) : Decidable (RepeatsFailure sh ctrl a) :=
  decidable_of_iff _ repeatsFailure_iff.symm

-- `n` successes, and behind them at most the failure of step `n`
structure Front (rows : List StepRow) (n : Nat) : Prop where
  reached : n ≤ rows.length
  good : ∀ row ∈ rows, row.stepIndex < n → row.outcome ≠ .failed
  rest : ∀ row ∈ rows, n ≤ row.stepIndex → row.stepIndex = n ∧ row.outcome = .failed

def FailedAt (rows : List StepRow) (n : Nat) (output : StrDict) : Prop :=
  ∃ bad ∈ rows, bad.stepIndex = n ∧ (Tables.hydrateStep bad).output = output

def Verdict (t : Tables) (runId : String) (plan : Plan) : Prop :=
  ∀ row, t.runRow runId = some row →
    (row.status = .completed → Front (t.rowsOf runId) plan.steps.length ∧ row.error = none) ∧
    (row.status = .failed ∨ row.status = .escalated → ∃ n error, Front (t.rowsOf runId) n ∧
      row.error = some error ∧
      FailedAt (t.rowsOf runId) n [(.ofString "error", .str (.ofString error))])

def Control.Accounts (t : Tables) (runId : String) (plan : Plan) : Control → Prop
  | .calling s f => s.call.runId = runId → Front (t.rowsOf runId) f.index
  | .handling s f => s.call.runId = runId → Front (t.rowsOf runId) f.index
  | .appending s f _ _ => s.call.runId = runId → Front (t.rowsOf runId) f.index
  | .settling s status error _ => s.call.runId = runId →
      (status = .completed → Front (t.rowsOf runId) plan.steps.length) ∧
      (status ≠ .completed → ∃ n reason, Front (t.rowsOf runId) n ∧ error = some reason ∧
        FailedAt (t.rowsOf runId) n [(.ofString "error", .str reason.joined)])
  | _ => True

section Front

variable {rows : List StepRow} {row : StepRow} {n : Nat}

theorem Front.append_ok (h : Front rows n) (hlen : n = rows.length)
    (hn : FirstWriter.Numbered StepRow.stepIndex rows) (hi : row.stepIndex = n)
    (ho : row.outcome ≠ .failed) : Front (rows ++ [row]) (n + 1) := by
  constructor
  · simp [hlen]
  · intro x hx hlt
    rcases List.mem_append.mp hx with hold | hnew
    · have hxn := hn.idx_lt hold
      exact h.good x hold (hlen ▸ hxn)
    · rw [List.mem_singleton.mp hnew]
      exact ho
  · intro x hx hle
    rcases List.mem_append.mp hx with hold | hnew
    · have hxn := hn.idx_lt hold
      omega
    · rw [List.mem_singleton.mp hnew] at hle
      omega

theorem Front.append_failed (h : Front rows n) (hlen : n = rows.length)
    (hi : row.stepIndex = n) (ho : row.outcome = .failed) : Front (rows ++ [row]) n := by
  constructor
  · rw [List.length_append]
    omega
  · intro x hx hlt
    rcases List.mem_append.mp hx with hold | hnew
    · exact h.good x hold hlt
    · rw [List.mem_singleton.mp hnew] at hlt
      omega
  · intro x hx hle
    rcases List.mem_append.mp hx with hold | hnew
    · exact h.rest x hold hle
    · rw [List.mem_singleton.mp hnew]
      exact ⟨hi, ho⟩

theorem Front.length_le (h : Front rows n) (hn : FirstWriter.Numbered StepRow.stepIndex rows) :
    rows.length ≤ n + 1 := by
  by_contra hlt
  have hi : n + 1 < rows.length := by omega
  obtain ⟨row, hrow, he⟩ := List.mem_map.mp (hn.mem_map_iff.mpr hi)
  have hr := (h.rest row hrow (by omega)).1
  omega

theorem planRows_length {t : Tables} {runId : String} {plan : Plan} (hn : t.Numbered)
    (hr : PlanRows t runId plan) : (t.rowsOf runId).length ≤ plan.steps.length := by
  by_contra hlt
  obtain ⟨row, hrow, he⟩ := List.mem_map.mp ((hn runId).mem_map_iff.mpr (Nat.lt_of_not_le hlt))
  obtain ⟨step, hs, _⟩ := hr row hrow
  have hi := (List.getElem?_eq_some_iff.mp hs).1
  omega

theorem Front.full {t : Tables} {runId : String} {plan : Plan} (hn : t.Numbered)
    (hr : PlanRows t runId plan) (h : Front (t.rowsOf runId) n) (hle : plan.steps.length ≤ n) :
    Front (t.rowsOf runId) plan.steps.length := by
  have hlen := planRows_length hn hr
  have hreach := h.reached
  have heq : n = plan.steps.length := by omega
  exact heq ▸ h

theorem Front.nextIndex {t : Tables} {run : RunRow} (hn : t.Numbered)
    (h : Front (t.rowsOf run.runId) n) : (t.hydrate run).nextIndex = n := by
  apply FirstGap.firstGap_eq
  · intro hmem
    obtain ⟨r, hr, hi⟩ := List.mem_map.mp hmem
    obtain ⟨hrm, ho⟩ := List.mem_filter.mp hr
    obtain ⟨row, hrow, rfl⟩ := Tables.mem_hydrate_steps.mp hrm
    have hf := (h.rest row hrow (Nat.le_of_eq hi.symm)).2
    simp [Tables.hydrateStep, hf] at ho
  · intro j hj
    have hlt := hj.trans_le h.reached
    obtain ⟨row, hrow, rfl⟩ := List.mem_map.mp ((hn run.runId).mem_map_iff.mpr hlt)
    have hg := h.good row hrow hj
    refine List.mem_map.mpr ⟨Tables.hydrateStep row, List.mem_filter.mpr ⟨?_, ?_⟩, rfl⟩
    · exact Tables.mem_hydrate_steps.mpr ⟨row, hrow, rfl⟩
    · exact decide_eq_true hg

end Front

section Moves

variable {policy : LockPolicy ι} {w : ι} {sh sh' : Shared ι} {ctrl ctrl' : Control} {a : Action}
  {runId : String} {plan : Plan}

theorem loads_errorOutput (reason : PyStr) :
    (toJsonObject [(.ofString "error", .str reason)]).map loadsObject =
      some [(.ofString "error", .str reason.joined)] := by
  simp [toJsonObject, toJson, loadsObject, loads, Dict.ofPairs, Dict.set]

theorem appended_front {s : Session} {f : Frame} {r : StepRecord} {after : AfterAppend}
    {t : Tables} (ht : sh.tables.Sound) (hs : (Control.appending s f r after).Sound sh.tables)
    (hf : Front (sh.tables.rowsOf r.runId) r.index)
    (hp : RepeatsFailure sh (.appending s f r after) a) (writes : a.writes = true)
    (stored : sh.tables.append s.call.stack r = .ok t) :
    (r.outcome ≠ .failed → Front (t.rowsOf r.runId) (r.index + 1)) ∧
    (r.outcome = .failed → Front (t.rowsOf r.runId) r.index ∧
      ∃ output, (toJsonObject r.output).map loadsObject = some output ∧
        FailedAt (t.rowsOf r.runId) r.index output) := by
  rcases append_cases (f.context s) ht.numbered (appending_reached hs) stored with
    ⟨hlt, hrows, _⟩ | ⟨output, ho, hlen, hrows, _⟩
  · -- the row that makes the append a no-op is the failure of this very step
    obtain ⟨row, hfind, hrow, hi⟩ := find_row ht.numbered hlt
    have hfail := (hf.rest row hrow (Nat.le_of_eq hi.symm)).2
    simp only [RepeatsFailure, writes, hfind] at hp
    have hrep := hp hfail
    rw [hrows]
    exact ⟨fun hne => absurd hrep.1 hne, fun _ => ⟨hf, _, hrep.2, row, hrow, hi, rfl⟩⟩
  · rw [hrows]
    constructor
    · intro hne
      exact hf.append_ok hlen (ht.numbered r.runId) rfl hne
    · intro he
      refine ⟨hf.append_failed hlen rfl he, loadsObject output, by rw [ho, Option.map_some], ?_⟩
      exact ⟨r.row output, by simp, rfl, rfl⟩

theorem next_accounts {t : Tables} {s : Session} {n : Nat} (hn : t.Numbered)
    (hr : PlanRows t runId plan) (hplan : PlanFor runId plan s.call)
    (h : s.call.runId = runId → Front (t.rowsOf runId) n) (payload : StrDict) (previous : Outputs) :
    (s.next n payload previous).Accounts t runId plan := by
  apply next_cases
  · intro hle hid
    rw [hplan hid] at hle
    exact ⟨fun _ => (h hid).full hn hr hle, fun hne => absurd rfl hne⟩
  · intro step _
    exact h
  · intro o
    trivial

theorem conclude_accounts {t : Tables} {s : Session} {f : Frame}
    (h : s.call.runId = runId → Front (t.rowsOf runId) f.index) (e : Execution) (now : Datetime) :
    (conclude s f e now).Accounts t runId plan := by
  apply conclude_cases
  · intro o
    trivial
  · intro status reason reraise r _ _
    exact h
  · intro output r _ _
    exact h

theorem inert_accounts {t : Tables} (h : ctrl.inert = true) : ctrl.Accounts t runId plan := by
  cases ctrl <;> trivial

theorem Move.accounts (h : Move policy w sh ctrl a sh' ctrl') (ht : sh.tables.Sound)
    (hs : ctrl.Sound sh.tables) (hc : ctrl.Calls (PlanFor runId plan))
    (hr : PlanRows sh.tables runId plan) (hcur : ctrl.Current sh.tables)
    (hfront : ∃ n, Front (sh.tables.rowsOf runId) n) (ha : ctrl.Accounts sh.tables runId plan)
    (hp : RepeatsFailure sh ctrl a) : ctrl'.Accounts sh'.tables runId plan := by
  have ht' := h.tables_sound ht hs
  have hr' := h.planRows hs hc hr
  cases h with
  | rest tables log inert => exact inert_accounts inert
  | submitted inserted => trivial
  | called => trivial
  | snapshot load active matched => trivial
  | granted free => trivial
  | @started s a t ctrl' writes set next =>
    rcases next with rfl | inert
    · apply next_accounts ht'.numbered hr' hc
      rintro rfl
      obtain ⟨n, hf⟩ := hfront
      obtain ⟨row, _, hid, hst⟩ := load_eq_some (hcur.loaded s (.inr rfl))
      rw [← hid] at hf
      have hnext := hf.nextIndex ht.numbered
      rw [hst, hnext, Tables.rowsOf_setStatus set, ← hid]
      exact hf
    · exact inert_accounts inert
  | began known => exact ha
  | missing unknown => exact conclude_accounts ha _ _
  | returned result => exact conclude_accounts ha _ _
  | threw result => exact conclude_accounts ha _ _
  | @appended s f r after a t ctrl' writes stored next =>
    rcases next with rfl | inert
    · have hfr : s.call.runId = runId → Front (sh.tables.rowsOf r.runId) r.index := by
        intro hid
        rw [hs.2.2.runId, hid, hs.2.2.index]
        exact ha hid
      have hid' : s.call.runId = runId → r.runId = runId := hs.2.2.runId.trans
      cases after with
      | proceed payload previous =>
        apply next_accounts ht'.numbered hr' hc
        intro hid
        have hok := (appended_front ht hs (hfr hid) hp writes stored).1 hs.2.2.fits
        rw [hid' hid, hs.2.2.index] at hok
        exact hok
      | settle status reason reraise =>
        intro hid
        obtain ⟨hfail, _, hne, hout⟩ := hs.2.2.fits
        obtain ⟨hf, output, hl, hat⟩ := (appended_front ht hs (hfr hid) hp writes stored).2 hfail
        rw [hout, loads_errorOutput] at hl
        cases hl
        rw [hid' hid] at hf hat
        exact ⟨fun he => absurd he hne, fun _ => ⟨_, reason, hf, rfl, hat⟩⟩
    · exact inert_accounts inert
  | settled writes set inert => exact inert_accounts inert

theorem Move.front (h : Move policy w sh ctrl a sh' ctrl') (ht : sh.tables.Sound)
    (hs : ctrl.Sound sh.tables) (hfront : ∃ n, Front (sh.tables.rowsOf runId) n)
    (ha : ctrl.Accounts sh.tables runId plan) (hp : RepeatsFailure sh ctrl a) :
    ∃ n, Front (sh'.tables.rowsOf runId) n := by
  by_cases hn : ∃ s f r after, ctrl = .appending s f r after ∧ r.runId = runId
  · obtain ⟨s, f, r, after, rfl, hid⟩ := hn
    cases h with
    | rest tables log inert => exact tables ▸ hfront
    | @appended _ _ _ _ a t ctrl' writes stored next =>
      have hsid : s.call.runId = runId := hs.2.2.runId.symm.trans hid
      have hf : Front (sh.tables.rowsOf r.runId) r.index := by
        rw [hid, hs.2.2.index]
        exact ha hsid
      have hnew := appended_front ht hs hf hp writes stored
      rw [hid] at hnew
      by_cases ho : r.outcome = .failed
      · exact ⟨_, (hnew.2 ho).1⟩
      · exact ⟨_, hnew.1 ho⟩
  · rw [h.keeps_rows fun s f r after he hid => hn ⟨s, f, r, after, he, hid⟩]
    exact hfront

theorem settled_verdict {s : Session} {status : RunStatus} {error : Option PyStr}
    {reraise : Option Raised} {err : Option String}
    (hs : (Control.settling s status error reraise).Sound sh.tables)
    (ha : (Control.settling s status error reraise).Accounts sh.tables s.call.runId plan)
    (he : Tables.encodeError error = some err) :
    (status = .completed → Front (sh.tables.rowsOf s.call.runId) plan.steps.length ∧ err = none) ∧
    (status = .failed ∨ status = .escalated → ∃ n e, Front (sh.tables.rowsOf s.call.runId) n ∧
      err = some e ∧ FailedAt (sh.tables.rowsOf s.call.runId) n
        [(.ofString "error", .str (.ofString e))]) := by
  constructor
  · intro hc
    have herr := (hs.2.2 hc).1
    rw [herr] at he
    cases he
    exact ⟨(ha rfl).1 hc, rfl⟩
  · intro hc
    have hne : status ≠ .completed := by
      rcases hc with rfl | rfl <;> decide
    obtain ⟨n, reason, hf, herr, hat⟩ := (ha rfl).2 hne
    rw [herr, Tables.encodeError, Option.map_eq_some_iff] at he
    obtain ⟨e, henc, rfl⟩ := he
    rw [PyStr.joined_of_encode henc, ← PyStr.ofString_of_encode henc] at hat
    exact ⟨n, e, hf, rfl, hat⟩

theorem Move.verdict (h : Move policy w sh ctrl a sh' ctrl') (hs : ctrl.Sound sh.tables)
    (hcur : ctrl.Current sh.tables) (ha : ctrl.Accounts sh.tables runId plan)
    (hv : Verdict sh.tables runId plan) : Verdict sh'.tables runId plan := by
  intro row' hr'
  cases hrow : sh.tables.runRow runId with
  | none =>
    have hp := h.new_run hrow hr'
    constructor
    · intro hc
      rw [hp] at hc
      cases hc
    · rintro (hc | hc) <;> rw [hp] at hc <;> cases hc
  | some row =>
    rcases h.run_row hrow with hk | ⟨s, _, _, hk⟩ | ⟨s, status, error, reraise, err, rfl, rfl, he, _, hk⟩
    · rw [hk] at hr'
      cases hr'
      by_cases hw : ∃ s, ctrl.working = some s ∧ s.call.runId = runId
      · obtain ⟨s, hw, rfl⟩ := hw
        obtain ⟨row', hr', hact⟩ := hcur.live s hw
        rw [hrow] at hr'
        cases hr'
        constructor
        · intro hc
          rw [hc] at hact
          cases hact
        · rintro (hc | hc) <;> rw [hc] at hact <;> cases hact
      · have hrows : sh'.tables.rowsOf runId = sh.tables.rowsOf runId := by
          apply h.keeps_rows
          rintro s f r after rfl hid
          exact hw ⟨s, rfl, hs.2.2.runId.symm.trans hid⟩
        rw [hrows]
        exact hv _ hrow
    · rw [hk] at hr'
      cases hr'
      constructor
      · intro hc
        cases hc
      · rintro (hc | hc) <;> cases hc
    · rw [hk] at hr'
      cases hr'
      have hrows : sh'.tables.rowsOf s.call.runId = sh.tables.rowsOf s.call.runId := by
        apply h.keeps_rows
        intro _ _ _ _ hctrl
        cases hctrl
      rw [hrows]
      exact settled_verdict hs ha he

theorem failedAt_split {t : Tables} {n : Nat} {output : StrDict} (hn : t.Numbered)
    (hf : Front (t.rowsOf runId) n) (hat : FailedAt (t.rowsOf runId) n output) :
    ∃ good bad, t.rowsOf runId = good ++ [bad] ∧ good.length = n ∧ bad.outcome = .failed ∧
      (Tables.hydrateStep bad).output = output := by
  obtain ⟨bad, hbad, hi, hout⟩ := hat
  have hlen : (t.rowsOf runId).length = n + 1 := by
    have h1 := hf.length_le (hn runId)
    have h2 := (hn runId).idx_lt hbad
    omega
  have hne : t.rowsOf runId ≠ [] := List.ne_nil_of_mem hbad
  refine ⟨(t.rowsOf runId).dropLast, bad, ?_, ?_, ?_, hout⟩
  · have hlast : (t.rowsOf runId).getLast hne = bad := by
      have hg := (hn runId).getElem?_idx hbad
      rw [hi] at hg
      rw [List.getLast_eq_getElem]
      simpa [hlen] using (List.getElem?_eq_some_iff.mp hg).2
    rw [← hlast, List.dropLast_append_getLast]
  · rw [List.length_dropLast, hlen, Nat.add_sub_cancel]
  · exact (hf.rest bad hbad (Nat.le_of_eq hi.symm)).2

theorem statusAgrees_of_verdict {t : Tables} {state : RunState} (hn : t.Numbered)
    (hv : Verdict t runId plan) (hl : t.load runId = some state)
    (hr : PlanRows t runId plan) : StatusAgrees plan state := by
  obtain ⟨row, hrow, hid, rfl⟩ := load_eq_some hl
  have hsteps := hydrate_steps row (hn _)
  rw [hid] at hsteps
  have hindex : (t.hydrate row).steps.map StepRecord.index =
      List.range (t.rowsOf runId).length := by
    rw [hsteps, List.map_map]
    exact hn runId
  obtain ⟨hcomp, hend⟩ := hv row hrow
  constructor
  · intro hc
    obtain ⟨hf, herr⟩ := hcomp hc
    have h1 := planRows_length hn hr
    have h2 := hf.reached
    have hlen : (t.rowsOf runId).length = plan.steps.length := by omega
    refine ⟨hlen ▸ hindex, fun r hrm => ?_, herr⟩
    rw [hsteps] at hrm
    obtain ⟨x, hx, rfl⟩ := List.mem_map.mp hrm
    have hxi := (hn runId).idx_lt hx
    exact hf.good x hx (hlen ▸ hxi)
  · intro hc
    obtain ⟨n, error, hf, herr, hat⟩ := hend hc
    obtain ⟨good, bad, hrows, hlen, hfail, hout⟩ := failedAt_split hn hf hat
    have hgood : FirstWriter.Numbered StepRow.stepIndex good := by
      have h := hn runId
      rw [hrows] at h
      exact h.left
    have hbad : bad.stepIndex = good.length := by
      have h := hn runId
      rw [hrows] at h
      exact h.idx_of_getElem? (by simp)
    refine ⟨good.map Tables.hydrateStep, Tables.hydrateStep bad, error, ?_, ?_, ?_, ?_, hfail,
      herr, ?_⟩
    · rw [hsteps, hrows, List.map_append, List.map_singleton]
    · rw [List.map_map, List.length_map]
      exact hgood
    · intro r hrm
      obtain ⟨x, hx, rfl⟩ := List.mem_map.mp hrm
      have hxi := hgood.idx_lt hx
      apply hf.good x
      · rw [hrows]
        exact List.mem_append_left _ hx
      · omega
    · rw [List.length_map]
      exact hbad
    · rw [hout]
      rfl

end Moves

section Runs

def retriedFailure : List (Unit × Action) :=
  ((), submits) :: turns () (opens ++
    [.begin, finishes 0 [] (.exception (.ofString "ValueError") (some (.ofString "declined"))),
      .store, .die] ++ opens ++ charges "first" ++ notifies "first" ++ [.store])

theorem retry_completes_over_failure :
    ¬ ∀ (es : List (Unit × Action)) (c : System Unit) (runId : String) (plan : Plan)
        (state : RunState),
      (∀ e ∈ es, e.2.Calls (PlanFor runId plan)) →
      runSystem perfectLock (System.start Tables.empty) es = some c →
      c.shared.tables.load runId = some state → StatusAgrees plan state := by
  intro h
  have hs : ((runSystem perfectLock (System.start Tables.empty) retriedFailure).any fun c =>
      (c.shared.tables.load "run").any fun state => state.status = .completed ∧
        ∃ r ∈ state.steps, r.outcome = .failed) = true := by decide +kernel
  obtain ⟨c, hc, hq⟩ := (Option.any_eq_true _ _).mp hs
  obtain ⟨state, hl, hq⟩ := (Option.any_eq_true _ _).mp hq
  rw [decide_eq_true_eq] at hq
  obtain ⟨hcomp, r, hr, hf⟩ := hq
  have ha := h retriedFailure c "run" chargePlan state (by decide +kernel) hc hl
  exact (ha.completed hcomp).2.1 r hr hf

variable [DecidableEq ι] [Subsingleton ι]

theorem agreement_outline (policy : LockPolicy ι) (runId : String) (plan : Plan) :
    Outline (workerStep policy)
      (fun sh ctrl a => a.Calls (PlanFor runId plan) ∧ RepeatsFailure sh ctrl a)
      (fun sh => (sh.tables.Sound ∧ PlanRows sh.tables runId plan) ∧
        (∃ n, Front (sh.tables.rowsOf runId) n) ∧ Verdict sh.tables runId plan)
      (fun _ sh ctrl => (ctrl.Sound sh.tables ∧ ctrl.Calls (PlanFor runId plan)) ∧
        ctrl.Current sh.tables ∧ ctrl.Accounts sh.tables runId plan) := by
  apply ((plan_outline policy (Q := PlanFor runId plan) fun _ hc => hc).restrict
    And.left).extend_alone
  intro i sh ctrl a sh' ctrl' hg hl hx hk hp ha
  have hm := workerStep_move ha
  refine ⟨⟨hm.front hg.1 hl.1 hx.1 hk.2 hp.2, hm.verdict hl.1 hk.1 hk.2 hx.2⟩,
    hm.current hl.1 hk.1, ?_⟩
  exact hm.accounts hg.1 hl.1 hl.2 hg.2 hk.1 hx.1 hk.2 hp.2

theorem status_agrees (policy : LockPolicy ι) (es : List (ι × Action)) {runId : String}
    {plan : Plan} {c : System ι} (hplan : ∀ e ∈ es, e.2.Calls (PlanFor runId plan))
    (hp : alongSystem policy RepeatsFailure (System.start Tables.empty) es)
    (h : runSystem policy (System.start Tables.empty) es = some c) {state : RunState}
    (hl : c.shared.tables.load runId = some state) : StatusAgrees plan state := by
  have hd := (agreement_outline policy runId plan).run_along ?_
    (Transition.along_and (calls_along hplan) hp) h
  · exact statusAgrees_of_verdict hd.1.1.1.numbered hd.1.2.2 hl hd.1.1.2
  · refine ⟨⟨⟨empty_sound, planRows_of_nil rfl⟩, ⟨0, ?_⟩, ?_⟩,
      fun _ => ⟨⟨trivial, trivial⟩, ?_, trivial⟩⟩
    · exact ⟨Nat.zero_le _, fun row hrow => (by cases hrow), fun row hrow => (by cases hrow)⟩
    · intro row hrow
      cases hrow
    · exact inert_current rfl

def repeatedFailure : List (Unit × Action) :=
  let failure : List Action :=
    [.begin, finishes 0 [] (.exception (.ofString "ValueError") (some (.ofString "declined"))),
      .store]
  ((), submits) :: turns () (opens ++ failure ++ [.die] ++ opens ++ failure ++ [.store])

theorem status_agrees_repeated_failure :
    ∃ (c : System Unit) (state : RunState),
      runSystem perfectLock (System.start Tables.empty) repeatedFailure = some c ∧
      c.shared.tables.load "run" = some state ∧ StatusAgrees chargePlan state := by
  have hplan : ∀ e ∈ repeatedFailure, e.2.Calls (PlanFor "run" chargePlan) := by decide +kernel
  have hp : alongSystem perfectLock RepeatsFailure (System.start Tables.empty)
      repeatedFailure := by decide +kernel
  have hr : ((runSystem perfectLock (System.start Tables.empty) repeatedFailure).any fun c =>
      (c.shared.tables.load "run").isSome) = true := by decide +kernel
  obtain ⟨c, hc, hq⟩ := (Option.any_eq_true _ _).mp hr
  obtain ⟨state, hl⟩ := Option.isSome_iff_exists.mp hq
  exact ⟨c, state, hc, hl, status_agrees perfectLock repeatedFailure hplan hp hc hl⟩

end Runs

end DurableAgent
