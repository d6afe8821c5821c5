import DurableAgent.Progression

namespace DurableAgent

inductive Transaction where
  | createRun (stack : Nat) (runId : String) (spec : RunSpec) (now : Nat)
  | setStatus (runId : String) (status : RunStatus) (error : Option PyStr)

def Transaction.attempt (t : Tables) : Transaction → Except StoreError Tables
  | .createRun stack runId spec now => t.insertRun stack runId spec now
  | .setStatus runId status error => t.setStatus runId status error

-- a transaction whose statement raises is rolled back
def commit (t : Tables) (x : Transaction) : Tables × Option StoreError :=
  match x.attempt t with
  | .ok t' => (t', none)
  | .error e => (t, some e)

def commitAll (t : Tables) (xs : List Transaction) : Tables :=
  xs.foldl (fun t x => (commit t x).1) t

namespace Tables

variable {t : Tables} {key runId : String} {r r' row : RunRow}

def InFlight (t : Tables) (key : String) (r : RunRow) : Prop :=
  r ∈ t.runs ∧ r.idempotencyKey = key ∧ r.status.isTerminal = false

theorem inFlight_active (h : t.InFlight key r) : r.active = true := by
  rw [RunRow.active_eq, h.2.2]
  rfl

theorem inFlight_of_active (hr : r ∈ t.runs) (ha : r.active = true) :
    t.InFlight r.idempotencyKey r := by
  rw [RunRow.active_eq, Bool.not_eq_true'] at ha
  exact ⟨hr, rfl, ha⟩

theorem inFlight_unique (hw : t.WellFormed) (h : t.InFlight key r) (h' : t.InFlight key r') :
    r = r' := by
  have hid := hw.oneActive r h.1 r' h'.1 (h.2.1.trans h'.2.1.symm) (inFlight_active h)
    (inFlight_active h')
  exact List.inj_on_of_nodup_map hw.runIds h.1 h'.1 hid

theorem activeClash_iff_inFlight :
    t.activeClash runId key = true ↔ ∃ r, t.InFlight key r ∧ r.runId ≠ runId := by
  rw [activeClash_eq_true]
  constructor
  · rintro ⟨r, hr, hne, rfl, ha⟩
    exact ⟨r, inFlight_of_active hr ha, hne⟩
  · rintro ⟨r, h, hne⟩
    exact ⟨r, h.1, hne, h.2.1, inFlight_active h⟩

theorem insertRun_ok_iff {stack : Nat} {spec : RunSpec} {now : Nat} (hn : t.runRow runId = none) :
    (∃ t', t.insertRun stack runId spec now = .ok t') ↔
      (dumpsObject stack spec.payload).isSome = true ∧ ∀ r, ¬ t.InFlight spec.idempotencyKey r := by
  have hclash : t.activeClash runId spec.idempotencyKey = false ↔
      ∀ r, ¬ t.InFlight spec.idempotencyKey r := by
    rw [← Bool.not_eq_true, activeClash_iff_inFlight]
    constructor
    · intro h r hr
      exact h ⟨r, hr, runRow_eq_none.mp hn r hr.1⟩
    · rintro h ⟨r, hr, _⟩
      exact h r hr
  rw [← hclash]
  unfold insertRun
  cases dumpsObject stack spec.payload with
  | none => simp
  | some payload => cases t.activeClash runId spec.idempotencyKey <;> simp [hn]

theorem setStatus_second_active {status : RunStatus} {error : Option PyStr}
    (hrow : t.runRow runId = some row) (hs : status.isTerminal = false)
    (h : t.InFlight row.idempotencyKey r) (hne : r.runId ≠ runId) :
    ∃ e, t.setStatus runId status error = .error e := by
  cases hset : t.setStatus runId status error with
  | error e => exact ⟨e, rfl⟩
  | ok t' =>
    obtain ⟨err, _, _, hfree⟩ := setStatus_ok hset
    have hactive : (settled runId status err row).active = true := by
      rw [RunRow.active_eq, settled, if_pos (runRow_runId hrow), hs]
      rfl
    have hclash := activeClash_iff_inFlight.mpr ⟨r, h, hne⟩
    rw [hfree row hrow hactive] at hclash
    cases hclash

end Tables

section Commits

variable {t : Tables} {x : Transaction}

theorem commit_ok {t' : Tables} (h : x.attempt t = .ok t') : commit t x = (t', none) := by
  rw [commit, h]

theorem commit_error {e : StoreError} (h : x.attempt t = .error e) : commit t x = (t, some e) := by
  rw [commit, h]

theorem commit_accepted : (commit t x).2 = none ↔ ∃ t', x.attempt t = .ok t' := by
  cases h : x.attempt t with
  | ok t' => simp [commit_ok h]
  | error e => simp [commit_error h]

theorem commit_unchanged (h : (commit t x).2 ≠ none) : (commit t x).1 = t := by
  cases hx : x.attempt t with
  | ok t' => simp [commit_ok hx] at h
  | error e => rw [commit_error hx]

theorem attempt_wellFormed {t' : Tables} (hw : t.WellFormed) (h : x.attempt t = .ok t') :
    t'.WellFormed := by
  cases x with
  | createRun stack runId spec now => exact Tables.insertRun_wellFormed hw h
  | setStatus runId status error => exact Tables.setStatus_wellFormed hw h

theorem commit_wellFormed (hw : t.WellFormed) : (commit t x).1.WellFormed := by
  cases hx : x.attempt t with
  | ok t' =>
    rw [commit_ok hx]
    exact attempt_wellFormed hw hx
  | error e =>
    rw [commit_error hx]
    exact hw

theorem commitAll_wellFormed (hw : t.WellFormed) (xs : List Transaction) :
    (commitAll t xs).WellFormed := by
  induction xs generalizing t with
  | nil => exact hw
  | cons x xs ih => exact ih (commit_wellFormed hw)

end Commits

structure OneActiveRun (t : Tables) : Prop where
  one : ∀ key r r', t.InFlight key r → t.InFlight key r' → r = r'
  inserts : ∀ stack runId spec now, t.runRow runId = none →
    ((commit t (.createRun stack runId spec now)).2 = none ↔
      (dumpsObject stack spec.payload).isSome = true ∧ ∀ r, ¬ t.InFlight spec.idempotencyKey r)
  inserted : ∀ stack runId spec now, (commit t (.createRun stack runId spec now)).2 = none →
    ∃ row, (commit t (.createRun stack runId spec now)).1 = { t with runs := t.runs ++ [row] } ∧
      row.runId = runId ∧ row.idempotencyKey = spec.idempotencyKey ∧ row.status = .pending
  rejects : ∀ runId status error row r, t.runRow runId = some row → status.isTerminal = false →
    t.InFlight row.idempotencyKey r → r.runId ≠ runId →
    (commit t (.setStatus runId status error)).2 ≠ none
  unchanged : ∀ x, (commit t x).2 ≠ none → (commit t x).1 = t

theorem one_active_run_per_key (xs : List Transaction) :
    OneActiveRun (commitAll Tables.empty xs) := by
  have hw := commitAll_wellFormed Tables.empty_wellFormed xs
  refine ⟨fun key r r' => Tables.inFlight_unique hw, ?_, ?_, ?_, fun x => commit_unchanged⟩
  · intro stack runId spec now hn
    rw [commit_accepted]
    exact Tables.insertRun_ok_iff hn
  · intro stack runId spec now h
    obtain ⟨t', ht'⟩ := commit_accepted.mp h
    obtain ⟨payload, _, _, he⟩ := Tables.insertRun_ok ht'
    rw [commit_ok ht', he]
    exact ⟨_, rfl, rfl, rfl, rfl⟩
  · intro runId status error row r hrow hs h hne hacc
    obtain ⟨t', ht'⟩ := commit_accepted.mp hacc
    obtain ⟨e, he⟩ := Tables.setStatus_second_active hrow hs h hne
    exact nomatch he.symm.trans ht'

def opaquePayload : RunSpec where
  plan := chargePlan
  payload := [(.ofString "callback", .other)]
  idempotencyKey := "order-0002"

theorem unencodable_payload_not_inserted :
    ¬ ∀ (xs : List Transaction) (stack : Nat) (runId : String) (spec : RunSpec) (now : Nat),
      (commitAll Tables.empty xs).runRow runId = none →
      ((commit (commitAll Tables.empty xs) (.createRun stack runId spec now)).2 = none ↔
        ∀ r, ¬ (commitAll Tables.empty xs).InFlight spec.idempotencyKey r) := by
  intro h
  have hfree : ∀ r, ¬ (commitAll Tables.empty []).InFlight opaquePayload.idempotencyKey r := by
    rintro r ⟨hr, _, _⟩
    cases hr
  have hin := (h [] 900 "run" opaquePayload 0 rfl).mpr hfree
  have hout : (commit (commitAll Tables.empty []) (.createRun 900 "run" opaquePayload 0)).2 =
      some .jsonError := by decide
  rw [hout] at hin
  cases hin

end DurableAgent
