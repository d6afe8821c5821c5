import DurableAgent.Admission

namespace DurableAgent

structure Submission where
  handlers : List String
  stack : Nat
  runId : String
  spec : RunSpec
  now : Nat

namespace Engine

def createRun (t : Tables) (stack : Nat) (runId : String) (spec : RunSpec) (now tie : Nat) :
    Tables × Outcome :=
  match t.insertRun stack runId spec now with
  | .ok t' =>
      (t', .returned ⟨runId, spec.idempotencyKey, .pending, spec.plan.name, spec.payload, [], none⟩)
  | .error .integrityError =>
      match t.findByKey spec.idempotencyKey tie with
      | some existing => (t, .raised (.runAlreadyActive existing.runId))
      | none => (t, .raised (.store .integrityError))
  | .error e => (t, .raised (.store e))

def missing (q : Submission) : List String :=
  (q.spec.plan.steps.map Step.name).filter fun n => n ∉ q.handlers

def submit (t : Tables) (q : Submission) (tie : Nat) : Tables × Outcome :=
  if missing q ≠ [] then
    (t, .raised (.keyError ("no handler registered for steps: " ++
      String.intercalate ", " (missing q))))
  else createRun t q.stack q.runId q.spec q.now tie

def submitOrAttach (t : Tables) (q : Submission) (tie : Nat) : Tables × Outcome :=
  match submit t q tie with
  | (t', .raised (.runAlreadyActive runId)) =>
      match t'.load runId with
      | some existing => (t', .returned existing)
      | none =>
          (t', .raised (.runtimeError ("run " ++ runId ++ " vanished between conflict and read")))
  | answered => answered

end Engine

inductive Request where
  | submit (q : Submission) (tie : Nat)
  | submitOrAttach (q : Submission) (tie : Nat)
  | run (handle : String → StepContext → Execution) (clock : Nat → Datetime) (granted : Bool)
      (call : Call)

def Request.time : Request → Option Nat
  | .submit q _ => some q.now
  | .submitOrAttach q _ => some q.now
  | .run _ _ _ _ => none

def serve (t : Tables) : Request → Tables × Outcome
  | .submit q tie => Engine.submit t q tie
  | .submitOrAttach q tie => Engine.submitOrAttach t q tie
  | .run handle clock granted call => run handle clock granted t call

def serveAll (t : Tables) (history : List Request) : Tables :=
  history.foldl (fun t q => (serve t q).1) t

namespace Tables

variable {t t' : Tables} {runId : String}

-- nothing between two submissions adds a run, moves its second or makes it active again
structure Aged (t t' : Tables) : Prop where
  rows : ∃ f : RunRow → RunRow, t'.runs = t.runs.map f ∧ ∀ r ∈ t.runs, (f r).runId = r.runId ∧
    (f r).idempotencyKey = r.idempotencyKey ∧ (f r).createdAt = r.createdAt ∧
    ((f r).active = true → r.active = true)
  wellFormed : t.WellFormed → t'.WellFormed

theorem Aged.refl (t : Tables) : Aged t t :=
  ⟨⟨id, by simp, fun _ _ => ⟨rfl, rfl, rfl, id⟩⟩, id⟩

theorem Aged.trans {a b c : Tables} (hab : Aged a b) (hbc : Aged b c) : Aged a c := by
  obtain ⟨f, hf, hfr⟩ := hab.rows
  obtain ⟨g, hg, hgr⟩ := hbc.rows
  refine ⟨⟨g ∘ f, by rw [hg, hf, List.map_map], fun r hr => ?_⟩, hbc.wellFormed ∘ hab.wellFormed⟩
  obtain ⟨h1, h2, h3, h4⟩ := hfr r hr
  obtain ⟨k1, k2, k3, k4⟩ := hgr (f r) (hf ▸ List.mem_map_of_mem hr)
  exact ⟨k1.trans h1, k2.trans h2, k3.trans h3, fun h => h4 (k4 h)⟩

def Live (t : Tables) (runId : String) : Prop :=
  ∀ r ∈ t.runs, r.runId = runId → r.active = true

theorem setStatus_aged {status : RunStatus} {error : Option PyStr} (hl : t.Live runId)
    (h : t.setStatus runId status error = .ok t') : Aged t t' := by
  refine ⟨?_, fun hw => setStatus_wellFormed hw h⟩
  obtain ⟨err, _, rfl, _⟩ := setStatus_ok h
  refine ⟨settled runId status err, rfl, fun r hr => ?_⟩
  refine ⟨settled_runId .., settled_key .., settled_createdAt .., fun ha => ?_⟩
  by_cases hid : r.runId = runId
  · exact hl r hr hid
  · rwa [settled_of_ne hid] at ha

theorem setStatus_running_live {error : Option PyStr}
    (h : t.setStatus runId .running error = .ok t') : t'.Live runId := by
  obtain ⟨err, _, rfl, _⟩ := setStatus_ok h
  intro r hr hid
  obtain ⟨r', _, rfl⟩ := List.mem_map.mp hr
  rw [settled_runId] at hid
  rw [RunRow.active_eq, settled, if_pos hid]
  rfl

theorem append_runs {r : StepRecord} (h : t.append stack r = .ok t') : t'.runs = t.runs := by
  obtain ⟨output, _, _, rfl⟩ := append_ok h
  rfl

theorem append_aged {r : StepRecord} (h : t.append stack r = .ok t') : Aged t t' :=
  ⟨⟨id, by simp [append_runs h], fun _ _ => ⟨rfl, rfl, rfl, id⟩⟩, fun hw => append_wellFormed hw h⟩

theorem append_live {r : StepRecord} (hl : t.Live runId) (h : t.append stack r = .ok t') :
    t'.Live runId := by
  intro r' hr'
  rw [append_runs h] at hr'
  exact hl r' hr'

theorem load_live (hw : t.WellFormed) {state : RunState} (hl : t.load runId = some state)
    (ha : state.status.isTerminal = false) : t.Live runId := by
  obtain ⟨row, hrow, _, rfl⟩ := load_eq_some hl
  rintro r hr rfl
  obtain rfl : r = row := Option.some.inj ((runRow_of_mem hw hr).symm.trans hrow)
  rw [RunRow.active_eq, show r.status.isTerminal = false from ha]
  rfl

end Tables

section Calls

variable {t : Tables} {s : Session}

theorem finishRun_aged {status : RunStatus} {error : Option PyStr} {reraise : Option Raised}
    (hl : t.Live s.call.runId) : t.Aged (finishRun t s status error reraise).1 := by
  unfold finishRun
  cases hs : t.setStatus s.call.runId status error with
  | error e => exact .refl t
  | ok t' => cases reraise <;> exact Tables.setStatus_aged hl hs

theorem recordFailure_aged {f : Frame} {ctx : StepContext} {now : Datetime} {status : RunStatus}
    {reason : PyStr} {reraise : Option Raised} (hl : t.Live s.call.runId) :
    t.Aged (recordFailure t s f ctx now status reason reraise).1 := by
  unfold recordFailure
  split
  · exact .refl t
  · split
    · exact .refl t
    · rename_i r _ t' ha
      exact (Tables.append_aged ha).trans (finishRun_aged (Tables.append_live hl ha))

theorem runSteps_aged (handle : String → StepContext → Execution) (now : Nat → Datetime)
    (rest : List Step) (index : Nat) (payload : StrDict) (previous : Outputs)
    (hl : t.Live s.call.runId) :
    t.Aged (runSteps handle now s rest index payload previous t).1 := by
  induction rest generalizing index payload previous t with
  | nil => exact finishRun_aged hl
  | cons step rest ih =>
    simp only [runSteps]
    split
    · exact .refl t
    · split
      · exact .refl t
      · exact recordFailure_aged hl
      · exact .refl t
      · exact recordFailure_aged hl
      · split
        · exact .refl t
        · split
          · exact .refl t
          · rename_i r _ _ t' ha
            exact (Tables.append_aged ha).trans (ih _ _ _ (Tables.append_live hl ha))

theorem run_aged (handle : String → StepContext → Execution) (now : Nat → Datetime)
    (granted : Bool) (c : Call) (hw : t.WellFormed) : t.Aged (run handle now granted t c).1 := by
  unfold run
  split
  · exact .refl t
  · rename_i state hl
    split
    · exact .refl t
    · rename_i ha
      split
      · exact .refl t
      · split
        · split
          · exact .refl t
          · rename_i t' hs
            have hlive := Tables.load_live hw hl (by simpa using ha)
            exact (Tables.setStatus_aged hlive hs).trans
              (runSteps_aged handle now _ _ _ _ (Tables.setStatus_running_live hs))
        · exact .refl t

end Calls

namespace Tables

variable {t t' : Tables} {runId : String} {now : Nat} {row : RunRow}

def Precedes (r r' : RunRow) : Prop :=
  r.createdAt ≤ r'.createdAt ∧ (r.idempotencyKey = r'.idempotencyKey → r.active = false)

structure Ordered (t : Tables) (now : Nat) : Prop where
  wellFormed : t.WellFormed
  past : ∀ r ∈ t.runs, r.createdAt ≤ now
  succeeds : t.runs.Pairwise Precedes

theorem empty_ordered (now : Nat) : Ordered empty now :=
  ⟨empty_wellFormed, by simp [empty], List.Pairwise.nil⟩

theorem Ordered.later {now' : Nat} (h : t.Ordered now) (hle : now ≤ now') : t.Ordered now' :=
  ⟨h.wellFormed, fun r hr => (h.past r hr).trans hle, h.succeeds⟩

theorem Ordered.aged (h : t.Ordered now) (ha : t.Aged t') : t'.Ordered now := by
  obtain ⟨f, hf, hfr⟩ := ha.rows
  refine ⟨ha.wellFormed h.wellFormed, fun r hr => ?_, ?_⟩
  · rw [hf] at hr
    obtain ⟨r', hr', rfl⟩ := List.mem_map.mp hr
    rw [(hfr r' hr').2.2.1]
    exact h.past r' hr'
  · rw [hf, List.pairwise_map]
    refine h.succeeds.imp_of_mem fun hr hr' hs => ?_
    obtain ⟨_, hk, hc, hact⟩ := hfr _ hr
    obtain ⟨_, hk', hc', _⟩ := hfr _ hr'
    refine ⟨by rw [hc, hc']; exact hs.1, fun hkey => ?_⟩
    rw [hk, hk'] at hkey
    by_contra hne
    rw [Bool.not_eq_false] at hne
    rw [hs.2 hkey] at hact
    cases hact hne

theorem Ordered.insertRun {spec : RunSpec} (h : t.Ordered now)
    (hi : t.insertRun stack runId spec now = .ok t') : t'.Ordered now := by
  have hw := insertRun_wellFormed h.wellFormed hi
  obtain ⟨payload, hn, hc, rfl⟩ := insertRun_ok hi
  refine ⟨hw, fun r hr => ?_, ?_⟩
  · rcases List.mem_append.mp hr with hr | hr
    · exact h.past r hr
    · rw [List.mem_singleton.mp hr]
  · refine List.pairwise_append.mpr ⟨h.succeeds, List.pairwise_singleton _ _, ?_⟩
    intro r hr r' hr'
    rw [List.mem_singleton.mp hr']
    refine ⟨h.past r hr, fun hk => ?_⟩
    by_contra ha
    rw [Bool.not_eq_false] at ha
    have hclash := activeClash_eq_true.mpr ⟨r, hr, runRow_eq_none.mp hn r hr, hk, ha⟩
    rw [hc] at hclash
    cases hclash

-- the run in flight is the last one submitted under its key
theorem Ordered.latest {key : String} {r r' : RunRow} (h : t.Ordered now) (hr : t.InFlight key r)
    (hr' : r' ∈ t.runs) (hk : r'.idempotencyKey = key) : r'.createdAt ≤ r.createdAt := by
  rcases eq_or_ne r r' with rfl | hne
  · exact le_rfl
  · have hsym : t.runs.Pairwise fun a b => Precedes a b ∨ Precedes b a := h.succeeds.imp Or.inl
    have : Std.Symm fun a b => Precedes a b ∨ Precedes b a := ⟨fun _ _ => Or.symm⟩
    rcases hsym.forall hr.1 hr' hne with ⟨_, hin⟩ | ⟨hle, _⟩
    · have hact := inFlight_active hr
      rw [hin (hr.2.1.trans hk.symm)] at hact
      cases hact
    · exact hle

def rowsFor (t : Tables) (key : String) : List RunRow :=
  t.runs.filter fun r => r.idempotencyKey = key

def latestFor (t : Tables) (key : String) : List RunRow :=
  (t.rowsFor key).filter fun r => (t.rowsFor key).all fun r' => r'.createdAt ≤ r.createdAt

theorem findByKey_eq (t : Tables) (key : String) (tie : Nat) :
    t.findByKey key tie = ((t.latestFor key)[tie % (t.latestFor key).length]?).map t.hydrate := rfl

theorem mem_latestFor {key : String} {r : RunRow} : r ∈ t.latestFor key ↔
    (r ∈ t.runs ∧ r.idempotencyKey = key) ∧
      ∀ r' ∈ t.runs, r'.idempotencyKey = key → r'.createdAt ≤ r.createdAt := by
  simp only [latestFor, rowsFor, List.mem_filter, List.all_eq_true, decide_eq_true_eq, and_imp]

theorem findByKey_mem {key : String} {r : RunRow} (hr : r ∈ t.latestFor key) :
    ∃ tie, t.findByKey key tie = some (t.hydrate r) := by
  obtain ⟨i, hi⟩ := List.mem_iff_getElem?.mp hr
  have hlt : i < (t.latestFor key).length := (List.getElem?_eq_some_iff.mp hi).1
  exact ⟨i, by rw [findByKey_eq, Nat.mod_eq_of_lt hlt, hi, Option.map_some]⟩

theorem findByKey_of_all {key : String} {r : RunRow} (hr : r ∈ t.latestFor key)
    (hall : ∀ r' ∈ t.latestFor key, r' = r) (tie : Nat) :
    t.findByKey key tie = some (t.hydrate r) := by
  have hlt : tie % (t.latestFor key).length < (t.latestFor key).length :=
    Nat.mod_lt _ (List.length_pos_of_mem hr)
  rw [findByKey_eq, List.getElem?_eq_getElem hlt, hall _ (List.getElem_mem hlt), Option.map_some]

end Tables

section Histories

variable {t : Tables} {q : Submission} {tie now : Nat}

theorem createRun_ordered {stack : Nat} {runId : String} {spec : RunSpec} (h : t.Ordered now) :
    (Engine.createRun t stack runId spec now tie).1.Ordered now := by
  unfold Engine.createRun
  split
  · rename_i t' hi
    exact h.insertRun hi
  · split <;> exact h
  · exact h

theorem submit_ordered (h : t.Ordered q.now) : (Engine.submit t q tie).1.Ordered q.now := by
  unfold Engine.submit
  split
  · exact h
  · exact createRun_ordered h

theorem submitOrAttach_tables (t : Tables) (q : Submission) (tie : Nat) :
    (Engine.submitOrAttach t q tie).1 = (Engine.submit t q tie).1 := by
  unfold Engine.submitOrAttach
  split
  · rename_i t' runId he
    rw [he]
    cases t'.load runId <;> rfl
  · rfl

theorem serve_ordered {q : Request} (h : t.Ordered now) (hq : ∀ n, q.time = some n → now ≤ n) :
    (serve t q).1.Ordered (q.time.getD now) := by
  cases q with
  | submit q tie => exact submit_ordered (h.later (hq q.now rfl))
  | submitOrAttach q tie =>
    simp only [serve, submitOrAttach_tables]
    exact submit_ordered (h.later (hq q.now rfl))
  | run handle clock granted call => exact h.aged (run_aged handle clock granted call h.wellFormed)

theorem serveAll_ordered {history : List Request} (h : t.Ordered now)
    (hge : ∀ n ∈ history.filterMap Request.time, now ≤ n)
    (hs : (history.filterMap Request.time).Pairwise (· ≤ ·)) :
    ∃ now', (serveAll t history).Ordered now' := by
  induction history generalizing t now with
  | nil => exact ⟨now, h⟩
  | cons q history ih =>
    have hq := serve_ordered (q := q) h fun n hn => hge n (by simp [hn])
    cases ht : q.time with
    | none =>
      rw [List.filterMap_cons_none ht] at hge hs
      rw [ht] at hq
      exact ih hq hge hs
    | some n =>
      rw [List.filterMap_cons_some ht] at hs
      rw [ht] at hq
      obtain ⟨hn, hs⟩ := List.pairwise_cons.mp hs
      exact ih hq hn hs

theorem submit_refused (hknown : Engine.missing q = [])
    (hrefused : t.insertRun q.stack q.runId q.spec q.now = .error .integrityError)
    {state : RunState}
    (hfind : t.findByKey q.spec.idempotencyKey tie = some state) :
    Engine.submit t q tie = (t, .raised (.runAlreadyActive state.runId)) := by
  simp only [Engine.submit, Engine.createRun, hknown, hrefused, hfind]
  rfl

theorem submitOrAttach_refused {r : RunRow} (hw : t.WellFormed) (hr : r ∈ t.runs)
    (h : Engine.submit t q tie = (t, .raised (.runAlreadyActive r.runId))) :
    Engine.submitOrAttach t q tie = (t, .returned (t.hydrate r)) := by
  have hload : t.load r.runId = some (t.hydrate r) := by
    rw [Tables.load, Tables.runRow_of_mem hw hr, Option.map_some]
  simp only [Engine.submitOrAttach, h, hload]

theorem duplicate_points_at_run_in_flight {history : List Request}
    (hclock : (history.filterMap Request.time).Pairwise (· ≤ ·))
    (ht : serveAll Tables.empty history = t) {r : RunRow}
    (hr : t.InFlight q.spec.idempotencyKey r) (hknown : Engine.missing q = [])
    (hrefused : t.insertRun q.stack q.runId q.spec q.now = .error .integrityError) :
    (∀ tie, Engine.submit t q tie = (t, .raised (.runAlreadyActive r.runId)) ∧
        Engine.submitOrAttach t q tie = (t, .returned (t.hydrate r))) ↔
      ∀ r' ∈ t.runs, r'.idempotencyKey = q.spec.idempotencyKey → r' ≠ r →
        r'.createdAt ≠ r.createdAt := by
  have hord : ∃ now, t.Ordered now :=
    ht ▸ serveAll_ordered (Tables.empty_ordered 0) (fun n _ => Nat.zero_le n) hclock
  obtain ⟨now, hord⟩ := hord
  have hlatest : r ∈ t.latestFor q.spec.idempotencyKey :=
    Tables.mem_latestFor.mpr ⟨⟨hr.1, hr.2.1⟩, fun r' hr' hk => hord.latest hr hr' hk⟩
  constructor
  · -- a tie is broken for any of the rows of that second
    intro h r' hr' hk hne hsame
    have hmem : r' ∈ t.latestFor q.spec.idempotencyKey := by
      refine Tables.mem_latestFor.mpr ⟨⟨hr', hk⟩, fun x hx hxk => ?_⟩
      rw [hsame]
      exact hord.latest hr hx hxk
    obtain ⟨tie, hfind⟩ := Tables.findByKey_mem hmem
    have hsub := (h tie).1
    rw [submit_refused hknown hrefused hfind] at hsub
    have hid : r'.runId = r.runId := by
      simpa [Tables.hydrate] using congrArg Prod.snd hsub
    exact hne (List.inj_on_of_nodup_map hord.wellFormed.runIds hr' hr.1 hid)
  · intro h tie
    have hall : ∀ r' ∈ t.latestFor q.spec.idempotencyKey, r' = r := by
      intro r' hmem
      obtain ⟨⟨hr', hk⟩, hmax⟩ := Tables.mem_latestFor.mp hmem
      by_contra hne
      exact h r' hr' hk hne (le_antisymm (hord.latest hr hr' hk) (hmax r hr.1 hr.2.1))
    have hsub := submit_refused hknown hrefused (Tables.findByKey_of_all hlatest hall tie)
    exact ⟨hsub, submitOrAttach_refused hord.wellFormed hr.1 hsub⟩

def firstOrder : Submission := ⟨["charge", "notify"], 900, "run", chargeSpec, 0⟩

def secondOrder : Submission := ⟨["charge", "notify"], 900, "again", chargeSpec, 0⟩

def thirdOrder : Submission := ⟨["charge", "notify"], 900, "once more", chargeSpec, 0⟩

def firstRow : RunRow := ⟨"run", "order-0001", "payment", [], .pending, none, 0⟩

def done (_ : String) (ctx : StepContext) : Execution := ⟨.returned (answer "done"), ctx⟩

-- the first order is submitted, run to its end and submitted again within one second
def sameSecond : List Request :=
  [.submit firstOrder 0, .run done (fun _ => epoch) true chargeCall, .submit secondOrder 0]

theorem finished_run_reported :
    ¬ ∀ (history : List Request) (t : Tables) (q : Submission) (r : RunRow) (tie : Nat),
      (history.filterMap Request.time).Pairwise (· ≤ ·) →
      serveAll Tables.empty history = t → t.InFlight q.spec.idempotencyKey r →
      Engine.missing q = [] →
      t.insertRun q.stack q.runId q.spec q.now = .error .integrityError →
      Engine.submit t q tie = (t, .raised (.runAlreadyActive r.runId)) := by
  intro h
  have hruns : (serveAll Tables.empty sameSecond).runs =
      [{ firstRow with status := .completed }, { firstRow with runId := "again" }] := by rfl
  have hr : (serveAll Tables.empty sameSecond).InFlight thirdOrder.spec.idempotencyKey
      { firstRow with runId := "again" } := ⟨by simp [hruns], rfl, rfl⟩
  have hsub := h sameSecond _ thirdOrder _ 0 (by decide) rfl hr (by decide) (by rfl)
  have hfound : (Engine.submit (serveAll Tables.empty sameSecond) thirdOrder 0).2 =
      .raised (.runAlreadyActive "run") := by rfl
  rw [hsub] at hfound
  injection hfound with hfound
  injection hfound with hfound
  exact absurd hfound (by decide)

-- the second order comes in the second after the first, which has run to its end
def nextSecond : List Request :=
  [.submit firstOrder 0, .run done (fun _ => epoch) true chargeCall,
    .submit { secondOrder with now := 1 } 0]

theorem duplicate_points_at_second_run :
    ∃ (t : Tables) (r : RunRow), serveAll Tables.empty nextSecond = t ∧
      t.runs = [{ firstRow with status := .completed }, r] ∧ r.runId = "again" ∧
      ∀ tie, Engine.submit t thirdOrder tie = (t, .raised (.runAlreadyActive "again")) ∧
        Engine.submitOrAttach t thirdOrder tie = (t, .returned (t.hydrate r)) := by
  have hruns : (serveAll Tables.empty nextSecond).runs =
      [{ firstRow with status := .completed },
        { firstRow with runId := "again", createdAt := 1 }] := by rfl
  have hr : (serveAll Tables.empty nextSecond).InFlight thirdOrder.spec.idempotencyKey
      { firstRow with runId := "again", createdAt := 1 } := ⟨by simp [hruns], rfl, rfl⟩
  refine ⟨_, _, rfl, hruns, rfl, ?_⟩
  refine (duplicate_points_at_run_in_flight (by decide) rfl hr (by decide) (by rfl)).mpr ?_
  intro r' hr' _ hne
  rw [hruns, List.mem_cons, List.mem_singleton] at hr'
  rcases hr' with rfl | rfl
  · decide
  · exact absurd rfl hne

end Histories

end DurableAgent
