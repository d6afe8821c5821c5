import DurableAgent.Engine
import DurableAgent.Library.Interleaving

namespace DurableAgent

variable {ι : Type}

inductive Event where
  | began (name : String) (ctx : StepContext)
  | returned (name : String) (ctx : StepContext) (output : PyValue)
  | inserted (ctx : StepContext) (record : StepRecord)

structure Shared (ι : Type) where
  tables : Tables
  holder : String → Option ι
  log : List Event

inductive AfterAppend where
  | proceed (payload : StrDict) (previous : Outputs)
  | settle (status : RunStatus) (reason : PyStr) (reraise : Option Raised)

inductive Control where
  | atRest (last : Option Outcome)
  | conflicted (idempotencyKey : String)
  | loading (c : Call)
  | locking (s : Session)
  | starting (s : Session)
  | calling (s : Session) (f : Frame)
  | handling (s : Session) (f : Frame)
  | appending (s : Session) (f : Frame) (r : StepRecord) (after : AfterAppend)
  | settling (s : Session) (status : RunStatus) (error : Option PyStr) (reraise : Option Raised)
  | reloading (s : Session)
  | releasing (s : Session) (o : Outcome)

inductive Action where
  | submit (handlers : List String) (stack : Nat) (runId : String) (spec : RunSpec) (now : Nat)
  | lookup (tie : Nat)
  | call (c : Call)
  | store
  | lock (granted : Bool)
  | begin
  | missing (now : Datetime)
  | finish (e : Execution) (now : Datetime)
  | outage (applied : Bool)
  | die

-- what the lock may answer, given who holds the key
abbrev LockPolicy (ι : Type) := Option ι → Bool → Bool

def perfectLock : LockPolicy ι := fun holder granted => granted == holder.isNone

def noLock : LockPolicy ι := fun _ granted => granted

def Session.key (s : Session) : String := s.state.idempotencyKey

def Session.next (s : Session) (index : Nat) (payload : StrDict) (previous : Outputs) : Control :=
  match s.call.plan.steps[index]? with
  | none => .settling s .completed none none
  | some step =>
      let f : Frame := ⟨index, step, payload, previous⟩
      if s.call.crashAt = some index then
        .releasing s (.raised (.simulatedCrash (crashMessage f)))
      else .calling s f

def concludeFailure (s : Session) (f : Frame) (ctx : StepContext) (now : Datetime)
    (status : RunStatus) (reason : PyStr) (reraise : Option Raised) : Control :=
  match stepRecord s f .failed ctx (errorOutput reason) now with
  | .error e => .releasing s (.raised e)
  | .ok r => .appending s f r (.settle status reason reraise)

def conclude (s : Session) (f : Frame) (e : Execution) (now : Datetime) : Control :=
  match e.result with
  | .simulatedCrash => .releasing s (.raised .handlerCrash)
  | .escalation reason => concludeFailure s f e.context now .escalated reason none
  | .exception typeName none => .releasing s (.raised (.handler typeName none))
  | .exception typeName (some text) =>
      concludeFailure s f e.context now .failed (exceptionReason typeName text)
        (some (.handler typeName (some text)))
  | .returned output =>
      match stepRecord s f (if e.context.wasHealed then .healed else .ok) e.context output now with
      | .error x => .releasing s (.raised x)
      | .ok r =>
          .appending s f r
            (.proceed e.context.payload (Dict.set e.context.previous f.step.name output))

def AfterAppend.control (s : Session) (f : Frame) : AfterAppend → Control
  | .proceed payload previous => s.next (f.index + 1) payload previous
  | .settle status reason reraise => .settling s status (some reason) reraise

theorem next_cases {P : Control → Prop} {s : Session} {index : Nat} {payload : StrDict}
    {previous : Outputs}
    (completed : s.call.plan.steps.length ≤ index → P (.settling s .completed none none))
    (calling : ∀ step, s.call.plan.steps[index]? = some step →
      P (.calling s ⟨index, step, payload, previous⟩))
    (releasing : ∀ o, P (.releasing s o)) : P (s.next index payload previous) := by
  unfold Session.next
  split
  · rename_i hn
    exact completed (List.getElem?_eq_none_iff.mp hn)
  · rename_i step hs
    simp only
    split
    · exact releasing _
    · exact calling step hs

theorem concludeFailure_cases {P : Control → Prop} {s : Session} {f : Frame} {ctx : StepContext}
    {now : Datetime} {status : RunStatus} {reason : PyStr} {reraise : Option Raised}
    (releasing : ∀ o, P (.releasing s o))
    (failed : ∀ r, stepRecord s f .failed ctx (errorOutput reason) now = .ok r →
      P (.appending s f r (.settle status reason reraise))) :
    P (concludeFailure s f ctx now status reason reraise) := by
  unfold concludeFailure
  split
  · exact releasing _
  · exact failed _ ‹_›

theorem conclude_cases {P : Control → Prop} {s : Session} {f : Frame} {e : Execution}
    {now : Datetime} (releasing : ∀ o, P (.releasing s o))
    (failed : ∀ status reason reraise r, e.result.failure = some (status, reason, reraise) →
      stepRecord s f .failed e.context (errorOutput reason) now = .ok r →
      P (.appending s f r (.settle status reason reraise)))
    (returned : ∀ output r, e.result = .returned output →
      stepRecord s f (if e.context.wasHealed then .healed else .ok) e.context output now = .ok r →
      P (.appending s f r
        (.proceed e.context.payload (Dict.set e.context.previous f.step.name output)))) :
    P (conclude s f e now) := by
  unfold conclude
  split
  · exact releasing _
  · rename_i reason he
    exact concludeFailure_cases releasing (fun r hr => failed _ _ _ r (by rw [he]; rfl) hr)
  · exact releasing _
  · rename_i typeName text he
    exact concludeFailure_cases releasing (fun r hr => failed _ _ _ r (by rw [he]; rfl) hr)
  · rename_i output he
    split
    · exact releasing _
    · exact returned output _ he ‹_›

def loaded (c : Call) : Option RunState → Control
  | none => .atRest (some (.raised (.keyError ("unknown run " ++ c.runId))))
  | some state =>
      if state.status.isTerminal then .atRest (some (.returned state))
      else
        match assertPlanMatchesHistory c.plan state with
        | .error e => .atRest (some (.raised e))
        | .ok _ => .locking ⟨c, state⟩

namespace Shared

def acquire (sh : Shared ι) (w : ι) (key : String) : Shared ι :=
  { sh with holder := Function.update sh.holder key (some w) }

def release [DecidableEq ι] (sh : Shared ι) (w : ι) (key : String) : Shared ι :=
  { sh with holder := fun k => if k = key && sh.holder k = some w then none else sh.holder k }

def buried [DecidableEq ι] (sh : Shared ι) (w : ι) : Shared ι :=
  { sh with holder := fun k => if sh.holder k = some w then none else sh.holder k }

def checkpoint (sh : Shared ι) (t : Tables) (ctx : StepContext) (r : StepRecord) : Shared ι :=
  { sh with
    tables := t
    log := if (sh.tables.rowsOf r.runId).any fun row => row.stepIndex = r.index then sh.log
      else sh.log ++ [.inserted ctx r] }

end Shared

def Control.failed : Control → Option Control
  | .conflicted _ => some (.atRest (some (.raised .outage)))
  | .loading _ => some (.atRest (some (.raised .outage)))
  | .locking _ => some (.atRest (some (.raised .outage)))
  | .starting s => some (.releasing s (.raised .outage))
  | .appending s _ _ _ => some (.releasing s (.raised .outage))
  | .settling s _ _ _ => some (.releasing s (.raised .outage))
  | .reloading s => some (.releasing s (.raised .outage))
  | .releasing _ _ => some (.atRest (some (.raised .outage)))
  | _ => none

def submit (sh : Shared ι) (handlers : List String) (stack : Nat) (runId : String) (spec : RunSpec)
    (now : Nat) : Shared ι × Control :=
  let names := (spec.plan.steps.map Step.name).filter fun n => n ∉ handlers
  if names ≠ [] then
    (sh, .atRest (some (.raised (.keyError
      ("no handler registered for steps: " ++ String.intercalate ", " names)))))
  else
    match sh.tables.insertRun stack runId spec now with
    | .ok t =>
        ({ sh with tables := t },
          .atRest (some (.returned ⟨runId, spec.idempotencyKey, .pending, spec.plan.name,
            spec.payload, [], none⟩)))
    | .error .integrityError => (sh, .conflicted spec.idempotencyKey)
    | .error e => (sh, .atRest (some (.raised (.store e))))

def Control.inert : Control → Bool
  | .atRest _ => true
  | .conflicted _ => true
  | .loading _ => false
  | .locking _ => false
  | .starting _ => false
  | .calling _ _ => false
  | .handling _ _ => false
  | .appending _ _ _ _ => false
  | .settling _ _ _ _ => false
  | .reloading _ => true
  | .releasing _ _ => true

def Action.writes : Action → Bool
  | .store => true
  | .outage applied => applied
  | _ => false

def Control.finishing : Control → Action → Option (Session × Frame × Execution)
  | .handling s f, .finish e _ => some (s, f, e)
  | _, _ => none

-- everything a step can do to the tables and the log, the lock's holders aside
inductive Move (policy : LockPolicy ι) (w : ι) (sh : Shared ι) :
    Control → Action → Shared ι → Control → Prop where
  | rest {ctrl a sh' ctrl'} (tables : sh'.tables = sh.tables) (log : sh'.log = sh.log)
      (inert : ctrl'.inert = true) : Move policy w sh ctrl a sh' ctrl'
  | submitted {last last' handlers stack runId spec now t}
      (inserted : sh.tables.insertRun stack runId spec now = .ok t) :
      Move policy w sh (.atRest last) (.submit handlers stack runId spec now)
        { sh with tables := t } (.atRest last')
  | called {last c} : Move policy w sh (.atRest last) (.call c) sh (.loading c)
  | snapshot {c state} (load : sh.tables.load c.runId = some state)
      (active : state.status.isTerminal = false)
      (matched : assertPlanMatchesHistory c.plan state = .ok ()) :
      Move policy w sh (.loading c) .store sh (.locking ⟨c, state⟩)
  | granted {s} (free : policy (sh.holder s.key) true = true) :
      Move policy w sh (.locking s) (.lock true) (sh.acquire w s.key) (.starting s)
  | started {s a t ctrl'} (writes : a.writes = true)
      (set : sh.tables.setStatus s.call.runId .running none = .ok t)
      (next : ctrl' = s.next s.state.nextIndex s.state.payload (previousOf s.state) ∨
        ctrl'.inert = true) :
      Move policy w sh (.starting s) a { sh with tables := t } ctrl'
  | began {s f} (known : f.step.name ∈ s.call.handlers) :
      Move policy w sh (.calling s f) .begin
        { sh with log := sh.log ++ [.began f.step.name (f.context s)] } (.handling s f)
  | missing {s f now} (unknown : f.step.name ∉ s.call.handlers) :
      Move policy w sh (.calling s f) (.missing now) sh
        (conclude s f ⟨noHandler f, f.context s⟩ now)
  | returned {s f e now output} (result : e.result = .returned output) :
      Move policy w sh (.handling s f) (.finish e now)
        { sh with log := sh.log ++ [.returned f.step.name (f.context s) output] }
        (conclude s f e now)
  | threw {s f e now} (result : ∀ output, e.result ≠ .returned output) :
      Move policy w sh (.handling s f) (.finish e now) sh (conclude s f e now)
  | appended {s f r after a t ctrl'} (writes : a.writes = true)
      (stored : sh.tables.append s.call.stack r = .ok t)
      (next : ctrl' = after.control s f ∨ ctrl'.inert = true) :
      Move policy w sh (.appending s f r after) a (sh.checkpoint t (f.context s) r) ctrl'
  | settled {s status error reraise a t ctrl'} (writes : a.writes = true)
      (set : sh.tables.setStatus s.call.runId status error = .ok t) (inert : ctrl'.inert = true) :
      Move policy w sh (.settling s status error reraise) a { sh with tables := t } ctrl'

variable {policy : LockPolicy ι} {w : ι} {sh sh' : Shared ι} {ctrl ctrl' : Control} {a : Action}

theorem loaded_move {c : Call} (h : loaded c (sh.tables.load c.runId) = ctrl') :
    Move policy w sh (.loading c) .store sh ctrl' := by
  subst h
  cases hl : sh.tables.load c.runId with
  | none => exact .rest rfl rfl rfl
  | some state =>
    simp only [loaded]
    cases ht : state.status.isTerminal with
    | true => exact .rest rfl rfl rfl
    | false =>
      cases hm : assertPlanMatchesHistory c.plan state with
      | error e => exact .rest rfl rfl rfl
      | ok u => exact .snapshot hl ht hm

theorem submit_move {last : Option Outcome} {handlers : List String} {stack : Nat} {runId : String}
    {spec : RunSpec} {now : Nat} (h : submit sh handlers stack runId spec now = (sh', ctrl')) :
    Move policy w sh (.atRest last) (.submit handlers stack runId spec now) sh' ctrl' := by
  simp only [submit] at h
  split at h
  · simp only [Prod.mk.injEq] at h
    obtain ⟨rfl, rfl⟩ := h
    exact .rest rfl rfl rfl
  · split at h <;> simp only [Prod.mk.injEq] at h <;> obtain ⟨rfl, rfl⟩ := h
    · exact .submitted ‹_›
    · exact .rest rfl rfl rfl
    · exact .rest rfl rfl rfl

theorem failed_inert (h : ctrl.failed = some ctrl') : ctrl'.inert = true := by
  cases ctrl <;> simp only [Control.failed, Option.some.injEq, reduceCtorEq] at h <;>
    subst h <;> rfl

variable [DecidableEq ι]

def perform (w : ι) (sh : Shared ι) : Control → Option (Shared ι × Control)
  | .loading c => some (sh, loaded c (sh.tables.load c.runId))
  | .starting s =>
      match sh.tables.setStatus s.call.runId .running none with
      | .error e => some (sh, .releasing s (.raised (.store e)))
      | .ok t =>
          some ({ sh with tables := t }, s.next s.state.nextIndex s.state.payload (previousOf s.state))
  | .appending s f r after =>
      match sh.tables.append s.call.stack r with
      | .error e => some (sh, .releasing s (.raised (.store e)))
      | .ok t => some (sh.checkpoint t (f.context s) r, after.control s f)
  | .settling s status error reraise =>
      match sh.tables.setStatus s.call.runId status error with
      | .error e => some (sh, .releasing s (.raised (.store e)))
      | .ok t =>
          some ({ sh with tables := t },
            match reraise with
            | some e => .releasing s (.raised e)
            | none => .reloading s)
  | .reloading s => some (sh, .releasing s (reload sh.tables s.call.runId))
  | .releasing s o => some (sh.release w s.key, .atRest (some o))
  | _ => none

def outageEffect (policy : LockPolicy ι) (w : ι) (sh : Shared ι) (ctrl : Control) : Shared ι :=
  match ctrl with
  | .locking s => if policy (sh.holder s.key) true then sh.acquire w s.key else sh
  | _ =>
      match perform w sh ctrl with
      | some (sh', _) => sh'
      | none => sh

def workerStep (policy : LockPolicy ι) (w : ι) (sh : Shared ι) (ctrl : Control) (a : Action) :
    Option (Shared ι × Control) :=
  match a, ctrl with
  | .submit handlers stack runId spec now, .atRest _ =>
      some (submit sh handlers stack runId spec now)
  | .lookup tie, .conflicted key =>
      match sh.tables.findByKey key tie with
      | some existing => some (sh, .atRest (some (.raised (.runAlreadyActive existing.runId))))
      | none => some (sh, .atRest (some (.raised (.store .integrityError))))
  | .call c, .atRest _ => some (sh, .loading c)
  | .store, ctrl => perform w sh ctrl
  | .lock granted, .locking s =>
      if policy (sh.holder s.key) granted then
        if granted then some (sh.acquire w s.key, .starting s)
        else some (sh, .atRest (some (.raised (.lockUnavailable (s.key ++ " is held by another worker")))))
      else none
  | .begin, .calling s f =>
      if f.step.name ∈ s.call.handlers then
        some ({ sh with log := sh.log ++ [.began f.step.name (f.context s)] }, .handling s f)
      else none
  | .missing now, .calling s f =>
      if f.step.name ∈ s.call.handlers then none
      else some (sh, conclude s f ⟨noHandler f, f.context s⟩ now)
  | .finish e now, .handling s f =>
      match e.result with
      | .returned output =>
          some ({ sh with log := sh.log ++ [.returned f.step.name (f.context s) output] },
            conclude s f e now)
      | _ => some (sh, conclude s f e now)
  | .outage applied, ctrl =>
      match ctrl.failed with
      | some ctrl' => some (if applied then outageEffect policy w sh ctrl else sh, ctrl')
      | none => none
  | .die, _ => some (sh.buried w, .atRest none)
  | _, _ => none

-- one store operation, branch by branch
inductive Performed (w : ι) (sh : Shared ι) : Control → Shared ι → Control → Prop where
  | loaded {c} : Performed w sh (.loading c) sh (loaded c (sh.tables.load c.runId))
  | startRefused {s e} (refused : sh.tables.setStatus s.call.runId .running none = .error e) :
      Performed w sh (.starting s) sh (.releasing s (.raised (.store e)))
  | started {s t} (set : sh.tables.setStatus s.call.runId .running none = .ok t) :
      Performed w sh (.starting s) { sh with tables := t }
        (s.next s.state.nextIndex s.state.payload (previousOf s.state))
  | appendRefused {s f r after e} (refused : sh.tables.append s.call.stack r = .error e) :
      Performed w sh (.appending s f r after) sh (.releasing s (.raised (.store e)))
  | appended {s f r after t} (stored : sh.tables.append s.call.stack r = .ok t) :
      Performed w sh (.appending s f r after) (sh.checkpoint t (f.context s) r)
        (after.control s f)
  | settleRefused {s status error reraise e}
      (refused : sh.tables.setStatus s.call.runId status error = .error e) :
      Performed w sh (.settling s status error reraise) sh (.releasing s (.raised (.store e)))
  | settled {s status error t} (set : sh.tables.setStatus s.call.runId status error = .ok t) :
      Performed w sh (.settling s status error none) { sh with tables := t } (.reloading s)
  | reraised {s status error e t} (set : sh.tables.setStatus s.call.runId status error = .ok t) :
      Performed w sh (.settling s status error (some e)) { sh with tables := t }
        (.releasing s (.raised e))
  | reloaded {s} : Performed w sh (.reloading s) sh (.releasing s (reload sh.tables s.call.runId))
  | released {s o} : Performed w sh (.releasing s o) (sh.release w s.key) (.atRest (some o))

-- one step of a worker, branch by branch
inductive Took (policy : LockPolicy ι) (w : ι) (sh : Shared ι) :
    Control → Action → Shared ι → Control → Prop where
  | submitted {last handlers stack runId spec now} {sh' : Shared ι} {ctrl' : Control}
      (submitted : submit sh handlers stack runId spec now = (sh', ctrl')) :
      Took policy w sh (.atRest last) (.submit handlers stack runId spec now) sh' ctrl'
  | conflict {key tie} (e : Raised) (refusal : (∃ id, e = .runAlreadyActive id) ∨
      e = .store .integrityError) :
      Took policy w sh (.conflicted key) (.lookup tie) sh (.atRest (some (.raised e)))
  | called {last c} : Took policy w sh (.atRest last) (.call c) sh (.loading c)
  | stored {ctrl : Control} {sh' : Shared ι} {ctrl' : Control}
      (performed : Performed w sh ctrl sh' ctrl') :
      Took policy w sh ctrl .store sh' ctrl'
  | granted {s} (free : policy (sh.holder s.key) true = true) :
      Took policy w sh (.locking s) (.lock true) (sh.acquire w s.key) (.starting s)
  | refused {s} (held : policy (sh.holder s.key) false = true) :
      Took policy w sh (.locking s) (.lock false) sh
        (.atRest (some (.raised (.lockUnavailable (s.key ++ " is held by another worker")))))
  | began {s f} (known : f.step.name ∈ s.call.handlers) :
      Took policy w sh (.calling s f) .begin
        { sh with log := sh.log ++ [.began f.step.name (f.context s)] } (.handling s f)
  | missing {s f now} (unknown : f.step.name ∉ s.call.handlers) :
      Took policy w sh (.calling s f) (.missing now) sh
        (conclude s f ⟨noHandler f, f.context s⟩ now)
  | returned {s f e now output} (result : e.result = .returned output) :
      Took policy w sh (.handling s f) (.finish e now)
        { sh with log := sh.log ++ [.returned f.step.name (f.context s) output] }
        (conclude s f e now)
  | threw {s f e now} (result : ∀ output, e.result ≠ .returned output) :
      Took policy w sh (.handling s f) (.finish e now) sh (conclude s f e now)
  | outage {ctrl : Control} {ctrl' : Control} {applied} (failed : ctrl.failed = some ctrl') :
      Took policy w sh ctrl (.outage applied)
        (if applied then outageEffect policy w sh ctrl else sh) ctrl'
  | died {ctrl : Control} : Took policy w sh ctrl .die (sh.buried w) (.atRest none)

theorem perform_performed (h : perform w sh ctrl = some (sh', ctrl')) :
    Performed w sh ctrl sh' ctrl' := by
  cases ctrl with
  | loading c =>
    cases h
    exact .loaded
  | starting s =>
    simp only [perform] at h
    split at h <;> cases h
    · exact .startRefused ‹_›
    · exact .started ‹_›
  | appending s f r after =>
    simp only [perform] at h
    split at h <;> cases h
    · exact .appendRefused ‹_›
    · exact .appended ‹_›
  | settling s status error reraise =>
    simp only [perform] at h
    split at h <;> cases h
    · exact .settleRefused ‹_›
    · cases reraise with
      | none => exact .settled ‹_›
      | some e => exact .reraised ‹_›
  | reloading s =>
    cases h
    exact .reloaded
  | releasing s o =>
    cases h
    exact .released
  | atRest _ => cases h
  | conflicted _ => cases h
  | locking _ => cases h
  | calling _ _ => cases h
  | handling _ _ => cases h

theorem workerStep_took (h : workerStep policy w sh ctrl a = some (sh', ctrl')) :
    Took policy w sh ctrl a sh' ctrl' := by
  unfold workerStep at h
  split at h
  · exact .submitted (Option.some.inj h)
  · split at h <;> cases h
    · exact .conflict _ (.inl ⟨_, rfl⟩)
    · exact .conflict _ (.inr rfl)
  · cases h
    exact .called
  · exact .stored (perform_performed h)
  · rename_i granted s
    split at h
    · cases granted with
      | true =>
        cases h
        exact .granted ‹_›
      | false =>
        cases h
        exact .refused ‹_›
    · cases h
  · split at h <;> cases h
    exact .began ‹_›
  · split at h <;> cases h
    exact .missing ‹_›
  · split at h <;> cases h
    · exact .returned ‹_›
    · exact .threw ‹_›
  · split at h <;> cases h
    exact .outage ‹_›
  · cases h
    exact .died
  · cases h

theorem Performed.move (h : Performed w sh ctrl sh' ctrl') :
    Move policy w sh ctrl .store sh' ctrl' := by
  cases h with
  | loaded => exact loaded_move rfl
  | started set => exact .started rfl set (.inl rfl)
  | appended stored => exact .appended rfl stored (.inl rfl)
  | settled set => exact .settled rfl set rfl
  | reraised set => exact .settled rfl set rfl
  | _ => exact .rest rfl rfl rfl

theorem outageEffect_cases {P : Shared ι → Prop} (untouched : P sh)
    (acquired : ∀ s, ctrl = .locking s → policy (sh.holder s.key) true = true →
      P (sh.acquire w s.key))
    (performed : ∀ sh' ctrl', Performed w sh ctrl sh' ctrl' → P sh') :
    P (outageEffect policy w sh ctrl) := by
  unfold outageEffect
  split
  · split
    · exact acquired _ rfl ‹_›
    · exact untouched
  · split
    · exact performed _ _ (perform_performed ‹_›)
    · exact untouched

theorem outageEffect_move (hf : ctrl.failed = some ctrl') :
    Move policy w sh ctrl (.outage true) (outageEffect policy w sh ctrl) ctrl' := by
  have hi := failed_inert hf
  apply outageEffect_cases (P := fun sh' => Move policy w sh ctrl (.outage true) sh' ctrl')
  · exact .rest rfl rfl hi
  · exact fun _ _ _ => .rest rfl rfl hi
  · intro sh' ctrl'' hp
    cases hp with
    | started set => exact .started rfl set (.inr hi)
    | appended stored => exact .appended rfl stored (.inr hi)
    | settled set => exact .settled rfl set hi
    | reraised set => exact .settled rfl set hi
    | _ => exact .rest rfl rfl hi

theorem workerStep_move (h : workerStep policy w sh ctrl a = some (sh', ctrl')) :
    Move policy w sh ctrl a sh' ctrl' := by
  cases workerStep_took h with
  | submitted submitted => exact submit_move submitted
  | called => exact .called
  | stored performed => exact performed.move
  | granted free => exact .granted free
  | began known => exact .began known
  | missing unknown => exact .missing unknown
  | returned result => exact .returned result
  | threw result => exact .threw result
  | @outage ctrl ctrl' applied failed =>
    cases applied with
    | true => exact outageEffect_move failed
    | false => exact .rest rfl rfl (failed_inert failed)
  | _ => exact .rest rfl rfl rfl

end DurableAgent
