import DurableAgent.Outcomes

namespace DurableAgent

variable {ι : Type}

-- `tokens` is the total the handler's context counts when it raises
inductive Deed where
  | returned (index : Nat)
  | threw (typeName : PyStr) (text : Option PyStr) (tokens : Int)
  | escalated (reason : PyStr) (tokens : Int)
  | appended (index : Nat)
  | storeRaised
deriving DecidableEq

def Execution.deed (index : Nat) (e : Execution) : Option Deed :=
  match e.result with
  | .returned _ => some (.returned index)
  | .escalation reason => some (.escalated reason e.context.tokensUsed)
  | .exception typeName text => some (.threw typeName text e.context.tokensUsed)
  | .simulatedCrash => none

def AfterAppend.deed (index : Nat) : AfterAppend → Option Deed
  | .proceed _ _ => some (.appended index)
  | .settle _ _ _ => none

def storeDeed {ε : Type} (done : Option Deed) : Except ε Tables → Option Deed
  | .ok _ => done
  | .error _ => some .storeRaised

def deed (t : Tables) : Control → Action → Option Deed
  | _, .outage _ => some .storeRaised
  | .locking _, .lock false => some .storeRaised
  | .handling _ f, .finish e _ => e.deed f.index
  | .starting s, .store => storeDeed none (t.setStatus s.call.runId .running none)
  | .appending s f r after, .store =>
      storeDeed (after.deed f.index) (t.append s.call.stack r)
  | .settling s status error _, .store => storeDeed none (t.setStatus s.call.runId status error)
  | _, _ => none

abbrev Alone (ι : Type) := Shared ι × Control

-- what one handler execution is promised to be: a JSON dict, or an exception with a text
def Execution.Admissible (e : Execution) : Prop :=
  match e.result with
  | .returned output => isJsonDict output
  | .exception _ text => text.isSome = true
  | _ => True

def Action.InCall : Action → Prop
  | .submit _ _ _ _ _ => False
  | .call _ => False
  | .die => False
  | .finish e _ => e.Admissible
  | _ => True

def Deed.counted : Deed → Bool
  | .threw _ _ tokens => 0 ≤ tokens
  | .escalated _ tokens => 0 ≤ tokens
  | _ => true

-- no handler raised with a negative token total
def Counted (h : List Deed) : Prop := ∀ d ∈ h, d.counted = true

instance (h : List Deed) : Decidable (Counted h) :=
  inferInstanceAs (Decidable (∀ d ∈ h, d.counted = true))

def Tables.statusOf (t : Tables) (runId : String) : Option RunStatus :=
  (t.runRow runId).map RunRow.status

def Tables.Open (t : Tables) (runId : String) : Prop :=
  ∃ status, t.statusOf runId = some status ∧ status.isTerminal = false

structure Admitted (t : Tables) (s : Session) : Prop where
  load : t.load s.call.runId = some s.state
  active : s.state.status.isTerminal = false
  matched : assertPlanMatchesHistory s.call.plan s.state = .ok ()
  registered : ∀ step ∈ s.call.plan.steps, step.name ∈ s.call.handlers

def HandlerThrew (h : List Deed) : Prop := ∃ n x k, .threw n x k ∈ h

def HandlerEscalated (h : List Deed) : Prop := ∃ r k, .escalated r k ∈ h

def StepsAppended (s : Session) (h : List Deed) : Prop :=
  ∀ i, s.state.nextIndex ≤ i → i < s.call.plan.steps.length → .returned i ∈ h ∧ .appended i ∈ h

def Calm (h : List Deed) : Prop := ¬ HandlerThrew h ∧ ¬ HandlerEscalated h

structure Upto (s : Session) (h : List Deed) (returned appended : Nat) : Prop where
  resumed : s.state.nextIndex ≤ appended
  returned : ∀ i, .returned i ∈ h ↔ s.state.nextIndex ≤ i ∧ i < returned
  appended : ∀ i, .appended i ∈ h ↔ s.state.nextIndex ≤ i ∧ i < appended

def Justified (h : List Deed) : RunStatus → Option Raised → Prop
  | .completed, reraise => Calm h ∧ reraise = none
  | .escalated, reraise => HandlerEscalated h ∧ ¬ HandlerThrew h ∧ reraise = none
  | .failed, reraise => ¬ HandlerEscalated h ∧
      ∃ n x k, .threw n (some x) k ∈ h ∧ reraise = some (.handler n (some x))
  | _, _ => False

def Concluding (s : Session) (h : List Deed) (status : RunStatus) (reraise : Option Raised) : Prop :=
  Justified h status reraise ∧ Counted h ∧
    ∃ n, Upto s h n n ∧ (status = .completed ↔ s.call.plan.steps.length ≤ n)

def Answers (t : Tables) (runId : String) (o : Outcome) : Option Raised → Prop
  | some e => o = .raised e
  | none => ∃ state, o = .returned state ∧ t.load runId = some state

inductive CallEnd (s : Session) (t : Tables) (h : List Deed) (o : Outcome) : Prop where
  | pending (live : t.Open s.call.runId)
      (why : .storeRaised ∈ h ∨ ¬ Counted h ∨
        Calm h ∧ ∃ m, ∃ n < s.call.plan.steps.length, Upto s h m n)
  | settled (status : RunStatus) (reraise : Option Raised)
      (set : t.statusOf s.call.runId = some status) (concluding : Concluding s h status reraise)
      (answers : .storeRaised ∈ h ∨ Answers t s.call.runId o reraise)

def Control.Tells (s : Session) (t : Tables) (h : List Deed) : Control → Prop
  | .locking s' => s' = s ∧ t.Open s.call.runId ∧ h = []
  | .starting s' => s' = s ∧ t.Open s.call.runId ∧ h = []
  | .calling s' f => s' = s ∧ t.Open s.call.runId ∧ Calm h ∧ Upto s h f.index f.index ∧
      s.call.plan.steps[f.index]? = some f.step
  | .handling s' f => s' = s ∧ t.Open s.call.runId ∧ Calm h ∧ Upto s h f.index f.index ∧
      s.call.plan.steps[f.index]? = some f.step
  | .appending s' f _ (.proceed _ _) => s' = s ∧ t.Open s.call.runId ∧ Calm h ∧
      Upto s h (f.index + 1) f.index
  | .appending s' _ _ (.settle status _ reraise) => s' = s ∧ t.Open s.call.runId ∧
      Concluding s h status reraise
  | .settling s' status _ reraise => s' = s ∧ t.Open s.call.runId ∧ Concluding s h status reraise
  | .reloading s' => s' = s ∧ ∃ status, t.statusOf s.call.runId = some status ∧
      Concluding s h status none
  | .releasing s' o => s' = s ∧ CallEnd s t h o
  | .atRest (some o) => CallEnd s t h o
  | _ => False

section Deeds

variable {s : Session} {h : List Deed} {n m : Nat} {t t' : Tables} {runId : String}

theorem Upto.start (s : Session) : Upto s [] s.state.nextIndex s.state.nextIndex := by
  refine ⟨le_rfl, ?_, ?_⟩ <;> intro i <;> simp only [List.not_mem_nil, false_iff] <;> omega

theorem Upto.return (hu : Upto s h n n) : Upto s (h ++ [.returned n]) (n + 1) n := by
  have hn := hu.resumed
  refine ⟨hn, ?_, ?_⟩
  · intro i
    rw [List.mem_append, hu.returned, List.mem_singleton, Deed.returned.injEq]
    omega
  · intro i
    rw [List.mem_append, hu.appended, List.mem_singleton]
    simp

theorem Upto.append (hu : Upto s h (n + 1) n) :
    Upto s (h ++ [.appended n]) (n + 1) (n + 1) := by
  have hn := hu.resumed
  refine ⟨Nat.le_succ_of_le hn, ?_, ?_⟩
  · intro i
    rw [List.mem_append, hu.returned, List.mem_singleton]
    simp
  · intro i
    rw [List.mem_append, hu.appended, List.mem_singleton, Deed.appended.injEq]
    omega

theorem Upto.other {d : Deed} (hu : Upto s h n m) (hr : ∀ i, d ≠ .returned i)
    (ha : ∀ i, d ≠ .appended i) : Upto s (h ++ [d]) n m := by
  refine ⟨hu.resumed, ?_, ?_⟩
  · intro i
    rw [List.mem_append, hu.returned, List.mem_singleton]
    exact or_iff_left (hr i).symm
  · intro i
    rw [List.mem_append, hu.appended, List.mem_singleton]
    exact or_iff_left (ha i).symm

theorem Calm.nil : Calm [] := by simp [Calm, HandlerThrew, HandlerEscalated]

theorem handlerThrew_add {d : Deed} (hd : ∀ n x k, d ≠ .threw n x k) :
    HandlerThrew (h ++ [d]) ↔ HandlerThrew h := by
  simp only [HandlerThrew, List.mem_append, List.mem_singleton]
  constructor
  · rintro ⟨n, x, k, hm⟩
    exact ⟨n, x, k, hm.resolve_right (hd n x k).symm⟩
  · rintro ⟨n, x, k, hm⟩
    exact ⟨n, x, k, .inl hm⟩

theorem handlerEscalated_add {d : Deed} (hd : ∀ r k, d ≠ .escalated r k) :
    HandlerEscalated (h ++ [d]) ↔ HandlerEscalated h := by
  simp only [HandlerEscalated, List.mem_append, List.mem_singleton]
  constructor
  · rintro ⟨r, k, hm⟩
    exact ⟨r, k, hm.resolve_right (hd r k).symm⟩
  · rintro ⟨r, k, hm⟩
    exact ⟨r, k, .inl hm⟩

theorem Calm.add {d : Deed} (hc : Calm h) (ht : ∀ n x k, d ≠ .threw n x k)
    (he : ∀ r k, d ≠ .escalated r k) : Calm (h ++ [d]) := by
  rwa [Calm, handlerThrew_add ht, handlerEscalated_add he]

theorem counted_add {d : Deed} : Counted (h ++ [d]) ↔ Counted h ∧ d.counted = true := by
  simp [Counted, or_imp, forall_and]

theorem Calm.counted (hc : Calm h) : Counted h := by
  intro d hd
  cases d with
  | threw n x k => exact absurd ⟨n, x, k, hd⟩ hc.1
  | escalated r k => exact absurd ⟨r, k, hd⟩ hc.2
  | _ => rfl

theorem not_counted (hn : ¬ Counted h) : HandlerThrew h ∨ HandlerEscalated h := by
  by_contra hc
  rw [not_or] at hc
  exact hn (Calm.counted hc)

theorem Concluding.raise {status : RunStatus} {reraise : Option Raised}
    (hc : Concluding s h status reraise) : Concluding s (h ++ [.storeRaised]) status reraise := by
  obtain ⟨hj, hcount, n, hu, hn⟩ := hc
  refine ⟨?_, counted_add.mpr ⟨hcount, rfl⟩, n, hu.other (by simp) (by simp), hn⟩
  cases status with
  | completed => exact ⟨hj.1.add (by simp) (by simp), hj.2⟩
  | escalated =>
    rwa [Justified, handlerThrew_add (by simp), handlerEscalated_add (by simp)]
  | failed =>
    obtain ⟨hesc, n, x, k, hm, hr⟩ := hj
    rw [Justified, handlerEscalated_add (by simp)]
    exact ⟨hesc, n, x, k, List.mem_append_left _ hm, hr⟩
  | pending => exact hj
  | running => exact hj

theorem CallEnd.raise {o o' : Outcome} (he : CallEnd s t h o) : CallEnd s t (h ++ [.storeRaised]) o' := by
  cases he with
  | pending live why => exact .pending live (.inl (by simp))
  | settled status reraise set concluding answers =>
    exact .settled status reraise set concluding.raise (.inl (by simp))

theorem CallEnd.raised {o : Outcome} (hl : t.Open s.call.runId) :
    CallEnd s t (h ++ [.storeRaised]) o := .pending hl (.inl (by simp))

theorem statusOf_append {stack : Nat} {r : StepRecord} (ha : t.append stack r = .ok t')
    (id : String) :
    t'.statusOf id = t.statusOf id := by
  rw [Tables.statusOf, Tables.runRow_append ha, Tables.statusOf]

theorem statusOf_setStatus {status : RunStatus} {error : Option PyStr}
    (hs : t.setStatus runId status error = .ok t') (hl : t.Open runId) :
    t'.statusOf runId = some status := by
  obtain ⟨err, he, _, _⟩ := Tables.setStatus_ok hs
  obtain ⟨old, ho, _⟩ := hl
  obtain ⟨row, hrow, _⟩ := Option.map_eq_some_iff.mp ho
  rw [Tables.statusOf, Tables.runRow_setStatus hs he, hrow]
  simp [Tables.settled, Tables.runRow_runId hrow]

theorem stepRecord_negative {ctx : StepContext} (hc : ¬ 0 ≤ ctx.tokensUsed) (s : Session)
    (f : Frame)
    (outcome : StepOutcome) (output : PyValue) (now : Datetime) :
    stepRecord s f outcome ctx output now = .error .validationError := by
  unfold stepRecord
  cases validateDict output with
  | none => rfl
  | some d => exact if_neg hc

theorem stepRecord_of_valid {ctx : StepContext} {output : PyValue} {d : StrDict}
    (hv : validateDict output = some d) (hc : 0 ≤ ctx.tokensUsed) (s : Session) (f : Frame)
    (outcome : StepOutcome) (now : Datetime) : ∃ r, stepRecord s f outcome ctx output now = .ok r := by
  unfold stepRecord
  rw [hv]
  simp only [if_pos hc]
  exact ⟨_, rfl⟩

end Deeds

section Steps

variable {s : Session} {f : Frame} {h : List Deed} {t : Tables} {n : Nat}

theorem next_tells (hl : t.Open s.call.runId) (hc : Calm h) (hu : Upto s h n n)
    (payload : StrDict) (previous : Outputs) :
    (s.next n payload previous).Tells s t h := by
  unfold Session.next
  split
  · rename_i hs
    exact ⟨rfl, hl, ⟨hc, rfl⟩, hc.counted, n, hu,
      iff_of_true rfl (List.getElem?_eq_none_iff.mp hs)⟩
  · rename_i step hs
    have hlt : n < s.call.plan.steps.length := (List.getElem?_eq_some_iff.mp hs).1
    simp only
    split
    · exact ⟨rfl, .pending hl (.inr (.inr ⟨hc, n, n, hlt, hu⟩))⟩
    · exact ⟨rfl, hl, hc, hu, hs⟩

theorem concludeFailure_tells {ctx : StepContext} {now : Datetime} {status : RunStatus}
    {reason : PyStr} {reraise : Option Raised} (hl : t.Open s.call.runId)
    (hj : Justified h status reraise) (hcount : Counted h ↔ 0 ≤ ctx.tokensUsed) (hu : Upto s h n n)
    (hn : status = .completed ↔ s.call.plan.steps.length ≤ n) :
    (concludeFailure s f ctx now status reason reraise).Tells s t h := by
  unfold concludeFailure
  by_cases htok : 0 ≤ ctx.tokensUsed
  · obtain ⟨r, hr⟩ := stepRecord_of_valid (validate_errorOutput reason) htok s f .failed now
    rw [hr]
    exact ⟨rfl, hl, hj, hcount.mpr htok, n, hu, hn⟩
  · rw [stepRecord_negative htok]
    exact ⟨rfl, .pending hl (.inr (.inl fun h => htok (hcount.mp h)))⟩

theorem conclude_tells {e : Execution} {now : Datetime} (hl : t.Open s.call.runId) (hc : Calm h)
    (hu : Upto s h f.index f.index)
    (hf : s.call.plan.steps[f.index]? = some f.step) (he : e.Admissible) :
    (conclude s f e now).Tells s t (h ++ (e.deed f.index).toList) := by
  have hlt : f.index < s.call.plan.steps.length := (List.getElem?_eq_some_iff.mp hf).1
  have hfails {status : RunStatus} (hne : status ≠ .completed) :
      status = .completed ↔ s.call.plan.steps.length ≤ f.index :=
    iff_of_false hne (Nat.not_le.mpr hlt)
  unfold conclude Execution.Admissible Execution.deed at *
  cases hres : e.result with
  | simulatedCrash =>
    rw [Option.toList_none, List.append_nil]
    exact ⟨rfl, .pending hl (.inr (.inr ⟨hc, f.index, f.index, hlt, hu⟩))⟩
  | escalation reason =>
    refine concludeFailure_tells hl
      ⟨⟨reason, _, List.mem_append_right _ List.mem_cons_self⟩, ?_, rfl⟩ ?_
      (hu.other (by simp) (by simp)) (hfails (by decide))
    · exact fun ht => hc.1 ((handlerThrew_add (by simp)).mp ht)
    · simp [counted_add, hc.counted, Deed.counted]
  | exception typeName text =>
    rw [hres] at he
    obtain ⟨x, rfl⟩ := Option.isSome_iff_exists.mp he
    refine concludeFailure_tells hl ⟨?_, typeName, x, _,
      List.mem_append_right _ List.mem_cons_self, rfl⟩ ?_
      (hu.other (by simp) (by simp)) (hfails (by decide))
    · exact fun ht => hc.2 ((handlerEscalated_add (by simp)).mp ht)
    · simp [counted_add, hc.counted, Deed.counted]
  | returned output =>
    rw [hres] at he
    obtain ⟨d, hd, _⟩ := json_dict_round_trip he
    have hcalm : Calm (h ++ [.returned f.index]) := hc.add (by simp) (by simp)
    by_cases htok : 0 ≤ e.context.tokensUsed
    · rcases stepRecord_of_valid hd htok s f (if e.context.wasHealed then .healed else .ok) now
        with ⟨r, hr⟩
      simp only [hr]
      exact ⟨rfl, hl, hcalm, hu.return⟩
    · simp only [stepRecord_negative htok]
      exact ⟨rfl, .pending hl (.inr (.inr ⟨hcalm, f.index + 1, f.index, hlt, hu.return⟩))⟩

theorem live_setStatus_running {t' : Tables} {runId : String} (hl : t.Open runId)
    (hs : t.setStatus runId .running none = .ok t') : t'.Open runId :=
  ⟨.running, statusOf_setStatus hs hl, rfl⟩

theorem live_append {t' : Tables} {stack : Nat} {r : StepRecord} {runId : String}
    (hl : t.Open runId)
    (ha : t.append stack r = .ok t') : t'.Open runId := by
  obtain ⟨status, hs, hn⟩ := hl
  exact ⟨status, (statusOf_append ha runId).trans hs, hn⟩

theorem reload_answers {runId : String} {status : RunStatus}
    (hs : t.statusOf runId = some status) : Answers t runId (reload t runId) none := by
  obtain ⟨row, hrow, _⟩ := Option.map_eq_some_iff.mp hs
  have hl : t.load runId = some (t.hydrate row) := by rw [Tables.load, hrow, Option.map_some]
  exact ⟨t.hydrate row, by rw [reload, hl], hl⟩

theorem appending_live {s' : Session} {r : StepRecord} {after : AfterAppend}
    (ht : (Control.appending s' f r after).Tells s t h) : s' = s ∧ t.Open s.call.runId := by
  cases after with
  | proceed payload previous => exact ⟨ht.1, ht.2.1⟩
  | settle status reason reraise => exact ⟨ht.1, ht.2.1⟩

theorem after_tells {t' : Tables} {r : StepRecord} {after : AfterAppend}
    (ht : (Control.appending s f r after).Tells s t h)
    (ha : t.append s.call.stack r = .ok t') :
    (after.control s f).Tells s t' (h ++ (after.deed f.index).toList) := by
  cases after with
  | proceed payload previous =>
    obtain ⟨_, hl, hc, hu⟩ := ht
    exact next_tells (live_append hl ha) (hc.add (by simp) (by simp)) hu.append payload previous
  | settle status reason reraise =>
    obtain ⟨_, hl, hc⟩ := ht
    refine ⟨rfl, live_append hl ha, ?_⟩
    simpa [AfterAppend.deed] using hc

variable {policy : LockPolicy ι} {w : ι} {sh sh' : Shared ι} {ctrl ctrl' : Control} {a : Action}

theorem failed_tells (ht : ctrl.Tells s sh.tables h) (hf : ctrl.failed = some ctrl') :
    ctrl'.Tells s sh.tables (h ++ [.storeRaised]) := by
  cases ctrl <;> cases hf
  case locking s' =>
    obtain ⟨rfl, hl, rfl⟩ := ht
    exact .raised hl
  case starting s' =>
    obtain ⟨rfl, hl, rfl⟩ := ht
    exact ⟨rfl, .raised hl⟩
  case appending s' f r after =>
    obtain ⟨rfl, hl⟩ := appending_live ht
    exact ⟨rfl, .raised hl⟩
  case settling s' status error reraise =>
    obtain ⟨rfl, hl, hc⟩ := ht
    exact ⟨rfl, .raised hl⟩
  case reloading s' =>
    obtain ⟨rfl, status, hset, hc⟩ := ht
    exact ⟨rfl, .settled status none hset hc.raise (.inl (by simp))⟩
  case releasing s' o =>
    obtain ⟨rfl, he⟩ := ht
    exact he.raise
  case loading c => exact False.elim ht
  case conflicted key => exact False.elim ht

variable [DecidableEq ι]

theorem Performed.tells (hp : Performed w sh ctrl sh' ctrl') (ht : ctrl.Tells s sh.tables h) :
    ctrl'.Tells s sh'.tables (h ++ (deed sh.tables ctrl .store).toList) := by
  cases hp with
  | loaded => exact False.elim ht
  | @startRefused s' e refused =>
    obtain ⟨rfl, hl, rfl⟩ := ht
    rw [deed, refused]
    exact ⟨rfl, .raised hl⟩
  | @started s' t set =>
    obtain ⟨rfl, hl, rfl⟩ := ht
    rw [deed, set]
    exact next_tells (live_setStatus_running hl set) .nil (.start s') _ _
  | appendRefused refused =>
    obtain ⟨rfl, hl⟩ := appending_live ht
    rw [deed, refused]
    exact ⟨rfl, .raised hl⟩
  | appended stored =>
    obtain ⟨rfl, hl⟩ := appending_live ht
    rw [deed, stored]
    exact after_tells ht stored
  | settleRefused refused =>
    obtain ⟨rfl, hl, hc⟩ := ht
    rw [deed, refused]
    exact ⟨rfl, .raised hl⟩
  | settled set =>
    obtain ⟨rfl, hl, hc⟩ := ht
    rw [deed, set, storeDeed, Option.toList_none, List.append_nil]
    exact ⟨rfl, _, statusOf_setStatus set hl, hc⟩
  | @reraised s' status error e t set =>
    obtain ⟨rfl, hl, hc⟩ := ht
    rw [deed, set, storeDeed, Option.toList_none, List.append_nil]
    exact ⟨rfl, .settled status (some e) (statusOf_setStatus set hl) hc (.inr rfl)⟩
  | reloaded =>
    obtain ⟨rfl, status, hset, hc⟩ := ht
    simp only [deed, Option.toList_none, List.append_nil]
    exact ⟨rfl, .settled status none hset hc (.inr (reload_answers hset))⟩
  | released =>
    obtain ⟨rfl, he⟩ := ht
    simp only [deed, Option.toList_none, List.append_nil]
    exact he

-- the operation took effect and raised all the same
theorem Performed.outage_tells {ctrl'' : Control} (hp : Performed w sh ctrl sh' ctrl'')
    (ht : ctrl.Tells s sh.tables h) (hf : ctrl.failed = some ctrl') :
    ctrl'.Tells s sh'.tables (h ++ [.storeRaised]) := by
  cases hp with
  | started set =>
    cases hf
    obtain ⟨rfl, hl, rfl⟩ := ht
    exact ⟨rfl, .raised (live_setStatus_running hl set)⟩
  | appended stored =>
    cases hf
    obtain ⟨rfl, hl⟩ := appending_live ht
    exact ⟨rfl, .raised (live_append hl stored)⟩
  | @settled s' status error t set =>
    cases hf
    obtain ⟨rfl, hl, hc⟩ := ht
    exact ⟨rfl, .settled status none (statusOf_setStatus set hl) hc.raise (.inl (by simp))⟩
  | @reraised s' status error e t set =>
    cases hf
    obtain ⟨rfl, hl, hc⟩ := ht
    exact ⟨rfl, .settled status (some e) (statusOf_setStatus set hl) hc.raise (.inl (by simp))⟩
  | _ => exact failed_tells ht hf

theorem outage_tells {applied : Bool} (ht : ctrl.Tells s sh.tables h)
    (hf : ctrl.failed = some ctrl') :
    ctrl'.Tells s (if applied then outageEffect policy w sh ctrl else sh).tables
      (h ++ [.storeRaised]) := by
  have hfailed := failed_tells ht hf
  split
  · apply outageEffect_cases
      (P := fun sh' => ctrl'.Tells s sh'.tables (h ++ [Deed.storeRaised])) hfailed
    · exact fun _ _ _ => hfailed
    · exact fun sh' ctrl'' hp => hp.outage_tells ht hf
  · exact hfailed

theorem workerStep_tells (hreg : ∀ step ∈ s.call.plan.steps, step.name ∈ s.call.handlers)
    (hin : a.InCall) (ht : ctrl.Tells s sh.tables h)
    (hw : workerStep policy w sh ctrl a = some (sh', ctrl')) :
    ctrl'.Tells s sh'.tables (h ++ (deed sh.tables ctrl a).toList) := by
  cases workerStep_took hw with
  | submitted _ => exact False.elim hin
  | conflict _ _ => exact False.elim ht
  | called => exact False.elim hin
  | stored performed => exact performed.tells ht
  | granted _ =>
    obtain ⟨rfl, hl, rfl⟩ := ht
    exact ⟨rfl, hl, rfl⟩
  | refused _ =>
    obtain ⟨rfl, hl, rfl⟩ := ht
    exact .raised hl
  | began known =>
    simp only [deed, Option.toList_none, List.append_nil]
    exact ht
  | @missing s' f now unknown =>
    obtain ⟨rfl, _, _, _, hf⟩ := ht
    exact absurd (hreg f.step (List.mem_of_getElem? hf)) unknown
  | returned result =>
    obtain ⟨rfl, hl, hc, hu, hf⟩ := ht
    exact conclude_tells hl hc hu hf hin
  | threw result =>
    obtain ⟨rfl, hl, hc, hu, hf⟩ := ht
    exact conclude_tells hl hc hu hf hin
  | outage failed => exact outage_tells ht failed
  | died => exact False.elim hin

end Steps

def runCall [DecidableEq ι] (policy : LockPolicy ι) (w : ι) :
    Alone ι → List Action → Option (Alone ι) :=
  Transition.run fun c a => workerStep policy w c.1 c.2 a

def deeds [DecidableEq ι] (policy : LockPolicy ι) (w : ι) : Alone ι → List Action → List Deed :=
  Transition.trace (fun c a => workerStep policy w c.1 c.2 a) fun c a => deed c.1.tables c.2 a

section Endings

variable {s : Session} {h : List Deed} {t : Tables} {o : Outcome} {status : RunStatus}
  {reraise : Option Raised}

theorem Upto.stepsAppended {n : Nat} (hu : Upto s h n n)
    (hn : s.call.plan.steps.length ≤ n) : StepsAppended s h := fun i hi hlt =>
  ⟨(hu.returned i).mpr ⟨hi, hlt.trans_le hn⟩, (hu.appended i).mpr ⟨hi, hlt.trans_le hn⟩⟩

theorem Upto.not_stepsAppended {m n : Nat} (hu : Upto s h m n)
    (hn : n < s.call.plan.steps.length) : ¬ StepsAppended s h := fun ha =>
  lt_irrefl n ((hu.appended n).mp (ha n hu.resumed hn).2).2

theorem Concluding.threw_iff (hc : Concluding s h status reraise) :
    HandlerThrew h ↔ status = .failed := by
  obtain ⟨hj, _⟩ := hc
  cases status with
  | completed => exact iff_of_false hj.1.1 (by decide)
  | escalated => exact iff_of_false hj.2.1 (by decide)
  | failed =>
    obtain ⟨n, x, k, hm, _⟩ := hj.2
    exact iff_of_true ⟨n, some x, k, hm⟩ rfl
  | pending => exact False.elim hj
  | running => exact False.elim hj

theorem Concluding.escalated_iff (hc : Concluding s h status reraise) :
    HandlerEscalated h ↔ status = .escalated := by
  obtain ⟨hj, _⟩ := hc
  cases status with
  | completed => exact iff_of_false hj.1.2 (by decide)
  | escalated => exact iff_of_true hj.1 rfl
  | failed => exact iff_of_false hj.1 (by decide)
  | pending => exact False.elim hj
  | running => exact False.elim hj

theorem Concluding.appended_iff (hc : Concluding s h status reraise) :
    StepsAppended s h ↔ status = .completed := by
  obtain ⟨_, _, n, hu, hn⟩ := hc
  rw [hn]
  constructor
  · intro ha
    by_contra hlt
    exact hu.not_stepsAppended (Nat.lt_of_not_le hlt) ha
  · exact hu.stepsAppended

-- the status a call leaves has its cause in the call
structure Causes (s : Session) (t : Tables) (h : List Deed) : Prop where
  failed : t.statusOf s.call.runId = some .failed → HandlerThrew h
  escalated : t.statusOf s.call.runId = some .escalated → HandlerEscalated h
  completed : t.statusOf s.call.runId = some .completed → StepsAppended s h
  otherwise : ¬ HandlerThrew h → ¬ HandlerEscalated h → ¬ StepsAppended s h → t.Open s.call.runId

-- with no store operation raising the causes have their effect, and the call answers accordingly
structure Effects (s : Session) (t : Tables) (h : List Deed) (o : Outcome) : Prop where
  failed : t.statusOf s.call.runId = some .failed ↔ HandlerThrew h
  escalated : t.statusOf s.call.runId = some .escalated ↔ HandlerEscalated h
  completed : t.statusOf s.call.runId = some .completed ↔ StepsAppended s h
  returns : t.statusOf s.call.runId = some .completed ∨ t.statusOf s.call.runId = some .escalated →
    ∃ state, o = .returned state ∧ t.load s.call.runId = some state
  reraises : t.statusOf s.call.runId = some .failed →
    ∃ n x k, .threw n (some x) k ∈ h ∧ o = .raised (.handler n (some x))

def ToldApart (s : Session) (t : Tables) (h : List Deed) (o : Outcome) : Prop :=
  Causes s t h ∧ (.storeRaised ∉ h → Effects s t h o)

theorem Tables.Open.not_settled (hl : t.Open s.call.runId) (ht : status.isTerminal = true) :
    t.statusOf s.call.runId ≠ some status := by
  obtain ⟨status', hs, hn⟩ := hl
  intro hst
  rw [hs] at hst
  cases hst
  rw [ht] at hn
  cases hn

theorem CallEnd.causes (he : CallEnd s t h o) : Causes s t h := by
  cases he with
  | pending live why =>
    exact ⟨fun hst => absurd hst (live.not_settled rfl),
      fun hst => absurd hst (live.not_settled rfl), fun hst => absurd hst (live.not_settled rfl),
      fun _ _ _ => live⟩
  | settled status reraise set concluding answers =>
    constructor
    · rw [set, concluding.threw_iff]
      exact Option.some.inj
    · rw [set, concluding.escalated_iff]
      exact Option.some.inj
    · rw [set, concluding.appended_iff]
      exact Option.some.inj
    · rw [concluding.threw_iff, concluding.escalated_iff, concluding.appended_iff]
      intro h1 h2 h3
      have hj := concluding.1
      cases status with
      | completed => exact absurd rfl h3
      | escalated => exact absurd rfl h2
      | failed => exact absurd rfl h1
      | pending => exact False.elim hj
      | running => exact False.elim hj

theorem Concluding.effects (hc : Concluding s h status reraise)
    (set : t.statusOf s.call.runId = some status) (answers : Answers t s.call.runId o reraise) :
    Effects s t h o := by
  constructor
  · rw [set, hc.threw_iff, Option.some.injEq]
  · rw [set, hc.escalated_iff, Option.some.injEq]
  · rw [set, hc.appended_iff, Option.some.injEq]
  · rw [set]
    rintro (hst | hst) <;> cases hst
    · obtain rfl := hc.1.2
      exact answers
    · obtain rfl := hc.1.2.2
      exact answers
  · rw [set]
    intro hst
    cases hst
    obtain ⟨n, x, k, hm, rfl⟩ := hc.1.2
    exact ⟨n, x, k, hm, answers⟩

-- an exception with a negative total is the one that leaves no status behind
theorem CallEnd.effects_iff (he : CallEnd s t h o) (hr : .storeRaised ∉ h) :
    Effects s t h o ↔ Counted h := by
  cases he with
  | pending live why =>
    constructor
    · intro heff
      by_contra hn
      rcases not_counted hn with ht | ht
      · exact live.not_settled rfl (heff.failed.mpr ht)
      · exact live.not_settled rfl (heff.escalated.mpr ht)
    · intro hcount
      obtain ⟨hc, m, n, hlt, hu⟩ := (why.resolve_left hr).resolve_left (not_not_intro hcount)
      refine ⟨iff_of_false (live.not_settled rfl) hc.1, iff_of_false (live.not_settled rfl) hc.2,
        iff_of_false (live.not_settled rfl) (hu.not_stepsAppended hlt), ?_,
        fun hst => absurd hst (live.not_settled rfl)⟩
      rintro (hst | hst) <;> exact absurd hst (live.not_settled rfl)
  | settled status reraise set concluding answers =>
    exact iff_of_true (concluding.effects set (answers.resolve_left hr)) concluding.2.1

end Endings

theorem Admitted.tells {t : Tables} {s : Session} (ha : Admitted t s) :
    (Control.locking s).Tells s t [] := by
  obtain ⟨row, hrow, _, hst⟩ := load_eq_some ha.load
  refine ⟨rfl, ⟨row.status, ?_, ?_⟩, rfl⟩
  · rw [Tables.statusOf, hrow, Option.map_some]
  · have hactive := ha.active
    rwa [hst] at hactive

section Calls

variable [DecidableEq ι] {policy : LockPolicy ι} {w : ι} {sh sh' : Shared ι} {s : Session}
  {as : List Action} {o : Outcome}

theorem call_ending (ha : Admitted sh.tables s) (hin : ∀ a ∈ as, a.InCall)
    (hrun : runCall policy w (sh, .locking s) as = some (sh', .atRest (some o))) :
    CallEnd s sh'.tables (deeds policy w (sh, .locking s) as) o := by
  have h := Transition.run_trace (f := fun (c : Alone ι) a => deed c.1.tables c.2 a)
    (p := fun a => a.InCall) (I := fun c h => c.2.Tells s c.1.tables h)
    (fun _ _ _ _ ht hp hs => workerStep_tells ha.registered hp ht hs) ha.tells hin hrun
  exact h

def freshTables : Tables where
  runs := [⟨"run", "order-0001", "payment", [], .pending, none, 0⟩]
  stepRecords := []

def freshSession : Session where
  call := chargeCall
  state := ⟨"run", "order-0001", .pending, "payment", [], [], none⟩

def fresh : Shared Unit := ⟨freshTables, fun _ => none, []⟩

def raisesFrom (tokens : List Int) : Execution where
  result := .exception (.ofString "ValueError") (some (.ofString "bad answer"))
  context := { runId := "run", index := 0, payload := [], previous := [], tokens := tokens }

def Control.last : Control → Option Outcome
  | .atRest last => last
  | _ => none

theorem Control.last_eq {ctrl : Control} {o : Outcome} (h : ctrl.last = some o) :
    ctrl = .atRest (some o) := by
  cases ctrl with
  | atRest last =>
    obtain rfl : last = some o := h
    rfl
  | _ => cases h

theorem endsWith {as : List Action} {status : RunStatus}
    (h : (runCall perfectLock () (fresh, .locking freshSession) as).any (fun c =>
      c.2.last.isSome && decide (c.1.tables.statusOf "run" = some status)) = true) :
    ∃ sh' o, runCall perfectLock () (fresh, .locking freshSession) as =
      some (sh', .atRest (some o)) ∧ sh'.tables.statusOf "run" = some status := by
  obtain ⟨⟨sh', ctrl⟩, hrun, hq⟩ := (Option.any_eq_true _ _).mp h
  rw [Bool.and_eq_true, decide_eq_true_eq] at hq
  obtain ⟨o, ho⟩ := Option.isSome_iff_exists.mp hq.1
  obtain rfl : ctrl = .atRest (some o) := Control.last_eq ho
  exact ⟨sh', o, hrun, hq.2⟩

theorem fresh_admitted : Admitted fresh.tables freshSession :=
  ⟨rfl, rfl, rfl, by decide⟩

def unbillable : List Action := [.lock true, .store, .begin, .finish (raisesFrom [-1]) epoch, .store]

theorem negative_tokens_leave_run_open :
    ¬ ∀ (sh sh' : Shared Unit) (s : Session) (as : List Action) (o : Outcome),
      Admitted sh.tables s → (∀ a ∈ as, a.InCall) →
      runCall perfectLock () (sh, .locking s) as = some (sh', .atRest (some o)) →
      ToldApart s sh'.tables (deeds perfectLock () (sh, .locking s) as) o := by
  intro h
  have hin : ∀ a ∈ unbillable, a.InCall := by
    simp [unbillable, Action.InCall, Execution.Admissible, raisesFrom]
  have hd : deeds perfectLock () (fresh, .locking freshSession) unbillable =
      [.threw (.ofString "ValueError") (some (.ofString "bad answer")) (-1)] := by decide +kernel
  have hs : (runCall perfectLock () (fresh, .locking freshSession) unbillable).any (fun c =>
      c.2.last.isSome && decide (c.1.tables.statusOf "run" = some .running)) = true := by
    decide +kernel
  obtain ⟨sh', o, hrun, hstatus⟩ := endsWith hs
  have htold := (h fresh sh' freshSession unbillable o fresh_admitted hin hrun).2
  rw [hd] at htold
  have hf := (htold (by simp)).failed.mpr ⟨_, _, _, List.mem_cons_self⟩
  rw [show freshSession.call.runId = "run" from rfl, hstatus] at hf
  cases hf

theorem outcomes_told_apart_iff (ha : Admitted sh.tables s) (hin : ∀ a ∈ as, a.InCall)
    (hrun : runCall policy w (sh, .locking s) as = some (sh', .atRest (some o))) :
    Causes s sh'.tables (deeds policy w (sh, .locking s) as) ∧
    (ToldApart s sh'.tables (deeds policy w (sh, .locking s) as) o ↔
      .storeRaised ∈ deeds policy w (sh, .locking s) as ∨
        Counted (deeds policy w (sh, .locking s) as)) := by
  have he := call_ending ha hin hrun
  refine ⟨he.causes, ?_⟩
  rw [ToldApart, and_iff_right he.causes]
  by_cases hr : .storeRaised ∈ deeds policy w (sh, .locking s) as
  · exact iff_of_true (fun hn => absurd hr hn) (.inl hr)
  · rw [imp_iff_right hr, or_iff_right hr, he.effects_iff hr]

def failing : List Action :=
  [.lock true, .store, .begin, .finish (raisesFrom [3]) epoch, .store, .store, .store]

theorem outcomes_told_apart_failed :
    ∃ (sh' : Shared Unit) (o : Outcome),
      runCall perfectLock () (fresh, .locking freshSession) failing =
        some (sh', .atRest (some o)) ∧
      sh'.tables.statusOf "run" = some .failed ∧
      ToldApart freshSession sh'.tables
        (deeds perfectLock () (fresh, .locking freshSession) failing) o := by
  have hin : ∀ a ∈ failing, a.InCall := by
    simp [failing, Action.InCall, Execution.Admissible, raisesFrom]
  have hcount : Counted (deeds perfectLock () (fresh, .locking freshSession) failing) := by
    decide +kernel
  have hs : (runCall perfectLock () (fresh, .locking freshSession) failing).any (fun c =>
      c.2.last.isSome && decide (c.1.tables.statusOf "run" = some .failed)) = true := by
    decide +kernel
  obtain ⟨sh', o, hrun, hstatus⟩ := endsWith hs
  exact ⟨sh', o, hrun, hstatus,
    (outcomes_told_apart_iff fresh_admitted hin hrun).2.mpr (.inr hcount)⟩

end Calls

end DurableAgent
