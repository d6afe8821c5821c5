import DurableAgent.Sequential
import DurableAgent.Library.Receiver

namespace DurableAgent

open FirstWriter Interleaving Receiver

variable {ι σ : Type}

-- `demo.py`'s payment provider
structure Gateway where
  seen : Dict String String
  attempts : Nat

namespace Gateway

def empty : Gateway := ⟨[], 0⟩

def charge (g : Gateway) (token : String) : Gateway × String × Bool :=
  match Dict.get? g.seen token with
  | some receipt => ({ g with attempts := g.attempts + 1 }, receipt, true)
  | none =>
      let receipt := "rcpt_" ++ String.ofList (token.toList.take 10)
      (⟨Dict.set g.seen token receipt, g.attempts + 1⟩, receipt, false)

def known (g : Gateway) (token : String) : Option String := Dict.get? g.seen token

theorem deduplicates : Deduplicates charge known := by
  refine ⟨?_, ?_, ?_, ?_⟩
  · intro g token
    unfold charge known
    cases Dict.get? g.seen token <;> rfl
  · intro g token
    unfold charge
    cases hg : Dict.get? g.seen token with
    | none => exact Dict.get?_set_self ..
    | some receipt => exact hg
  · intro g token receipt h
    have hg : Dict.get? g.seen token = some receipt := h
    unfold charge
    rw [hg]
  · intro g token other h
    unfold charge
    cases Dict.get? g.seen token with
    | none => exact Dict.get?_set_ne _ _ h
    | some receipt => rfl

end Gateway

-- a request the provider acted on, with the step that made it
structure Payment where
  token : String
  runId : String
  index : Nat
  name : String

-- the engine beside the provider; `payments` remembers what the provider did and who asked
structure World (ι σ : Type) where
  engine : Shared ι
  provider : σ
  payments : List Payment

-- `receipt` is what the provider answered to the handler that is running
structure Hand where
  control : Control
  receipt : Option String

inductive Doing where
  | engine (a : Action)
  | charge

def receiptOutput (receipt : String) : PyValue :=
  .dict [(.str (.ofString "receipt"), .str (.ofString receipt))]

def receiptRecord (receipt : String) : StrDict := [(.ofString "receipt", .str (.ofString receipt))]

def Action.begins : Action → Bool
  | .begin => true
  | _ => false

-- a handler that is running, of whatever step, asks under its context's token when it likes
def payStep [DecidableEq ι] (blake2b : String → String) (act : σ → String → σ × String × Bool)
    (policy : LockPolicy ι) (w : ι) (wd : World ι σ) (h : Hand) :
    Doing → Option (World ι σ × Hand)
  | .charge =>
      match h.control with
      | .handling s f =>
          let token := (f.context s).effectToken blake2b
          let r := act wd.provider token
          some ({ wd with
            provider := r.1
            payments := if r.2.2 then wd.payments
              else wd.payments ++ [⟨token, s.call.runId, f.index, f.step.name⟩] },
            { h with receipt := some r.2.1 })
      | _ => none
  | .engine a =>
      (workerStep policy w wd.engine h.control a).map fun r =>
        ({ wd with engine := r.1 }, ⟨r.2, if a.begins then none else h.receipt⟩)

def Doing.Calls (Q : Call → Prop) : Doing → Prop
  | .engine a => a.Calls Q
  | .charge => True

instance Doing.decidableCalls {Q : Call → Prop} [DecidablePred Q] (d : Doing) :
    Decidable (d.Calls Q) := by
  unfold Doing.Calls
  split <;> infer_instance

-- the handler of a step marked `effect` returns, where it returns, the receipt it was given
def HandsReceipt (h : Hand) : Doing → Prop
  | .engine a => ∀ x ∈ h.control.finishing a, ∀ output ∈ x.2.2.result.output,
      x.2.1.step.effect = true → ∃ receipt ∈ h.receipt, output = receiptOutput receipt
  | .charge => True

instance (h : Hand) (d : Doing) : Decidable (HandsReceipt h d) :=
  match d with
  | .engine _ => inferInstanceAs (Decidable (∀ x ∈ _, ∀ output ∈ _, _ → ∃ receipt ∈ _, _))
  | .charge => instDecidableTrue

def World.start (provider : σ) : Config ι (World ι σ) Hand :=
  ⟨⟨(System.start Tables.empty).shared, provider, []⟩, fun _ => ⟨.atRest none, none⟩⟩

def runWorld [DecidableEq ι] (blake2b : String → String) (act : σ → String → σ × String × Bool)
    (policy : LockPolicy ι) :
    Config ι (World ι σ) Hand → List (ι × Doing) → Option (Config ι (World ι σ) Hand) :=
  Transition.run (Interleaving.step (payStep blake2b act policy))

abbrev alongWorld [DecidableEq ι] (blake2b : String → String)
    (act : σ → String → σ × String × Bool) (policy : LockPolicy ι)
    (p : World ι σ → Hand → Doing → Prop) :
    Config ι (World ι σ) Hand → List (ι × Doing) → Prop :=
  Transition.along (Interleaving.step (payStep blake2b act policy)) (guarded p)

section Moves

-- what a step of the world does: one of the engine, or a request to the provider
inductive Dealt (blake2b : String → String) (act : σ → String → σ × String × Bool)
    (policy : LockPolicy ι) (w : ι) (wd : World ι σ) (h : Hand) :
    Doing → World ι σ → Hand → Prop where
  | engine {a sh ctrl} (move : Move policy w wd.engine h.control a sh ctrl) :
      Dealt blake2b act policy w wd h (.engine a) { wd with engine := sh }
        ⟨ctrl, if a.begins then none else h.receipt⟩
  | charged {s f} (at_ : h.control = .handling s f) :
      Dealt blake2b act policy w wd h .charge
        { wd with
          provider := (act wd.provider ((f.context s).effectToken blake2b)).1
          payments :=
            if (act wd.provider ((f.context s).effectToken blake2b)).2.2 then wd.payments
            else wd.payments ++
              [⟨(f.context s).effectToken blake2b, s.call.runId, f.index, f.step.name⟩] }
        { h with receipt := some (act wd.provider ((f.context s).effectToken blake2b)).2.1 }

variable [DecidableEq ι] {blake2b : String → String} {act : σ → String → σ × String × Bool}
  {policy : LockPolicy ι} {w : ι} {wd wd' : World ι σ} {h h' : Hand} {d : Doing}

theorem payStep_engine {a : Action}
    (hp : payStep blake2b act policy w wd h (.engine a) = some (wd', h')) :
    ∃ sh ctrl, workerStep policy w wd.engine h.control a = some (sh, ctrl) ∧
      wd' = { wd with engine := sh } ∧ h' = ⟨ctrl, if a.begins then none else h.receipt⟩ := by
  obtain ⟨⟨sh, ctrl⟩, hs, he⟩ := Option.map_eq_some_iff.mp hp
  cases he
  exact ⟨sh, ctrl, hs, rfl, rfl⟩

theorem payStep_charge (hp : payStep blake2b act policy w wd h .charge = some (wd', h')) :
    Dealt blake2b act policy w wd h .charge wd' h' := by
  simp only [payStep] at hp
  split at hp
  · rename_i s f hc
    cases hp
    exact .charged hc
  · cases hp

theorem payStep_dealt (hp : payStep blake2b act policy w wd h d = some (wd', h')) :
    Dealt blake2b act policy w wd h d wd' h' := by
  cases d with
  | engine a =>
    obtain ⟨sh, ctrl, hs, rfl, rfl⟩ := payStep_engine hp
    exact .engine (workerStep_move hs)
  | charge => exact payStep_charge hp

-- seen without the provider, the world is the engine
theorem payStep_projects {Q : Call → Prop} (hd : d.Calls Q)
    (hp : payStep blake2b act policy w wd h d = some (wd', h')) :
    Solo (workerStep policy) (fun _ _ a => a.Calls Q) w wd.engine h.control wd'.engine
      h'.control := by
  cases d with
  | engine a =>
    obtain ⟨sh, ctrl, hs, rfl, rfl⟩ := payStep_engine hp
    exact .one hd hs
  | charge =>
    cases payStep_charge hp with
    | charged at_ => exact .none

end Moves

section Receipts

variable {α : Type} (blake2b : String → String) (known : σ → String → Option String)

-- what the provider did, whatever the handlers ask for and return
structure World.Booked (runId : String) (plan : Plan) (wd : World ι σ) : Prop where
  ledger : Ledger known wd.provider (wd.payments.map Payment.token)
  tokens : ∀ p ∈ wd.payments, p.token = effectToken blake2b p.runId p.index
  planned : ∀ p ∈ wd.payments, p.runId = runId →
    ∃ step, plan.steps[p.index]? = some step ∧ step.name = p.name

-- what the run has to show for it, where the effect steps return their receipts
structure World.Paid (runId : String) (plan : Plan) (wd : World ι σ) : Prop where
  returned : ∀ name ctx output, Event.returned name ctx output ∈ wd.engine.log →
    ctx.runId = runId → ∀ step, plan.steps[ctx.index]? = some step → step.effect = true →
      (known wd.provider (ctx.effectToken blake2b)).isSome = true
  rows : ∀ row ∈ wd.engine.tables.rowsOf runId, row.outcome ≠ .failed →
    ∀ step, plan.steps[row.stepIndex]? = some step → step.effect = true →
      ∃ receipt, known wd.provider (effectToken blake2b runId row.stepIndex) = some receipt ∧
        loadsObject row.output = receiptRecord receipt
  completed : ∀ row, wd.engine.tables.runRow runId = some row → row.status = .completed →
    ∀ i step, plan.steps[i]? = some step → Executed wd.engine.log runId step.name i

def Hand.Paid (wd : World ι σ) (h : Hand) : Prop :=
  match h.control with
  | .handling s f => ∀ receipt, h.receipt = some receipt →
      known wd.provider ((f.context s).effectToken blake2b) = some receipt
  | .appending s f r _ => r.outcome ≠ .failed → f.step.effect = true →
      ∃ receipt, known wd.provider ((f.context s).effectToken blake2b) = some receipt ∧
        r.output = receiptRecord receipt
  | _ => True

variable {blake2b known} {policy : LockPolicy ι} {w : ι} {sh sh' : Shared ι}
  {ctrl ctrl' : Control} {a : Action}

theorem Move.new_returned (h : Move policy w sh ctrl a sh' ctrl') {name : String}
    {ctx : StepContext} {output : PyValue} (he : Event.returned name ctx output ∈ sh'.log) :
    Event.returned name ctx output ∈ sh.log ∨
      ∃ s f e now, ctrl = .handling s f ∧ a = .finish e now ∧ e.result = .returned output ∧
        name = f.step.name ∧ ctx = f.context s := by
  cases h with
  | rest tables log inert => exact .inl (log ▸ he)
  | began known =>
    rcases List.mem_append.mp he with hold | hnew
    · exact .inl hold
    · cases List.mem_singleton.mp hnew
  | returned result =>
    rcases List.mem_append.mp he with hold | hnew
    · exact .inl hold
    · cases List.mem_singleton.mp hnew
      exact .inr ⟨_, _, _, _, rfl, rfl, result, rfl, rfl⟩
  | @appended s f r after a t ctrl' writes stored next =>
    have hl : Event.returned name ctx output ∈ (sh.checkpoint t (f.context s) r).log := he
    unfold Shared.checkpoint at hl
    simp only at hl
    split at hl
    · exact .inl hl
    · rcases List.mem_append.mp hl with hold | hnew
      · exact .inl hold
      · cases List.mem_singleton.mp hnew
  | _ => exact .inl he

theorem validate_receipt (receipt : String) :
    validateDict (receiptOutput receipt) = some (receiptRecord receipt) := by
  simp [validateDict, validateItems, receiptOutput, receiptRecord, strOfKey, Dict.ofPairs, Dict.set]

theorem loads_receipt {receipt : String} {output : JsonObject}
    (h : toJsonObject (receiptRecord receipt) = some output) :
    loadsObject output = receiptRecord receipt := by
  obtain ⟨o, ho, hl⟩ := loadsObject_toJsonObject (d := receiptRecord receipt)
    (by simp [receiptRecord, Dict.keys]) (by simp [receiptRecord, isJson])
  rw [ho] at h
  rw [← Option.some.inj h, hl]

section Kept

variable {wd : World ι σ} {h : Hand} {runId : String} {plan : Plan}

theorem inert_paid {receipt : Option String} (hi : ctrl.inert = true) :
    Hand.Paid blake2b known wd ⟨ctrl, receipt⟩ := by
  cases ctrl <;> trivial

theorem next_paid {s : Session} {receipt : Option String} (n : Nat) (payload : StrDict)
    (previous : Outputs) :
    Hand.Paid blake2b known wd ⟨s.next n payload previous, receipt⟩ := by
  apply next_cases (P := fun ctrl => Hand.Paid blake2b known wd ⟨ctrl, receipt⟩)
  · intro _
    trivial
  · intro step _
    trivial
  · intro o
    trivial

theorem conclude_paid {s : Session} {f : Frame} {e : Execution} {now : Datetime}
    {receipt : Option String}
    (hout : ∀ output, e.result = .returned output → f.step.effect = true → ∃ r,
      known wd.provider ((f.context s).effectToken blake2b) = some r ∧ output = receiptOutput r) :
    Hand.Paid blake2b known wd ⟨conclude s f e now, receipt⟩ := by
  apply conclude_cases (P := fun ctrl => Hand.Paid blake2b known wd ⟨ctrl, receipt⟩)
  · intro o
    trivial
  · intro status reason reraise r _ hr hne
    exact absurd (stepRecord_ok hr).2.2.2.1 hne
  · intro output r ho hr _ heff
    obtain ⟨rc, hk, rfl⟩ := hout output ho heff
    refine ⟨rc, hk, ?_⟩
    have hv := (stepRecord_ok hr).2.2.2.2
    rw [validate_receipt] at hv
    exact (Option.some.inj hv).symm

-- what the handler of an effect step returns was given by the provider
theorem returned_receipt {s : Session} {f : Frame} {e : Execution} {now : Datetime}
    (hh : HandsReceipt h (.engine (.finish e now))) (hc : h.control = .handling s f)
    (hp : h.Paid blake2b known wd) {output : PyValue} (ho : e.result = .returned output)
    (heff : f.step.effect = true) : ∃ r,
      known wd.provider ((f.context s).effectToken blake2b) = some r ∧ output = receiptOutput r := by
  have hpaid : ∀ receipt, h.receipt = some receipt →
      known wd.provider ((f.context s).effectToken blake2b) = some receipt := by
    simpa only [Hand.Paid, hc] using hp
  have hfinishing : h.control.finishing (.finish e now) = some (s, f, e) := by
    rw [hc]
    rfl
  have houtput : e.result.output = some output := by
    rw [ho]
    rfl
  obtain ⟨r, hr, rfl⟩ := hh _ hfinishing _ houtput heff
  exact ⟨r, hpaid r hr, rfl⟩

theorem engine_hand_paid (hh : HandsReceipt h (.engine a))
    (hm : Move policy w wd.engine h.control a sh' ctrl') (hp : h.Paid blake2b known wd) :
    Hand.Paid blake2b known { wd with engine := sh' }
      ⟨ctrl', if a.begins then none else h.receipt⟩ := by
  obtain ⟨ctrl, receipt⟩ := h
  cases hm with
  | rest tables log inert => exact inert_paid inert
  | submitted inserted => trivial
  | called => trivial
  | snapshot load active matched => trivial
  | granted free => trivial
  | started writes set next =>
    rcases next with rfl | inert
    · exact next_paid _ _ _
    · exact inert_paid inert
  | began known =>
    intro r hr
    cases hr
  | missing unknown =>
    apply conclude_paid
    intro output ho
    cases ho
  | returned result => exact conclude_paid fun output ho heff => returned_receipt hh rfl hp ho heff
  | threw result => exact conclude_paid fun output ho => absurd ho (result output)
  | appended writes stored next =>
    rcases next with rfl | inert
    · rename_i s f r after t
      cases after with
      | proceed payload previous => exact next_paid _ _ _
      | settle status reason reraise => trivial
    · exact inert_paid inert
  | settled writes set inert => exact inert_paid inert

theorem engine_returned (hh : HandsReceipt h (.engine a))
    (hm : Move policy w wd.engine h.control a sh' ctrl') (hs : h.control.Sound wd.engine.tables)
    (hc : h.control.Calls (PlanFor runId plan)) (hp : h.Paid blake2b known wd)
    (hw : wd.Paid blake2b known runId plan) {name : String} {ctx : StepContext} {output : PyValue}
    (he : Event.returned name ctx output ∈ sh'.log) (hid : ctx.runId = runId) {step : Step}
    (hstep : plan.steps[ctx.index]? = some step) (heff : step.effect = true) :
    (known wd.provider (ctx.effectToken blake2b)).isSome = true := by
  rcases hm.new_returned he with hold | ⟨s, f, e, now, hctrl, rfl, ho, rfl, rfl⟩
  · exact hw.returned name ctx output hold hid step hstep heff
  · rw [hctrl] at hs hc
    have hplan : s.call.plan = plan := hc hid
    have hf : s.call.plan.steps[f.index]? = some f.step := hs.2.step
    rw [hplan] at hf
    obtain rfl : f.step = step := Option.some.inj (hf.symm.trans hstep)
    obtain ⟨r, hr, _⟩ := returned_receipt hh hctrl hp ho heff
    rw [hr, Option.isSome_some]

theorem engine_rows (hm : Move policy w wd.engine h.control a sh' ctrl')
    (hs : h.control.Sound wd.engine.tables) (hc : h.control.Calls (PlanFor runId plan))
    (hp : h.Paid blake2b known wd) (hw : wd.Paid blake2b known runId plan) {row : StepRow}
    (hrow : row ∈ sh'.tables.rowsOf runId) (hne : row.outcome ≠ .failed) {step : Step}
    (hstep : plan.steps[row.stepIndex]? = some step) (heff : step.effect = true) :
    ∃ receipt, known wd.provider (effectToken blake2b runId row.stepIndex) = some receipt ∧
      loadsObject row.output = receiptRecord receipt := by
  rcases hm.new_row hrow with hold | ⟨s, f, r, after, output, hctrl, hid, ho, rfl, _⟩
  · exact hw.rows row hold hne step hstep heff
  · rw [hctrl] at hs hc
    have hrun : s.call.runId = runId := hs.2.2.runId.symm.trans hid
    have hf : s.call.plan.steps[f.index]? = some f.step := hs.2.1.step
    have hi : plan.steps[f.index]? = some step := by
      rw [← hs.2.2.index]
      exact hstep
    rw [hc hrun] at hf
    obtain rfl : f.step = step := Option.some.inj (hf.symm.trans hi)
    have hpaid : r.outcome ≠ .failed → f.step.effect = true → ∃ receipt,
        known wd.provider ((f.context s).effectToken blake2b) = some receipt ∧
          r.output = receiptRecord receipt := by
      simpa only [Hand.Paid, hctrl] using hp
    obtain ⟨receipt, hk, hr⟩ := hpaid hne heff
    refine ⟨receipt, ?_, loads_receipt (hr ▸ ho)⟩
    have htoken : (f.context s).effectToken blake2b = effectToken blake2b runId r.index := by
      rw [hs.2.2.index, ← hrun]
      rfl
    exact htoken ▸ hk

theorem engine_completed (hm : Move policy w wd.engine h.control a sh' ctrl')
    (hc : h.control.Calls (PlanFor runId plan)) (hv : h.control.Covered wd.engine.log)
    (hw : wd.Paid blake2b known runId plan) {row : RunRow}
    (hrow : sh'.tables.runRow runId = some row) (hst : row.status = .completed) {i : Nat}
    {step : Step} (hstep : plan.steps[i]? = some step) : Executed sh'.log runId step.name i := by
  obtain ⟨more, hlog⟩ := hm.log_grows
  rw [hlog]
  apply Executed.append
  cases hold : wd.engine.tables.runRow runId with
  | none =>
    have hpending := hm.new_run hold hrow
    rw [hst] at hpending
    cases hpending
  | some old =>
    rcases hm.run_row hold with hsame | ⟨s, _, _, hrun⟩ | ⟨s, status, error, reraise, err, hctrl,
      hid, _, _, hset⟩
    · obtain rfl : old = row := Option.some.inj (hsame.symm.trans hrow)
      exact hw.completed old hold hst i step hstep
    · rw [hrun] at hrow
      rw [← Option.some.inj hrow] at hst
      cases hst
    · rw [hset] at hrow
      rw [← Option.some.inj hrow] at hst
      obtain rfl : status = .completed := hst
      rw [hctrl] at hc hv
      have hplan : s.call.plan = plan := hc hid
      have hcov := hv rfl i
      rw [hplan, hid] at hcov
      exact hcov (List.getElem?_eq_some_iff.mp hstep).1 step hstep

theorem charged_booked {s : Session} {f : Frame} {act : σ → String → σ × String × Bool}
    (hd : Deduplicates act known) (hctrl : h.control = .handling s f)
    (hs : h.control.Sound wd.engine.tables) (hc : h.control.Calls (PlanFor runId plan))
    (hw : wd.Booked blake2b known runId plan) :
    World.Booked blake2b known runId plan { wd with
      provider := (act wd.provider ((f.context s).effectToken blake2b)).1
      payments := if (act wd.provider ((f.context s).effectToken blake2b)).2.2 then wd.payments
        else wd.payments ++
          [⟨(f.context s).effectToken blake2b, s.call.runId, f.index, f.step.name⟩] } := by
  have hnew {P : Payment → Prop} (hold : ∀ p ∈ wd.payments, P p)
      (hlast : P ⟨(f.context s).effectToken blake2b, s.call.runId, f.index, f.step.name⟩) :
      ∀ p ∈ (if (act wd.provider ((f.context s).effectToken blake2b)).2.2 then wd.payments
        else wd.payments ++
          [⟨(f.context s).effectToken blake2b, s.call.runId, f.index, f.step.name⟩]), P p := by
    intro p hp
    split at hp
    · exact hold p hp
    · rcases List.mem_append.mp hp with hp | hp
      · exact hold p hp
      · exact List.mem_singleton.mp hp ▸ hlast
  refine ⟨?_, hnew hw.tokens rfl, hnew hw.planned fun hid => ⟨f.step, ?_, rfl⟩⟩
  · have hl := hw.ledger.acted hd ((f.context s).effectToken blake2b)
    simpa only [apply_ite (List.map Payment.token), List.map_append, List.map_cons,
      List.map_nil] using hl
  · rw [hctrl] at hs hc
    have hplan : s.call.plan = plan := hc hid
    exact hplan ▸ hs.2.step

theorem World.Paid.acted {act : σ → String → σ × String × Bool} (hd : Deduplicates act known)
    (hw : wd.Paid blake2b known runId plan) (token : String) (payments : List Payment) :
    World.Paid blake2b known runId plan
      { wd with provider := (act wd.provider token).1, payments := payments } := by
  refine ⟨?_, ?_, hw.completed⟩
  · intro name ctx output he hid step hstep heff
    obtain ⟨r, hr⟩ := Option.isSome_iff_exists.mp
      (hw.returned name ctx output he hid step hstep heff)
    exact Option.isSome_of_eq_some (hd.keeps hr)
  · intro row hrow hne step hstep heff
    obtain ⟨receipt, hr, ho⟩ := hw.rows row hrow hne step hstep heff
    exact ⟨receipt, hd.keeps hr, ho⟩

theorem Hand.Paid.acted {act : σ → String → σ × String × Bool} (hd : Deduplicates act known)
    (hp : h.Paid blake2b known wd) (token : String) (payments : List Payment) :
    h.Paid blake2b known { wd with provider := (act wd.provider token).1, payments := payments } := by
  obtain ⟨ctrl, receipt⟩ := h
  cases ctrl with
  | handling s f => exact fun r hr => hd.keeps (hp r hr)
  | appending s f r after =>
    intro hne heff
    obtain ⟨rc, hk, ho⟩ := hp hne heff
    exact ⟨rc, hd.keeps hk, ho⟩
  | _ => trivial

end Kept

section Counting

variable {runId : String} {plan : Plan}

structure ChargedAtMostOnce (wd : World ι σ) (runId : String) (plan : Plan) : Prop where
  atMostOnce : ∀ name, (wd.payments.countP fun p => p.runId = runId ∧ p.name = name) ≤ 1
  planned : ∀ p ∈ wd.payments, p.runId = runId →
    ∃ step, plan.steps[p.index]? = some step ∧ step.name = p.name

structure ChargedOnce (blake2b : String → String) (known : σ → String → Option String)
    (wd : World ι σ) (runId : String) (plan : Plan) : Prop where
  recorded : ∀ row ∈ wd.engine.tables.rowsOf runId, row.outcome ≠ .failed →
    ∀ step, plan.steps[row.stepIndex]? = some step → step.effect = true →
      (wd.payments.countP fun p => p.runId = runId ∧ p.name = step.name) = 1 ∧
      ∃ receipt, known wd.provider (effectToken blake2b runId row.stepIndex) = some receipt ∧
        loadsObject row.output = receiptRecord receipt
  completed : ∀ row, wd.engine.tables.runRow runId = some row → row.status = .completed →
    ∀ step ∈ plan.steps, step.effect = true →
      (wd.payments.countP fun p => p.runId = runId ∧ p.name = step.name) = 1

-- no request the provider acted on bears a token that is also that of another step of the run
def World.Uncollided (blake2b : String → String) (wd : World ι σ) (runId : String) (plan : Plan) :
    Prop :=
  ∀ p ∈ wd.payments, ∀ i < plan.steps.length, p.token = effectToken blake2b runId i →
    p.runId = runId ∧ p.index = i

instance (wd : World ι σ) (runId : String) (plan : Plan) :
    Decidable (wd.Uncollided blake2b runId plan) :=
  inferInstanceAs (Decidable (∀ p ∈ wd.payments, ∀ i < plan.steps.length, _ → _))

theorem World.Booked.atMostOnce {wd : World ι σ} (hw : wd.Booked blake2b known runId plan)
    (name : String) : (wd.payments.countP fun p => p.runId = runId ∧ p.name = name) ≤ 1 := by
  apply countP_le_one hw.ledger.nodup
  intro p hp p' hp' hq hq'
  rw [decide_eq_true_eq] at hq hq'
  obtain ⟨step, hstep, hname⟩ := hw.planned p hp hq.1
  obtain ⟨step', hstep', hname'⟩ := hw.planned p' hp' hq'.1
  have hi := plan.name_injective hstep hstep' (by rw [hname, hname', hq.2, hq'.2])
  rw [hw.tokens p hp, hw.tokens p' hp', hi, hq.1, hq'.1]

theorem World.Booked.once {wd : World ι σ} (hu : wd.Uncollided blake2b runId plan)
    (hw : wd.Booked blake2b known runId plan) {i : Nat} {step : Step}
    (hstep : plan.steps[i]? = some step)
    (hk : (known wd.provider (effectToken blake2b runId i)).isSome = true) :
    (wd.payments.countP fun p => p.runId = runId ∧ p.name = step.name) = 1 := by
  apply Nat.le_antisymm (hw.atMostOnce step.name)
  rw [Nat.one_le_iff_ne_zero, ← Nat.pos_iff_ne_zero, List.countP_pos_iff]
  obtain ⟨p, hp, ht⟩ := List.mem_map.mp ((hw.ledger.mem_iff _).mpr hk)
  obtain ⟨hrun, hi⟩ := hu p hp i (List.getElem?_eq_some_iff.mp hstep).1 ht
  obtain ⟨step', hstep', hname⟩ := hw.planned p hp hrun
  have hs : step' = step := Option.some.inj (hstep'.symm.trans (hi ▸ hstep))
  exact ⟨p, hp, decide_eq_true ⟨hrun, hs ▸ hname.symm⟩⟩

end Counting

section Runs

variable [DecidableEq ι] {act : σ → String → σ × String × Bool} {runId : String} {plan : Plan}

theorem booked_outline (hd : Deduplicates act known) (policy : LockPolicy ι) (runId : String)
    (plan : Plan) : Outline (payStep blake2b act policy)
      (fun _ _ d => d.Calls (PlanFor runId plan))
      (fun wd => ((wd.engine.tables.Sound ∧ RowsExecuted wd.engine) ∧
          (wd.engine.tables.Sound ∧ PlanRows wd.engine.tables runId plan)) ∧
        wd.Booked blake2b known runId plan)
      (fun _ wd h => (h.control.Sound wd.engine.tables ∧ h.control.Covered wd.engine.log) ∧
        (h.control.Sound wd.engine.tables ∧ h.control.Calls (PlanFor runId plan))) := by
  have hengine := ((covered_outline policy).restrict fun _ => trivial).and
    (plan_outline policy fun _ hc => hc : Outline (workerStep policy)
      (fun _ _ a => a.Calls (PlanFor runId plan)) _ _)
  have hworld : Outline (payStep (σ := σ) blake2b act policy)
      (fun _ _ d => d.Calls (PlanFor runId plan)) _ _ :=
    hengine.lift World.engine Hand.control payStep_projects
  apply hworld.share
  intro i wd h d wd' h' _ hl hw _ hstep
  cases payStep_dealt hstep with
  | engine hm => exact ⟨hw.ledger, hw.tokens, hw.planned⟩
  | charged hctrl => exact charged_booked hd hctrl hl.2.1 hl.2.2 hw

theorem paid_outline (hd : Deduplicates act known) (policy : LockPolicy ι) (runId : String)
    (plan : Plan) : Outline (payStep blake2b act policy)
      (fun (_ : World ι σ) h d => d.Calls (PlanFor runId plan) ∧ HandsReceipt h d)
      (fun wd => (((wd.engine.tables.Sound ∧ RowsExecuted wd.engine) ∧
          (wd.engine.tables.Sound ∧ PlanRows wd.engine.tables runId plan)) ∧
        wd.Booked blake2b known runId plan) ∧ wd.Paid blake2b known runId plan)
      (fun _ wd h => ((h.control.Sound wd.engine.tables ∧ h.control.Covered wd.engine.log) ∧
          (h.control.Sound wd.engine.tables ∧ h.control.Calls (PlanFor runId plan))) ∧
        h.Paid blake2b known wd) := by
  apply ((booked_outline hd policy runId plan).restrict And.left).extend
  · intro i wd h d wd' h' _ hl hw hp hd' hstep
    have hh := hd'.2
    cases payStep_dealt hstep with
    | @engine a sh ctrl hm =>
      refine ⟨⟨?_, ?_, ?_⟩, engine_hand_paid hh hm hp⟩
      · intro name ctx output he hid step
        exact engine_returned hh hm hl.2.1 hl.2.2 hp hw he hid
      · intro row hrow hne step
        exact engine_rows hm hl.2.1 hl.2.2 hp hw hrow hne
      · intro row hrow hst j step
        exact engine_completed hm hl.2.2 hl.1.2 hw hrow hst
    | @charged s f hctrl =>
      refine ⟨hw.acted hd _ _, ?_⟩
      obtain ⟨ctrl, receipt⟩ := h
      obtain rfl : ctrl = .handling s f := hctrl
      intro r hr
      rw [← Option.some.inj hr]
      exact hd.answered _ _
  · intro i j wd h d wd' h' l _ _ _ _ _ _ hp _ hstep
    cases payStep_dealt hstep with
    | engine hm => exact hp
    | charged hctrl => exact hp.acted hd _ _

-- whatever the workers, the lock, the interleaving and what the handlers ask for
theorem charged_once_per_step (hd : Deduplicates act known) (policy : LockPolicy ι) {provider : σ}
    (hfresh : ∀ token, known provider token = none) (runId : String) (plan : Plan)
    (es : List (ι × Doing)) (hplan : ∀ e ∈ es, e.2.Calls (PlanFor runId plan))
    {c : Config ι (World ι σ) Hand}
    (h : runWorld blake2b act policy (World.start provider) es = some c) :
    ChargedAtMostOnce c.shared runId plan ∧
    (c.shared.Uncollided blake2b runId plan →
      alongWorld blake2b act policy (fun _ h d => HandsReceipt h d) (World.start provider) es →
      ChargedOnce blake2b known c.shared runId plan) := by
  have hsound : (World.start (ι := ι) provider).shared.engine.tables.Sound := empty_sound
  have hrows : RowsExecuted (World.start (ι := ι) provider).shared.engine := by
    intro runId row hrow
    cases hrow
  have hbooked : World.Booked blake2b known runId plan (World.start (ι := ι) provider).shared := by
    refine ⟨Ledger.empty hfresh, ?_, ?_⟩ <;> simp [World.start]
  have hcalls : alongWorld blake2b act policy (fun _ _ d => d.Calls (PlanFor runId plan))
      (World.start provider) es := Transition.along_of_forall (fun _ e he => hplan e he) _
  have hw := ((booked_outline hd policy runId plan).run_along
    ⟨⟨⟨⟨hsound, hrows⟩, hsound, planRows_of_nil rfl⟩, hbooked⟩,
      fun _ => ⟨⟨trivial, trivial⟩, trivial, trivial⟩⟩ hcalls h).1.2
  refine ⟨⟨hw.atMostOnce, hw.planned⟩, fun hu hhands => ?_⟩
  have hpaid : World.Paid blake2b known runId plan (World.start (ι := ι) provider).shared := by
    refine ⟨?_, ?_, ?_⟩ <;>
      simp [World.start, System.start, Tables.rowsOf, Tables.runRow, Tables.empty]
  have hp := ((paid_outline hd policy runId plan).run_along
    ⟨⟨⟨⟨⟨hsound, hrows⟩, hsound, planRows_of_nil rfl⟩, hbooked⟩, hpaid⟩,
      fun _ => ⟨⟨⟨trivial, trivial⟩, trivial, trivial⟩, trivial⟩⟩
    (Transition.along_and hcalls hhands) h).1.2
  constructor
  · intro row hrow hne step hstep heff
    obtain ⟨receipt, hk, ho⟩ := hp.rows row hrow hne step hstep heff
    exact ⟨hw.once hu hstep (Option.isSome_of_eq_some hk), receipt, hk, ho⟩
  · intro row hrow hst step hstep heff
    obtain ⟨i, hi⟩ := List.mem_iff_getElem?.mp hstep
    obtain ⟨ctx, output, hev, hrun, hindex⟩ := hp.completed row hrow hst i step hi
    have hk := hp.returned step.name ctx output hev hrun step (hindex ▸ hi) heff
    refine hw.once hu hi ?_
    rwa [StepContext.effectToken, hrun, hindex] at hk

end Runs

end Receipts

-- two workers with no lock are both in the charge of the one run; the first goes on to complete it
def racedPayment : List (Bool × Doing) :=
  let engine (w : Bool) (as : List Action) : List (Bool × Doing) := as.map fun a => (w, .engine a)
  let pays : List Action :=
    [finishes 0 [] (.returned (receiptOutput "rcpt_run:0")), .store]
  (true, .engine submits) :: engine true (opens ++ [.begin]) ++ engine false (opens ++ [.begin]) ++
    [(false, .charge), (true, .charge)] ++ engine true pays ++ engine false pays ++
    engine true (notifies "first" ++ closes)

theorem charged_once_per_step_raced :
    ∃ c, runWorld id Gateway.charge noLock (World.start Gateway.empty) racedPayment = some c ∧
      c.shared.provider.attempts = 2 ∧
      (c.shared.engine.tables.runRow "run").any (fun row => row.status = .completed) = true ∧
      ChargedAtMostOnce c.shared "run" chargePlan ∧
      ChargedOnce id Gateway.known c.shared "run" chargePlan := by
  have hr : ((runWorld id Gateway.charge noLock (World.start Gateway.empty) racedPayment).any
      fun c => c.shared.provider.attempts = 2 ∧ c.shared.Uncollided id "run" chargePlan ∧
        (c.shared.engine.tables.runRow "run").any (fun row => row.status = .completed) = true) =
      true := by decide +kernel
  have hhands : alongWorld id Gateway.charge noLock (fun _ h d => HandsReceipt h d)
      (World.start Gateway.empty) racedPayment := by decide +kernel
  obtain ⟨c, hc, hq⟩ := (Option.any_eq_true _ _).mp hr
  obtain ⟨hattempts, hu, hcompleted⟩ := of_decide_eq_true hq
  have hcharged := charged_once_per_step Gateway.deduplicates noLock (fun _ => rfl) "run" chargePlan
    racedPayment (by decide +kernel) hc
  exact ⟨c, hc, hattempts, hcompleted, hcharged.1, hcharged.2 hu hhands⟩

end DurableAgent
