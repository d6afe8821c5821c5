import DurableAgent.Contract
import DurableAgent.Leases

namespace DurableAgent

open Interleaving

variable {ι τ δ : Type}

-- the controls inside the `with` block of a session
def Control.inside : Control → Option Session
  | .reloading s => some s
  | .releasing s _ => some s
  | ctrl => ctrl.working

def anyLock : LockPolicy ι := fun _ _ => true

-- the engine and the lock table of one database; `locks` decides, the engine's `holder` is not read
structure Cluster (ι τ : Type) where
  engine : Shared ι
  locks : LockTable ι τ

structure Worker (τ : Type) where
  control : Control
  phase : Phase τ Unit

inductive LeaseTurn (τ : Type) where
  | engine (a : Action)
  | enter (owner : String)
  | acquire
  | leave
  | fail (applied : Bool)
  | pass (now : τ)
  | die

def LeaseTurn.Calls (Q : Call → Prop) : LeaseTurn τ → Prop
  | .engine a => a.Calls Q
  | _ => True

instance LeaseTurn.decidableCalls {Q : Call → Prop} [DecidablePred Q] (t : LeaseTurn τ) :
    Decidable (t.Calls Q) := by
  unfold LeaseTurn.Calls
  split <;> infer_instance

-- the actions in which the lock takes part: the cluster has turns of its own for them
def Control.locks : Control → Action → Bool
  | .locking _, .lock _ => true
  | .locking _, .outage _ => true
  | .releasing _ _, .store => true
  | .releasing _ _, .outage _ => true
  | _, .die => true
  | _, _ => false

def Phase.granted : Phase τ δ → Bool
  | .inside _ _ => true
  | _ => false

-- the lease every call asks for: `ttl` is left at its default
def lasts (later : τ → τ) : τ → Unit → Option τ := fun now _ => some (later now)

section Steps

variable [LinearOrder τ] [DecidableEq ι]

def Cluster.engineStep (w : ι) (cl : Cluster ι τ) (k : Worker τ) (a : Action) :
    Option (Cluster ι τ × Worker τ) :=
  (workerStep anyLock w cl.engine k.control a).map fun r =>
    ({ cl with engine := r.1 }, { k with control := r.2 })

def Cluster.lockTurn (digest : String → Nat) (later : τ → τ) (w : ι) (cl : Cluster ι τ)
    (k : Worker τ) (a : LockAction τ Unit) : Option (Cluster ι τ × Worker τ) :=
  (lockStep digest (lasts later) w cl.locks k.phase a).map fun r =>
    ({ cl with locks := r.1 }, { k with phase := r.2 })

def leasedStep (digest : String → Nat) (later : τ → τ) (w : ι) (cl : Cluster ι τ) (k : Worker τ) :
    LeaseTurn τ → Option (Cluster ι τ × Worker τ)
  | .engine a => if k.control.locks a then none else cl.engineStep w k a
  | .enter owner =>
      match k.control with
      | .locking s => cl.lockTurn digest later w k (.enter s.key owner ())
      | _ => none
  | .acquire =>
      match k.control with
      | .locking _ =>
          (cl.lockTurn digest later w k .acquire).bind fun r =>
            r.1.engineStep w r.2 (.lock r.2.phase.granted)
      | _ => none
  | .leave =>
      match k.control with
      | .releasing _ _ =>
          (cl.lockTurn digest later w k .leave).bind fun r => r.1.engineStep w r.2 .store
      | _ => none
  | .fail applied =>
      -- the statement on the lock table fails; `applied` when the database had carried it out
      let done := match k.control with
        | .locking _ => if applied then cl.lockTurn digest later w k .acquire else some (cl, k)
        | .releasing _ _ => if applied then cl.lockTurn digest later w k .leave else some (cl, k)
        | _ => none
      done.bind fun r => (r.1.lockTurn digest later w r.2 .crash).bind fun r =>
        r.1.engineStep w r.2 (.outage false)
  | .pass now => cl.lockTurn digest later w k (.pass now)
  | .die => (cl.lockTurn digest later w k .crash).bind fun r => r.1.engineStep w r.2 .die

def startCluster (now : τ) : Config ι (Cluster ι τ) (Worker τ) :=
  ⟨⟨(System.start Tables.empty).shared, (startLocks (ι := ι) (δ := Unit) now).shared⟩,
    fun _ => ⟨.atRest none, .outside none⟩⟩

def runCluster (digest : String → Nat) (later : τ → τ) :
    Config ι (Cluster ι τ) (Worker τ) → List (ι × LeaseTurn τ) →
      Option (Config ι (Cluster ι τ) (Worker τ)) :=
  Transition.run (Interleaving.step (leasedStep digest later))

end Steps

section Locks

-- what the column's primary key adds, and whose a lease is while its holder is inside
structure LockTable.Kept (sh : LockTable ι τ) : Prop where
  lockIds : (sh.rows.map LockRow.lockId).Nodup
  issued : ∀ owner ∈ sh.released, ∃ w, sh.issuer owner = some w

def Phase.Kept (w : ι) (sh : LockTable ι τ) : Phase τ δ → Prop
  | .waiting a => a.owner ∉ sh.released
  | .inside _ owner => sh.issuer owner = some w ∧ owner ∉ sh.released
  | .outside _ => True

variable [LinearOrder τ] {digest : String → Nat} {plus : τ → δ → Option τ} {w v : ι}
  {sh sh' : LockTable ι τ} {ph ph' l : Phase τ δ} {a : LockAction τ δ}

theorem acquire_lockIds {rows left : List (LockRow τ)} {b : Attempt τ δ} {row : LockRow τ}
    (hn : (rows.map LockRow.lockId).Nodup)
    (h : Lease.acquire digest plus rows b = .ok (left, row)) :
    ((left ++ [row]).map LockRow.lockId).Nodup := by
  obtain ⟨rfl, hid, _, _, hfree⟩ := Lease.acquire_ok h
  rw [List.map_append, List.map_singleton, List.nodup_append]
  refine ⟨hn.sublist (List.filter_sublist.map _), List.nodup_singleton _, ?_⟩
  rintro id hmem _ hrow rfl
  obtain ⟨r, hr, hrid⟩ := List.mem_map.mp hmem
  rw [List.mem_singleton] at hrow
  obtain ⟨hold, hlive⟩ := Lease.mem_unexpired.mp hr
  have heq : r.lockId = row.lockId := hrid.trans hrow
  exact absurd (hfree r hold heq) (not_le.mpr (hlive (heq.trans hid)))

theorem LockMove.kept (h : LockMove digest plus w sh ph a sh' ph') (hp : ph.Sound w sh)
    (hk : sh.Kept) (hl : ph.Kept w sh) : sh'.Kept ∧ ph'.Kept w sh' := by
  cases h with
  | @entered last key owner ttl issuer fresh own kept =>
    have hnew : owner ∉ sh.released := fun hm => by
      obtain ⟨v, hv⟩ := hk.issued owner hm
      rw [fresh] at hv
      cases hv
    refine ⟨⟨hk.lockIds, fun o ho => ?_⟩, hnew⟩
    obtain ⟨v, hv⟩ := hk.issued o ho
    exact ⟨v, (kept o fun he => hnew (he ▸ ho)).trans hv⟩
  | granted ok => exact ⟨⟨acquire_lockIds hk.lockIds ok, hk.issued⟩, hp.1, hl⟩
  | refused error => exact ⟨hk, trivial⟩
  | left =>
    refine ⟨⟨hk.lockIds.sublist (List.filter_sublist.map _), fun o ho => ?_⟩, trivial⟩
    rcases List.mem_cons.mp ho with rfl | ho
    · exact ⟨w, hl.1⟩
    · exact hk.issued o ho
  | crashed => exact ⟨hk, trivial⟩
  | passed later =>
    refine ⟨⟨hk.lockIds, hk.issued⟩, ?_⟩
    cases ph <;> exact hl

theorem LockMove.kept_others (h : LockMove digest plus w sh ph a sh' ph') (hwv : w ≠ v)
    (hp : ph.Kept w sh) (hs : l.Sound v sh) (hl : l.Kept v sh) : l.Kept v sh' := by
  cases h with
  | @entered last key owner ttl issuer fresh own kept =>
    cases l with
    | inside key' owner' =>
      refine ⟨(kept owner' fun he => ?_).trans hl.1, hl.2⟩
      have hv := hl.1
      rw [he, fresh] at hv
      cases hv
    | _ => exact hl
  | @left key owner =>
    have hother {o : String} (ho : sh.issuer o = some v) : o ≠ owner := by
      rintro rfl
      rw [hp.1] at ho
      exact hwv (Option.some.inj ho)
    cases l with
    | waiting b =>
      rintro hm
      rcases List.mem_cons.mp hm with he | hm
      · exact hother hs.1 he
      · exact hl hm
    | inside key' owner' =>
      refine ⟨hl.1, fun hm => ?_⟩
      rcases List.mem_cons.mp hm with he | hm
      · exact hother hl.1 he
      · exact hl.2 hm
    | outside last => trivial
  | _ => cases l <;> exact hl

theorem kept_outline [DecidableEq ι] (digest : String → Nat) (plus : τ → δ → Option τ) :
    Outline (lockStep (ι := ι) digest plus) (fun _ _ _ => True)
      (fun sh => sh.Sound digest ∧ sh.Kept)
      (fun w sh ph => ph.Sound w sh ∧ ph.Kept w sh) := by
  apply (lease_outline digest plus).extend
  · intro i sh ph a sh' ph' _ hp hk hl _ h
    exact (lockStep_move h).kept hp hk hl
  · intro i j sh ph a sh' ph' l hij _ _ hs _ hp hl _ h
    exact (lockStep_move h).kept_others hij hp hs hl

end Locks

section Inside

variable {policy : LockPolicy ι} {w : ι} {sh sh' : Shared ι} {ctrl ctrl' : Control} {a : Action}
  {s : Session}

theorem next_inside {index : Nat} {payload : StrDict} {previous : Outputs} :
    (s.next index payload previous).inside = some s := by
  apply next_cases (P := fun ctrl => ctrl.inside = some s) <;> intros <;> rfl

theorem conclude_inside {f : Frame} {e : Execution} {now : Datetime} :
    (conclude s f e now).inside = some s := by
  apply conclude_cases (P := fun ctrl => ctrl.inside = some s) <;> intros <;> rfl

theorem loaded_inside {c : Call} {found : Option RunState} : (loaded c found).inside = none := by
  unfold loaded
  split
  · rfl
  · split
    · rfl
    · split <;> rfl

theorem submit_inside {handlers : List String} {runId : String} {spec : RunSpec} {now : Nat} :
    (submit sh handlers stack runId spec now).2.inside = none := by
  unfold submit
  simp only
  split
  · rfl
  · split <;> rfl

-- only the turns of the lock enter a block or leave it
theorem workerStep_inside [DecidableEq ι] (hl : ctrl.locks a = false)
    (h : workerStep policy w sh ctrl a = some (sh', ctrl')) : ctrl'.inside = ctrl.inside := by
  cases workerStep_took h with
  | @submitted last handlers stack runId spec now sh' ctrl' submitted =>
    rw [← show (submit sh handlers stack runId spec now).2 = ctrl' from congrArg Prod.snd submitted]
    exact submit_inside
  | stored performed =>
    cases performed with
    | loaded => exact loaded_inside
    | started set => exact next_inside
    | @appended s f r after t stored =>
      cases after with
      | proceed payload previous => exact next_inside
      | settle status reason reraise => rfl
    | released => cases hl
    | _ => rfl
  | granted free => cases hl
  | refused held => cases hl
  | missing unknown => exact conclude_inside
  | returned result => exact conclude_inside
  | threw result => exact conclude_inside
  | outage failed => cases ctrl <;> cases failed <;> first | rfl | cases hl
  | died => cases ctrl <;> cases hl
  | _ => rfl

end Inside

section Turns

variable [LinearOrder τ] [DecidableEq ι] {digest : String → Nat} {later : τ → τ} {w : ι}
  {cl cl' : Cluster ι τ} {k k' : Worker τ} {t : LeaseTurn τ}

-- everything a turn can do: a step of the engine, one of the lock table, or both
inductive Turned (digest : String → Nat) (later : τ → τ) (w : ι) (cl : Cluster ι τ) :
    Worker τ → LeaseTurn τ → Cluster ι τ → Worker τ → Prop where
  | engine {ctrl ph a sh ctrl'} (free : ctrl.locks a = false)
      (step : workerStep anyLock w cl.engine ctrl a = some (sh, ctrl')) :
      Turned digest later w cl ⟨ctrl, ph⟩ (.engine a) { cl with engine := sh } ⟨ctrl', ph⟩
  | entered {s ph owner locks ph'}
      (lock : lockStep digest (lasts later) w cl.locks ph (.enter s.key owner ()) =
        some (locks, ph')) :
      Turned digest later w cl ⟨.locking s, ph⟩ (.enter owner) { cl with locks := locks }
        ⟨.locking s, ph'⟩
  | granted {s ph locks key owner}
      (lock : lockStep digest (lasts later) w cl.locks ph .acquire =
        some (locks, .inside key owner)) :
      Turned digest later w cl ⟨.locking s, ph⟩ .acquire ⟨cl.engine.acquire w s.key, locks⟩
        ⟨.starting s, .inside key owner⟩
  | refused {s ph locks e}
      (lock : lockStep digest (lasts later) w cl.locks ph .acquire = some (locks, .outside e)) :
      Turned digest later w cl ⟨.locking s, ph⟩ .acquire { cl with locks := locks }
        ⟨.atRest (some (.raised (.lockUnavailable (s.key ++ " is held by another worker")))),
          .outside e⟩
  | left {s o ph locks ph'}
      (lock : lockStep digest (lasts later) w cl.locks ph .leave = some (locks, ph')) :
      Turned digest later w cl ⟨.releasing s o, ph⟩ .leave ⟨cl.engine.release w s.key, locks⟩
        ⟨.atRest (some o), ph'⟩
  | failed {ctrl ph applied locks} (at_ : (∃ s, ctrl = .locking s) ∨ ∃ s o, ctrl = .releasing s o)
      (lock : Solo (lockStep digest (lasts later)) (fun _ _ _ => True) w cl.locks ph locks
        (.outside none)) :
      Turned digest later w cl ⟨ctrl, ph⟩ (.fail applied) { cl with locks := locks }
        ⟨.atRest (some (.raised .outage)), .outside none⟩
  | passed {ctrl ph now} (le : cl.locks.clock ≤ now) :
      Turned digest later w cl ⟨ctrl, ph⟩ (.pass now)
        { cl with locks := { cl.locks with clock := now } } ⟨ctrl, ph⟩
  | died {ctrl ph} :
      Turned digest later w cl ⟨ctrl, ph⟩ .die { cl with engine := cl.engine.buried w }
        ⟨.atRest none, .outside none⟩

omit [LinearOrder τ] in
theorem engineStep_eq_some {a : Action} (h : cl.engineStep w k a = some (cl', k')) :
    ∃ sh ctrl, workerStep anyLock w cl.engine k.control a = some (sh, ctrl) ∧
      cl' = { cl with engine := sh } ∧ k' = { k with control := ctrl } := by
  obtain ⟨⟨sh, ctrl⟩, hs, he⟩ := Option.map_eq_some_iff.mp h
  cases he
  exact ⟨sh, ctrl, hs, rfl, rfl⟩

omit [DecidableEq ι] in
theorem lockTurn_eq_some {a : LockAction τ Unit}
    (h : cl.lockTurn digest later w k a = some (cl', k')) :
    ∃ locks ph, lockStep digest (lasts later) w cl.locks k.phase a = some (locks, ph) ∧
      cl' = { cl with locks := locks } ∧ k' = { k with phase := ph } := by
  obtain ⟨⟨locks, ph⟩, hs, he⟩ := Option.map_eq_some_iff.mp h
  cases he
  exact ⟨locks, ph, hs, rfl, rfl⟩

theorem acquire_turned {s : Session} {ph : Phase τ Unit}
    (h : leasedStep digest later w cl ⟨.locking s, ph⟩ .acquire = some (cl', k')) :
    Turned digest later w cl ⟨.locking s, ph⟩ .acquire cl' k' := by
  obtain ⟨⟨cl₁, k₁⟩, hl, he⟩ := Option.bind_eq_some_iff.mp h
  obtain ⟨locks, ph', hlock, rfl, rfl⟩ := lockTurn_eq_some hl
  obtain ⟨sh, ctrl, hs, rfl, rfl⟩ := engineStep_eq_some he
  cases ph' with
  | inside key owner =>
    cases hs
    exact .granted hlock
  | outside e =>
    cases hs
    exact .refused hlock
  | waiting b =>
    cases hs
    cases lockStep_move hlock

theorem failed_turned {locks : LockTable ι τ} {ctrl : Control} {ph : Phase τ Unit}
    (hat : (∃ s, ctrl = .locking s) ∨ ∃ s o, ctrl = .releasing s o)
    (h : ((Cluster.lockTurn digest later w { cl with locks := locks } ⟨ctrl, ph⟩ .crash).bind
      fun r => r.1.engineStep w r.2 (.outage false)) = some (cl', k')) :
    cl' = { cl with locks := locks } ∧
      k' = ⟨.atRest (some (.raised .outage)), .outside none⟩ := by
  obtain ⟨⟨cl₁, k₁⟩, hl, he⟩ := Option.bind_eq_some_iff.mp h
  obtain ⟨locks', ph', hlock, rfl, rfl⟩ := lockTurn_eq_some hl
  obtain ⟨sh, ctrl', hs, rfl, rfl⟩ := engineStep_eq_some he
  cases lockStep_move hlock with
  | crashed =>
    rcases hat with ⟨s, rfl⟩ | ⟨s, o, rfl⟩ <;> cases hs <;> exact ⟨rfl, rfl⟩

theorem fail_turned {ctrl : Control} {ph : Phase τ Unit} {a : LockAction τ Unit} {applied : Bool}
    (hat : (∃ s, ctrl = .locking s) ∨ ∃ s o, ctrl = .releasing s o)
    (h : ((if applied then cl.lockTurn digest later w ⟨ctrl, ph⟩ a else some (cl, ⟨ctrl, ph⟩)).bind
      fun r => (r.1.lockTurn digest later w r.2 .crash).bind fun r =>
        r.1.engineStep w r.2 (.outage false)) = some (cl', k')) :
    Turned digest later w cl ⟨ctrl, ph⟩ (.fail applied) cl' k' := by
  obtain ⟨⟨cl₁, k₁⟩, hdone, hrest⟩ := Option.bind_eq_some_iff.mp h
  cases applied with
  | true =>
    obtain ⟨locks, ph', hlock, rfl, rfl⟩ := lockTurn_eq_some hdone
    obtain ⟨rfl, rfl⟩ := failed_turned hat hrest
    exact .failed hat (.cons trivial hlock (.one (a := .crash) trivial rfl))
  | false =>
    cases hdone
    obtain ⟨rfl, rfl⟩ := failed_turned hat hrest
    exact .failed hat (.one (a := .crash) trivial rfl)

theorem leasedStep_turned (h : leasedStep digest later w cl k t = some (cl', k')) :
    Turned digest later w cl k t cl' k' := by
  obtain ⟨ctrl, ph⟩ := k
  cases t with
  | engine a =>
    simp only [leasedStep] at h
    split at h
    · cases h
    · rename_i hfree
      obtain ⟨sh, ctrl', hs, rfl, rfl⟩ := engineStep_eq_some h
      exact .engine (by simpa using hfree) hs
  | enter owner =>
    cases ctrl <;> try cases h
    obtain ⟨locks, ph', hlock, rfl, rfl⟩ := lockTurn_eq_some h
    exact .entered hlock
  | acquire =>
    cases ctrl <;> try cases h
    exact acquire_turned h
  | leave =>
    cases ctrl <;> try cases h
    obtain ⟨⟨cl₁, k₁⟩, hl, he⟩ := Option.bind_eq_some_iff.mp h
    obtain ⟨locks, ph', hlock, rfl, rfl⟩ := lockTurn_eq_some hl
    obtain ⟨sh, ctrl, hs, rfl, rfl⟩ := engineStep_eq_some he
    cases hs
    exact .left hlock
  | fail applied =>
    cases ctrl <;> try cases h
    · exact fail_turned (.inl ⟨_, rfl⟩) h
    · exact fail_turned (.inr ⟨_, _, rfl⟩) h
  | pass now =>
    obtain ⟨locks, ph', hlock, rfl, rfl⟩ := lockTurn_eq_some h
    cases lockStep_move hlock with
    | passed le => exact .passed le
  | die =>
    simp only [leasedStep] at h
    obtain ⟨⟨cl₁, k₁⟩, hl, he⟩ := Option.bind_eq_some_iff.mp h
    obtain ⟨locks, ph', hlock, rfl, rfl⟩ := lockTurn_eq_some hl
    obtain ⟨sh, ctrl, hs, rfl, rfl⟩ := engineStep_eq_some he
    cases hs
    cases lockStep_move hlock with
    | crashed => exact .died

end Turns

section Fits

-- a worker holds a lease on the key of the block it is inside, and waits only for the lock
def Worker.Fits (k : Worker τ) : Prop :=
  match k.control.inside with
  | some s => ∃ owner, k.phase = .inside s.key owner
  | none =>
      match k.control with
      | .locking s => (∃ last, k.phase = .outside last) ∨ ∃ a, k.phase = .waiting a ∧ a.key = s.key
      | _ => ∃ last, k.phase = .outside last

variable {ctrl : Control} {ph : Phase τ Unit} {s : Session}

theorem fits_inside (h : ctrl.inside = some s) :
    Worker.Fits ⟨ctrl, ph⟩ ↔ ∃ owner, ph = .inside s.key owner := by
  simp only [Worker.Fits, h]

theorem fits_outside {last : Option LockError} (h : ctrl.inside = none) :
    Worker.Fits ⟨ctrl, (.outside last : Phase τ Unit)⟩ := by
  simp only [Worker.Fits, h]
  split
  · exact .inl ⟨last, rfl⟩
  · exact ⟨last, rfl⟩

theorem Worker.Fits.outside (h : Worker.Fits ⟨ctrl, ph⟩) (hi : ctrl.inside = none)
    (hn : ∀ s, ctrl ≠ .locking s) : ∃ last, ph = .outside last := by
  simpa only [Worker.Fits, hi] using h

theorem Worker.Fits.waiting (h : Worker.Fits ⟨.locking s, ph⟩) {b : Attempt τ Unit}
    (hb : ph = .waiting b) : b.key = s.key := by
  subst hb
  rcases h with ⟨last, hl⟩ | ⟨a, ha, hk⟩
  · cases hl
  · cases ha
    exact hk

end Fits

section Exclusion

variable [LinearOrder τ] [DecidableEq ι] {digest : String → Nat} {later : τ → τ} {w v : ι}
  {cl cl' : Cluster ι τ} {k k' l : Worker τ} {t : LeaseTurn τ}

def Cluster.lapsed (cl : Cluster ι τ) (k : Worker τ) : Bool :=
  match k.phase with
  | .inside _ owner => cl.locks.granted.any fun g => g.owner = owner && g.expiresAt ≤ cl.locks.clock
  | _ => false

theorem Turned.lock (h : Turned digest later w cl k t cl' k') :
    Solo (lockStep digest (lasts later)) (fun _ _ _ => True) w cl.locks k.phase cl'.locks
      k'.phase := by
  cases h with
  | engine free step => exact .none
  | entered lock => exact .one trivial lock
  | granted lock => exact .one trivial lock
  | refused lock => exact .one trivial lock
  | left lock => exact .one trivial lock
  | failed at_ lock => exact lock
  | passed le => exact .one (a := .pass _) trivial (if_pos le)
  | died => exact .one (a := .crash) trivial rfl

omit [LinearOrder τ] [DecidableEq ι] in
theorem LeaseTurn.calls_any (t : LeaseTurn τ) : t.Calls fun _ => True := by
  rcases t with a | _ | _ | _ | _ | _ | _
  · cases a <;> trivial
  all_goals trivial

theorem Turned.worker {Q : Call → Prop} (h : Turned digest later w cl k t cl' k')
    (hq : t.Calls Q) : Solo (workerStep anyLock) (fun _ _ a => a.Calls Q) w cl.engine k.control
      cl'.engine k'.control := by
  cases h with
  | engine free step => exact .one hq step
  | entered lock => exact .none
  | granted lock => exact .one (a := .lock true) trivial rfl
  | refused lock => exact .one (a := .lock false) trivial rfl
  | left lock => exact .one (a := .store) trivial rfl
  | failed at_ lock =>
    rcases at_ with ⟨s, rfl⟩ | ⟨s, o, rfl⟩ <;> exact .one (a := .outage false) trivial rfl
  | passed le => exact .none
  | died => exact .one (a := .die) trivial rfl

theorem Turned.fits (h : Turned digest later w cl k t cl' k') (hf : k.Fits) : k'.Fits := by
  cases h with
  | @engine ctrl ph a sh ctrl' free step =>
    have hi := workerStep_inside free step
    cases hin : ctrl.inside with
    | some s => exact (fits_inside (hi.trans hin)).mpr ((fits_inside hin).mp hf)
    | none =>
      obtain ⟨last, rfl⟩ := hf.outside hin fun s hs => by
        subst hs
        cases workerStep_took step with
        | stored performed => cases performed
        | _ => cases free
      exact fits_outside (hi.trans hin)
  | entered lock =>
    cases lockStep_move lock with
    | entered fresh own kept => exact .inr ⟨_, rfl, rfl⟩
  | granted lock =>
    cases lockStep_move lock with
    | granted ok => exact ⟨_, by rw [hf.waiting rfl]⟩
  | refused lock => exact fits_outside rfl
  | left lock =>
    cases lockStep_move lock with
    | left => exact fits_outside rfl
  | failed at_ lock => exact fits_outside rfl
  | passed le => exact hf
  | died => exact fits_outside rfl

theorem cluster_outline (digest : String → Nat) (later : τ → τ) :
    Outline (leasedStep (ι := ι) digest later) (fun _ _ _ => True)
      (fun cl => (cl.locks.Sound digest ∧ cl.locks.Kept) ∧ cl.engine.tables.Sound)
      (fun w cl k => ((k.phase.Sound w cl.locks ∧ k.phase.Kept w cl.locks) ∧
        k.control.Sound cl.engine.tables) ∧ k.Fits) := by
  have hlock : Outline (leasedStep digest later) (fun _ _ _ => True) _ _ :=
    (kept_outline (ι := ι) digest (lasts later)).lift Cluster.locks Worker.phase
      fun _ h => (leasedStep_turned h).lock
  have hengine : Outline (leasedStep digest later) (fun _ _ _ => True) _ _ :=
    ((sound_outline (ι := ι) anyLock).restrict fun _ => trivial).lift Cluster.engine Worker.control
      fun _ h => (leasedStep_turned h).worker (LeaseTurn.calls_any _)
  exact (hlock.and hengine).strengthen (fun _ _ hf _ h => (leasedStep_turned h).fits hf)
    fun _ _ _ _ _ hf _ _ => hf

omit [DecidableEq ι] in
theorem startCluster_holds (now : τ) :
    Holds (fun cl : Cluster ι τ => (cl.locks.Sound digest ∧ cl.locks.Kept) ∧ cl.engine.tables.Sound)
      (fun w cl k => ((k.phase.Sound w cl.locks ∧ k.phase.Kept w cl.locks) ∧
        k.control.Sound cl.engine.tables) ∧ k.Fits) (startCluster now) := by
  have hlocks : LockTable.Sound digest (startCluster (ι := ι) now).shared.locks := by
    refine ⟨?_, ?_, ?_, ?_, ?_⟩ <;> simp [startCluster, startLocks]
  have hkept : LockTable.Kept (startCluster (ι := ι) now).shared.locks := by
    refine ⟨?_, ?_⟩ <;> simp [startCluster, startLocks]
  exact ⟨⟨⟨hlocks, hkept⟩, empty_sound⟩,
    fun _ => ⟨⟨⟨trivial, trivial⟩, trivial⟩, fits_outside rfl⟩⟩

-- the lease of a worker inside its block, and whether it stands
omit [DecidableEq ι] in
theorem inside_lease (hs : cl.locks.Sound digest) (hp : k.phase.Sound w cl.locks)
    (hk : k.phase.Kept w cl.locks) (hf : k.Fits) {s : Session}
    (hin : k.control.inside = some s) : ∃ g ∈ cl.locks.granted,
      k.phase = .inside s.key g.owner ∧ g.key = s.key ∧ cl.locks.issuer g.owner = some w ∧
        g.owner ∉ cl.locks.released ∧ (cl.lapsed k = true ↔ g.expiresAt ≤ cl.locks.clock) := by
  obtain ⟨ctrl, ph⟩ := k
  obtain ⟨owner, rfl⟩ := (fits_inside hin).mp hf
  obtain ⟨g, hg, hkey, rfl⟩ := hp
  refine ⟨g, hg, rfl, hkey, hk.1, hk.2, ?_⟩
  simp only [Cluster.lapsed, List.any_eq_true, Bool.and_eq_true, decide_eq_true_eq]
  constructor
  · rintro ⟨g', hg', howner, hexp⟩
    exact hs.owners g' hg' g hg howner ▸ hexp
  · exact fun hexp => ⟨g, hg, rfl, hexp⟩

-- two workers are inside blocks of one key only when the lease of one of them has lapsed
theorem blocks_overlap_after_lapse (digest : String → Nat) (later : τ → τ) {t₀ : τ}
    {es : List (ι × LeaseTurn τ)} {c : Config ι (Cluster ι τ) (Worker τ)}
    (h : runCluster digest later (startCluster t₀) es = some c) {s s' : Session}
    (hw : (c.locals w).control.inside = some s) (hv : (c.locals v).control.inside = some s')
    (hk : s.key = s'.key) :
    w = v ∨ c.shared.lapsed (c.locals w) = true ∨ c.shared.lapsed (c.locals v) = true := by
  obtain ⟨⟨⟨hsound, hkept⟩, _⟩, hlocals⟩ := (cluster_outline digest later).run
    (startCluster_holds t₀) h
  obtain ⟨g, hg, _, hkey, hiss, hrel, hlapse⟩ :=
    inside_lease hsound (hlocals w).1.1.1 (hlocals w).1.1.2 (hlocals w).2 hw
  obtain ⟨g', hg', _, hkey', hiss', hrel', hlapse'⟩ :=
    inside_lease hsound (hlocals v).1.1.1 (hlocals v).1.1.2 (hlocals v).2 hv
  rcases hsound.accounted g hg with hin | hr | hexp
  · rcases hsound.accounted g' hg' with hin' | hr' | hexp'
    · have hid : g.lockId = g'.lockId := by
        rw [hsound.lockIds g hg, hsound.lockIds g' hg', hkey, hkey', hk]
      have heq : g = g' := List.inj_on_of_nodup_map hkept.lockIds hin hin' hid
      rw [heq, hiss'] at hiss
      exact .inl (Option.some.inj hiss).symm
    · exact absurd hr' hrel'
    · exact .inr (.inr (hlapse'.mpr hexp'))
  · exact absurd hr hrel
  · exact .inr (.inl (hlapse.mpr hexp))

def aMinute (now : Int) : Int := now + 60

def engineTurns (w : Bool) (as : List Action) : List (Bool × LeaseTurn Int) :=
  as.map fun a => (w, .engine a)

-- the first worker's lease lapses while its handler is at work, and a second takes the key
def overtaken : List (Bool × LeaseTurn Int) :=
  engineTurns true [submits, .call chargeCall, .store] ++
    [(true, .enter "first"), (true, .acquire)] ++ engineTurns true [.store, .begin] ++
    (false, .pass 61) :: engineTurns false [.call chargeCall, .store] ++
    [(false, .enter "second"), (false, .acquire)]

theorem blocks_overlap_after_lapse_overtaken :
    ∃ (c : Config Bool (Cluster Bool Int) (Worker Int)) (s s' : Session),
      runCluster String.length aMinute (startCluster 0) overtaken = some c ∧
      (c.locals true).control.inside = some s ∧ (c.locals false).control.inside = some s' ∧
      s.key = s'.key ∧ (true = false ∨ c.shared.lapsed (c.locals true) = true ∨
        c.shared.lapsed (c.locals false) = true) := by
  have h : ((runCluster String.length aMinute (startCluster 0) overtaken).any fun c =>
      (c.locals true).control.inside.any fun s =>
        (c.locals false).control.inside.any fun s' => s.key = s'.key) = true := by decide +kernel
  obtain ⟨c, hc, hq⟩ := (Option.any_eq_true _ _).mp h
  obtain ⟨s, hs, hq⟩ := (Option.any_eq_true _ _).mp hq
  obtain ⟨s', hs', hq⟩ := (Option.any_eq_true _ _).mp hq
  rw [decide_eq_true_eq] at hq
  exact ⟨c, s, s', hc, hs, hs', hq, blocks_overlap_after_lapse _ _ hc hs hs' hq⟩

end Exclusion

end DurableAgent
