import DurableAgent.InFlight
import DurableAgent.Contract
import Mathlib.Data.List.MinMax

namespace DurableAgent

open Interleaving

variable {ι : Type}

-- a submission draws an id no stored run has
def Action.Fresh (t : Tables) : Action → Prop
  | .submit _ _ runId _ _ => t.runRow runId = none
  | _ => True

def Action.draws : Action → Option String
  | .submit _ _ runId _ _ => some runId
  | _ => none

theorem fresh_iff {t : Tables} {a : Action} :
    a.Fresh t ↔ ∀ runId ∈ a.draws, t.runRow runId = none := by
  unfold Action.Fresh Action.draws
  split <;> simp

instance (t : Tables) (a : Action) : Decidable (a.Fresh t) := decidable_of_iff _ fresh_iff.symm

def Tables.Has (t : Tables) (key : String) : Prop :=
  ∃ runId row, t.runRow runId = some row ∧ row.idempotencyKey = key

def Control.Contested (t : Tables) : Control → Prop
  | .conflicted key => t.Has key
  | _ => True

-- the answer to a submission that was refused
structure Pointed (t : Tables) (key : String) (row : RunRow) : Prop where
  stored : t.runRow row.runId = some row
  keyed : row.idempotencyKey = key
  latest : ∀ r ∈ t.runs, r.idempotencyKey = key → r.createdAt ≤ row.createdAt
  inFlight : (∀ r ∈ t.runs, r.idempotencyKey = key → r.status.isTerminal = false) →
    t.InFlight key row ∧ ∀ r, t.InFlight key r → r = row

section Submit

variable {policy : LockPolicy ι} {w : ι} {sh sh' : Shared ι} {ctrl ctrl' : Control} {a : Action}

theorem Tables.Has.grows {t t' : Tables} {key : String} (h : t.Has key) (hg : t.Grows t') :
    t'.Has key := by
  obtain ⟨runId, row, hr, hk⟩ := h
  obtain ⟨row', hr', hk'⟩ := hg.runs runId row hr
  exact ⟨runId, row', hr', hk'.trans hk⟩

theorem insertRun_contested {t : Tables} {runId : String} {spec : RunSpec} {now : Nat}
    (hw : t.WellFormed) (hn : t.runRow runId = none)
    (h : t.insertRun stack runId spec now = .error .integrityError) :
    t.Has spec.idempotencyKey := by
  unfold Tables.insertRun at h
  split at h
  · cases h
  · simp only [hn, Option.isSome_none, Bool.false_or] at h
    split at h
    · rename_i hclash
      obtain ⟨r, hr, _, hk, _⟩ := Tables.activeClash_eq_true.mp hclash
      exact ⟨r.runId, r, Tables.runRow_of_mem hw hr, hk⟩
    · cases h

theorem submit_contested (handlers : List String) (stack : Nat) {runId : String} (spec : RunSpec)
    (now : Nat) (hw : sh.tables.WellFormed) (hn : sh.tables.runRow runId = none) :
    (submit sh handlers stack runId spec now).2.Contested
      (submit sh handlers stack runId spec now).1.tables := by
  unfold submit
  simp only
  split
  · trivial
  · split
    · trivial
    · exact insertRun_contested hw hn ‹_›
    · trivial

variable [DecidableEq ι]

theorem contested_step (hw : sh.tables.WellFormed) (hf : a.Fresh sh.tables)
    (h : workerStep policy w sh ctrl a = some (sh', ctrl')) : ctrl'.Contested sh'.tables := by
  have concluded {s : Session} {f : Frame} {e : Execution} {now : Datetime} {t : Tables} :
      (conclude s f e now).Contested t := by
    apply conclude_cases (P := fun ctrl => ctrl.Contested t) <;> intros <;> trivial
  have next {s : Session} {n : Nat} {p : StrDict} {q : Outputs} {t : Tables} :
      (s.next n p q).Contested t := by
    apply next_cases (P := fun ctrl => ctrl.Contested t) <;> intros <;> trivial
  cases workerStep_took h with
  | @submitted last handlers stack runId spec now sh' ctrl' submitted =>
    have hs := submit_contested handlers stack spec now hw hf
    rwa [submitted] at hs
  | stored performed =>
    cases performed with
    | @loaded c =>
      unfold loaded
      split
      · trivial
      · split
        · trivial
        · split <;> trivial
    | started set => exact next
    | @appended s f r after t stored =>
      cases after with
      | proceed payload previous => exact next
      | settle status reason reraise => trivial
    | _ => trivial
  | missing unknown => exact concluded
  | returned result => exact concluded
  | threw result => exact concluded
  | outage failed => cases ctrl <;> cases failed <;> trivial
  | _ => trivial

theorem contested_outline (policy : LockPolicy ι) :
    Outline (workerStep policy) (fun sh _ a => a.Fresh sh.tables) (fun sh => sh.tables.Sound)
      (fun _ sh ctrl => ctrl.Sound sh.tables ∧ ctrl.Contested sh.tables) := by
  apply ((sound_outline policy).restrict fun _ => trivial).strengthen
  · intro i sh ctrl a sh' ctrl' ht _ _ hf ha
    exact contested_step ht.wellFormed hf ha
  · intro i j sh ctrl a sh' ctrl' l _ _ _ _ _ hl _ ha
    cases l with
    | conflicted key => exact hl.grows (workerStep_move ha).grows
    | _ => trivial

omit [DecidableEq ι] in
theorem latestFor_ne_nil {t : Tables} {key : String} (h : t.Has key) : t.latestFor key ≠ [] := by
  obtain ⟨runId, row, hr, hk⟩ := h
  have hrow : row ∈ t.rowsFor key :=
    List.mem_filter.mpr ⟨Tables.runRow_mem hr, decide_eq_true hk⟩
  obtain ⟨last, hlast⟩ := Option.ne_none_iff_exists'.mp
    fun hn => List.ne_nil_of_mem hrow (List.argmax_eq_none (f := RunRow.createdAt).mp hn)
  have hmem := List.mem_filter.mp (List.argmax_mem hlast)
  refine List.ne_nil_of_mem (Tables.mem_latestFor.mpr ⟨⟨hmem.1, of_decide_eq_true hmem.2⟩, ?_⟩)
  exact fun r hr hk => List.le_of_mem_argmax (List.mem_filter.mpr ⟨hr, decide_eq_true hk⟩) hlast

theorem findByKey_pointed {t : Tables} (hw : t.WellFormed) {key : String} (h : t.Has key)
    (tie : Nat) : ∃ row, t.findByKey key tie = some (t.hydrate row) ∧ Pointed t key row := by
  have hlt : tie % (t.latestFor key).length < (t.latestFor key).length :=
    Nat.mod_lt _ (List.length_pos_of_ne_nil (latestFor_ne_nil h))
  have hmem := Tables.mem_latestFor.mp (List.getElem_mem hlt)
  refine ⟨_, by rw [Tables.findByKey_eq, List.getElem?_eq_getElem hlt, Option.map_some], ?_⟩
  refine ⟨Tables.runRow_of_mem hw hmem.1.1, hmem.1.2, hmem.2, fun hactive => ?_⟩
  have hin : t.InFlight key (t.latestFor key)[tie % (t.latestFor key).length] :=
    ⟨hmem.1.1, hmem.1.2, hactive _ hmem.1.1 hmem.1.2⟩
  exact ⟨hin, fun r hr => Tables.inFlight_unique hw hr hin⟩

-- a refused submission is pointed at a stored run of its key, the one in flight while no run of
-- the key has ended, and a later `load` finds that run
theorem conflict_names_stored_run (policy : LockPolicy ι) {es : List (ι × Action)} {c d : System ι}
    (hfresh : alongSystem policy (fun sh _ a => a.Fresh sh.tables) (System.start Tables.empty) es)
    (h : runSystem policy (System.start Tables.empty) es = some c) {key : String} {tie : Nat}
    (hw : c.locals w = .conflicted key)
    (hs : Interleaving.step (workerStep policy) c (w, .lookup tie) = some d) :
    ∃ row, Pointed c.shared.tables key row ∧
      d.locals w = .atRest (some (.raised (.runAlreadyActive row.runId))) ∧
      ∀ es' d', runSystem policy d es' = some d' → ∃ state,
        d'.shared.tables.load row.runId = some state ∧ state.idempotencyKey = key := by
  have hstart : ∀ w : ι, ((System.start (ι := ι) Tables.empty).locals w).Sound Tables.empty ∧
      ((System.start (ι := ι) Tables.empty).locals w).Contested Tables.empty :=
    fun _ => ⟨trivial, trivial⟩
  have hend := (contested_outline policy).run_along ⟨empty_sound, hstart⟩ hfresh h
  have hhas : c.shared.tables.Has key := by
    have hcon := (hend.2 w).2
    rwa [hw] at hcon
  obtain ⟨row, hfind, hrow⟩ := findByKey_pointed hend.1.wellFormed hhas tie
  obtain ⟨sh, ctrl, ha, rfl⟩ := step_eq_some.mp hs
  rw [hw] at ha
  simp only [workerStep, hfind, Option.some.injEq, Prod.mk.injEq] at ha
  obtain ⟨rfl, rfl⟩ := ha
  refine ⟨row, hrow, by simp [Tables.hydrate], fun es' d' hd => ?_⟩
  obtain ⟨row', hrow', hk⟩ := (run_grows hd).runs row.runId row hrow.stored
  exact ⟨_, by rw [Tables.load, hrow', Option.map_some], hk.trans hrow.keyed⟩

-- two clients submit under one key; the loser looks the key up after the winner's run has started
def racedSubmission : List (Bool × Action) :=
  [(true, submits), (false, .submit ["charge", "notify"] 900 "again" chargeSpec 0)] ++
    turns true opens

theorem conflict_names_stored_run_raced :
    ∃ (c d : System Bool) (row : RunRow),
      runSystem perfectLock (System.start Tables.empty) racedSubmission = some c ∧
      Interleaving.step (workerStep perfectLock) c (false, .lookup 0) = some d ∧
      Pointed c.shared.tables "order-0001" row ∧
      d.locals false = .atRest (some (.raised (.runAlreadyActive row.runId))) ∧
      ∀ es' d', runSystem perfectLock d es' = some d' → ∃ state,
        d'.shared.tables.load row.runId = some state ∧ state.idempotencyKey = "order-0001" := by
  have hq : ((runSystem perfectLock (System.start Tables.empty) racedSubmission).any fun c =>
      match c.locals false with
      | .conflicted key => key = "order-0001" &&
          (Interleaving.step (workerStep perfectLock) c (false, .lookup 0)).isSome
      | _ => false) = true := by decide +kernel
  obtain ⟨c, hc, hq⟩ := (Option.any_eq_true _ _).mp hq
  split at hq
  · rename_i key hw
    simp only [Bool.and_eq_true, decide_eq_true_eq] at hq
    obtain ⟨rfl, hd⟩ := hq
    obtain ⟨d, hd⟩ := Option.isSome_iff_exists.mp hd
    obtain ⟨row, hrow⟩ := conflict_names_stored_run perfectLock (by decide +kernel) hc hw hd
    exact ⟨c, d, row, hc, hd, hrow⟩
  · cases hq

end Submit

end DurableAgent
