import DurableAgent.Transparency

namespace DurableAgent

open FirstWriter Interleaving Replay

variable {ι : Type}

-- one origin, and the checkpoints its uninterrupted run ends with
structure Course (handle : String → StepContext → Execution) (origin : Session)
    (final : List Checkpoint) (ending : Ending) : Prop where
  reproducible : Reproducible origin.call.plan origin.state.payload handle
  halts : Halts (straight handle origin) [] final ending

def Ending.rows (final : List Checkpoint) (ending : Ending) : List Checkpoint :=
  (ending.durable final).checkpoints

structure Confluent (origin : Session) (final : List Checkpoint) (ending : Ending)
    (t : Tables) : Prop where
  run : ∃ row, t.runRow origin.call.runId = some row ∧
    loadsObject row.payload = origin.state.payload ∧
    (row.status.isTerminal = true → durable t origin.call.runId = some (ending.durable final))
  rows : checkpoints t origin.call.runId <+: ending.rows final

-- what a worker holds was recorded, if not by itself then by another
def Abreast (origin : Session) (final : List Checkpoint) (t : Tables) (index : Nat)
    (payload : StrDict) (previous : Outputs) : Prop :=
  ∃ log, log <+: final ∧ log <+: checkpoints t origin.call.runId ∧ log.length = index ∧
    payload = origin.state.payload ∧ Agrees origin.call.plan log previous

def Control.Converges (handle : String → StepContext → Execution) (origin : Session)
    (final : List Checkpoint) (ending : Ending) (t : Tables) : Control → Prop
  | .locking s => s.call.runId = origin.call.runId → s.state.payload = origin.state.payload
  | .starting s => s.call.runId = origin.call.runId → s.state.payload = origin.state.payload
  | .calling s f => s.call.runId = origin.call.runId →
      Abreast origin final t f.index f.payload f.previous
  | .handling s f => s.call.runId = origin.call.runId →
      Abreast origin final t f.index f.payload f.previous ∧ f.step.name ∈ s.call.handlers
  | .appending s f r after => s.call.runId = origin.call.runId →
      ∃ log, log <+: final ∧ log <+: checkpoints t origin.call.runId ∧ log.length = f.index ∧
        (Control.appending s f r after).entry = straight handle origin log ∧
        after.Carries origin log r
  | .settling s status error _ => s.call.runId = origin.call.runId →
      ∀ err, Tables.encodeError error = some err →
        ending.durable final = ⟨status, err, checkpoints t origin.call.runId⟩
  | _ => True

section Course

variable {handle : String → StepContext → Execution} {origin s : Session} {f : Frame}
  {final log rows rows' : List Checkpoint} {ending b : Ending} {entry : Checkpoint}
  {t t' : Tables} {r : StepRecord}

theorem straight_json (hr : Reproducible origin.call.plan origin.state.payload handle)
    (hl : ∀ x ∈ log, isJsonDict (ofStrDict x.output))
    (hs : straight handle origin log = .emit entry) : isJsonDict (ofStrDict entry.output) := by
  unfold straight at hs
  split at hs
  · cases hs
  · rename_i step hstep
    have hf : Follows origin log (straightFrame origin log step) :=
      ⟨hstep, rfl, rfl, agrees_previousOfLog _ log⟩
    revert hs
    apply conclude_cases (P := fun ctrl => ctrl.entry = .emit entry →
      isJsonDict (ofStrDict entry.output))
    · intro o he
      cases he
    · intro status reason reraise r _ _ he
      simp only [Control.entry] at he
      split at he <;> cases he
    · intro output r ho hrec he
      simp only [Control.entry] at he
      split at he
      · rename_i entry' hst
        cases he
        exact ((proceed_carries hr hf hl ho hrec).2 entry hst).2
      · cases he

theorem Course.succeeded (h : Course handle origin final ending) :
    ∀ x ∈ final, x.outcome ≠ .failed ∧ isJsonDict (ofStrDict x.output) := by
  refine h.halts.forall_mem
    (P := fun x => x.outcome ≠ .failed ∧ isJsonDict (ofStrDict x.output)) ?_ ?_
  · intro log x hl hs
    exact ⟨straight_emit hs, straight_json h.reproducible (fun y hy => (hl y hy).2) hs⟩
  · intro x hx
    cases hx

theorem Course.emitted (h : Course handle origin final ending) (hl : log <+: final)
    (hs : straight handle origin log = .emit entry) : log ++ [entry] <+: final :=
  ((h.halts.onward List.nil_prefix hl).of_emit hs).left

theorem Course.halted (h : Course handle origin final ending) (hl : log <+: final)
    (hs : straight handle origin log = .halt b) : final = log ∧ ending = b :=
  (h.halts.onward List.nil_prefix hl).of_halt hs

theorem failed_rows {status : RunStatus} {reason : PyStr} :
    (Ending.failed entry status reason).rows final = final ++ [entry] := by
  simp only [Ending.rows, Ending.durable]
  cases reason.encode <;> rfl

theorem Ending.left : final <+: ending.rows final := by
  cases ending with
  | completed => exact List.prefix_rfl
  | failed entry status reason =>
    rw [failed_rows]
    exact List.prefix_append _ _
  | stuck => exact List.prefix_rfl

-- rows on the way to the uninterrupted run's last ones are the straight run's own
theorem Course.onTrack (h : Course handle origin final ending) (hr : rows <+: ending.rows final) :
    ∃ log, OnTrack handle origin final ending log rows := by
  have within (hle : rows <+: final) : OnTrack handle origin final ending rows rows :=
    ⟨h.halts.onward List.nil_prefix hle, fun x hx => h.succeeded x (hle.subset hx), .inl rfl⟩
  have hlast := h.halts.last
  cases ending with
  | completed => exact ⟨rows, within hr⟩
  | stuck => exact ⟨rows, within hr⟩
  | failed entry status reason =>
    rw [failed_rows] at hr
    rcases Nat.lt_or_ge final.length rows.length with hlt | hge
    · have hfull : rows = final ++ [entry] := by
        apply hr.eq_of_length_le
        rw [List.length_append, List.length_singleton]
        exact hlt
      exact ⟨final, h.halts.onward List.nil_prefix List.prefix_rfl, h.succeeded,
        .inr ⟨entry, status, reason, hlast, hfull⟩⟩
    · exact ⟨rows, within (List.prefix_of_prefix_length_le hr (List.prefix_append _ _) hge)⟩

theorem checkpoints_grow (runId : String) (hg : t.Grows t') :
    checkpoints t runId <+: checkpoints t' runId := by
  obtain ⟨more, hm⟩ := hg.rows runId
  rw [checkpoints, checkpoints, hm, List.map_append]
  exact List.prefix_append _ _

-- an append the straight run makes too leaves rows that lie on its way
theorem Course.append {after : AfterAppend} (h : Course handle origin final ending)
    (hn : t.Numbered) (hrows : checkpoints t origin.call.runId <+: ending.rows final)
    (hid : r.runId = origin.call.runId) (hl : log <+: final)
    (hlr : log <+: checkpoints t origin.call.runId) (hi : r.index = log.length)
    (hentry : (Control.appending s f r after).entry = straight handle origin log)
    (ha : t.append s.call.stack r = .ok t') :
    ∃ entry, r.stored s.call.stack = some entry ∧
      match after with
      | .proceed _ _ => log ++ [entry] <+: final ∧
          log ++ [entry] <+: checkpoints t' origin.call.runId ∧
          checkpoints t' origin.call.runId <+: ending.rows final
      | .settle status reason _ => final = log ∧ ending = .failed entry status reason ∧
          checkpoints t' origin.call.runId = log ++ [entry] := by
  obtain ⟨output, _, hst⟩ := stored_of_append ha
  obtain ⟨hold, hnew⟩ := checkpoints_append hn hid ha hst
  rw [hi] at hold hnew
  -- whoever came first, the row at this index is the straight run's
  have placed {x : Checkpoint} (hx : log ++ [x] <+: ending.rows final)
      (he : (Tables.hydrateStep (r.row output)).checkpoint = x) :
      log ++ [x] <+: checkpoints t' origin.call.runId ∧
        checkpoints t' origin.call.runId <+: ending.rows final := by
    rcases Nat.lt_or_ge log.length (checkpoints t origin.call.runId).length with hlt | hge
    · rw [hold hlt]
      refine ⟨List.prefix_of_prefix_length_le hx hrows ?_, hrows⟩
      rw [List.length_append, List.length_singleton]
      exact hlt
    · have heq := hlr.eq_of_length_le hge
      rw [hnew (congrArg List.length heq), ← heq, he]
      exact ⟨List.prefix_rfl, hx⟩
  refine ⟨_, hst, ?_⟩
  cases after with
  | proceed payload previous =>
    simp only [Control.entry, hst] at hentry
    have hemit := h.emitted hl hentry.symm
    exact ⟨hemit, placed (hemit.trans Ending.left) rfl⟩
  | settle status reason reraise =>
    simp only [Control.entry, hst] at hentry
    obtain ⟨rfl, rfl⟩ := h.halted hl hentry.symm
    obtain ⟨hleft, hright⟩ := placed (failed_rows ▸ List.prefix_rfl) rfl
    rw [failed_rows] at hright
    exact ⟨rfl, rfl, (hright.eq_of_length_le hleft.length_le)⟩

end Course

section Moves

variable {policy : LockPolicy ι} {w : ι} {sh sh' : Shared ι} {ctrl ctrl' : Control} {a : Action}
  {handle : String → StepContext → Execution} {origin s : Session} {f : Frame}
  {final : List Checkpoint} {ending : Ending} {t t' : Tables}

theorem inert_converges (h : ctrl.inert = true) :
    ctrl.Converges handle origin final ending t := by
  cases ctrl <;> trivial

theorem Abreast.follows {index : Nat} {step : Step} {payload : StrDict} {previous : Outputs}
    (h : Abreast origin final t index payload previous)
    (hs : origin.call.plan.steps[index]? = some step) :
    ∃ log, log <+: final ∧ log <+: checkpoints t origin.call.runId ∧
      Follows origin log ⟨index, step, payload, previous⟩ := by
  obtain ⟨log, hl, hlr, hlen, hpay, hag⟩ := h
  exact ⟨log, hl, hlr, hs, hlen, hpay, hag⟩

theorem next_converges {index : Nat} {payload : StrDict} {previous : Outputs}
    (hc : Course handle origin final ending) (hx : Confluent origin final ending t)
    (hw : SameWork origin.call s.call)
    (h : s.call.runId = origin.call.runId → Abreast origin final t index payload previous) :
    (s.next index payload previous).Converges handle origin final ending t := by
  apply next_cases
  · intro hle hid err he
    cases he
    obtain ⟨log, hl, hlr, hlen, _⟩ := h hid
    rw [(hw hid).1] at hle
    have hs : origin.call.plan.steps[log.length]? = none := by
      rw [hlen]
      exact List.getElem?_eq_none_iff.mpr hle
    have hb : straight handle origin log = .halt .completed := by simp only [straight, hs]
    obtain ⟨rfl, rfl⟩ := hc.halted hl hb
    have hrows := hx.rows.eq_of_length_le hlr.length_le
    rw [hrows]
    rfl
  · intro step _
    exact h
  · intro o
    trivial

theorem conclude_converges_other (hid : s.call.runId ≠ origin.call.runId) (e : Execution)
    (now : Datetime) : (conclude s f e now).Converges handle origin final ending t := by
  apply conclude_cases
  · intro o
    trivial
  · intro status reason reraise r _ _ hid'
    exact absurd hid' hid
  · intro output r _ _ hid'
    exact absurd hid' hid

theorem conclude_converges (hc : Course handle origin final ending)
    (hw : SameWork origin.call s.call) (hf : f.Sound t s)
    (h : s.call.runId = origin.call.runId → Abreast origin final t f.index f.payload f.previous)
    (now : Datetime) :
    (conclude s f (execute handle s f) now).Converges handle origin final ending t := by
  by_cases hid : s.call.runId = origin.call.runId
  · have hstep := hf.step
    rw [(hw hid).1] at hstep
    obtain ⟨log, hl, hlr, hfol⟩ := (h hid).follows hstep
    have hjson : ∀ x ∈ log, isJsonDict (ofStrDict x.output) :=
      fun x hx => (hc.succeeded x (hl.subset hx)).2
    have hentry := conclude_straight hc.reproducible hid (hw hid).2.1 (hw hid).2.2 hfol now
    revert hentry
    apply conclude_cases (P := fun ctrl => ctrl.entry = straight handle origin log →
      ctrl.Converges handle origin final ending t)
    · intro o _
      trivial
    · intro status reason reraise r _ _ he _
      exact ⟨log, hl, hlr, hfol.length, he, trivial⟩
    · intro output r ho hrec he _
      exact ⟨log, hl, hlr, hfol.length, he, proceed_carries hc.reproducible hfol hjson ho hrec⟩
  · exact conclude_converges_other hid _ now

theorem handled_converges {e : Execution} {now : Datetime}
    (hc : Course handle origin final ending) (hw : SameWork origin.call s.call)
    (hf : f.Sound t s) (hk : (Control.handling s f).Converges handle origin final ending t)
    (hp : Plays handle origin.call.runId sh (.handling s f) (.finish e now)) :
    (conclude s f e now).Converges handle origin final ending t := by
  by_cases hid : s.call.runId = origin.call.runId
  · rcases hp hid with rfl | hcrash
    · have he : execute handle s f = handle f.step.name (f.context s) := if_pos (hk hid).2
      rw [← he]
      exact conclude_converges hc hw hf (fun hid => (hk hid).1) now
    · simp only [conclude, hcrash]
      trivial
  · exact conclude_converges_other hid _ now

-- a worker that starts from an old snapshot starts behind the rows, not off them
theorem Confluent.abreast (hc : Course handle origin final ending)
    (hx : Confluent origin final ending t) (hn : t.Numbered) (hs : s.Sound t)
    (hr : PlanRows t s.call.runId s.call.plan) (hid : s.call.runId = origin.call.runId)
    (hw : SameWork origin.call s.call) (hpay : s.state.payload = origin.state.payload) :
    Abreast origin final t s.state.nextIndex s.state.payload (previousOf s.state) := by
  have hle : s.state.nextIndex ≤ (checkpoints t origin.call.runId).length := by
    rw [checkpoints, List.length_map, ← hid]
    exact hs.nextIndex_le hn
  have hknown := (previousOf_known hs hn hr).1
  let log := (checkpoints t origin.call.runId).take s.state.nextIndex
  have hlr : log <+: checkpoints t origin.call.runId := List.take_prefix _ _
  have hlen : log.length = s.state.nextIndex := by
    rw [List.length_take, Nat.min_eq_left hle]
  have hrow {j : Nat} {entry : Checkpoint} (he : log[j]? = some entry) :
      ∃ row ∈ t.rowsOf s.call.runId, row.stepIndex = j ∧
        (Tables.hydrateStep row).checkpoint = entry := by
    have hlt := (List.getElem?_eq_some_iff.mp he).1
    have hget : (checkpoints t origin.call.runId)[j]? = some entry := by
      rw [← he, List.getElem?_take_of_lt (hlen ▸ hlt)]
    rw [checkpoints, ← hid, List.getElem?_map, Option.map_eq_some_iff] at hget
    obtain ⟨row, hrow, he⟩ := hget
    exact ⟨row, List.mem_of_getElem? hrow, (hn _).idx_of_getElem? hrow, he⟩
  have hag : Agrees origin.call.plan log (previousOf s.state) := by
    intro j step entry hstep he
    obtain ⟨row, hmem, rfl, rfl⟩ := hrow he
    have hlt := (List.getElem?_eq_some_iff.mp he).1
    have hget := hknown row hmem (hlen ▸ hlt)
    rwa [planRows_name hr hmem ((hw hid).1.symm ▸ hstep)] at hget
  have hgood : ∀ x ∈ log, x.outcome ≠ .failed := by
    intro x hmem
    obtain ⟨j, hj⟩ := List.mem_iff_getElem?.mp hmem
    obtain ⟨row, hrow, hidx, rfl⟩ := hrow hj
    have hlt := (List.getElem?_eq_some_iff.mp hj).1
    obtain ⟨rec, hrec, hreci, hout⟩ := RunState.mem_done_of_lt (hlen ▸ hlt)
    obtain ⟨row', hrow', rfl⟩ := hs.row_of_step hrec
    have heq := (hn _).eq_of_idx_eq hrow' hrow (hreci.trans hidx.symm)
    rw [← heq]
    exact hout
  obtain ⟨log', htrack⟩ := hc.onTrack (hlr.trans hx.rows)
  refine ⟨log, ?_, hlr, hlen, hpay, hag⟩
  rcases htrack.rows with hsame | ⟨entry, status, reason, hstop, hsame⟩
  · rw [hsame]
    exact htrack.halts.left
  · exact absurd (straight_failed hstop) (hgood entry (by rw [hsame]; simp))

theorem appended_confluent {r : StepRecord} {after : AfterAppend}
    (hc : Course handle origin final ending) (hx : Confluent origin final ending t)
    (hn : t.Numbered) (hs : (Control.appending s f r after).Sound t)
    (hk : (Control.appending s f r after).Converges handle origin final ending t)
    (hid : r.runId = origin.call.runId) (stored : t.append s.call.stack r = .ok t') :
    checkpoints t' origin.call.runId <+: ending.rows final := by
  obtain ⟨_, _, hrec⟩ := hs
  obtain ⟨log, hl, hlr, hlen, hentry, _⟩ := hk (hrec.runId.symm.trans hid)
  obtain ⟨entry, _, hafter⟩ :=
    hc.append hn hx.rows hid hl hlr (hrec.index.trans hlen.symm) hentry stored
  cases after with
  | proceed payload previous => exact hafter.2.2
  | settle status reason reraise =>
    obtain ⟨rfl, rfl, hrows⟩ := hafter
    have hfull : checkpoints t' origin.call.runId =
        (Ending.failed entry status reason).rows final := hrows.trans failed_rows.symm
    exact hfull ▸ List.prefix_rfl

theorem appended_converges {r : StepRecord} {after : AfterAppend}
    (hc : Course handle origin final ending) (hx : Confluent origin final ending t)
    (hx' : Confluent origin final ending t') (hn : t.Numbered)
    (hs : (Control.appending s f r after).Sound t) (hw : SameWork origin.call s.call)
    (hk : (Control.appending s f r after).Converges handle origin final ending t)
    (stored : t.append s.call.stack r = .ok t') :
    (after.control s f).Converges handle origin final ending t' := by
  obtain ⟨_, _, hrec⟩ := hs
  by_cases hid : s.call.runId = origin.call.runId
  · obtain ⟨log, hl, hlr, hlen, hentry, hcar⟩ := hk hid
    obtain ⟨entry, hst, hafter⟩ := hc.append hn hx.rows (hrec.runId.trans hid) hl hlr
      (hrec.index.trans hlen.symm) hentry stored
    cases after with
    | proceed payload previous =>
      obtain ⟨hpay, hcarry⟩ := hcar
      rw [(hw hid).2.2] at hst
      refine next_converges hc hx' hw fun _ =>
        ⟨log ++ [entry], hafter.1, hafter.2.1, ?_, hpay, (hcarry entry hst).1⟩
      rw [List.length_append, List.length_singleton, hlen]
    | settle status reason reraise =>
      obtain ⟨rfl, rfl, hrows⟩ := hafter
      intro _ err he
      rw [hrows, failed_durable he]
  · cases after with
    | proceed payload previous => exact next_converges hc hx' hw fun hid' => absurd hid' hid
    | settle status reason reraise => exact fun hid' => absurd hid' hid

theorem Move.rows_confluent (h : Move policy w sh ctrl a sh' ctrl')
    (hc : Course handle origin final ending) (ht : sh.tables.Sound) (hs : ctrl.Sound sh.tables)
    (hx : Confluent origin final ending sh.tables)
    (hk : ctrl.Converges handle origin final ending sh.tables) :
    checkpoints sh'.tables origin.call.runId <+: ending.rows final := by
  by_cases hn : ∃ s f r after, ctrl = .appending s f r after ∧ r.runId = origin.call.runId
  · obtain ⟨s, f, r, after, rfl, hid⟩ := hn
    cases h with
    | rest tables log inert => exact tables ▸ hx.rows
    | appended writes stored next => exact appended_confluent hc hx ht.numbered hs hk hid stored
  · have hrows := h.keeps_rows fun s f r after he hid => hn ⟨s, f, r, after, he, hid⟩
    rw [checkpoints_congr hrows]
    exact hx.rows

theorem Move.confluent (h : Move policy w sh ctrl a sh' ctrl')
    (hc : Course handle origin final ending) (ht : sh.tables.Sound) (hs : ctrl.Sound sh.tables)
    (hx : Confluent origin final ending sh.tables)
    (hk : ctrl.Converges handle origin final ending sh.tables) :
    Confluent origin final ending sh'.tables := by
  have ht' := h.tables_sound ht hs
  have hrows := h.rows_confluent hc ht hs hx hk
  refine ⟨?_, hrows⟩
  obtain ⟨row, hrow, hpay, hterm⟩ := hx.run
  rcases h.run_row hrow with hkeep | ⟨s, _, _, hstart⟩ |
    ⟨s, status, error, reraise, err, rfl, hid, he, _, hset⟩
  · refine ⟨row, hkeep, hpay, fun hact => ?_⟩
    have hold := hterm hact
    rw [durable_eq ht.numbered hrow] at hold
    have hfull : checkpoints sh.tables origin.call.runId = ending.rows final :=
      congrArg DurableRun.checkpoints (Option.some.inj hold)
    have hgrow := checkpoints_grow origin.call.runId h.grows
    rw [durable_eq ht'.numbered hkeep, hrows.eq_of_length_le (hfull ▸ hgrow.length_le), ← hfull,
      hold]
  · refine ⟨_, hstart, hpay, fun hact => ?_⟩
    cases hact
  · refine ⟨_, hset, hpay, fun _ => ?_⟩
    have hsame : sh'.tables.rowsOf origin.call.runId = sh.tables.rowsOf origin.call.runId := by
      apply h.keeps_rows
      rintro _ _ _ _ hctrl
      cases hctrl
    rw [durable_eq ht'.numbered hset, hk hid err he, checkpoints_congr hsame]

theorem Move.converges (h : Move policy w sh ctrl a sh' ctrl')
    (hc : Course handle origin final ending) (ht : sh.tables.Sound) (hs : ctrl.Sound sh.tables)
    (hw : ctrl.Calls (SameWork origin.call))
    (hplan : PlanRows sh.tables origin.call.runId origin.call.plan)
    (hx : Confluent origin final ending sh.tables)
    (hk : ctrl.Converges handle origin final ending sh.tables)
    (hp : Plays handle origin.call.runId sh ctrl a) :
    ctrl'.Converges handle origin final ending sh'.tables := by
  have hx' := h.confluent hc ht hs hx hk
  cases h with
  | rest tables log inert => exact inert_converges inert
  | submitted inserted => trivial
  | called => trivial
  | @snapshot c state load active matched =>
    intro hid
    obtain ⟨row, hrow, hpay, _⟩ := hx.run
    rw [show c.runId = origin.call.runId from hid, Tables.load, hrow, Option.map_some] at load
    obtain rfl := Option.some.inj load
    exact hpay
  | granted free => exact hk
  | @started s a t ctrl' writes set next =>
    rcases next with rfl | inert
    · apply next_converges hc hx' hw
      intro hid
      have hplan' : PlanRows sh.tables s.call.runId s.call.plan := by
        rw [hid, (hw hid).1]
        exact hplan
      obtain ⟨log, hl, hlr, hrest⟩ := hx.abreast hc ht.numbered hs hplan' hid hw (hk hid)
      exact ⟨log, hl, hlr.trans (checkpoints_grow _ (Tables.setStatus_grows set)), hrest⟩
    · exact inert_converges inert
  | began known => exact fun hid => ⟨hk hid, known⟩
  | @missing s f now unknown =>
    have he : execute handle s f = ⟨noHandler f, f.context s⟩ := if_neg unknown
    rw [← he]
    exact conclude_converges hc hw hs.2 hk now
  | @returned s f e now output result =>
    exact handled_converges hc hw hs.2 hk hp
  | @threw s f e now result =>
    exact handled_converges hc hw hs.2 hk hp
  | appended writes stored next =>
    rcases next with rfl | inert
    · exact appended_converges hc hx hx' ht.numbered hs hw hk stored
    · exact inert_converges inert
  | settled writes set inert => exact inert_converges inert

theorem Control.Converges.grows (h : ctrl.Converges handle origin final ending t)
    (hg : t.Grows t') (hx : Confluent origin final ending t') :
    ctrl.Converges handle origin final ending t' := by
  have hgrow := checkpoints_grow origin.call.runId hg
  have abreast {index : Nat} {payload : StrDict} {previous : Outputs}
      (ha : Abreast origin final t index payload previous) :
      Abreast origin final t' index payload previous := by
    obtain ⟨log, hl, hlr, hrest⟩ := ha
    exact ⟨log, hl, hlr.trans hgrow, hrest⟩
  cases ctrl with
  | locking s => exact h
  | starting s => exact h
  | calling s f => exact fun hid => abreast (h hid)
  | handling s f => exact fun hid => ⟨abreast (h hid).1, (h hid).2⟩
  | appending s f r after =>
    intro hid
    obtain ⟨log, hl, hlr, hrest⟩ := h hid
    exact ⟨log, hl, hlr.trans hgrow, hrest⟩
  | settling s status error reraise =>
    intro hid err he
    have hd := h hid err he
    have hfull : ending.rows final = checkpoints t origin.call.runId :=
      congrArg DurableRun.checkpoints hd
    rw [hd, hgrow.eq_of_length_le (hfull ▸ hx.rows.length_le)]
  | _ => trivial

end Moves

section Runs

theorem submit_confluent {w : ι} {sh sh' : Shared ι} {ctrl' : Control}
    {handle : String → StepContext → Execution} {origin : Session} {final : List Checkpoint}
    {ending : Ending} {known : List String} {stack : Nat} {runId : String} {spec : RunSpec}
    {created : Nat}
    (ht : sh.tables.Sound) (hn : sh.tables.runRow origin.call.runId = none)
    (hs : submit sh known stack runId spec created = (sh', ctrl'))
    (hload : sh'.tables.load origin.call.runId = some origin.state) :
    Confluent origin final ending sh'.tables ∧
      ctrl'.Converges handle origin final ending sh'.tables := by
  have hm : Move noLock w sh (.atRest none) (.submit known stack runId spec created) sh' ctrl' :=
    submit_move hs
  obtain ⟨row, hrow, _, hstate⟩ := load_eq_some hload
  obtain ⟨_, _, _, hnew⟩ := hm.inserted hn hrow
  have hrows : sh'.tables.rowsOf origin.call.runId = [] := by
    rw [hm.keeps_rows fun s f r after he => by cases he]
    exact Tables.rowsOf_eq_nil ht.wellFormed hn
  refine ⟨⟨⟨row, hrow, ?_, ?_⟩, ?_⟩, ?_⟩
  · rw [hstate]
    rfl
  · intro hterm
    rw [hnew] at hterm
    cases hterm
  · rw [checkpoints, hrows]
    exact List.nil_prefix
  · cases hm with
    | rest tables log inert => exact inert_converges inert
    | submitted inserted => trivial

-- before the run is there nobody is working on it
theorem Control.Sound.converges {ctrl : Control} {handle : String → StepContext → Execution}
    {origin : Session} {final : List Checkpoint} {ending : Ending} {t t' : Tables}
    (h : ctrl.Sound t) (hn : t.runRow origin.call.runId = none) :
    ctrl.Converges handle origin final ending t' := by
  have absent {s : Session} (hs : s.Sound t) (hid : s.call.runId = origin.call.runId) : False := by
    obtain ⟨row, hrow, _⟩ := hs.keyed
    rw [hid, hn] at hrow
    cases hrow
  cases ctrl with
  | locking s => exact fun hid => (absent h hid).elim
  | starting s => exact fun hid => (absent h hid).elim
  | calling s f => exact fun hid => (absent h.1 hid).elim
  | handling s f => exact fun hid => (absent h.1 hid).elim
  | appending s f r after => exact fun hid => (absent h.1 hid).elim
  | settling s status error reraise => exact fun hid => (absent h.1 hid).elim
  | _ => trivial

theorem Confluent.tracked {handle : String → StepContext → Execution} {origin : Session}
    {final : List Checkpoint} {ending : Ending} {t : Tables}
    (hc : Course handle origin final ending) (hx : Confluent origin final ending t) :
    Tracked handle origin final ending t :=
  ⟨hx.run, hc.onTrack hx.rows⟩

variable [DecidableEq ι]

theorem confluence_outline (policy : LockPolicy ι) {handle : String → StepContext → Execution}
    {origin : Session} {final : List Checkpoint} {ending : Ending}
    (hc : Course handle origin final ending) :
    Outline (workerStep policy)
      (fun sh ctrl a => a.Calls (SameWork origin.call) ∧
        Plays handle origin.call.runId sh ctrl a)
      (fun sh => (sh.tables.Sound ∧ PlanRows sh.tables origin.call.runId origin.call.plan) ∧
        Confluent origin final ending sh.tables)
      (fun _ sh ctrl => (ctrl.Sound sh.tables ∧ ctrl.Calls (SameWork origin.call)) ∧
        ctrl.Converges handle origin final ending sh.tables) := by
  have hplan : ∀ c, SameWork origin.call c → PlanFor origin.call.runId origin.call.plan c :=
    fun _ hw hid => (hw hid).1
  apply ((plan_outline policy hplan).restrict And.left).extend
  · intro i sh ctrl a sh' ctrl' hg hl hx hk hp ha
    have hm := workerStep_move ha
    exact ⟨hm.confluent hc hg.1 hl.1 hx hk, hm.converges hc hg.1 hl.1 hl.2 hg.2 hx hk hp.2⟩
  · intro i j sh ctrl a sh' ctrl' l _ hg hi _ hx hk hk' _ ha
    have hm := workerStep_move ha
    exact hk'.grows hm.grows (hm.confluent hc hg.1 hi.1 hx hk)

theorem lock_is_an_optimisation (policy : LockPolicy ι) {es₀ es : List (ι × Action)} {w : ι}
    {c₀ c₁ c : System ι} {runId : String} {spec : RunSpec} {created : Nat} {submitted : RunState}
    {plan : Plan} {known handlers : List String} {stack stack₀ : Nat}
    {handle : String → StepContext → Execution}
    (h₀ : runSystem policy (System.start Tables.empty) es₀ = some c₀)
    (hfresh : c₀.shared.tables.runRow runId = none)
    (hsub : runSystem policy c₀ [(w, .submit known stack₀ runId spec created)] = some c₁)
    (hload : c₁.shared.tables.load runId = some submitted)
    (hr : Reproducible plan submitted.payload handle)
    (hcalls : ∀ e ∈ es₀ ++ es, e.2.Calls (SameWork ⟨handlers, runId, plan, none, stack⟩))
    (hplays : alongSystem policy (Plays handle runId) c₁ es)
    (h : runSystem policy c₁ es = some c) (now : Nat → Datetime) :
    ∃ final,
      durable (run handle now true c₁.shared.tables ⟨handlers, runId, plan, none, stack⟩).1 runId =
        some final ∧
      checkpoints c.shared.tables runId <+: final.checkpoints ∧
      (∀ state, c.shared.tables.load runId = some state → state.status.isTerminal = true →
        durable c.shared.tables runId = some final) ∧
      ∀ now', durable
        (run handle now' true c.shared.tables ⟨handlers, runId, plan, none, stack⟩).1 runId =
          some final := by
  let origin : Session := ⟨⟨handlers, runId, plan, none, stack⟩, submitted⟩
  obtain ⟨final, ending, hh⟩ := straight_halts handle origin
  have hc : Course handle origin final ending := ⟨hr, hh⟩
  have hplan : ∀ c, SameWork origin.call c → PlanFor runId plan c := fun _ hw hid => (hw hid).1
  have before := (plan_outline policy hplan).run_along
    (c := System.start Tables.empty) ⟨⟨empty_sound, planRows_of_nil rfl⟩, fun _ => ⟨trivial, trivial⟩⟩
    (calls_along fun e he => hcalls e (List.mem_append_left _ he)) h₀
  obtain ⟨_, hstep, hnil⟩ := Transition.run_cons.mp hsub
  cases hnil
  have started := (plan_outline policy hplan).step
    (e := (w, .submit known stack₀ runId spec created))
    before trivial hstep
  obtain ⟨sh, ctrl, ha, rfl⟩ := step_eq_some.mp hstep
  have hstart : Confluent origin final ending sh.tables ∧
      ctrl.Converges handle origin final ending sh.tables := by
    have htook := workerStep_took ha
    generalize c₀.locals w = ctrl₀ at htook
    cases htook with
    | submitted submitted => exact submit_confluent (w := w) before.1.1 hfresh submitted hload
  have hd := (confluence_outline policy hc).run_along ?_
    (Transition.along_and (calls_along fun e he => hcalls e (List.mem_append_right _ he)) hplays) h
  · have hx := hd.1.2
    have hend {t : Tables} (ht : t.Sound ∧ PlanRows t runId plan)
        (hx : Confluent origin final ending t) (now : Nat → Datetime) :
        durable (run handle now true t origin.call).1 runId = some (ending.durable final) :=
      run_durable hr rfl ht.1 ht.2 (hx.tracked hc) now
    refine ⟨ending.durable final, hend started.1 hstart.1 now, hx.rows, ?_, hend hd.1.1 hx⟩
    intro state hstate hterm
    obtain ⟨row, hrow, _, hdone⟩ := hx.run
    obtain ⟨row', hrow', _, rfl⟩ := load_eq_some hstate
    rw [hrow] at hrow'
    cases hrow'
    exact hdone hterm
  · refine ⟨⟨started.1, hstart.1⟩, fun i => ⟨started.2 i, ?_⟩⟩
    by_cases hi : i = w
    · subst hi
      simpa using hstart.2
    · simpa [Function.update_of_ne hi] using (before.2 i).1.converges hfresh

def bothWorkOn : List (Bool × Action) :=
  turns true opens ++ turns false opens ++ turns true (charges "first") ++
    turns false (charges "first" ++ [.begin, finishes 1 [("charge", answer "first")]
      (.returned (answer "first")), .store] ++ closes) ++ turns true [.begin, .die]

theorem lock_is_an_optimisation_raced :
    ∃ c₁ c : System Bool, runSystem noLock (System.start Tables.empty) [(true, submits)] = some c₁ ∧
      runSystem noLock c₁ bothWorkOn = some c ∧
      ∃ final,
        durable (run recites (fun _ => epoch) true c₁.shared.tables chargeCall).1 "run" =
          some final ∧
        checkpoints c.shared.tables "run" <+: final.checkpoints ∧
        (∀ state, c.shared.tables.load "run" = some state → state.status.isTerminal = true →
          durable c.shared.tables "run" = some final) ∧
        ∀ now', durable (run recites now' true c.shared.tables chargeCall).1 "run" = some final := by
  have hcalls : ∀ e ∈ [] ++ bothWorkOn, e.2.Calls (SameWork chargeCall) := by decide
  have h : ((runSystem noLock (System.start Tables.empty) [(true, submits)]).any fun c₁ =>
      decide (alongSystem noLock (Plays recites "run") c₁ bothWorkOn) &&
        (runSystem noLock c₁ bothWorkOn).isSome && (c₁.shared.tables.load "run").isSome) = true := by
    decide +kernel
  obtain ⟨c₁, hsub, hq⟩ := (Option.any_eq_true _ _).mp h
  simp only [Bool.and_eq_true, decide_eq_true_eq] at hq
  obtain ⟨⟨hplays, hrun⟩, hload⟩ := hq
  obtain ⟨c, hc⟩ := Option.isSome_iff_exists.mp hrun
  obtain ⟨state, hstate⟩ := Option.isSome_iff_exists.mp hload
  have h₀ : runSystem noLock (System.start Tables.empty : System Bool) [] =
      some (System.start Tables.empty) := rfl
  exact ⟨c₁, c, hsub, hc, lock_is_an_optimisation noLock h₀ rfl hsub hstate
    (recites_reproducible _) hcalls hplays hc _⟩

end Runs

end DurableAgent
