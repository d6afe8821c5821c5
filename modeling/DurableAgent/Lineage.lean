import DurableAgent.SinglePlan

namespace DurableAgent

open FirstWriter Interleaving

variable {ι : Type}

structure Lineage (t : Tables) (plan : Plan) (ctx : StepContext) : Prop where
  held : ∀ j < ctx.index, ∃ step row, plan.steps[j]? = some step ∧ row ∈ t.rowsOf ctx.runId ∧
    row.stepIndex = j ∧
    Dict.get? ctx.previous step.name = some (ofStrDict (Tables.hydrateStep row).output)
  only : ∀ name output, Dict.get? ctx.previous name = some output →
    ∃ j < ctx.index, ∃ step, plan.steps[j]? = some step ∧ step.name = name

structure Traced (sh : Shared ι) (runId : String) (plan : Plan) : Prop where
  produced : ∀ row ∈ sh.tables.rowsOf runId, ∃ ctx r output, Event.inserted ctx r ∈ sh.log ∧
    row = r.row output ∧ ctx.runId = runId ∧ ctx.index = row.stepIndex
  lineage : ∀ ctx r, Event.inserted ctx r ∈ sh.log → ctx.runId = runId →
    Lineage sh.tables plan ctx

def storedOutput (t : Tables) (r : StepRecord) : Option StrDict :=
  match (t.rowsOf r.runId).find? fun row => row.stepIndex = r.index with
  | some row => some (Tables.hydrateStep row).output
  | none => (toJsonObject r.output).map loadsObject

def Faithful (sh : Shared ι) : Control → Action → Prop
  | .handling _ f, .finish e _ =>
      match e.result with
      | .returned _ => Dict.Same e.context.previous f.previous
      | _ => True
  | .appending _ f r (.proceed _ previous), a =>
      match a.writes, storedOutput sh.tables r with
      | true, some output => Dict.get? previous f.step.name = some (ofStrDict output)
      | _, _ => True
  | _, _ => True

instance (sh : Shared ι) (ctrl : Control) (a : Action) : Decidable (Faithful sh ctrl a) := by
  unfold Faithful
  split
  · split <;> infer_instance
  · split <;> infer_instance
  · infer_instance

def Known (rows : List StepRow) (n : Nat) (previous : Outputs) : Prop :=
  (∀ row ∈ rows, row.stepIndex < n →
    Dict.get? previous row.name = some (ofStrDict (Tables.hydrateStep row).output)) ∧
  ∀ name output, Dict.get? previous name = some output → ∃ row ∈ rows, row.name = name

def AfterAppend.Extends (f : Frame) : AfterAppend → Prop
  | .proceed _ previous => ∀ name, name ≠ f.step.name →
      Dict.get? previous name = Dict.get? f.previous name
  | .settle _ _ _ => True

def Control.Knows (t : Tables) (runId : String) : Control → Prop
  | .calling s f => s.call.runId = runId → Known (t.rowsOf runId) f.index f.previous
  | .handling s f => s.call.runId = runId → Known (t.rowsOf runId) f.index f.previous
  | .appending s f _ after => s.call.runId = runId →
      Known (t.rowsOf runId) f.index f.previous ∧ after.Extends f
  | _ => True

structure Produced (sh : Shared ι) (runId : String) : Prop where
  rows : ∀ row ∈ sh.tables.rowsOf runId, ∃ ctx r output, Event.inserted ctx r ∈ sh.log ∧
    row = r.row output ∧ ctx.runId = runId ∧ ctx.index = row.stepIndex
  events : ∀ ctx r, Event.inserted ctx r ∈ sh.log → ctx.runId = runId →
    ∃ pre more, sh.tables.rowsOf runId = pre ++ more ∧ pre.length = ctx.index ∧
      Known pre ctx.index ctx.previous

section Known

variable {rows more : List StepRow} {n : Nat} {previous : Outputs} {t : Tables} {s : Session}
  {f : Frame} {runId : String} {plan : Plan}

theorem Known.append (hk : Known rows n previous)
    (hn : FirstWriter.Numbered StepRow.stepIndex (rows ++ more)) (hle : n ≤ rows.length) :
    Known (rows ++ more) n previous := by
  constructor
  · intro row hr hi
    exact hk.1 row (hn.mem_left hr (hi.trans_le hle)) hi
  · intro name output ho
    obtain ⟨row, hr, he⟩ := hk.2 name output ho
    exact ⟨row, List.mem_append_left more hr, he⟩

theorem planRows_names_nodup (hn : t.Numbered) (hr : PlanRows t runId plan) :
    ((t.rowsOf runId).map StepRow.name).Nodup := by
  have hidx : ((t.rowsOf runId).map StepRow.stepIndex).Nodup := (hn runId) ▸ List.nodup_range
  refine List.Nodup.map_on ?_ (List.Nodup.of_map _ hidx)
  intro x hx y hy he
  obtain ⟨sx, hsx, hnx⟩ := hr x hx
  obtain ⟨sy, hsy, hny⟩ := hr y hy
  have hi := plan.name_injective hsx hsy (by rw [hnx, hny, he])
  exact (hn runId).eq_of_idx_eq hx hy hi

theorem previousOf_known (hs : s.Sound t) (hn : t.Numbered)
    (hr : PlanRows t s.call.runId plan) :
    Known (t.rowsOf s.call.runId) s.state.nextIndex (previousOf s.state) := by
  obtain ⟨old, more, ho, hst⟩ := hs.seen
  have hsub : ∀ row ∈ old, row ∈ t.rowsOf s.call.runId := by
    intro row hrow
    rw [ho]
    exact List.mem_append_left more hrow
  have hp : previousOf s.state =
      old.map fun row => (row.name, ofStrDict (Tables.hydrateStep row).output) := by
    have hnames := planRows_names_nodup hn hr
    rw [ho, List.map_append] at hnames
    have hnd := (List.nodup_append.mp hnames).1
    rw [previousOf, hst, List.map_map]
    apply Dict.ofPairs_of_nodup
    simpa [Dict.keys, Function.comp_def, Tables.hydrateStep] using hnd
  have hkeys : (Dict.keys (previousOf s.state)).Nodup := by
    have hnames := planRows_names_nodup hn hr
    rw [ho, List.map_append] at hnames
    rw [hp]
    simpa [Dict.keys, Function.comp_def] using (List.nodup_append.mp hnames).1
  constructor
  · intro row hrow hi
    obtain ⟨r, hrm, hri, _⟩ := RunState.mem_done_of_lt hi
    rw [hst] at hrm
    obtain ⟨row', hrow', rfl⟩ := List.mem_map.mp hrm
    have heq := (hn s.call.runId).eq_of_idx_eq (hsub row' hrow') hrow hri
    apply Dict.get?_of_mem hkeys
    rw [hp]
    exact List.mem_map.mpr ⟨row', hrow', by rw [heq]⟩
  · intro name output hg
    have hm := Dict.mem_of_get?_eq_some hg
    rw [hp] at hm
    obtain ⟨row, hrow, he⟩ := List.mem_map.mp hm
    exact ⟨row, hsub row hrow, congrArg Prod.fst he⟩

theorem inert_knows {ctrl : Control} (h : ctrl.inert = true) : ctrl.Knows t runId := by
  cases ctrl <;> trivial

theorem next_knows (h : s.call.runId = runId → Known (t.rowsOf runId) n previous)
    (payload : StrDict) : (s.next n payload previous).Knows t runId := by
  apply next_cases
  · intro _
    trivial
  · intro step _
    exact h
  · intro o
    trivial

theorem conclude_knows (h : s.call.runId = runId → Known (t.rowsOf runId) f.index f.previous)
    (e : Execution) (now : Datetime)
    (he : ∀ output, e.result = .returned output → Dict.Same e.context.previous f.previous) :
    (conclude s f e now).Knows t runId := by
  apply conclude_cases
  · intro o
    trivial
  · intro status reason reraise r _ _ hid
    exact ⟨h hid, trivial⟩
  · intro output r ho _ hid
    refine ⟨h hid, fun name hne => ?_⟩
    rw [Dict.get?_set_ne _ _ hne]
    exact he output ho name

theorem stored_after_append {t' : Tables} {stack : Nat} {r : StepRecord} (hn : t.Numbered)
    (hi : r.index ≤ (t.rowsOf r.runId).length) (h : t.append stack r = .ok t') :
    ∃ row ∈ t'.rowsOf r.runId, row.stepIndex = r.index ∧
      storedOutput t r = some (Tables.hydrateStep row).output := by
  obtain ⟨output, ho, _, _⟩ := Tables.append_ok h
  have hrows := Tables.rowsOf_append h ho r.runId
  rw [if_pos rfl] at hrows
  rcases Nat.lt_or_ge r.index (t.rowsOf r.runId).length with hlt | hge
  · rw [(hn r.runId).insert_of_lt hlt] at hrows
    obtain ⟨row, hfind, hrow, he⟩ := find_row hn hlt
    refine ⟨row, hrows ▸ hrow, he, ?_⟩
    simp only [storedOutput, hfind]
  · have heq := Nat.le_antisymm hi hge
    have hins : insertOrIgnore StepRow.stepIndex (t.rowsOf r.runId) (r.row output) =
        t.rowsOf r.runId ++ [r.row output] := Numbered.insert_of_eq (hn r.runId) heq
    rw [hins] at hrows
    have hf : ((t.rowsOf r.runId).find? fun row => row.stepIndex = r.index) = none := by
      rw [List.find?_eq_none]
      intro row hrow he
      have hlt := (hn r.runId).idx_lt hrow
      simp only [decide_eq_true_eq] at he
      omega
    refine ⟨r.row output, by rw [hrows]; simp, rfl, ?_⟩
    simp only [storedOutput, hf, ho, Option.map_some]
    rfl

end Known

section Moves

variable {policy : LockPolicy ι} {w : ι} {sh sh' : Shared ι} {ctrl ctrl' : Control} {a : Action}
  {runId : String} {plan : Plan}

theorem appended_known {s : Session} {f : Frame} {r : StepRecord} {payload : StrDict}
    {previous : Outputs}
    {t : Tables} (ht : sh.tables.Sound)
    (hs : (Control.appending s f r (.proceed payload previous)).Sound sh.tables)
    (hn' : t.Numbered) (hr' : PlanRows t s.call.runId s.call.plan)
    (hk : Known (sh.tables.rowsOf s.call.runId) f.index f.previous)
    (he : ∀ name, name ≠ f.step.name → Dict.get? previous name = Dict.get? f.previous name)
    (stored : sh.tables.append s.call.stack r = .ok t)
    (hp : ∀ output, storedOutput sh.tables r = some output →
      Dict.get? previous f.step.name = some (ofStrDict output)) :
    Known (t.rowsOf s.call.runId) (f.index + 1) previous := by
  obtain ⟨row, hrow, hi, hout⟩ := stored_after_append ht.numbered (appending_reached hs) stored
  rw [hs.2.2.runId] at hrow
  rw [hs.2.2.index] at hi
  have hname : row.name = f.step.name := planRows_name hr' hrow (hi ▸ hs.2.1.step)
  obtain ⟨more, hm⟩ := (Tables.append_grows stored).rows s.call.runId
  constructor
  · intro x hx hlt
    rcases Nat.lt_succ_iff_lt_or_eq.mp hlt with hlt | heq
    · have hold : x ∈ sh.tables.rowsOf s.call.runId := by
        have hnum := hn' s.call.runId
        rw [hm] at hnum hx
        exact hnum.mem_left hx (hlt.trans_le hs.2.1.reached)
      rw [he x.name (planRows_name_ne hr' hx hs.2.1.step (Nat.ne_of_lt hlt))]
      exact hk.1 x hold hlt
    · have hxr := (hn' s.call.runId).eq_of_idx_eq hx hrow (heq.trans hi.symm)
      rw [hxr, hname]
      exact hp _ hout
  · intro name output ho
    by_cases hf : name = f.step.name
    · exact ⟨row, hrow, hname.trans hf.symm⟩
    · rw [he name hf] at ho
      obtain ⟨x, hx, hxn⟩ := hk.2 name output ho
      exact ⟨x, by rw [hm]; exact List.mem_append_left more hx, hxn⟩

theorem faithful_stored {s : Session} {f : Frame} {r : StepRecord} {payload : StrDict}
    {previous : Outputs}
    (hp : Faithful sh (.appending s f r (.proceed payload previous)) a) (hw : a.writes = true)
    (output : StrDict) (ho : storedOutput sh.tables r = some output) :
    Dict.get? previous f.step.name = some (ofStrDict output) := by
  simpa only [Faithful, hw, ho] using hp

theorem Move.knows (h : Move policy w sh ctrl a sh' ctrl') (ht : sh.tables.Sound)
    (hs : ctrl.Sound sh.tables) (hc : ctrl.Calls (PlanFor runId plan))
    (hr : PlanRows sh.tables runId plan) (hk : ctrl.Knows sh.tables runId)
    (hp : Faithful sh ctrl a) : ctrl'.Knows sh'.tables runId := by
  have ht' := h.tables_sound ht hs
  have hr' := h.planRows hs hc hr
  cases h with
  | rest tables log inert => exact inert_knows inert
  | submitted inserted => trivial
  | called => trivial
  | snapshot load active matched => trivial
  | granted free => trivial
  | @started s a t ctrl' writes set next =>
    rcases next with rfl | inert
    · apply next_knows
      rintro rfl
      rw [Tables.rowsOf_setStatus set]
      exact previousOf_known hs ht.numbered hr
    · exact inert_knows inert
  | began known => exact hk
  | @missing s f now unknown =>
    apply conclude_knows hk
    intro output ho
    cases ho
  | @returned s f e now output result =>
    apply conclude_knows hk
    intro output' _
    simpa only [Faithful, result] using hp
  | threw result => exact conclude_knows hk _ _ fun output ho => absurd ho (result output)
  | @appended s f r after a t ctrl' writes stored next =>
    rcases next with rfl | inert
    · cases after with
      | proceed payload previous =>
        apply next_knows
        rintro rfl
        have hplan : s.call.plan = plan := hc rfl
        rw [← hplan] at hr'
        have hkn := hk rfl
        exact appended_known ht hs ht'.numbered hr' hkn.1 hkn.2 stored (faithful_stored hp writes)
      | settle status reason reraise => trivial
    · exact inert_knows inert
  | @settled s status error reraise a t ctrl' writes set inert =>
    exact inert_knows inert

theorem Produced.keep (h : Produced sh runId)
    (hrows : sh'.tables.rowsOf runId = sh.tables.rowsOf runId)
    (hlog : ∀ e ∈ sh.log, e ∈ sh'.log)
    (hnew : ∀ ctx r, Event.inserted ctx r ∈ sh'.log → ctx.runId = runId →
      Event.inserted ctx r ∈ sh.log) : Produced sh' runId := by
  constructor
  · intro row hr
    rw [hrows] at hr
    obtain ⟨ctx, r, output, he, hrest⟩ := h.rows row hr
    exact ⟨ctx, r, output, hlog _ he, hrest⟩
  · intro ctx r he hid
    rw [hrows]
    exact h.events ctx r (hnew ctx r he hid) hid

theorem Produced.append {s : Session} {f : Frame} {r : StepRecord} {output : JsonObject}
    (h : Produced sh runId) (hid : s.call.runId = runId) (hi : r.index = f.index)
    (hlen : r.index = (sh.tables.rowsOf runId).length)
    (hk : Known (sh.tables.rowsOf runId) f.index f.previous)
    (hrows : sh'.tables.rowsOf runId = sh.tables.rowsOf runId ++ [r.row output])
    (hlog : sh'.log = sh.log ++ [.inserted (f.context s) r]) : Produced sh' runId := by
  constructor
  · intro row hr
    rw [hrows] at hr
    rcases List.mem_append.mp hr with hold | hnew
    · obtain ⟨ctx, r', output', he, hrest⟩ := h.rows row hold
      exact ⟨ctx, r', output', hlog ▸ List.mem_append_left _ he, hrest⟩
    · cases List.mem_singleton.mp hnew
      exact ⟨f.context s, r, output, by rw [hlog]; simp, rfl, hid, hi.symm⟩
  · intro ctx r' he hctx
    rw [hlog] at he
    rcases List.mem_append.mp he with hold | hnew
    · obtain ⟨pre, more, hm, hrest⟩ := h.events ctx r' hold hctx
      exact ⟨pre, more ++ [r.row output], by rw [hrows, hm, List.append_assoc], hrest⟩
    · cases List.mem_singleton.mp hnew
      exact ⟨_, [r.row output], hrows, hlen.symm.trans hi, hk⟩

theorem Move.produced (h : Move policy w sh ctrl a sh' ctrl') (ht : sh.tables.Sound)
    (hs : ctrl.Sound sh.tables) (hk : ctrl.Knows sh.tables runId) (hx : Produced sh runId) :
    Produced sh' runId := by
  cases h with
  | rest tables log inert =>
    exact hx.keep (by rw [tables]) (fun e he => log ▸ he) (fun ctx r he _ => log ▸ he)
  | submitted inserted =>
    exact hx.keep (Tables.rowsOf_insertRun inserted runId) (fun e he => he) fun _ _ he _ => he
  | started writes set next =>
    exact hx.keep (Tables.rowsOf_setStatus set runId) (fun e he => he) fun _ _ he _ => he
  | settled writes set inert =>
    exact hx.keep (Tables.rowsOf_setStatus set runId) (fun e he => he) fun _ _ he _ => he
  | began known =>
    exact hx.keep rfl (fun e he => List.mem_append_left _ he) fun _ _ he _ => by simpa using he
  | returned result =>
    exact hx.keep rfl (fun e he => List.mem_append_left _ he) fun _ _ he _ => by simpa using he
  | @appended s f r after a t ctrl' writes stored next =>
    rcases append_cases (f.context s) ht.numbered (appending_reached hs) stored with
      ⟨_, hrows, hlog⟩ | ⟨output, _, hlen, hrows, hlog⟩
    · have hsame : (sh.checkpoint t (f.context s) r).tables.rowsOf runId =
          sh.tables.rowsOf runId := by
        by_cases hid : r.runId = runId
        · exact hid ▸ hrows
        · exact Tables.rowsOf_append_ne stored hid
      exact hx.keep hsame (fun e he => hlog ▸ he) fun ctx r he _ => hlog ▸ he
    · by_cases hid : r.runId = runId
      · have hsid : s.call.runId = runId := hs.2.2.runId.symm.trans hid
        rw [hid] at hlen hrows
        exact hx.append hsid hs.2.2.index hlen (hk hsid).1 hrows hlog
      · refine hx.keep (Tables.rowsOf_append_ne stored hid)
          (fun e he => hlog ▸ List.mem_append_left _ he) fun ctx r' he hctx => ?_
        rw [hlog] at he
        rcases List.mem_append.mp he with hold | hnew
        · exact hold
        · cases List.mem_singleton.mp hnew
          exact absurd (hs.2.2.runId.trans hctx) hid
  | _ => exact hx.keep rfl (fun e he => he) fun _ _ he _ => he

theorem Control.Knows.grows {t t' : Tables} (hn : t'.Numbered) (hg : t.Grows t')
    (hs : ctrl.Sound t) (hk : ctrl.Knows t runId) : ctrl.Knows t' runId := by
  have keep : ∀ (s : Session) (f : Frame), f.Sound t s → s.call.runId = runId →
      Known (t.rowsOf runId) f.index f.previous → Known (t'.rowsOf runId) f.index f.previous := by
    rintro s f hf rfl hkn
    obtain ⟨more, hm⟩ := hg.rows s.call.runId
    have hnum := hn s.call.runId
    rw [hm] at hnum ⊢
    exact hkn.append hnum hf.reached
  cases ctrl with
  | calling s f => exact fun hid => keep s f hs.2 hid (hk hid)
  | handling s f => exact fun hid => keep s f hs.2 hid (hk hid)
  | appending s f r after => exact fun hid => ⟨keep s f hs.2.1 hid (hk hid).1, (hk hid).2⟩
  | _ => trivial

theorem traced_of_produced (ht : sh.tables.Sound) (hr : PlanRows sh.tables runId plan)
    (hx : Produced sh runId) : Traced sh runId plan := by
  refine ⟨hx.rows, fun ctx r he hid => ?_⟩
  obtain ⟨pre, more, hm, hlen, hk⟩ := hx.events ctx r he hid
  have hnum : FirstWriter.Numbered StepRow.stepIndex pre := by
    have h := ht.numbered runId
    rw [hm] at h
    exact h.left
  have hmem : ∀ row ∈ pre, row ∈ sh.tables.rowsOf runId := by
    intro row hrow
    rw [hm]
    exact List.mem_append_left more hrow
  constructor
  · intro j hj
    rw [← hlen, ← hnum.mem_map_iff] at hj
    obtain ⟨row, hrow, rfl⟩ := List.mem_map.mp hj
    obtain ⟨step, hs, hn⟩ := hr row (hmem row hrow)
    have hlt := hnum.idx_lt hrow
    rw [hlen] at hlt
    refine ⟨step, row, hs, hid ▸ hmem row hrow, rfl, ?_⟩
    rw [hn]
    exact hk.1 row hrow hlt
  · intro name output ho
    obtain ⟨row, hrow, hn⟩ := hk.2 name output ho
    obtain ⟨step, hs, hns⟩ := hr row (hmem row hrow)
    exact ⟨row.stepIndex, hlen ▸ hnum.idx_lt hrow, step, hs, hns.trans hn⟩

end Moves

section Runs

def secondOverwritten : List (Bool × Action) :=
  (true, submits) :: turns true opens ++ turns false opens ++ turns true (charges "first") ++
    turns false (charges "second" ++ notifies "second")

theorem losing_worker_mixes_outputs :
    ¬ ∀ (es : List (Bool × Action)) (c : System Bool) (runId : String) (plan : Plan),
      (∀ e ∈ es, e.2.Calls (PlanFor runId plan)) →
      runSystem noLock (System.start Tables.empty) es = some c →
      Traced c.shared runId plan := by
  intro h
  have hs : ((runSystem noLock (System.start Tables.empty) secondOverwritten).any fun c =>
      c.shared.log.any fun e =>
        match e with
        | .inserted ctx _ => ctx.runId = "run" ∧ ctx.index = 1 ∧
            Dict.get? ctx.previous "charge" = some (answer "second") ∧
            ∀ row ∈ c.shared.tables.rowsOf "run", row.stepIndex = 0 →
              ofStrDict (Tables.hydrateStep row).output ≠ answer "second"
        | _ => false) = true := by decide +kernel
  obtain ⟨c, hc, hq⟩ := (Option.any_eq_true _ _).mp hs
  obtain ⟨e, he, hq⟩ := List.any_eq_true.mp hq
  have ht := h _ c "run" chargePlan (by decide) hc
  cases e with
  | inserted ctx r =>
    simp only [decide_eq_true_eq] at hq
    obtain ⟨hid, hi, hprev, hrows⟩ := hq
    obtain ⟨step, row, hstep, hrow, hr, hg⟩ := (ht.lineage ctx r he hid).held 0 (by omega)
    have hname : step.name = "charge" := by
      cases hstep
      rfl
    rw [hname, hprev] at hg
    exact hrows row (hid ▸ hrow) hr (Option.some.inj hg).symm
  | began name ctx => cases hq
  | returned name ctx output => cases hq

variable [DecidableEq ι]

theorem lineage_outline (policy : LockPolicy ι) (runId : String) (plan : Plan) :
    Outline (workerStep policy)
      (fun sh ctrl a => a.Calls (PlanFor runId plan) ∧ Faithful sh ctrl a)
      (fun sh => (sh.tables.Sound ∧ PlanRows sh.tables runId plan) ∧ Produced sh runId)
      (fun _ sh ctrl => (ctrl.Sound sh.tables ∧ ctrl.Calls (PlanFor runId plan)) ∧
        ctrl.Knows sh.tables runId) := by
  apply ((plan_outline policy (Q := PlanFor runId plan) fun _ hc => hc).restrict And.left).extend
  · intro i sh ctrl a sh' ctrl' hg hl hx hk hp ha
    have hm := workerStep_move ha
    exact ⟨hm.produced hg.1 hl.1 hk hx, hm.knows hg.1 hl.1 hl.2 hg.2 hk hp.2⟩
  · intro i j sh ctrl a sh' ctrl' l _ hg hi hj _ _ hk _ ha
    have hm := workerStep_move ha
    exact hk.grows (hm.tables_sound hg.1 hi.1).numbered hm.grows hj.1

theorem lineage_of_faithful (policy : LockPolicy ι) (es : List (ι × Action)) {runId : String}
    {plan : Plan} {c : System ι} (hplan : ∀ e ∈ es, e.2.Calls (PlanFor runId plan))
    (hp : alongSystem policy Faithful (System.start Tables.empty) es)
    (h : runSystem policy (System.start Tables.empty) es = some c) :
    Traced c.shared runId plan := by
  have hd := (lineage_outline policy runId plan).run_along ?_
    (Transition.along_and (calls_along hplan) hp) h
  · exact traced_of_produced hd.1.1.1 hd.1.1.2 hd.1.2
  · refine ⟨⟨⟨empty_sound, planRows_of_nil rfl⟩, ?_, ?_⟩, fun _ => ⟨⟨trivial, trivial⟩, trivial⟩⟩
    · intro row hrow
      cases hrow
    · intro ctx r he
      cases he

def sameAnswer : List (Bool × Action) :=
  (true, submits) :: turns true opens ++ turns false opens ++ turns true (charges "first") ++
    turns false (charges "first" ++ notifies "first")

theorem lineage_of_faithful_same_answer :
    ∃ c : System Bool, runSystem noLock (System.start Tables.empty) sameAnswer = some c ∧
      Traced c.shared "run" chargePlan := by
  have hplan : ∀ e ∈ sameAnswer, e.2.Calls (PlanFor "run" chargePlan) := by decide
  have hp : alongSystem noLock Faithful (System.start Tables.empty) sameAnswer := by decide +kernel
  have hr : (runSystem noLock (System.start Tables.empty) sameAnswer).isSome = true := by decide +kernel
  obtain ⟨c, hc⟩ := Option.isSome_iff_exists.mp hr
  exact ⟨c, hc, lineage_of_faithful noLock sameAnswer hplan hp hc⟩

end Runs

end DurableAgent
