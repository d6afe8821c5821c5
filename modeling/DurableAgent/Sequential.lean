import DurableAgent.Contention

namespace DurableAgent

open FirstWriter Interleaving

variable {ι : Type}

-- with one worker the snapshot is still what is stored when the run starts from it
structure Control.Current (t : Tables) (ctrl : Control) : Prop where
  loaded : ∀ s, ctrl = .locking s ∨ ctrl = .starting s → t.load s.call.runId = some s.state
  live : ctrl.Live t

section Moves

variable {policy : LockPolicy ι} {w : ι} {sh sh' : Shared ι} {ctrl ctrl' : Control} {a : Action}

theorem inert_current {t : Tables} (h : ctrl.inert = true) : ctrl.Current t := by
  constructor
  · rintro s (rfl | rfl) <;> cases h
  · intro s hs
    rw [inert_working h] at hs
    cases hs

theorem current_active (hc : ctrl.Sound sh.tables) (hcur : ctrl.Current sh.tables) :
    AtGrant StillActive sh ctrl a := by
  unfold AtGrant
  split
  · rename_i s
    have hl := hcur.loaded s (.inl rfl)
    simp only [StillActive, hl]
    exact Session.Sound.active hc
  · trivial

theorem Move.loaded (h : Move policy w sh ctrl a sh' ctrl') (hcur : ctrl.Current sh.tables)
    {s : Session} (hs : ctrl' = .locking s ∨ ctrl' = .starting s) :
    sh'.tables.load s.call.runId = some s.state := by
  have stuck : ctrl'.inert = true → False := by
    intro hi
    rcases hs with rfl | rfl <;> cases hi
  have next {s' : Session} {n : Nat} {p : StrDict} {q : Outputs}
      (hn : ctrl' = s'.next n p q) : False := by
    revert hs
    rw [hn]
    apply next_cases (P := fun c => c = .locking s ∨ c = .starting s → False)
    · rintro _ (hs | hs) <;> cases hs
    · rintro step _ (hs | hs) <;> cases hs
    · rintro o (hs | hs) <;> cases hs
  have concluded {s' : Session} {f : Frame} {e : Execution} {now : Datetime}
      (hn : ctrl' = conclude s' f e now) : False := by
    revert hs
    rw [hn]
    apply conclude_cases (P := fun c => c = .locking s ∨ c = .starting s → False)
    · rintro o (hs | hs) <;> cases hs
    · rintro status reason reraise r _ _ (hs | hs) <;> cases hs
    · rintro output r _ _ (hs | hs) <;> cases hs
  cases h with
  | rest tables log inert => exact (stuck inert).elim
  | submitted inserted => rcases hs with hs | hs <;> cases hs
  | called => rcases hs with hs | hs <;> cases hs
  | snapshot load active matched =>
    rcases hs with hs | hs <;> cases hs
    exact load
  | granted free =>
    rcases hs with hs | hs <;> cases hs
    exact hcur.loaded _ (.inl rfl)
  | started writes set hn =>
    rcases hn with hn | inert
    · exact (next hn).elim
    · exact (stuck inert).elim
  | began known => rcases hs with hs | hs <;> cases hs
  | missing unknown => exact (concluded rfl).elim
  | returned result => exact (concluded rfl).elim
  | threw result => exact (concluded rfl).elim
  | @appended s' f r after a t ctrl' writes stored hn =>
    rcases hn with hn | inert
    · cases after with
      | proceed payload previous => exact (next hn).elim
      | settle status reason reraise =>
        rw [hn] at hs
        rcases hs with hs | hs <;> cases hs
    · exact (stuck inert).elim
  | settled writes set inert => exact (stuck inert).elim

theorem Move.current (h : Move policy w sh ctrl a sh' ctrl') (hc : ctrl.Sound sh.tables)
    (hcur : ctrl.Current sh.tables) : ctrl'.Current sh'.tables :=
  ⟨fun _ hs => h.loaded hcur hs, h.live hc hcur.live (current_active hc hcur)⟩

theorem Move.new_run (h : Move policy w sh ctrl a sh' ctrl') {runId : String} {row : RunRow}
    (hn : sh.tables.runRow runId = none) (hr : sh'.tables.runRow runId = some row) :
    row.status = .pending := by
  obtain ⟨spec, now, payload, rfl⟩ := h.inserted hn hr
  rfl

end Moves

end DurableAgent
