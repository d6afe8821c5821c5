import DurableAgent.Models
import DurableAgent.Library.Interleaving
import Mathlib.Data.Int.Order.Basic
import Mathlib.Order.Lattice

namespace DurableAgent

open Interleaving

variable {ι τ δ : Type}

structure LockRow (τ : Type) where
  lockId : Nat
  key : String
  owner : String
  expiresAt : τ

-- one call of `lock`, once it has drawn its owner id and read the clock
structure Attempt (τ δ : Type) where
  key : String
  owner : String
  ttl : δ
  now : τ

inductive LockError where
  | lockUnavailable (message : String)
  | integrityError
deriving DecidableEq, Repr

namespace Lease

def release (digest : String → Nat) (rows : List (LockRow τ)) (key owner : String) :
    List (LockRow τ) :=
  rows.filter fun r => !(decide (r.lockId = advisoryLockId digest key) && decide (r.owner = owner))

theorem mem_release {digest : String → Nat} {rows : List (LockRow τ)} {key owner : String}
    {r : LockRow τ} : r ∈ release digest rows key owner ↔
    r ∈ rows ∧ (r.lockId = advisoryLockId digest key → r.owner ≠ owner) := by
  simp only [release, List.mem_filter, Bool.not_eq_true', Bool.and_eq_false_imp,
    decide_eq_true_eq, decide_eq_false_iff_not, ne_eq]

variable [LinearOrder τ]

def unexpired (lockId : Nat) (now : τ) (rows : List (LockRow τ)) : List (LockRow τ) :=
  rows.filter fun r => !(decide (r.lockId = lockId) && decide (r.expiresAt ≤ now))

-- `plus now ttl` is `now + ttl`, `none` where that is not a number and the column refuses it
def acquire (digest : String → Nat) (plus : τ → δ → Option τ) (rows : List (LockRow τ))
    (a : Attempt τ δ) : Except LockError (List (LockRow τ) × LockRow τ) :=
  let lockId := advisoryLockId digest a.key
  let left := unexpired lockId a.now rows
  if left.any fun r => r.lockId = lockId then
    .error (.lockUnavailable (a.key ++ " is held by another worker"))
  else
    match plus a.now a.ttl with
    | none => .error .integrityError
    | some expiresAt => .ok (left, ⟨lockId, a.key, a.owner, expiresAt⟩)

variable {digest : String → Nat} {plus : τ → δ → Option τ} {rows left : List (LockRow τ)}
  {a : Attempt τ δ} {r row : LockRow τ} {lockId : Nat} {now : τ}

theorem mem_unexpired : r ∈ unexpired lockId now rows ↔
    r ∈ rows ∧ (r.lockId = lockId → now < r.expiresAt) := by
  simp only [unexpired, List.mem_filter, Bool.not_eq_true', Bool.and_eq_false_imp,
    decide_eq_true_eq, decide_eq_false_iff_not, not_le]

theorem acquire_ok (h : acquire digest plus rows a = .ok (left, row)) :
    left = unexpired (advisoryLockId digest a.key) a.now rows ∧
      row.lockId = advisoryLockId digest a.key ∧ row.key = a.key ∧ row.owner = a.owner ∧
      ∀ r ∈ rows, r.lockId = row.lockId → r.expiresAt ≤ a.now := by
  unfold acquire at h
  simp only at h
  split at h
  · cases h
  · rename_i hfree
    split at h
    · cases h
    · cases h
      refine ⟨rfl, rfl, rfl, rfl, fun r hr hid => ?_⟩
      by_contra hlt
      refine hfree (List.any_eq_true.mpr ⟨r, mem_unexpired.mpr ⟨hr, fun _ => ?_⟩, ?_⟩)
      · exact not_le.mp hlt
      · simpa using hid

theorem acquire_unavailable {message : String}
    (h : acquire digest plus rows a = .error (.lockUnavailable message)) :
    ∃ r ∈ rows, r.lockId = advisoryLockId digest a.key ∧ a.now < r.expiresAt := by
  unfold acquire at h
  simp only at h
  split at h
  · rename_i hany
    obtain ⟨r, hr, hid⟩ := List.any_eq_true.mp hany
    rw [decide_eq_true_eq] at hid
    obtain ⟨hmem, hlt⟩ := mem_unexpired.mp hr
    exact ⟨r, hmem, hid, hlt hid⟩
  · split at h <;> cases h

end Lease

-- `granted`, `released` and `issuer` remember the past; the code stores only `rows`
structure LockTable (ι τ : Type) where
  clock : τ
  rows : List (LockRow τ)
  granted : List (LockRow τ)
  released : List String
  issuer : String → Option ι

inductive Phase (τ δ : Type) where
  | outside (last : Option LockError)
  | waiting (a : Attempt τ δ)
  | inside (key owner : String)

inductive LockAction (τ δ : Type) where
  | enter (key owner : String) (ttl : δ)
  | acquire
  | leave
  | crash
  | pass (now : τ)

section Steps

variable [LinearOrder τ] [DecidableEq ι]

def lockStep (digest : String → Nat) (plus : τ → δ → Option τ) (w : ι) (sh : LockTable ι τ)
    (ph : Phase τ δ) (a : LockAction τ δ) : Option (LockTable ι τ × Phase τ δ) :=
  match a, ph with
  | .enter key owner ttl, .outside _ =>
      match sh.issuer owner with
      | none =>
          some ({ sh with issuer := Function.update sh.issuer owner (some w) },
            .waiting ⟨key, owner, ttl, sh.clock⟩)
      | some _ => none
  | .acquire, .waiting a =>
      match Lease.acquire digest plus sh.rows a with
      | .error e => some (sh, .outside (some e))
      | .ok (left, row) =>
          some ({ sh with rows := left ++ [row], granted := sh.granted ++ [row] },
            .inside a.key a.owner)
  | .leave, .inside key owner =>
      some ({ sh with
        rows := Lease.release digest sh.rows key owner, released := owner :: sh.released },
        .outside none)
  | .crash, _ => some (sh, .outside none)
  | .pass now, ph => if sh.clock ≤ now then some ({ sh with clock := now }, ph) else none
  | _, _ => none

def startLocks (now : τ) : Config ι (LockTable ι τ) (Phase τ δ) :=
  ⟨⟨now, [], [], [], fun _ => none⟩, fun _ => .outside none⟩

def runLocks (digest : String → Nat) (plus : τ → δ → Option τ) :
    Config ι (LockTable ι τ) (Phase τ δ) → List (ι × LockAction τ δ) →
      Option (Config ι (LockTable ι τ) (Phase τ δ)) :=
  Transition.run (Interleaving.step (lockStep digest plus))

end Steps

section Invariant

variable [LinearOrder τ] {digest : String → Nat} {plus : τ → δ → Option τ} {w : ι}
  {sh sh' : LockTable ι τ} {ph ph' : Phase τ δ} {a : LockAction τ δ}

structure LockTable.Sound (digest : String → Nat) (sh : LockTable ι τ) : Prop where
  stored : ∀ r ∈ sh.rows, r ∈ sh.granted
  lockIds : ∀ g ∈ sh.granted, g.lockId = advisoryLockId digest g.key
  accounted : ∀ g ∈ sh.granted, g ∈ sh.rows ∨ g.owner ∈ sh.released ∨ g.expiresAt ≤ sh.clock
  owners : ∀ g ∈ sh.granted, ∀ g' ∈ sh.granted, g.owner = g'.owner → g = g'
  issued : ∀ g ∈ sh.granted, ∃ w, sh.issuer g.owner = some w

def Phase.Sound (w : ι) (sh : LockTable ι τ) : Phase τ δ → Prop
  | .waiting a => sh.issuer a.owner = some w ∧ (∀ g ∈ sh.granted, g.owner ≠ a.owner) ∧
      a.now ≤ sh.clock
  | .inside key owner => ∃ g ∈ sh.granted, g.key = key ∧ g.owner = owner
  | .outside _ => True

-- everything a step can do to the lock table
inductive LockMove (digest : String → Nat) (plus : τ → δ → Option τ) (w : ι)
    (sh : LockTable ι τ) : Phase τ δ → LockAction τ δ → LockTable ι τ → Phase τ δ → Prop where
  | entered {last key owner ttl issuer} (fresh : sh.issuer owner = none)
      (own : issuer owner = some w) (kept : ∀ o, o ≠ owner → issuer o = sh.issuer o) :
      LockMove digest plus w sh (.outside last) (.enter key owner ttl)
        { sh with issuer := issuer } (.waiting ⟨key, owner, ttl, sh.clock⟩)
  | granted {b left row} (ok : Lease.acquire digest plus sh.rows b = .ok (left, row)) :
      LockMove digest plus w sh (.waiting b) .acquire
        { sh with rows := left ++ [row], granted := sh.granted ++ [row] } (.inside b.key b.owner)
  | refused {b e} (error : Lease.acquire digest plus sh.rows b = .error e) :
      LockMove digest plus w sh (.waiting b) .acquire sh (.outside (some e))
  | left {key owner} : LockMove digest plus w sh (.inside key owner) .leave
      { sh with
        rows := Lease.release digest sh.rows key owner, released := owner :: sh.released }
      (.outside none)
  | crashed {p} : LockMove digest plus w sh p .crash sh (.outside none)
  | passed {p now} (later : sh.clock ≤ now) :
      LockMove digest plus w sh p (.pass now) { sh with clock := now } p

theorem lockStep_move [DecidableEq ι] (h : lockStep digest plus w sh ph a = some (sh', ph')) :
    LockMove digest plus w sh ph a sh' ph' := by
  unfold lockStep at h
  split at h
  · split at h
    · rename_i hfresh
      cases h
      exact .entered hfresh (Function.update_self ..) fun o ho => Function.update_of_ne ho ..
    · cases h
  · split at h
    · rename_i e he
      cases h
      exact .refused he
    · rename_i left row he
      cases h
      exact .granted he
  · cases h
    exact .left
  · cases h
    exact .crashed
  · split at h
    · rename_i hle
      cases h
      exact .passed hle
    · cases h
  · cases h

theorem granted_sound {a : Attempt τ δ} {left : List (LockRow τ)} {row : LockRow τ}
    (hs : sh.Sound digest) (hp : (Phase.waiting a).Sound w sh)
    (h : Lease.acquire digest plus sh.rows a = .ok (left, row)) :
    LockTable.Sound digest
      { sh with rows := left ++ [row], granted := sh.granted ++ [row] } := by
  obtain ⟨rfl, hid, hkey, howner, hfree⟩ := Lease.acquire_ok h
  refine ⟨?_, ?_, ?_, ?_, ?_⟩
  · intro r hr
    rcases List.mem_append.mp hr with hr | hr
    · exact List.mem_append_left _ (hs.stored r (Lease.mem_unexpired.mp hr).1)
    · exact List.mem_append_right _ hr
  · intro g hg
    rcases List.mem_append.mp hg with hg | hg
    · exact hs.lockIds g hg
    · rw [List.mem_singleton.mp hg, hid, hkey]
  · intro g hg
    rcases List.mem_append.mp hg with hg | hg
    · rcases hs.accounted g hg with hin | hout
      · by_cases hexp : g.lockId = advisoryLockId digest a.key
        · exact .inr (.inr ((hfree g hin (hexp.trans hid.symm)).trans hp.2.2))
        · exact .inl (List.mem_append_left _
            (Lease.mem_unexpired.mpr ⟨hin, fun he => absurd he hexp⟩))
      · exact .inr hout
    · exact .inl (List.mem_append_right _ hg)
  · have hne : ∀ g ∈ sh.granted, g.owner ≠ row.owner := fun g hg => howner ▸ hp.2.1 g hg
    intro g hg g' hg' he
    rcases List.mem_append.mp hg with hg | hg <;> rcases List.mem_append.mp hg' with hg' | hg'
    · exact hs.owners g hg g' hg' he
    · rw [List.mem_singleton.mp hg'] at he
      exact absurd he (hne g hg)
    · rw [List.mem_singleton.mp hg] at he
      exact absurd he.symm (hne g' hg')
    · rw [List.mem_singleton.mp hg, List.mem_singleton.mp hg']
  · intro g hg
    rcases List.mem_append.mp hg with hg | hg
    · exact hs.issued g hg
    · rw [List.mem_singleton.mp hg, howner]
      exact ⟨w, hp.1⟩

theorem left_sound {key owner : String} (hs : sh.Sound digest) :
    LockTable.Sound digest { sh with
      rows := Lease.release digest sh.rows key owner, released := owner :: sh.released } := by
  refine ⟨fun r hr => hs.stored r (Lease.mem_release.mp hr).1, hs.lockIds, ?_, hs.owners,
    hs.issued⟩
  intro g hg
  rcases hs.accounted g hg with hin | hrel | hexp
  · by_cases ho : g.owner = owner
    · exact .inr (.inl (ho ▸ List.mem_cons_self))
    · exact .inl (Lease.mem_release.mpr ⟨hin, fun _ => ho⟩)
  · exact .inr (.inl (List.mem_cons_of_mem _ hrel))
  · exact .inr (.inr hexp)

theorem LockMove.sound (h : LockMove digest plus w sh ph a sh' ph') (hs : sh.Sound digest)
    (hp : ph.Sound w sh) : sh'.Sound digest ∧ ph'.Sound w sh' := by
  cases h with
  | @entered last key owner ttl issuer fresh own kept =>
    have hne : ∀ g ∈ sh.granted, g.owner ≠ owner := by
      intro g hg he
      obtain ⟨v, hv⟩ := hs.issued g hg
      rw [he, fresh] at hv
      cases hv
    refine ⟨⟨hs.stored, hs.lockIds, hs.accounted, hs.owners, fun g hg => ?_⟩, own, hne, le_rfl⟩
    obtain ⟨v, hv⟩ := hs.issued g hg
    exact ⟨v, (kept g.owner (hne g hg)).trans hv⟩
  | @granted b left row ok =>
    obtain ⟨_, _, hkey, howner, _⟩ := Lease.acquire_ok ok
    exact ⟨granted_sound hs hp ok, row, List.mem_append_right _ (List.mem_singleton_self row),
      hkey, howner⟩
  | refused error => exact ⟨hs, trivial⟩
  | left => exact ⟨left_sound hs, trivial⟩
  | crashed => exact ⟨hs, trivial⟩
  | passed later =>
    refine ⟨⟨hs.stored, hs.lockIds, fun g hg => ?_, hs.owners, hs.issued⟩, ?_⟩
    · rcases hs.accounted g hg with hin | hrel | hexp
      · exact .inl hin
      · exact .inr (.inl hrel)
      · exact .inr (.inr (hexp.trans later))
    · cases ph with
      | waiting a => exact ⟨hp.1, hp.2.1, hp.2.2.trans later⟩
      | inside key owner => exact hp
      | outside last => trivial

theorem LockMove.others {v : ι} {l : Phase τ δ} (h : LockMove digest plus w sh ph a sh' ph')
    (hwv : w ≠ v) (hp : ph.Sound w sh) (hl : l.Sound v sh) : l.Sound v sh' := by
  cases h with
  | @entered last key owner ttl issuer fresh own kept =>
    cases l with
    | waiting b =>
      refine ⟨(kept b.owner ?_).trans hl.1, hl.2⟩
      intro he
      have hv := hl.1
      rw [he, fresh] at hv
      cases hv
    | inside key' owner' => exact hl
    | outside last' => trivial
  | @granted b left row ok =>
    obtain ⟨_, _, _, howner, _⟩ := Lease.acquire_ok ok
    cases l with
    | waiting b' =>
      refine ⟨hl.1, fun g hg => ?_, hl.2.2⟩
      rcases List.mem_append.mp hg with hg | hg
      · exact hl.2.1 g hg
      · rw [List.mem_singleton.mp hg, howner]
        intro he
        have h1 := hp.1
        rw [he, hl.1] at h1
        exact hwv (Option.some.inj h1).symm
    | inside key' owner' =>
      obtain ⟨g, hg, hgk, hgo⟩ := hl
      exact ⟨g, List.mem_append_left _ hg, hgk, hgo⟩
    | outside last' => trivial
  | refused error => exact hl
  | left => cases l <;> exact hl
  | crashed => exact hl
  | passed later =>
    cases l with
    | waiting b => exact ⟨hl.1, hl.2.1, hl.2.2.trans later⟩
    | inside key' owner' => exact hl
    | outside last' => trivial

theorem LockTable.Sound.exclusive {sh : LockTable ι τ} {b : Attempt τ δ}
    {left : List (LockRow τ)} {row g : LockRow τ}
    (hs : sh.Sound digest) (hnow : b.now ≤ sh.clock)
    (h : Lease.acquire digest plus sh.rows b = .ok (left, row)) (hg : g ∈ sh.granted)
    (hk : g.key = b.key) : g.owner ∈ sh.released ∨ g.expiresAt ≤ sh.clock := by
  obtain ⟨_, hid, _, _, hfree⟩ := Lease.acquire_ok h
  rcases hs.accounted g hg with hin | hout
  · have hlock : g.lockId = row.lockId := by rw [hs.lockIds g hg, hid, hk]
    exact .inr ((hfree g hin hlock).trans hnow)
  · exact hout

theorem LockTable.Sound.leaves {sh : LockTable ι τ} {key owner : String} {r : LockRow τ}
    (hs : sh.Sound digest) (hp : ∃ g ∈ sh.granted, g.key = key ∧ g.owner = owner) :
    r ∈ Lease.release digest sh.rows key owner ↔ r ∈ sh.rows ∧ r.owner ≠ owner := by
  rw [Lease.mem_release]
  refine and_congr_right fun hr => ⟨fun h ho => ?_, fun h _ => h⟩
  obtain ⟨g, hg, rfl, rfl⟩ := hp
  obtain rfl : r = g := hs.owners r (hs.stored r hr) g hg ho
  exact h (hs.lockIds r hg) rfl

end Invariant

section Safety

variable [LinearOrder τ] [DecidableEq ι] {digest : String → Nat} {plus : τ → δ → Option τ}
  {c d : Config ι (LockTable ι τ) (Phase τ δ)} {w : ι} {a : Attempt τ δ}

theorem lease_outline (digest : String → Nat) (plus : τ → δ → Option τ) :
    Outline (lockStep (ι := ι) digest plus) (fun _ _ _ => True) (LockTable.Sound digest)
      Phase.Sound where
  own hs hp _ h := (lockStep_move h).sound hs hp
  others hij _ hp hl _ h := (lockStep_move h).others hij hp hl

theorem runLocks_sound {t₀ : τ} {es : List (ι × LockAction τ δ)}
    (h : runLocks digest plus (startLocks t₀) es = some c) :
    Holds (LockTable.Sound digest) Phase.Sound c := by
  have hstart : LockTable.Sound digest (startLocks (ι := ι) (δ := δ) t₀).shared := by
    refine ⟨?_, ?_, ?_, ?_, ?_⟩ <;> simp [startLocks]
  exact (lease_outline digest plus).run ⟨hstart, fun _ => trivial⟩ h

structure LeaseSafe (digest : String → Nat) (plus : τ → δ → Option τ)
    (c : Config ι (LockTable ι τ) (Phase τ δ)) : Prop where
  exclusive : ∀ w a d k o, c.locals w = .waiting a →
    Interleaving.step (lockStep digest plus) c (w, .acquire) = some d →
    d.locals w = .inside k o → ∀ g ∈ c.shared.granted, g.key = a.key →
      g.owner ∈ c.shared.released ∨ g.expiresAt ≤ c.shared.clock
  leaves : ∀ w key owner d, c.locals w = .inside key owner →
    Interleaving.step (lockStep digest plus) c (w, .leave) = some d →
    ∀ r, r ∈ d.shared.rows ↔ r ∈ c.shared.rows ∧ r.owner ≠ owner
  unchanged : ∀ w a d e, c.locals w = .waiting a →
    Interleaving.step (lockStep digest plus) c (w, .acquire) = some d →
    d.locals w = .outside (some e) → d.shared.rows = c.shared.rows
  reclaims : ∀ w a d message, c.locals w = .waiting a →
    Interleaving.step (lockStep digest plus) c (w, .acquire) = some d →
    d.locals w = .outside (some (.lockUnavailable message)) →
    ∃ r ∈ c.shared.rows, r.lockId = advisoryLockId digest a.key ∧ a.now < r.expiresAt

theorem acquire_step (hw : c.locals w = .waiting a)
    (h : Interleaving.step (lockStep digest plus) c (w, .acquire) = some d) :
    (∃ left row, Lease.acquire digest plus c.shared.rows a = .ok (left, row) ∧
        d.locals w = .inside a.key a.owner) ∨
      ∃ e, Lease.acquire digest plus c.shared.rows a = .error e ∧
        d.locals w = .outside (some e) ∧ d.shared = c.shared := by
  obtain ⟨sh, ph, ha, rfl⟩ := step_eq_some.mp h
  rw [hw] at ha
  cases lockStep_move ha with
  | granted ok => exact .inl ⟨_, _, ok, Function.update_self ..⟩
  | refused error => exact .inr ⟨_, error, Function.update_self .., rfl⟩

theorem lease_lock_safe (digest : String → Nat) (plus : τ → δ → Option τ) {t₀ : τ}
    {es : List (ι × LockAction τ δ)} (h : runLocks digest plus (startLocks t₀) es = some c) :
    LeaseSafe digest plus c := by
  have hsound := runLocks_sound h
  refine ⟨?_, ?_, ?_, ?_⟩
  · intro w a d k o hw hstep hin g hg hk
    have hp := hsound.2 w
    rw [hw] at hp
    rcases acquire_step hw hstep with ⟨left, row, hok, _⟩ | ⟨e, _, hout, _⟩
    · exact hsound.1.exclusive hp.2.2 hok hg hk
    · rw [hin] at hout
      cases hout
  · intro w key owner d hw hstep r
    have hp := hsound.2 w
    rw [hw] at hp
    obtain ⟨sh, ph, ha, rfl⟩ := step_eq_some.mp hstep
    rw [hw] at ha
    cases lockStep_move ha with
    | left => exact hsound.1.leaves hp
  · intro w a d e hw hstep hout
    rcases acquire_step hw hstep with ⟨left, row, _, hin⟩ | ⟨e', _, _, hsh⟩
    · rw [hout] at hin
      cases hin
    · rw [hsh]
  · intro w a d message hw hstep hout
    rcases acquire_step hw hstep with ⟨left, row, _, hin⟩ | ⟨e', herr, hout', _⟩
    · rw [hout] at hin
      cases hin
    · rw [hout] at hout'
      cases hout'
      exact Lease.acquire_unavailable herr

end Safety

def plusSeconds (now ttl : Int) : Option Int := some (now + ttl)

-- the first holder's lease lapses inside its block, a second takes the key, then the first leaves
def lapsedLease : List (Bool × LockAction Int Int) :=
  [(true, .enter "order-0001" "first" 60), (true, .acquire), (false, .pass 61),
    (false, .enter "order-0001" "second" 60), (false, .acquire), (true, .leave)]

def Phase.owner : Phase τ δ → Option String
  | .inside _ owner => some owner
  | _ => none

theorem lease_lock_safe_lapsed :
    ∃ c d : Config Bool (LockTable Bool Int) (Phase Int Int),
      runLocks String.length plusSeconds (startLocks 0) (lapsedLease.take 5) = some c ∧
        ((c.locals true).owner = some "first" ∧ (c.locals false).owner = some "second" ∧
          c.shared.clock = 61 ∧
          c.shared.granted.map (fun r => (r.owner, r.expiresAt)) =
            [("first", 60), ("second", 121)]) ∧
        LeaseSafe String.length plusSeconds c ∧
      runLocks String.length plusSeconds (startLocks 0) lapsedLease = some d ∧
        ((d.locals true).owner = none ∧ (d.locals false).owner = some "second" ∧
          d.shared.rows.map LockRow.owner = ["second"]) ∧
        LeaseSafe String.length plusSeconds d := by
  have hs : (runLocks String.length plusSeconds (startLocks 0) (lapsedLease.take 5)).any (fun c =>
      (c.locals true).owner = some "first" ∧ (c.locals false).owner = some "second" ∧
        c.shared.clock = 61 ∧ c.shared.granted.map (fun r => (r.owner, r.expiresAt)) =
          [("first", 60), ("second", 121)]) = true := by decide +kernel
  have hl : (runLocks String.length plusSeconds (startLocks 0) lapsedLease).any (fun d =>
      (d.locals true).owner = none ∧ (d.locals false).owner = some "second" ∧
        d.shared.rows.map LockRow.owner = ["second"]) = true := by decide +kernel
  obtain ⟨c, hc, hq⟩ := (Option.any_eq_true _ _).mp hs
  obtain ⟨d, hd, hq'⟩ := (Option.any_eq_true _ _).mp hl
  exact ⟨c, d, hc, of_decide_eq_true hq, lease_lock_safe String.length plusSeconds hc, hd,
    of_decide_eq_true hq', lease_lock_safe String.length plusSeconds hd⟩

end DurableAgent
