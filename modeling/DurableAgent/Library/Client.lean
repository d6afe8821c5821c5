import Mathlib.Logic.Basic

-- a program that calls a machine and goes on by what it is answered
inductive Client (κ ρ ω : Type) where
  | ends (ending : ω)
  | calls (call : κ) (next : ρ → Client κ ρ ω)

namespace Client

variable {κ ρ ρ' ω ω' σ τ : Type}

def play (step : σ → κ → σ × ρ) : Client κ ρ ω → σ → σ × ω
  | .ends w, s => (s, w)
  | .calls c next, s => (next (step s c).2).play step (step s c).1

-- killed after so many calls, or never
def cut : Client κ ρ ω → Option Nat → Client κ ρ (Option ω)
  | .ends w, _ => .ends (some w)
  | .calls _ _, some 0 => .ends none
  | .calls c next, some (n + 1) => .calls c fun r => (next r).cut (some n)
  | .calls c next, none => .calls c fun r => (next r).cut none

-- every call is made in a state that meets `p`
def Meets (step : σ → κ → σ × ρ) (p : σ → κ → Prop) : Client κ ρ ω → σ → Prop
  | .ends _, _ => True
  | .calls c next, s => p s c ∧ (next (step s c).2).Meets step p (step s c).1

-- the same calls, as long as the answers are alike
inductive Alike (answers : ρ → ρ' → Prop) (endings : ω → ω' → Prop) :
    Client κ ρ ω → Client κ ρ' ω' → Prop
  | ends {w : ω} {w' : ω'} (h : endings w w') : Alike answers endings (.ends w) (.ends w')
  | calls {c : κ} {next : ρ → Client κ ρ ω} {next' : ρ' → Client κ ρ' ω'}
      (h : ∀ r r', answers r r' → Alike answers endings (next r) (next' r')) :
      Alike answers endings (.calls c next) (.calls c next')

variable {step : σ → κ → σ × ρ} {step' : τ → κ → τ × ρ'} {p : σ → κ → Prop}
  {answers : ρ → ρ' → Prop} {endings : ω → ω' → Prop} {x : Client κ ρ ω} {y : Client κ ρ' ω'}

theorem play_alike {R : σ → τ → Prop}
    (hstep : ∀ s t c, R s t → p s c →
      R (step s c).1 (step' t c).1 ∧ answers (step s c).2 (step' t c).2)
    (h : Alike answers endings x y) {s : σ} {t : τ} (hs : R s t) (hp : x.Meets step p s) :
    R (x.play step s).1 (y.play step' t).1 ∧ endings (x.play step s).2 (y.play step' t).2 := by
  induction h generalizing s t with
  | ends h => exact ⟨hs, h⟩
  | @calls c next next' h ih =>
    obtain ⟨hkept, hanswers⟩ := hstep s t c hs hp.1
    exact ih _ _ hanswers hkept hp.2

theorem Alike.cut (h : Alike answers endings x y) (lives : Option Nat) :
    Alike answers (Option.Rel endings) (x.cut lives) (y.cut lives) := by
  induction h generalizing lives with
  | ends h => exact .ends (.some h)
  | calls _ ih =>
    rcases lives with _ | _ | n
    · exact .calls fun r r' hr => ih r r' hr none
    · exact .ends .none
    · exact .calls fun r r' hr => ih r r' hr (some n)

-- nothing is cut of a client that lives
theorem play_cut (x : Client κ ρ ω) (s : σ) :
    (x.cut none).play step s = ((x.play step s).1, some (x.play step s).2) := by
  induction x generalizing s with
  | ends w => rfl
  | calls c next ih => exact ih _ _

end Client
