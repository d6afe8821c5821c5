import DurableAgent.Library.Simulation

namespace Unwinding

open Simulation

variable {ω σ α β : Type} [DecidableEq ω]

-- what the calls of `w` give, in a run of everyone's calls
def outcomes (step : σ → ω × α → σ × β) (w : ω) : σ → List (ω × α) → List β
  | _, [] => []
  | s, e :: es =>
      let r := step s e
      if e.1 = w then r.2 :: outcomes step w r.1 es else outcomes step w r.1 es

def alone (w : ω) (es : List (ω × α)) : List (ω × α) := es.filter fun e => e.1 = w

variable {step : σ → ω × α → σ × β} {w : ω} {s t : σ} {e : ω × α} {es : List (ω × α)}

theorem outcomes_own (h : e.1 = w) :
    outcomes step w s (e :: es) = (step s e).2 :: outcomes step w (step s e).1 es := if_pos h

theorem outcomes_other (h : e.1 ≠ w) :
    outcomes step w s (e :: es) = outcomes step w (step s e).1 es := if_neg h

-- `view` is what `w` can tell of a state: its own calls read and keep it, the others' leave it
theorem outcomes_alone (view : σ → σ → Prop) {p : σ → ω × α → Prop}
    (own : ∀ s t e, e.1 = w → view s t → p s e →
      (step s e).2 = (step t e).2 ∧ view (step s e).1 (step t e).1)
    (other : ∀ s t e, e.1 ≠ w → view s t → p s e → view (step s e).1 t)
    (hv : view s t) (h : Each step p s es) :
    outcomes step w s es = outcomes step w t (alone w es) := by
  induction es generalizing s t with
  | nil => rfl
  | cons e es ih =>
    rw [each_cons] at h
    by_cases he : e.1 = w
    · obtain ⟨hout, hview⟩ := own s t e he hv h.1
      rw [alone, List.filter_cons_of_pos (by rw [he, decide_eq_true_eq]), outcomes_own he,
        outcomes_own he, hout, ih hview h.2, alone]
    · rw [alone, List.filter_cons_of_neg (by rw [decide_eq_true_eq]; exact he), outcomes_other he,
        ih (other s t e he hv h.1) h.2, alone]

end Unwinding
