import Mathlib.Data.List.Basic

namespace Replay

variable {α β : Type}

inductive Next (α β : Type) where
  | emit (entry : α)
  | halt (result : β)

inductive Halts (next : List α → Next α β) : List α → List α → β → Prop where
  | halt {log : List α} {b : β} (h : next log = .halt b) : Halts next log log b
  | emit {log final : List α} {a : α} {b : β} (h : next log = .emit a)
      (rest : Halts next (log ++ [a]) final b) : Halts next log final b

variable {next : List α → Next α β} {log final final' : List α} {a : α} {b b' : β}

theorem Halts.of_halt (h : Halts next log final b) (hn : next log = .halt b') :
    final = log ∧ b = b' := by
  cases h with
  | halt hb =>
    rw [hn] at hb
    cases hb
    exact ⟨rfl, rfl⟩
  | emit ha rest =>
    rw [hn] at ha
    cases ha

theorem Halts.of_emit (h : Halts next log final b) (hn : next log = .emit a) :
    Halts next (log ++ [a]) final b := by
  cases h with
  | halt hb =>
    rw [hn] at hb
    cases hb
  | emit ha rest =>
    rw [hn] at ha
    cases ha
    exact rest

theorem exists_halts {bound : Nat} (hb : ∀ log, bound ≤ log.length → ∃ b, next log = .halt b)
    (log : List α) : ∃ final b, Halts next log final b := by
  induction hk : bound - log.length generalizing log with
  | zero =>
    obtain ⟨b, hn⟩ := hb log (by omega)
    exact ⟨log, b, .halt hn⟩
  | succ k ih =>
    cases hn : next log with
    | halt b => exact ⟨log, b, .halt hn⟩
    | emit a =>
      have hlen : bound - (log ++ [a]).length = k := by
        rw [List.length_append, List.length_singleton]
        omega
      obtain ⟨final, b, hf⟩ := ih (log ++ [a]) hlen
      exact ⟨final, b, .emit hn hf⟩

theorem Halts.left (h : Halts next log final b) : log <+: final := by
  induction h with
  | halt hb => exact List.prefix_rfl
  | emit ha rest ih => exact (List.prefix_append _ _).trans ih

theorem Halts.last (h : Halts next log final b) : next final = .halt b := by
  induction h with
  | halt hb => exact hb
  | emit ha rest ih => exact ih

-- a log on the way to the last one is on its way there too
theorem Halts.onward {mid : List α} (h : Halts next log final b) (hl : log <+: mid)
    (hm : mid <+: final) : Halts next mid final b := by
  induction h with
  | @halt log b hb =>
    obtain rfl := hl.eq_of_length_le hm.length_le
    exact .halt hb
  | @emit log final a b ha rest ih =>
    rcases Nat.lt_or_ge log.length mid.length with hlt | hge
    · apply ih ?_ hm
      apply List.prefix_of_prefix_length_le rest.left hm
      rw [List.length_append, List.length_singleton]
      exact hlt
    · obtain rfl := hl.eq_of_length_le hge
      exact .emit ha rest

theorem Halts.forall_mem {P : α → Prop} (h : Halts next log final b)
    (hstep : ∀ log a, (∀ x ∈ log, P x) → next log = .emit a → P a) (hlog : ∀ x ∈ log, P x) :
    ∀ x ∈ final, P x := by
  induction h with
  | halt hb => exact hlog
  | @emit log final a b ha rest ih =>
    apply ih
    intro x hx
    rcases List.mem_append.mp hx with hold | hnew
    · exact hlog x hold
    · obtain rfl := List.mem_singleton.mp hnew
      exact hstep log x hlog ha

end Replay
