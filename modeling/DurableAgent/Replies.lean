import DurableAgent.Escapes
import DurableAgent.Exactness

namespace DurableAgent

variable {α : Type} {text : List PyChar}

section Parts

theorem slice_within (text : List PyChar) (i j : Nat) : slice text i j <:+: text :=
  (List.drop_suffix i _).isInfix.trans (List.take_prefix j text).isInfix

theorem strip_within (text : List PyChar) : stripChars text <:+: text :=
  (List.rdropWhile_prefix _ _).isInfix.trans (List.dropWhile_suffix _).isInfix

theorem dropTag_within (body : List PyChar) : dropTag body <:+: body := by
  unfold dropTag
  split
  · exact (List.suffix_append [_, _, _, _] _).isInfix
  · exact List.infix_rfl

theorem splitFences_within (text : List PyChar) :
    ∃ piece pieces, splitFences text = piece :: pieces ∧ piece <+: text ∧
      ∀ p ∈ pieces, p <:+: text := by
  fun_induction splitFences text with
  | case1 cs ih =>
    obtain ⟨piece, pieces, hs, hpiece, hpieces⟩ := ih
    refine ⟨[], _, rfl, List.nil_prefix, fun p hp => ?_⟩
    have hcs : p <:+: cs := by
      rw [hs] at hp
      rcases List.mem_cons.mp hp with rfl | hp
      · exact hpiece.isInfix
      · exact hpieces p hp
    exact hcs.trans (List.suffix_append [_, _, _] cs).isInfix
  | case2 c cs _ piece pieces hs ih =>
    obtain ⟨piece', pieces', hs', hpiece, hpieces⟩ := ih
    rw [hs] at hs'
    cases hs'
    refine ⟨_, _, rfl, (List.prefix_cons_inj c).mpr hpiece, fun p hp => ?_⟩
    exact (hpieces p hp).trans (List.suffix_cons c cs).isInfix
  | case3 c cs _ hs ih =>
    obtain ⟨piece, pieces, hs', _⟩ := ih
    rw [hs] at hs'
    cases hs'
  | case4 => exact ⟨[], [], rfl, List.nil_prefix, fun p hp => absurd hp List.not_mem_nil⟩

theorem mem_betweenFences {pieces : List (List PyChar)} {body : List PyChar}
    (h : body ∈ betweenFences pieces) : body ∈ pieces := by
  fun_induction betweenFences pieces with
  | case1 before body' next pieces ih =>
    rcases List.mem_cons.mp h with rfl | h
    · exact List.mem_cons_of_mem _ List.mem_cons_self
    · exact List.mem_cons_of_mem _ (List.mem_cons_of_mem _ (ih h))
  | case2 => cases h

theorem fences_within : ∀ c ∈ fences text, c <:+: text := by
  intro c hc
  obtain ⟨body, hbody, rfl⟩ := List.mem_map.mp hc
  obtain ⟨piece, pieces, hs, hpiece, hpieces⟩ := splitFences_within text
  have hmem := mem_betweenFences hbody
  rw [hs] at hmem
  have hin : body <:+: text := by
    rcases List.mem_cons.mp hmem with rfl | hmem
    · exact hpiece.isInfix
    · exact hpieces body hmem
  exact (strip_within _).trans ((dropTag_within body).trans hin)

theorem scan_step_within {s : Scan} (h : ∀ o ∈ s.out, o <:+: text) (i : Nat) (ch : PyChar) :
    ∀ o ∈ (Scan.step text s i ch).out, o <:+: text := by
  unfold Scan.step
  split
  · split
    · exact h
    split
    · exact h
    split <;> exact h
  split
  · exact h
  split
  · exact h
  split
  · split
    · intro o ho
      rcases List.mem_append.mp ho with ho | ho
      · exact h o ho
      · rw [List.mem_singleton.mp ho]
        exact slice_within text _ _
    · exact h
  · exact h

theorem balanced_within : ∀ o ∈ balancedObjects text, o <:+: text := by
  have hrun (cs : List PyChar) (i : Nat) (s : Scan) (h : ∀ o ∈ s.out, o <:+: text) :
      ∀ o ∈ (Scan.run text i s cs).out, o <:+: text := by
    induction cs generalizing i s with
    | nil => exact h
    | cons c cs ih => exact ih _ _ (scan_step_within h i c)
  exact hrun text 0 Scan.initial fun o ho => absurd ho List.not_mem_nil

theorem spans_within : ∀ c ∈ spans text, c <:+: text := by
  intro c hc
  unfold spans at hc
  split at hc
  · split at hc
    · rcases List.mem_cons.mp hc with rfl | hc
      · exact slice_within text _ _
      · exact balanced_within c hc
    · cases hc
  · cases hc

theorem candidate_within {c : List PyChar} (h : c ∈ candidateTexts text) : c <:+: text := by
  rcases List.mem_append.mp h with h | h
  · exact fences_within c h
  rcases List.mem_append.mp h with h | h
  · exact spans_within c h
  · rw [List.mem_singleton.mp h]
    exact strip_within text

end Parts

section Accepted

variable {maxDepth : Nat} {float : List Char → PyFloat} {schema : BaseModel α}

theorem validateLast_returned {values : List PyValue} {last : Option ValidationError} {a : α}
    {faults : List FieldFault} (h : validateLast schema values last = some (some a, faults)) :
    ∃ v ∈ values, schema.validate v = .ok a := by
  induction values generalizing last with
  | nil => cases last <;> cases h
  | cons v values ih =>
    rw [validateLast] at h
    cases hv : schema.validate v with
    | ok b =>
      rw [hv] at h
      cases h
      exact ⟨v, List.mem_cons_self, hv⟩
    | error e =>
      rw [hv] at h
      obtain ⟨w, hw, ha⟩ := ih h
      exact ⟨w, List.mem_cons_of_mem v hw, ha⟩

-- an accepted value is what some part of the response denotes as JSON
def WrittenIn (maxDepth : Nat) (float : List Char → PyFloat) (schema : BaseModel α)
    (text : List PyChar) (a : α) : Prop :=
  ∃ p x q v, text = p ++ (x ++ q) ∧ Decoder.ValueReads maxDepth float 0 x v ∧
    schema.validate v = .ok a

theorem parse_written {a : α} {faults : List FieldFault}
    (h : parseOrFaults maxDepth float schema text = .ok (some a, faults)) :
    WrittenIn maxDepth float schema text a := by
  have ht : Tolerated maxDepth float text := tolerated_of_returned h
  have hcand : ∃ values, decodeAll maxDepth float (candidateTexts text) = .ok values ∧
      ∃ v ∈ values, schema.validate v = .ok a := by
    rw [parseOrFaults, jsonCandidates] at h
    cases hd : decodeAll maxDepth float (candidateTexts text) with
    | error e =>
      rw [hd] at h
      cases h
    | ok values =>
      rw [hd] at h
      cases values with
      | nil => cases h
      | cons v values =>
        simp only at h
        split at h
        · rename_i hlast
          cases h
          obtain ⟨w, hw, ha⟩ := validateLast_returned hlast
          exact ⟨_, rfl, w, List.mem_reverse.mp hw, ha⟩
        · cases h
  obtain ⟨values, hall, v, hv, ha⟩ := hcand
  rw [decodeAll_ok ht, Except.ok.injEq] at hall
  rw [← hall] at hv
  obtain ⟨c, hc, hd⟩ := List.mem_filterMap.mp hv
  have hd : decode maxDepth float c = .ok v := toOption_eq_some hd
  obtain ⟨b, x, b', rfl, _, hx, _⟩ := decode_ok_iff.mp hd
  obtain ⟨p, q, hpq⟩ := candidate_within hc
  refine ⟨p ++ b, x, b' ++ q, v, ?_, hx, ha⟩
  rw [← hpq]
  simp

end Accepted

section Asking

variable {ε : Type} {stack : Nat} {parse : PyStr → Except ε (Option α × List FieldFault)}
  {schemaName : PyStr} {budget : Int} {prompt : PyStr} {calls : Nat → Except ε Reply}

-- what the loop returns is what the last reply was read as
theorem raisingAskFrom_returned {remaining attempt corrections : Nat} {current : PyStr}
    {ctx : StepContext} {a : α}
    (h : (raisingAskFrom stack parse schemaName budget prompt calls remaining attempt current
      corrections ctx).ending = .answer (.returned a)) :
    ∃ t text tokens faults, (raisingAskFrom stack parse schemaName budget prompt calls remaining
        attempt current corrections ctx).turns.getLast? = some t ∧
      t.call = .ok (.completion text tokens) ∧ parse text = .ok (some a, faults) := by
  have after {r : Attempted ε α} {t : Turn ε}
      (hr : ∃ u text tokens faults, r.turns.getLast? = some u ∧
        u.call = .ok (.completion text tokens) ∧ parse text = .ok (some a, faults)) :
      ∃ u text tokens faults, (r.after t).turns.getLast? = some u ∧
        u.call = .ok (.completion text tokens) ∧ parse text = .ok (some a, faults) := by
    obtain ⟨u, text, tokens, faults, hl, hu, hp⟩ := hr
    refine ⟨u, text, tokens, faults, ?_, hu, hp⟩
    rw [Attempted.after, List.getLast?_cons, hl, Option.getD_some]
  induction remaining generalizing attempt current corrections ctx with
  | zero => cases h
  | succ remaining ih =>
    rw [raisingAskFrom] at h ⊢
    cases hc : calls attempt with
    | error e =>
      rw [hc] at h
      cases h
    | ok reply =>
      rw [hc] at h
      cases reply with
      | transient exc =>
        simp only at h ⊢
        split at h
        · cases h
        · rename_i hbudget
          rw [if_neg hbudget]
          split at h
          · cases h
          · rename_i hover
            rw [if_neg hover]
            exact after (ih h)
      | completion text tokens =>
        simp only at h ⊢
        cases hp : parse text with
        | error e =>
          rw [hp] at h
          cases h
        | ok result =>
          rw [hp] at h
          obtain ⟨value, faults⟩ := result
          cases value with
          | some value =>
            cases h
            exact ⟨_, text, tokens, faults, rfl, rfl, hp⟩
          | none =>
            simp only at h ⊢
            split at h
            · cases h
            · rename_i hrounds
              rw [if_neg hrounds]
              cases hb : buildRetryPrompt stack prompt text faults schemaName with
              | none =>
                rw [hb] at h
                cases h
              | some next =>
                rw [hb] at h
                exact after (ih h)

variable {maxDepth : Nat} {float : List Char → PyFloat}

theorem answer_written_in_reply (schema : BaseModel α) (schemaName prompt : PyStr)
    (ctx : StepContext) (maxAttempts : Option Int) (calls : Nat → Except ReadError Reply) {a : α}
    (h : (raisingAsk stack (parseReply maxDepth float schema) schemaName ctx prompt maxAttempts
      calls).ending = .answer (.returned a)) :
    ∃ t text tokens, (raisingAsk stack (parseReply maxDepth float schema) schemaName ctx prompt
        maxAttempts calls).turns.getLast? = some t ∧
      t.call = .ok (.completion text tokens) ∧
      WrittenIn maxDepth float schema text.chars a := by
  obtain ⟨t, text, tokens, faults, hl, ht, hp⟩ := raisingAskFrom_returned h
  exact ⟨t, text, tokens, hl, ht, parse_written hp⟩

def AskEnding.value : AskEnding ε α → Option α
  | .answer (.returned a) => some a
  | .answer _ => none
  | .raised _ => none

theorem AskEnding.value_eq_some {e : AskEnding ε α} {a : α} (h : e.value = some a) :
    e = .answer (.returned a) := by
  cases e with
  | raised e => cases h
  | answer r =>
    cases r with
    | returned b =>
      cases Option.some.inj h
      rfl
    | _ => cases h

def freshContext : StepContext := ⟨"run", 0, [], [], 3, [], [], 0⟩

-- an apology first, then the object in a fence
def apologises : Nat → Except ReadError Reply
  | 2 => .ok (.completion ⟨chars "Here:\n\x60\x60\x60json\n" ++ memberText ++
      chars "\n\x60\x60\x60"⟩ 9)
  | _ => .ok (.completion (.ofString "I cannot") 2)

theorem answer_written_in_reply_healed :
    ∃ t text tokens,
      (raisingAsk 900 (parseReply 1000 writtenFloat (requiring ["a"] : BaseModel PyValue))
        (.ofString "Decision") freshContext (.ofString "Assess") none apologises).turns.getLast? =
          some t ∧
      t.call = .ok (.completion text tokens) ∧
      WrittenIn 1000 writtenFloat (requiring ["a"] : BaseModel PyValue) text.chars
        (.dict [(.str (.ofString "a"), .int 1)]) := by
  have h : (raisingAsk 900 (parseReply 1000 writtenFloat (requiring ["a"] : BaseModel PyValue))
      (.ofString "Decision") freshContext (.ofString "Assess") none apologises).ending.value =
        some (.dict [(.str (.ofString "a"), .int 1)]) := by decide +kernel
  exact answer_written_in_reply _ _ _ _ _ _ (AskEnding.value_eq_some h)

end Asking

end DurableAgent
