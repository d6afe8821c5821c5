import DurableAgent.Answers

namespace DurableAgent

variable {α : Type}

section Prompts

-- the retry that sends the task again
def taskPrompt (original schemaName : PyStr) : PyStr :=
  .concat [original, .ofString "\n\n",
    .ofString "ERROR: your previous response contained no JSON. Return only a JSON ",
    .ofString "object matching ", schemaName, .ofString ", with no surrounding text."]

variable {stack : Nat} {original previous schemaName prompt : PyStr} {faults : List FieldFault}

theorem buildRetryPrompt_unparseable (h : isUnparseable faults = true) :
    buildRetryPrompt stack original previous faults schemaName =
      some (taskPrompt original schemaName) := by
  rw [buildRetryPrompt, if_pos h]
  rfl

theorem buildRetryPrompt_draft (h : isUnparseable faults = false) :
    buildRetryPrompt stack original previous faults schemaName =
      correctionPrompt stack previous faults schemaName := by
  rw [buildRetryPrompt, h, if_neg Bool.false_ne_true]

theorem concat_append (parts : List PyStr) (s : PyStr) :
    (PyStr.concat (parts ++ [s])).chars = (PyStr.concat parts).chars ++ s.chars := by
  simp [PyStr.concat]

theorem mem_concat {parts : List PyStr} {s : PyStr} (h : s ∈ parts) :
    s.chars <:+: (PyStr.concat parts).chars := by
  obtain ⟨before, after, rfl⟩ := List.append_of_mem h
  exact ⟨(PyStr.concat before).chars, (PyStr.concat after).chars, by simp [PyStr.concat]⟩

theorem correctionPrompt_ne_task
    (h : correctionPrompt stack previous faults schemaName = some prompt) :
    prompt ≠ taskPrompt original schemaName := by
  obtain ⟨payload, -, rfl⟩ := Option.map_eq_some_iff.mp h
  intro heq
  have hends := congrArg PyStr.chars heq
  have htask := concat_append [original, .ofString "\n\n",
    .ofString "ERROR: your previous response contained no JSON. Return only a JSON ",
    .ofString "object matching ", schemaName] (.ofString ", with no surrounding text.")
  have hcorrection := concat_append [.ofString "CORRECTION for ", schemaName, .ofString ".\n",
      .ofString "Your previous response was:\n", previous.strip, .ofString "\n\n",
      .ofString "It failed validation on these fields:\n", payload.text, .ofString "\n\n",
      .ofString "Fix ONLY the invalid fields, keep every valid field exactly as it was, "]
    (.ofString "and return the complete corrected JSON object.")
  rw [show (taskPrompt original schemaName).chars = _ from htask] at hends
  have hlast := congrArg (fun cs => cs.reverse[2]?) (hcorrection.symm.trans hends)
  simp only [List.reverse_append] at hlast
  rw [List.getElem?_append_left (by decide), List.getElem?_append_left (by decide)] at hlast
  exact absurd hlast (by decide)

theorem correctionPrompt_carries
    (h : correctionPrompt stack previous faults schemaName = some prompt) :
    previous.strip.chars <:+: prompt.chars := by
  obtain ⟨payload, -, rfl⟩ := Option.map_eq_some_iff.mp h
  exact mem_concat (by simp)

theorem task_resent_iff :
    buildRetryPrompt stack original previous faults schemaName =
      some (taskPrompt original schemaName) ↔ isUnparseable faults = true := by
  refine ⟨fun h => ?_, buildRetryPrompt_unparseable⟩
  by_contra hu
  rw [buildRetryPrompt_draft (Bool.eq_false_iff.mpr hu)] at h
  exact correctionPrompt_ne_task h rfl

end Prompts

section Fields

theorem concat_singleton (s : PyStr) : PyStr.concat [s] = s := by
  simp [PyStr.concat]

theorem join_pair (sep s t : PyStr) (parts : List PyStr) :
    sep.chars <:+: (PyStr.join sep (s :: t :: parts)).chars :=
  mem_concat (by simp)

theorem angle_not_mem_int (i : Int) : '<' ∉ (toString i).toList := by
  have hnat (n : Nat) : '<' ∉ n.repr.toList := by
    rw [Nat.toList_repr]
    intro h
    exact absurd (Nat.isDigit_of_mem_toDigits (by decide) (by decide) h) (by decide)
  cases i with
  | ofNat n => exact hnat n
  | negSucc n =>
    have htext : (toString (Int.negSucc n)).toList = '-' :: (n + 1).repr.toList := by
      simp [toString, Int.repr]
    rw [htext]
    exact List.not_mem_cons_of_ne_of_not_mem (by decide) (hnat (n + 1))

theorem str_eq_unparseable (part : LocPart) :
    part.str = unparseableField ↔ part = .key unparseableField := by
  cases part with
  | key name => simp [LocPart.str]
  | index i =>
    refine iff_of_false (fun h => ?_) (by simp)
    have hchars := congrArg PyStr.encode h
    simp only [LocPart.str, unparseableField, PyStr.encode_ofString, Option.some.injEq] at hchars
    exact angle_not_mem_int i (hchars ▸ by decide)

theorem faultsFrom_unparseable (error : ValidationError) : isUnparseable (faultsFrom error) = true ↔
    ∃ err ∈ error, err.loc = [.key unparseableField] := by
  have hroot : (PyStr.ofString "<root>") ≠ unparseableField := by decide
  have hfield (loc : List LocPart) :
      (if (PyStr.join (.ofString ".") (loc.map LocPart.str)).chars = [] then .ofString "<root>"
        else PyStr.join (.ofString ".") (loc.map LocPart.str)) = unparseableField ↔
        loc = [.key unparseableField] := by
    match loc with
    | [] => exact iff_of_false hroot (by simp)
    | [part] =>
      have hjoin : PyStr.join (.ofString ".") ([part].map LocPart.str) = part.str :=
        concat_singleton part.str
      rw [hjoin, List.singleton_inj, ← str_eq_unparseable]
      split
      · rename_i hnil
        refine iff_of_false hroot fun h => ?_
        rw [h] at hnil
        exact absurd hnil (by decide)
      · rfl
    | part :: part' :: rest =>
      -- a dot stands between two parts, and the sentinel has none
      have hdot : (.scalar '.') ∈
          (PyStr.join (.ofString ".") ((part :: part' :: rest).map LocPart.str)).chars :=
        (join_pair (.ofString ".") part.str part'.str _).subset (by decide)
      rw [if_neg (List.ne_nil_of_mem hdot)]
      refine iff_of_false (fun h => ?_) (by simp)
      rw [h] at hdot
      exact absurd hdot (by decide)
  simp only [isUnparseable, faultsFrom, List.any_map, List.any_eq_true, Function.comp_apply,
    decide_eq_true_eq, hfield]

def ErrorDetails.sendable (stack : Nat) (err : ErrorDetails) : Bool :=
  (toJson err.input).any fun j => j.depth + 2 ≤ stack

theorem faultsFrom_sendable (stack : Nat) (error : ValidationError) :
    (faultsFrom error).all (FieldFault.sendable stack) =
      error.all (ErrorDetails.sendable stack) := by
  simp only [faultsFrom, List.all_map]
  rfl

end Fields

section Reports

variable (maxDepth : Nat) (float : List Char → PyFloat)

-- `json_candidates` raises `Unparseable`
def NoJson (text : List PyChar) : Prop :=
  ∃ shown, jsonCandidates maxDepth float text = .error (.unparseable shown)

-- what validating the value read first raises
def draftError (schema : BaseModel α) (text : List PyChar) : Option ValidationError :=
  match jsonCandidates maxDepth float text with
  | .ok (v :: _) =>
      match schema.validate v with
      | .ok _ => none
      | .error e => some e
  | _ => none

variable {maxDepth : Nat} {float : List Char → PyFloat} {schema : BaseModel α}
  {text : List PyChar} {faults : List FieldFault}

theorem validateLast_faults {values : List PyValue} {last : Option ValidationError}
    (h : validateLast schema values last = some (none, faults)) :
    (values = [] ∧ ∃ e, last = some e ∧ faults = faultsFrom e) ∨
      ∃ v e, values.getLast? = some v ∧ schema.validate v = .error e ∧ faults = faultsFrom e := by
  induction values generalizing last with
  | nil =>
    cases last with
    | none => cases h
    | some e =>
      cases h
      exact .inl ⟨rfl, e, rfl, rfl⟩
  | cons v values ih =>
    rw [validateLast] at h
    cases hv : schema.validate v with
    | ok a =>
      rw [hv] at h
      cases h
    | error e =>
      rw [hv] at h
      rcases ih h with ⟨rfl, e', he, hf⟩ | ⟨w, e', hw, he, hf⟩
      · cases he
        exact .inr ⟨v, e, rfl, hv, hf⟩
      · refine .inr ⟨w, e', ?_, he, hf⟩
        rw [List.getLast?_cons, hw, Option.getD_some]

theorem jsonCandidates_ne_nil {values : List PyValue}
    (h : jsonCandidates maxDepth float text = .ok values) : values ≠ [] := by
  unfold jsonCandidates at h
  split at h
  · cases h
  · cases h
  · rename_i vs hne hvs
    cases h
    exact fun heq => hne heq

theorem reported_cases (h : parseOrFaults maxDepth float schema text = .ok (none, faults)) :
    (NoJson maxDepth float text ∧ faults = [unparseableFault text]) ∨
      (¬ NoJson maxDepth float text ∧
        ∃ e, draftError maxDepth float schema text = some e ∧ faults = faultsFrom e) := by
  unfold parseOrFaults at h
  cases hc : jsonCandidates maxDepth float text with
  | error err =>
    rw [hc] at h
    cases err with
    | unparseable shown =>
      cases h
      exact .inl ⟨⟨shown, hc⟩, rfl⟩
    | escaped e => cases h
  | ok values =>
    rw [hc] at h
    refine .inr ⟨fun ⟨shown, hshown⟩ => ?_, ?_⟩
    · rw [hc] at hshown
      cases hshown
    · obtain ⟨v, vs, rfl⟩ := List.exists_cons_of_ne_nil (jsonCandidates_ne_nil hc)
      simp only at h
      split at h
      · rename_i result hr
        cases h
        rcases validateLast_faults hr with ⟨hnil, -⟩ | ⟨w, e, hw, he, hf⟩
        · simp at hnil
        · rw [List.getLast?_reverse, List.head?_cons, Option.some.injEq] at hw
          subst hw
          exact ⟨e, by rw [draftError, hc]; simp only [he], hf⟩
      · cases h

end Reports

section Claim

variable (stack maxDepth : Nat) (float : List Char → PyFloat)

-- the task is sent again exactly when there is no draft to correct
structure RetryFitsDraft (text original schemaName : PyStr) (faults : List FieldFault) : Prop where
  resent : buildRetryPrompt stack original text faults schemaName =
    some (taskPrompt original schemaName) ↔ NoJson maxDepth float text.chars
  corrected : ¬ NoJson maxDepth float text.chars → ∃ prompt,
    buildRetryPrompt stack original text faults schemaName = some prompt ∧
    correctionPrompt stack text faults schemaName = some prompt ∧
    text.strip.chars <:+: prompt.chars

-- no error is located at the reserved name alone, and `json.dumps` has stack for every input where
-- it stands in the prompt, two levels down
structure Correctable (error : ValidationError) : Prop where
  unreserved : ∀ err ∈ error, err.loc ≠ [.key unparseableField]
  sendable : 0 < stack ∧ ∀ err ∈ error, err.sendable stack = true

variable {stack maxDepth : Nat} {float : List Char → PyFloat}

theorem correctable_iff (error : ValidationError) : Correctable stack error ↔
    isUnparseable (faultsFrom error) = false ∧ resendable stack (faultsFrom error) = true := by
  have hun : isUnparseable (faultsFrom error) = false ↔
      ∀ err ∈ error, err.loc ≠ [.key unparseableField] := by
    rw [← Bool.not_eq_true, faultsFrom_unparseable, not_exists]
    simp only [not_and, ne_eq]
  constructor
  · intro ⟨hloc, hstack, hsend⟩
    refine ⟨hun.mpr hloc, ?_⟩
    rw [resendable, faultsFrom_sendable, List.all_eq_true.mpr hsend, decide_eq_true hstack,
      Bool.and_true, Bool.or_true]
  · intro ⟨hloc, hsend⟩
    rw [resendable, hloc, Bool.false_or, Bool.and_eq_true, decide_eq_true_eq, faultsFrom_sendable,
      List.all_eq_true] at hsend
    exact ⟨hun.mp hloc, hsend⟩

theorem retry_fits_draft_iff (schema : BaseModel α) (text original schemaName : PyStr)
    (faults : List FieldFault)
    (h : parseOrFaults maxDepth float schema text.chars = .ok (none, faults)) :
    RetryFitsDraft stack maxDepth float text original schemaName faults ↔
      NoJson maxDepth float text.chars ∨
        ∀ e, draftError maxDepth float schema text.chars = some e → Correctable stack e := by
  rcases reported_cases h with ⟨hno, rfl⟩ | ⟨hdraft, e, he, rfl⟩
  · refine iff_of_true ⟨?_, fun hdraft => absurd hno hdraft⟩ (.inl hno)
    exact iff_of_true (buildRetryPrompt_unparseable rfl) hno
  · constructor
    · intro hfits
      refine .inr fun e' he' => ?_
      obtain rfl := Option.some.inj (he.symm.trans he')
      have hun : isUnparseable (faultsFrom e) = false := by
        rw [← Bool.not_eq_true, ← task_resent_iff, hfits.resent]
        exact hdraft
      obtain ⟨prompt, hp, -⟩ := hfits.corrected hdraft
      have hsome := buildRetryPrompt_isSome stack original text (faultsFrom e) schemaName
      rw [hp, Option.isSome_some] at hsome
      exact (correctable_iff e).mpr ⟨hun, hsome.symm⟩
    · rintro (hno | hc)
      · exact absurd hno hdraft
      · obtain ⟨hun, hsend⟩ := (correctable_iff e).mp (hc e he)
        have hsome := buildRetryPrompt_isSome stack original text (faultsFrom e) schemaName
        rw [hsend] at hsome
        obtain ⟨prompt, hp⟩ := Option.isSome_iff_exists.mp hsome
        have hcorrection := (buildRetryPrompt_draft hun).symm.trans hp
        refine ⟨?_, fun _ => ⟨prompt, hp, hcorrection, correctionPrompt_carries hcorrection⟩⟩
        rw [task_resent_iff, hun]
        exact iff_of_false Bool.false_ne_true hdraft

end Claim

def forbidden : PyKey × PyValue → ErrorDetails
  | (.str name, v) => ⟨[.key name], .ofString "Extra inputs are not permitted", v⟩
  | (_, v) => ⟨[], .ofString "Keys should be strings", v⟩

-- a model without fields whose configuration forbids extra keys
def forbidding : BaseModel PyValue where
  validate
    | .dict [] => .ok (.dict [])
    | .dict items => .error (items.map forbidden)
    | data => .error [⟨[], .ofString "Input should be a valid dictionary", data⟩]

theorem toOption_eq_some {ε β : Type} {x : Except ε β} {b : β} (h : x.toOption = some b) :
    x = .ok b := by
  cases x with
  | error e => cases h
  | ok b' => exact congrArg Except.ok (Option.some.inj h)

def reservedKeyText : PyStr := .ofString "\x7b\"<response>\": 1\x7d"

def reservedKeyFault : FieldFault :=
  ⟨unparseableField, .ofString "Extra inputs are not permitted", .int 1⟩

theorem reserved_key_resends_task :
    ¬ ∀ (α : Type) (stack maxDepth : Nat) (float : List Char → PyFloat) (schema : BaseModel α)
      (text original schemaName : PyStr) (faults : List FieldFault),
      parseOrFaults maxDepth float schema text.chars = .ok (none, faults) →
      RetryFitsDraft stack maxDepth float text original schemaName faults := by
  intro h
  have hparse : parseOrFaults 1000 writtenFloat forbidding reservedKeyText.chars =
      .ok (none, [reservedKeyFault]) := toOption_eq_some (by decide +kernel)
  have hread : jsonCandidates 1000 writtenFloat reservedKeyText.chars =
      .ok [.dict [(.str unparseableField, .int 1)], .dict [(.str unparseableField, .int 1)],
        .dict [(.str unparseableField, .int 1)]] := toOption_eq_some (by decide +kernel)
  have hfits := h PyValue 900 1000 writtenFloat forbidding reservedKeyText (.ofString "Assess")
    (.ofString "Decision") _ hparse
  obtain ⟨shown, hno⟩ := hfits.resent.mp (buildRetryPrompt_unparseable rfl)
  rw [hread] at hno
  cases hno

def draftFault : FieldFault :=
  ⟨.ofString "b", .ofString "Field required", .dict [(.str (.ofString "a"), .int 1)]⟩

theorem retry_fits_draft_missing_field :
    RetryFitsDraft 900 1000 writtenFloat ⟨memberText⟩ (.ofString "Assess") (.ofString "Decision")
      [draftFault] := by
  have hparse : parseOrFaults 1000 writtenFloat (requiring ["a", "b"] : BaseModel PyValue)
      memberText = .ok (none, [draftFault]) := toOption_eq_some (by decide +kernel)
  have herror : draftError 1000 writtenFloat (requiring ["a", "b"] : BaseModel PyValue)
      memberText = some [⟨[.key (.ofString "b")], .ofString "Field required",
        .dict [(.str (.ofString "a"), .int 1)]⟩] := by decide +kernel
  refine (retry_fits_draft_iff (requiring ["a", "b"] : BaseModel PyValue) ⟨memberText⟩
    (.ofString "Assess") (.ofString "Decision") _ hparse).mpr (.inr fun e he => ?_)
  obtain rfl := Option.some.inj (herror.symm.trans he)
  refine ⟨fun err herr => ?_, by decide, fun err herr => ?_⟩
  · obtain rfl := List.mem_singleton.mp herr
    decide
  · obtain rfl := List.mem_singleton.mp herr
    decide +kernel

end DurableAgent
