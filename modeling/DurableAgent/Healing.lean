import DurableAgent.Decoding
import DurableAgent.Prompts
import DurableAgent.Scanner

namespace DurableAgent

variable {α : Type}

-- the text split at every "```", read from the left
def splitFences : List PyChar → List (List PyChar)
  | .scalar '\x60' :: .scalar '\x60' :: .scalar '\x60' :: cs => [] :: splitFences cs
  | c :: cs =>
      match splitFences cs with
      | piece :: pieces => (c :: piece) :: pieces
      | [] => [[c]]
  | [] => [[]]

-- every second piece, if another follows it
def betweenFences : List (List PyChar) → List (List PyChar)
  | _ :: body :: next :: pieces => body :: betweenFences (next :: pieces)
  | _ => []

def dropTag : List PyChar → List PyChar
  | .scalar 'j' :: .scalar 's' :: .scalar 'o' :: .scalar 'n' :: cs => cs
  | cs => cs

-- what `_FENCE.finditer` finds, stripped
def fences (text : List PyChar) : List (List PyChar) :=
  (betweenFences (splitFences text)).map fun body => stripChars (dropTag body)

def find (text : List PyChar) (c : PyChar) : Option Nat := text.findIdx? fun d => d = c

def rfind (text : List PyChar) (c : PyChar) : Option Nat :=
  (text.reverse.findIdx? fun d => d = c).map fun i => text.length - 1 - i

def spans (text : List PyChar) : List (List PyChar) :=
  match find text (.scalar '{'), rfind text (.scalar '}') with
  | some start, some last =>
      if start < last then slice text start (last + 1) :: balancedObjects text else []
  | _, _ => []

-- the list `seen` of `json_candidates`
def candidateTexts (text : List PyChar) : List (List PyChar) :=
  fences text ++ (spans text ++ [stripChars text])

inductive ReadError where
  | unparseable (text : List PyChar)
  | escaped (error : DecodeError)

-- a schema whose validation raises only `ValidationError`
structure BaseModel (α : Type) where
  validate : PyValue → Except ValidationError α

-- a schema that accepts JSON objects only
structure Schema (α : Type) extends BaseModel α where
  objectsOnly : ∀ v a, validate v = .ok a → v.isDict = true

instance : Coe (Schema α) (BaseModel α) := ⟨Schema.toBaseModel⟩

section Parsing

variable (maxDepth : Nat) (float : List Char → PyFloat)

def decodeAll : List (List PyChar) → Except DecodeError (List PyValue)
  | [] => .ok []
  | text :: texts =>
      match decode maxDepth float text with
      | .ok v =>
          match decodeAll texts with
          | .ok vs => .ok (v :: vs)
          | .error e => .error e
      | .error .jsonDecodeError => decodeAll texts
      | .error e => .error e

def jsonCandidates (text : List PyChar) : Except ReadError (List PyValue) :=
  match decodeAll maxDepth float (candidateTexts text) with
  | .error e => .error (.escaped e)
  | .ok [] => .error (.unparseable (text.take 200))
  | .ok values => .ok values

def validateLast (schema : BaseModel α) : List PyValue → Option ValidationError →
    Option (Option α × List FieldFault)
  | [], none => none
  | [], some lastError => some (none, faultsFrom lastError)
  | data :: values, _ =>
      match schema.validate data with
      | .ok value => some (some value, [])
      | .error exc => validateLast schema values (some exc)

def unparseableFault (text : List PyChar) : FieldFault :=
  ⟨unparseableField, .ofString "response was not valid JSON", .str ⟨text.take 120⟩⟩

def parseOrFaults (schema : BaseModel α) (text : List PyChar) :
    Except ReadError (Option α × List FieldFault) :=
  match jsonCandidates maxDepth float text with
  | .error (.unparseable _) => .ok (none, [unparseableFault text])
  | .error (.escaped e) => .error (.escaped e)
  | .ok values =>
      match validateLast schema values.reverse none with
      | some result => .ok result
      | none => .error (.unparseable (text.take 200))

end Parsing

section Outcomes

variable (maxDepth : Nat) (float : List Char → PyFloat)

-- decoding the text raises past `except json.JSONDecodeError`
def escaping (text : List PyChar) : Bool :=
  match decode maxDepth float text with
  | .ok _ => false
  | .error e => e.escapes

def BaseModel.accepts (schema : BaseModel α) (text : List PyChar) : Option α :=
  match decode maxDepth float text with
  | .ok v => (schema.validate v).toOption
  | .error _ => none

def BaseModel.faults (schema : BaseModel α) (data : PyValue) : Option (List FieldFault) :=
  match schema.validate data with
  | .ok _ => none
  | .error exc => some (faultsFrom exc)

def BaseModel.faultsOf (schema : BaseModel α) (text : List PyChar) : Option (List FieldFault) :=
  match decode maxDepth float text with
  | .ok v => schema.faults v
  | .error _ => none

variable {maxDepth : Nat} {float : List Char → PyFloat} {schema : BaseModel α}
  {texts : List (List PyChar)}

theorem decodeAll_ok (h : ∀ c ∈ texts, escaping maxDepth float c = false) :
    decodeAll maxDepth float texts =
      .ok (texts.filterMap fun c => (decode maxDepth float c).toOption) := by
  induction texts with
  | nil => rfl
  | cons c texts ih =>
    have hc := h c List.mem_cons_self
    have ih := ih fun d hd => h d (List.mem_cons_of_mem c hd)
    unfold escaping at hc
    rw [decodeAll, List.filterMap_cons, ih]
    cases hd : decode maxDepth float c with
    | ok v => rfl
    | error e =>
      rw [hd] at hc
      cases e with
      | jsonDecodeError => rfl
      | valueError => cases hc
      | recursionError => cases hc

theorem decodeAll_error {c : List PyChar} (hc : c ∈ texts) (he : escaping maxDepth float c = true) :
    ∃ e, decodeAll maxDepth float texts = .error e := by
  induction texts with
  | nil => cases hc
  | cons d texts ih =>
    rw [decodeAll]
    rcases List.mem_cons.mp hc with rfl | hc
    · unfold escaping at he
      cases hd : decode maxDepth float c with
      | ok v =>
        rw [hd] at he
        cases he
      | error e =>
        rw [hd] at he
        cases e with
        | jsonDecodeError => cases he
        | valueError => exact ⟨_, rfl⟩
        | recursionError => exact ⟨_, rfl⟩
    · obtain ⟨e, ih⟩ := ih hc
      rw [ih]
      cases decode maxDepth float d with
      | ok v => exact ⟨_, rfl⟩
      | error e' => cases e' <;> exact ⟨_, rfl⟩

theorem validateLast_accepted {values : List PyValue} {a : α}
    (h : (values.findSome? fun v => (schema.validate v).toOption) = some a)
    (last : Option ValidationError) : validateLast schema values last = some (some a, []) := by
  induction values generalizing last with
  | nil => cases h
  | cons v values ih =>
    rw [List.findSome?_cons] at h
    rw [validateLast]
    cases hv : schema.validate v with
    | ok b =>
      rw [hv] at h
      cases h
      rfl
    | error e =>
      rw [hv] at h
      exact ih h _

theorem validateLast_rejected {values : List PyValue}
    (h : ∀ v ∈ values, ∃ e, schema.validate v = .error e) {v : PyValue} {e : ValidationError}
    (hv : values.getLast? = some v) (he : schema.validate v = .error e)
    (last : Option ValidationError) :
    validateLast schema values last = some (none, faultsFrom e) := by
  induction values generalizing last with
  | nil => cases hv
  | cons w values ih =>
    obtain ⟨e', hw⟩ := h w List.mem_cons_self
    rw [validateLast, hw]
    cases values with
    | nil =>
      rw [List.getLast?_singleton, Option.some.injEq] at hv
      subst hv
      rw [hw, Except.error.injEq] at he
      rw [← he]
      rfl
    | cons u values =>
      rw [List.getLast?_cons_cons] at hv
      exact ih (fun x hx => h x (List.mem_cons_of_mem w hx)) hv _

theorem findSome?_decoded {β : Type} (f : PyValue → Option β) (texts : List (List PyChar)) :
    (texts.filterMap fun c => (decode maxDepth float c).toOption).findSome? f =
      texts.findSome? fun c => (decode maxDepth float c).toOption.bind f := by
  rw [← List.head?_filterMap, List.filterMap_filterMap, List.head?_filterMap]

theorem accepts_eq (schema : BaseModel α) (c : List PyChar) : schema.accepts maxDepth float c =
    (decode maxDepth float c).toOption.bind fun v => (schema.validate v).toOption := by
  unfold BaseModel.accepts
  cases decode maxDepth float c <;> rfl

variable {text : List PyChar}

theorem parse_escaped {c : List PyChar} (hc : c ∈ candidateTexts text)
    (he : escaping maxDepth float c = true) :
    ∃ e, parseOrFaults maxDepth float schema text = .error (.escaped e) := by
  obtain ⟨e, hd⟩ := decodeAll_error hc he
  exact ⟨e, by rw [parseOrFaults, jsonCandidates, hd]⟩

theorem parse_values (h : ∀ c ∈ candidateTexts text, escaping maxDepth float c = false)
    {v : PyValue} {values : List PyValue}
    (hv : ((candidateTexts text).filterMap fun c => (decode maxDepth float c).toOption) =
      v :: values) {result : Option α × List FieldFault}
    (hr : validateLast schema (v :: values).reverse none = some result) :
    parseOrFaults maxDepth float schema text = .ok result := by
  have hcand : jsonCandidates maxDepth float text = .ok (v :: values) := by
    rw [jsonCandidates, decodeAll_ok h, hv]
  rw [parseOrFaults, hcand]
  simp only [hr]

theorem parse_accepted (h : ∀ c ∈ candidateTexts text, escaping maxDepth float c = false) {a : α}
    (ha : (candidateTexts text).reverse.findSome? (schema.accepts maxDepth float) = some a) :
    parseOrFaults maxDepth float schema text = .ok (some a, []) := by
  have hfind : ((candidateTexts text).filterMap fun c =>
      (decode maxDepth float c).toOption).reverse.findSome?
        (fun v => (schema.validate v).toOption) = some a := by
    rw [← List.filterMap_reverse, findSome?_decoded, ← ha]
    exact congrArg (fun f => List.findSome? f _) (funext fun c => (accepts_eq schema c).symm)
  cases hv : (candidateTexts text).filterMap fun c => (decode maxDepth float c).toOption with
  | nil =>
    rw [hv] at hfind
    cases hfind
  | cons v values =>
    rw [hv] at hfind
    exact parse_values h hv (validateLast_accepted hfind none)

theorem faultsOf_eq (schema : BaseModel α) (c : List PyChar) : schema.faultsOf maxDepth float c =
    (decode maxDepth float c).toOption.bind schema.faults := by
  unfold BaseModel.faultsOf
  cases decode maxDepth float c <;> rfl

-- the values are tried from the last one, so the error kept is the first one's
theorem parse_rejected (h : ∀ c ∈ candidateTexts text, escaping maxDepth float c = false)
    (hr : ∀ c ∈ candidateTexts text, schema.accepts maxDepth float c = none)
    {faults : List FieldFault}
    (hf : (candidateTexts text).findSome? (schema.faultsOf maxDepth float) = some faults) :
    parseOrFaults maxDepth float schema text = .ok (none, faults) := by
  have hfirst : ((candidateTexts text).filterMap fun c =>
      (decode maxDepth float c).toOption).findSome? schema.faults = some faults := by
    rw [findSome?_decoded, ← hf]
    exact congrArg (fun f => List.findSome? f _) (funext fun c => (faultsOf_eq schema c).symm)
  have hall : ∀ v ∈ (candidateTexts text).filterMap fun c => (decode maxDepth float c).toOption,
      ∃ e, schema.validate v = .error e := by
    intro v hv
    obtain ⟨c, hc, hd⟩ := List.mem_filterMap.mp hv
    have hnone := hr c hc
    rw [accepts_eq, hd, Option.bind_some] at hnone
    cases hval : schema.validate v with
    | ok a =>
      rw [hval] at hnone
      cases hnone
    | error e => exact ⟨e, rfl⟩
  cases hv : (candidateTexts text).filterMap fun c => (decode maxDepth float c).toOption with
  | nil =>
    rw [hv] at hfirst
    cases hfirst
  | cons v values =>
    rw [hv] at hfirst hall
    obtain ⟨e, he⟩ := hall v List.mem_cons_self
    rw [List.findSome?_cons, BaseModel.faults, he, Option.some.injEq] at hfirst
    rw [← hfirst]
    apply parse_values h hv
    apply validateLast_rejected _ _ he
    · exact fun w hw => hall w (List.mem_reverse.mp hw)
    · rw [List.getLast?_reverse, List.head?_cons]

end Outcomes

end DurableAgent
