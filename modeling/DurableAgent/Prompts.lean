import DurableAgent.Values
import Mathlib.Data.List.DropRight

namespace DurableAgent

def spaces : List Nat :=
  [0x09, 0x0A, 0x0B, 0x0C, 0x0D, 0x1C, 0x1D, 0x1E, 0x1F, 0x20, 0x85, 0xA0, 0x1680, 0x2000, 0x2001,
    0x2002, 0x2003, 0x2004, 0x2005, 0x2006, 0x2007, 0x2008, 0x2009, 0x200A, 0x2028, 0x2029, 0x202F,
    0x205F, 0x3000]

def PyChar.isSpace : PyChar → Bool
  | .scalar c => spaces.contains c.toNat
  | .surrogate _ => false

def stripChars (cs : List PyChar) : List PyChar :=
  (cs.dropWhile PyChar.isSpace).rdropWhile PyChar.isSpace

namespace PyStr

def strip (s : PyStr) : PyStr := ⟨stripChars s.chars⟩

def concat (parts : List PyStr) : PyStr := ⟨(parts.map chars).flatten⟩

def join (sep : PyStr) (parts : List PyStr) : PyStr := concat (parts.intersperse sep)

end PyStr

def escapeChar : PyChar → List PyChar
  | .surrogate n => [.surrogate n]
  | .scalar c =>
      if c = '"' then (PyStr.ofString "\\\"").chars
      else if c = '\\' then (PyStr.ofString "\\\\").chars
      else if c.toNat = 0x0A then (PyStr.ofString "\\n").chars
      else if c.toNat = 0x0D then (PyStr.ofString "\\r").chars
      else if c.toNat = 0x09 then (PyStr.ofString "\\t").chars
      else if c.toNat = 0x0C then (PyStr.ofString "\\f").chars
      else if c.toNat = 0x08 then (PyStr.ofString "\\b").chars
      else if c.toNat < 0x10 then
        (PyStr.ofString "\\u000").chars ++ [.scalar (Nat.digitChar c.toNat)]
      else if c.toNat < 0x20 then
        (PyStr.ofString "\\u001").chars ++ [.scalar (Nat.digitChar (c.toNat - 0x10))]
      else [.scalar c]

def quoted (s : PyStr) : PyStr :=
  .concat [.ofString "\"", ⟨(s.chars.map escapeChar).flatten⟩, .ofString "\""]

mutual

-- the text `json.dumps` writes with `ensure_ascii=False`
def Json.text : Json → PyStr
  | .null => .ofString "null"
  | .bool b => .ofString (if b then "true" else "false")
  | .int i => .ofString (toString i)
  | .float f => .ofString f.text
  | .str s => quoted s
  | .arr items => .concat [.ofString "[", .join (.ofString ", ") (Json.texts items), .ofString "]"]
  | .obj items =>
      .concat [.ofString "\x7b", .join (.ofString ", ") (Json.entryTexts items), .ofString "\x7d"]

def Json.texts : List Json → List PyStr
  | [] => []
  | j :: js => Json.text j :: Json.texts js

def Json.entryTexts : List (PyStr × Json) → List PyStr
  | [] => []
  | (s, j) :: js => .concat [quoted s, .ofString ": ", Json.text j] :: Json.entryTexts js

end

inductive LocPart where
  | key (name : PyStr)
  | index (i : Int)
deriving DecidableEq

def LocPart.str : LocPart → PyStr
  | .key name => name
  | .index i => .ofString (toString i)

structure ErrorDetails where
  loc : List LocPart
  msg : PyStr
  input : PyValue
deriving DecidableEq

-- the list `ValidationError.errors()` gives
abbrev ValidationError := List ErrorDetails

structure FieldFault where
  field : PyStr
  problem : PyStr
  received : PyValue
deriving DecidableEq

def unparseableField : PyStr := .ofString "<response>"

def FieldFault.asDict (f : FieldFault) : PyValue :=
  .dict [(.str (.ofString "field"), .str f.field), (.str (.ofString "problem"), .str f.problem),
    (.str (.ofString "received"), f.received)]

def faultsFrom (error : ValidationError) : List FieldFault :=
  error.map fun err =>
    let path := PyStr.join (.ofString ".") (err.loc.map LocPart.str)
    ⟨if path.chars = [] then .ofString "<root>" else path, err.msg, err.input⟩

def isUnparseable (faults : List FieldFault) : Bool := faults.any fun f => f.field = unparseableField

-- `none` when `json.dumps` refuses a value some fault received, or has no stack for the list
def correctionPrompt (stack : Nat) (previous : PyStr) (faults : List FieldFault)
    (schemaName : PyStr) : Option PyStr :=
  (dumps stack (.list (faults.map FieldFault.asDict))).map fun payload =>
    .concat [.ofString "CORRECTION for ", schemaName, .ofString ".\n",
      .ofString "Your previous response was:\n", previous.strip, .ofString "\n\n",
      .ofString "It failed validation on these fields:\n", payload.text, .ofString "\n\n",
      .ofString "Fix ONLY the invalid fields, keep every valid field exactly as it was, ",
      .ofString "and return the complete corrected JSON object."]

def buildRetryPrompt (stack : Nat) (original previous : PyStr) (faults : List FieldFault)
    (schemaName : PyStr) : Option PyStr :=
  if isUnparseable faults then
    some (.concat [original, .ofString "\n\n",
      .ofString "ERROR: your previous response contained no JSON. Return only a JSON ",
      .ofString "object matching ", schemaName, .ofString ", with no surrounding text."])
  else correctionPrompt stack previous faults schemaName

-- what a fault received is written inside the dict of the fault and the list of them all
def FieldFault.sendable (stack : Nat) (f : FieldFault) : Bool :=
  (toJson f.received).any fun j => j.depth + 2 ≤ stack

def resendable (stack : Nat) (faults : List FieldFault) : Bool :=
  isUnparseable faults || (decide (0 < stack) && faults.all (FieldFault.sendable stack))

-- the prompt holds the list of these faults, each with its field, problem and received value
def PyStr.Quotes (prompt : PyStr) (faults : List FieldFault) : Prop :=
  ∃ before payload after, toJson (.list (faults.map FieldFault.asDict)) = some payload ∧
    prompt = .concat (before ++ payload.text :: after)

theorem correctionPrompt_quotes {stack : Nat} {previous : PyStr} {faults : List FieldFault}
    {schemaName prompt : PyStr}
    (h : correctionPrompt stack previous faults schemaName = some prompt) :
    prompt.Quotes faults := by
  obtain ⟨payload, hp, rfl⟩ := Option.map_eq_some_iff.mp h
  exact ⟨[_, _, _, _, _, _, _], payload, [_, _, _], (dumps_eq_some.mp hp).1, rfl⟩

theorem toJson_asDict (f : FieldFault) : toJson f.asDict = (toJson f.received).map fun j =>
    .obj [(.ofString "field", .str f.field), (.ofString "problem", .str f.problem),
      (.ofString "received", j)] := by
  cases h : toJson f.received <;> simp [FieldFault.asDict, toJson, toJsonPairs, jsonKey, h]

theorem toJsonItems_asDict (stack : Nat) (faults : List FieldFault) :
    ((toJsonItems (faults.map FieldFault.asDict)).any fun js => Json.itemsDepth js + 1 ≤ stack) =
      (decide (0 < stack) && faults.all (FieldFault.sendable stack)) := by
  induction faults with
  | nil =>
    rw [List.map_nil, toJsonItems, Option.any_some, Json.itemsDepth, List.all_nil, Bool.and_true]
    exact decide_eq_decide.mpr Nat.succ_le_iff
  | cons f faults ih =>
    rw [List.map_cons, List.all_cons, toJsonItems, toJson_asDict, FieldFault.sendable]
    cases hj : toJson f.received with
    | none => simp
    | some j =>
      cases hjs : toJsonItems (faults.map FieldFault.asDict) with
      | none =>
        rw [hjs, Option.any_none] at ih
        rw [Bool.and_left_comm, ← ih]
        simp
      | some js =>
        rw [hjs, Option.any_some] at ih
        rw [Bool.and_left_comm, ← ih]
        have hmax : max (j.depth + 1) (Json.itemsDepth js) + 1 ≤ stack ↔
            j.depth + 2 ≤ stack ∧ Json.itemsDepth js + 1 ≤ stack := by omega
        simp only [Option.map_some, Option.any_some, Json.itemsDepth, Json.depth, Json.membersDepth,
          Nat.zero_max, Nat.max_zero]
        rw [decide_eq_decide.mpr hmax, Bool.decide_and]

theorem buildRetryPrompt_isSome (stack : Nat) (original previous : PyStr) (faults : List FieldFault)
    (schemaName : PyStr) : (buildRetryPrompt stack original previous faults schemaName).isSome =
      resendable stack faults := by
  unfold buildRetryPrompt resendable
  cases isUnparseable faults with
  | true => simp
  | false =>
    rw [if_neg Bool.false_ne_true, Bool.false_or, ← toJsonItems_asDict, correctionPrompt,
      Option.isSome_map, dumps, toJson, Option.isSome_filter]
    cases toJsonItems (faults.map FieldFault.asDict) <;> rfl

end DurableAgent
