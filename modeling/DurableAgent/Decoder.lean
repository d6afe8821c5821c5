import DurableAgent.Grammar

namespace DurableAgent

inductive DecodeError where
  | jsonDecodeError
  | valueError
  | recursionError
deriving DecidableEq, Repr

-- an exception `except json.JSONDecodeError` does not catch
def DecodeError.escapes : DecodeError → Bool
  | .jsonDecodeError => false
  | .valueError => true
  | .recursionError => true

namespace Decoder

-- an array or object that is open, with what it holds so far
inductive Container where
  | array (items : List PyValue)
  | object (items : List (PyKey × PyValue)) (key : PyStr)

-- how far a number has come: what may follow and whether it may end here
inductive Part where
  | sign
  | zero
  | digits
  | dot
  | fraction
  | mark
  | markSign
  | power
deriving DecidableEq

inductive Escape where
  | none
  | backslash
  | hex (read : List Nat)

inductive Mode where
  | value
  | firstValue
  | firstKey
  | key
  | string (key : Bool) (read : List PyChar) (high : Bool) (escape : Escape)
  | colon
  | number (text : List Char) (part : Part)
  | literal (rest : List Char) (value : PyValue)
  | done (value : PyValue)
  | failed (error : DecodeError)

structure State where
  mode : Mode
  stack : List Container

def State.fail (s : State) (e : DecodeError) : State := { s with mode := .failed e }

def closeObject (items : List (PyKey × PyValue)) : PyValue := .dict (Dict.ofPairs items)

def joinSurrogates (high low : Nat) : PyChar :=
  .scalar (Char.ofNat (0x10000 + high * 0x400 + (low - 0x400)))

def codePoint (n : Nat) : PyChar :=
  if h : 0xD800 ≤ n ∧ n < 0xE000 then .surrogate ⟨n - 0xD800, by omega⟩ else .scalar (Char.ofNat n)

-- a `\u` escape for a low surrogate joins the escape for a high one right before it
def pushEscape (read : List PyChar) (high : Bool) (n : Nat) : List PyChar × Bool :=
  match codePoint n with
  | .scalar c => (read ++ [.scalar c], false)
  | .surrogate b =>
      match read.getLast? with
      | some (.surrogate a) =>
          if high && 0x400 ≤ b.val then (read.dropLast ++ [joinSurrogates a.val b.val], false)
          else (read ++ [.surrogate b], b.val < 0x400)
      | _ => (read ++ [.surrogate b], b.val < 0x400)

def unescape : Char → Option Char
  | 'b' => some '\x08'
  | 'f' => some '\x0c'
  | 'n' => some '\n'
  | 'r' => some '\r'
  | 't' => some '\t'
  | c => if c = '"' ∨ c = '\\' ∨ c = '/' then some c else none

def maxStrDigits : Nat := 4300

def natOf (ds : List Char) : Nat := Nat.ofDigitChars 10 ds 0

def readInt : List Char → Except DecodeError PyValue
  | '-' :: ds =>
      if ds.length ≤ maxStrDigits then .ok (.int (-natOf ds)) else .error .valueError
  | ds => if ds.length ≤ maxStrDigits then .ok (.int (natOf ds)) else .error .valueError

def Part.next : Part → Char → Option Part
  | .sign, c => if c = '0' then some .zero else if c.isDigit then some .digits else none
  | .zero, c =>
      if c = '.' then some .dot else if c = 'e' ∨ c = 'E' then some .mark else none
  | .digits, c =>
      if c.isDigit then some .digits
      else if c = '.' then some .dot else if c = 'e' ∨ c = 'E' then some .mark else none
  | .dot, c => if c.isDigit then some .fraction else none
  | .fraction, c =>
      if c.isDigit then some .fraction else if c = 'e' ∨ c = 'E' then some .mark else none
  | .mark, c =>
      if c.isDigit then some .power else if c = '+' ∨ c = '-' then some .markSign else none
  | .markSign, c => if c.isDigit then some .power else none
  | .power, c => if c.isDigit then some .power else none

def nextPart (part : Part) : PyChar → Option (Char × Part)
  | .scalar c => (part.next c).map fun part' => (c, part')
  | .surrogate _ => none

section Reading

variable (maxDepth : Nat) (float : List Char → PyFloat)

-- one cut short is converted as far as it goes before it is refused
def cutShort (text : List Char) : Except DecodeError PyValue :=
  if text.contains '.' then .error .jsonDecodeError
  else (readInt (text.takeWhile fun c => c.isDigit || c = '-')).bind fun _ =>
    .error .jsonDecodeError

-- what a number is that goes no further
def endNumber (text : List Char) : Part → Except DecodeError PyValue
  | .sign => .error .jsonDecodeError
  | .zero => readInt text
  | .digits => readInt text
  | .dot => cutShort text.dropLast
  | .fraction => .ok (.float (float text))
  | .mark => cutShort text
  | .markSign => cutShort text
  | .power => .ok (.float (float text))

def settle (s : State) : State :=
  match s.mode with
  | .number text part =>
      match endNumber float text part with
      | .ok v => { s with mode := .done v }
      | .error e => s.fail e
  | _ => s

def openContainer (s : State) (mode : Mode) (c : Container) : State :=
  if s.stack.length < maxDepth then ⟨mode, c :: s.stack⟩ else s.fail .recursionError

def startValue (s : State) : PyChar → State
  | .scalar '"' => { s with mode := .string false [] false .none }
  | .scalar '{' => openContainer maxDepth s .firstKey (.object [] ⟨[]⟩)
  | .scalar '[' => openContainer maxDepth s .firstValue (.array [])
  | .scalar '-' => { s with mode := .number ['-'] .sign }
  | .scalar 'n' => { s with mode := .literal "ull".toList .none }
  | .scalar 't' => { s with mode := .literal "rue".toList (.bool true) }
  | .scalar 'f' => { s with mode := .literal "alse".toList (.bool false) }
  | .scalar 'N' => { s with mode := .literal "aN".toList (.float .nan) }
  | .scalar 'I' => { s with mode := .literal "nfinity".toList (.float .infinity) }
  | c =>
      match nextPart .sign c with
      | some (d, part) => { s with mode := .number [d] part }
      | none => s.fail .jsonDecodeError

def afterValue (s : State) (v : PyValue) (c : PyChar) : State :=
  if c.isJsonSpace then s
  else
    match s.stack, c with
    | .array items :: stack, .scalar ',' => ⟨.value, .array (items ++ [v]) :: stack⟩
    | .array items :: stack, .scalar ']' => ⟨.done (.list (items ++ [v])), stack⟩
    | .object items key :: stack, .scalar ',' =>
        ⟨.key, .object (items ++ [(.str key, v)]) ⟨[]⟩ :: stack⟩
    | .object items key :: stack, .scalar '}' =>
        ⟨.done (closeObject (items ++ [(.str key, v)])), stack⟩
    | _, _ => s.fail .jsonDecodeError

def endString (s : State) (read : List PyChar) : Bool → State
  | false => { s with mode := .done (.str ⟨read⟩) }
  | true =>
      match s.stack with
      | .object items _ :: stack => ⟨.colon, .object items ⟨read⟩ :: stack⟩
      | _ => s.fail .jsonDecodeError

def inString (s : State) (key : Bool) (read : List PyChar) (high : Bool) : Escape → PyChar → State
  | .none, c =>
      if c = .scalar '"' then endString s read key
      else if c = .scalar '\\' then { s with mode := .string key read high .backslash }
      else if c.isPlain then { s with mode := .string key (read ++ [c]) false .none }
      else s.fail .jsonDecodeError
  | .backslash, .scalar c =>
      if c = 'u' then { s with mode := .string key read high (.hex []) }
      else
        match unescape c with
        | some c' => { s with mode := .string key (read ++ [.scalar c']) false .none }
        | none => s.fail .jsonDecodeError
  | .hex ds, .scalar c =>
      match hexValue c with
      | none => s.fail .jsonDecodeError
      | some d =>
          if ds.length < 3 then { s with mode := .string key read high (.hex (ds ++ [d])) }
          else
            let r := pushEscape read high ((ds ++ [d]).foldl (fun n d => 16 * n + d) 0)
            { s with mode := .string key r.1 r.2 .none }
  | _, .surrogate _ => s.fail .jsonDecodeError

def inLiteral (s : State) (v : PyValue) (c : PyChar) : List Char → State
  | [] => s.fail .jsonDecodeError
  | d :: rest =>
      if c = .scalar d then
        { s with mode := if rest = [] then .done v else .literal rest v }
      else s.fail .jsonDecodeError

def inNumber (s : State) (text : List Char) (part : Part) (c : PyChar) : State :=
  match nextPart part c with
  | some (d, part') => { s with mode := .number (text ++ [d]) part' }
  | none =>
      if part = .sign ∧ c = .scalar 'I' then
        { s with mode := .literal "nfinity".toList (.float .negInfinity) }
      else
        match (settle float s).mode with
        | .done v => afterValue (settle float s) v c
        | _ => settle float s

def closeEmpty (s : State) : State :=
  match s.mode, s.stack with
  | .firstValue, .array items :: stack => ⟨.done (.list items), stack⟩
  | .firstKey, .object items _ :: stack => ⟨.done (closeObject items), stack⟩
  | _, _ => s.fail .jsonDecodeError

-- the next character of the text
def step (s : State) (c : PyChar) : State :=
  match s.mode with
  | .failed _ => s
  | .done v => afterValue s v c
  | .string key read high escape => inString s key read high escape c
  | .number text part => inNumber float s text part c
  | .literal rest v => inLiteral s v c rest
  | mode =>
      if c.isJsonSpace then s
      else
        match mode, c with
        | .value, c => startValue maxDepth s c
        | .firstValue, .scalar ']' => closeEmpty s
        | .firstValue, c => startValue maxDepth s c
        | .firstKey, .scalar '}' => closeEmpty s
        | .firstKey, .scalar '"' => { s with mode := .string true [] false .none }
        | .key, .scalar '"' => { s with mode := .string true [] false .none }
        | .colon, .scalar ':' => { s with mode := .value }
        | _, _ => s.fail .jsonDecodeError

def run (s : State) (text : List PyChar) : State := text.foldl (step maxDepth float) s

def start : State := ⟨.value, []⟩

def finish (s : State) : Except DecodeError PyValue :=
  match (settle float s).mode, s.stack with
  | .done v, [] => .ok v
  | .failed e, _ => .error e
  | _, _ => .error .jsonDecodeError

end Reading

end Decoder

-- `json.loads`: `maxDepth` is the nesting the interpreter's stack has room for, `float` what
-- `float()` makes of the text of a number
def decode (maxDepth : Nat) (float : List Char → PyFloat) (text : List PyChar) :
    Except DecodeError PyValue :=
  Decoder.finish float (Decoder.run maxDepth float Decoder.start text)

end DurableAgent
