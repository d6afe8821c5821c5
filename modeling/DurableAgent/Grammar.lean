import DurableAgent.Values

namespace DurableAgent

def PyChar.isJsonSpace : PyChar → Bool
  | .scalar c => c = ' ' || c = '\t' || c = '\n' || c = '\r'
  | .surrogate _ => false

theorem PyChar.isJsonSpace_inv {c : PyChar} (h : c.isJsonSpace = true) :
    ∃ d ∈ [' ', '\t', '\n', '\r'], c = .scalar d := by
  cases c with
  | surrogate n => cases h
  | scalar d => exact ⟨d, by simpa [PyChar.isJsonSpace, or_assoc] using h, rfl⟩

def PyChar.isDigit : PyChar → Bool
  | .scalar c => c.isDigit
  | .surrogate _ => false

def hexValue (c : Char) : Option Nat :=
  if c.isDigit then some (c.toNat - '0'.toNat)
  else if 'a' ≤ c ∧ c ≤ 'f' then some (c.toNat - 'a'.toNat + 10)
  else if 'A' ≤ c ∧ c ≤ 'F' then some (c.toNat - 'A'.toNat + 10)
  else none

def PyChar.isHex : PyChar → Bool
  | .scalar c => (hexValue c).isSome
  | .surrogate _ => false

-- a character a JSON string may hold unescaped
def PyChar.isPlain : PyChar → Bool
  | .scalar c => 0x20 ≤ c.toNat && c ≠ '"' && c ≠ '\\'
  | .surrogate _ => true

def escapes : List Char := ['"', '\\', '/', 'b', 'f', 'n', 'r', 't']

-- the grammar of JSON texts, as the standard has it
namespace Grammar

def Spaces (w : List PyChar) : Prop := ∀ c ∈ w, c.isJsonSpace = true

def Digits (ds : List PyChar) : Prop := ds ≠ [] ∧ ∀ c ∈ ds, c.isDigit = true

inductive Whole : List PyChar → Prop
  | zero : Whole [.scalar '0']
  | digits {c : Char} {ds : List PyChar} (hc : c.isDigit = true) (hz : c ≠ '0')
      (hds : ∀ d ∈ ds, d.isDigit = true) : Whole (.scalar c :: ds)

inductive Fraction : List PyChar → Prop
  | absent : Fraction []
  | digits {ds : List PyChar} (hds : Digits ds) : Fraction (.scalar '.' :: ds)

inductive Exponent : List PyChar → Prop
  | absent : Exponent []
  | digits {e : Char} {ds : List PyChar} (he : e = 'e' ∨ e = 'E') (hds : Digits ds) :
      Exponent (.scalar e :: ds)
  | signed {e s : Char} {ds : List PyChar} (he : e = 'e' ∨ e = 'E') (hs : s = '+' ∨ s = '-')
      (hds : Digits ds) : Exponent (.scalar e :: .scalar s :: ds)

inductive NumberText : List PyChar → Prop
  | unsigned {w f e : List PyChar} (hw : Whole w) (hf : Fraction f) (he : Exponent e) :
      NumberText (w ++ (f ++ e))
  | negative {w f e : List PyChar} (hw : Whole w) (hf : Fraction f) (he : Exponent e) :
      NumberText (.scalar '-' :: (w ++ (f ++ e)))

inductive StringBody : List PyChar → Prop
  | nil : StringBody []
  | plain {c : PyChar} {cs : List PyChar} (hc : c.isPlain = true) (h : StringBody cs) :
      StringBody (c :: cs)
  | escape {c : Char} {cs : List PyChar} (hc : c ∈ escapes) (h : StringBody cs) :
      StringBody (.scalar '\\' :: .scalar c :: cs)
  | unicode {a b c d : PyChar} {cs : List PyChar} (ha : a.isHex = true) (hb : b.isHex = true)
      (hc : c.isHex = true) (hd : d.isHex = true) (h : StringBody cs) :
      StringBody (.scalar '\\' :: .scalar 'u' :: a :: b :: c :: d :: cs)

inductive StringText : List PyChar → Prop
  | quoted {cs : List PyChar} (h : StringBody cs) :
      StringText (.scalar '"' :: (cs ++ [.scalar '"']))

def literals : List String := ["null", "true", "false"]

mutual

inductive ValueText : List PyChar → Prop
  | literal {s : String} (h : s ∈ literals) : ValueText (PyStr.ofString s).chars
  | number {x : List PyChar} (h : NumberText x) : ValueText x
  | string {x : List PyChar} (h : StringText x) : ValueText x
  | emptyArray {w : List PyChar} (h : Spaces w) : ValueText (.scalar '[' :: (w ++ [.scalar ']']))
  | array {xs : List PyChar} (h : ItemTexts xs) : ValueText (.scalar '[' :: (xs ++ [.scalar ']']))
  | object {x : List PyChar} (h : ObjectText x) : ValueText x

inductive ItemTexts : List PyChar → Prop
  | last {a x b : List PyChar} (ha : Spaces a) (hx : ValueText x) (hb : Spaces b) :
      ItemTexts (a ++ (x ++ b))
  | cons {a x b ys : List PyChar} (ha : Spaces a) (hx : ValueText x) (hb : Spaces b)
      (h : ItemTexts ys) : ItemTexts (a ++ (x ++ (b ++ .scalar ',' :: ys)))

inductive ObjectText : List PyChar → Prop
  | empty {w : List PyChar} (h : Spaces w) : ObjectText (.scalar '{' :: (w ++ [.scalar '}']))
  | members {xs : List PyChar} (h : MemberTexts xs) :
      ObjectText (.scalar '{' :: (xs ++ [.scalar '}']))

inductive MemberTexts : List PyChar → Prop
  | last {a k b c x d : List PyChar} (ha : Spaces a) (hk : StringText k) (hb : Spaces b)
      (hc : Spaces c) (hx : ValueText x) (hd : Spaces d) :
      MemberTexts (a ++ (k ++ (b ++ .scalar ':' :: (c ++ (x ++ d)))))
  | cons {a k b c x d ys : List PyChar} (ha : Spaces a) (hk : StringText k) (hb : Spaces b)
      (hc : Spaces c) (hx : ValueText x) (hd : Spaces d) (h : MemberTexts ys) :
      MemberTexts (a ++ (k ++ (b ++ .scalar ':' :: (c ++ (x ++ (d ++ .scalar ',' :: ys))))))

end

theorem ObjectText.bounds {o : List PyChar} (h : ObjectText o) :
    ∃ xs, o = .scalar '{' :: (xs ++ [.scalar '}']) := by
  cases h with
  | empty => exact ⟨_, rfl⟩
  | members => exact ⟨_, rfl⟩

end Grammar

end DurableAgent
