import DurableAgent.Grammar

namespace DurableAgent

open Grammar

def slice (text : List PyChar) (i j : Nat) : List PyChar := (text.take j).drop i

-- the variables of `_balanced_objects`; `start` is `none` for -1
structure Scan where
  depth : Nat
  start : Option Nat
  inString : Bool
  escaped : Bool
  out : List (List PyChar)

namespace Scan

def initial : Scan := ⟨0, none, false, false, []⟩

def step (text : List PyChar) (s : Scan) (i : Nat) (ch : PyChar) : Scan :=
  if s.inString then
    if s.escaped then { s with escaped := false }
    else if ch = .scalar '\\' then { s with escaped := true }
    else if ch = .scalar '"' then { s with inString := false }
    else s
  else if ch = .scalar '"' then { s with inString := true }
  else if ch = .scalar '{' then
    { s with start := if s.depth = 0 then some i else s.start, depth := s.depth + 1 }
  else if ch = .scalar '}' ∧ s.depth ≠ 0 then
    match s.depth - 1, s.start with
    | 0, some start => { s with depth := 0, out := s.out ++ [slice text start (i + 1)] }
    | depth, _ => { s with depth := depth }
  else s

def run (text : List PyChar) : Nat → Scan → List PyChar → Scan
  | _, s, [] => s
  | i, s, c :: cs => run text (i + 1) (step text s i c) cs

end Scan

def balancedObjects (text : List PyChar) : List (List PyChar) :=
  (Scan.run text 0 Scan.initial text).out

-- the scanner's `in_string` and `escaped` outside of every object
def quoteStep (q : Bool × Bool) (ch : PyChar) : Bool × Bool :=
  if q.1 then
    if q.2 then (true, false)
    else if ch = .scalar '\\' then (true, true)
    else if ch = .scalar '"' then (false, false)
    else q
  else if ch = .scalar '"' then (true, q.2)
  else q

def closesQuotes (p : List PyChar) : Bool := !(p.foldl quoteStep (false, false)).1

-- prose, then each object with the prose after it
def response : List PyChar → List (List PyChar × List PyChar) → List PyChar
  | p, [] => p
  | p, (o, p') :: parts => p ++ (o ++ response p' parts)

-- the prose before each object
def leads : List PyChar → List (List PyChar × List PyChar) → List (List PyChar)
  | _, [] => []
  | p, (_, p') :: parts => p :: leads p' parts

namespace Scan

variable {text : List PyChar} {s : Scan} {i : Nat}

-- inside an object and outside its strings
structure Inside (s : Scan) : Prop where
  inString : s.inString = false
  escaped : s.escaped = false
  depth : s.depth ≠ 0

def Neutral (xs : List PyChar) : Prop :=
  ∀ (text : List PyChar) (i : Nat) (s : Scan), s.Inside → run text i s xs = s

def inert (c : PyChar) : Bool := c ≠ .scalar '"' && c ≠ .scalar '{' && c ≠ .scalar '}'

theorem run_append (i : Nat) (s : Scan) (xs ys : List PyChar) :
    run text i s (xs ++ ys) = run text (i + xs.length) (run text i s xs) ys := by
  induction xs generalizing i s with
  | nil => rfl
  | cons c xs ih =>
    rw [List.cons_append, run, ih, run, List.length_cons, Nat.add_right_comm, Nat.add_assoc]

section Inner

theorem Neutral.append {xs ys : List PyChar} (hx : Neutral xs) (hy : Neutral ys) :
    Neutral (xs ++ ys) := by
  intro text i s hs
  rw [run_append, hx text i s hs, hy text _ s hs]

theorem neutral_nil : Neutral [] := fun _ _ _ _ => rfl

theorem neutral_cons {c : PyChar} {xs : List PyChar} (hc : inert c = true) (h : Neutral xs) :
    Neutral (c :: xs) := by
  intro text i s hs
  simp only [inert, Bool.and_eq_true, decide_eq_true_eq] at hc
  have hstep : step text s i c = s := by
    simp only [step, hs.inString, Bool.false_eq_true, if_false, hc.1.1, hc.1.2, hc.2, false_and]
  rw [run, hstep, h text _ s hs]

theorem neutral_of_inert {xs : List PyChar} (h : ∀ c ∈ xs, inert c = true) : Neutral xs := by
  induction xs with
  | nil => exact neutral_nil
  | cons c xs ih =>
    exact neutral_cons (h c List.mem_cons_self) (ih fun d hd => h d (List.mem_cons_of_mem c hd))

theorem neutral_braces {xs : List PyChar} (h : Neutral xs) :
    Neutral (.scalar '{' :: (xs ++ [.scalar '}'])) := by
  rintro text i ⟨depth, start, inString, escaped, out⟩ ⟨rfl, rfl, hd⟩
  have hopen : step text ⟨depth, start, false, false, out⟩ i (.scalar '{') =
      ⟨depth + 1, start, false, false, out⟩ := by
    simp only at hd
    simp [step, hd]
  have hin : Inside ⟨depth + 1, start, false, false, out⟩ := ⟨rfl, rfl, Nat.succ_ne_zero _⟩
  rw [run, hopen, run_append, h text _ _ hin, run, run]
  obtain ⟨d, rfl⟩ := Nat.exists_eq_succ_of_ne_zero hd
  rfl

-- a string is passed over wherever the scanner is
theorem run_body {cs : List PyChar} (h : StringBody cs) (text : List PyChar) (depth : Nat)
    (start : Option Nat) (out : List (List PyChar)) : ∀ i : Nat,
    run text i ⟨depth, start, true, false, out⟩ cs = ⟨depth, start, true, false, out⟩ := by
  induction h with
  | nil => exact fun _ => rfl
  | @plain c cs hc _ ih =>
    intro i
    have hq : c ≠ .scalar '"' := by
      rintro rfl
      exact absurd hc (by decide)
    have hb : c ≠ .scalar '\\' := by
      rintro rfl
      exact absurd hc (by decide)
    have hstep : step text ⟨depth, start, true, false, out⟩ i c =
        ⟨depth, start, true, false, out⟩ := by
      simp [step, hq, hb]
    rw [run, hstep, ih]
  | @escape c cs hc _ ih =>
    intro i
    rw [run, run]
    exact ih _
  | @unicode a b c d cs ha hb hc hd _ ih =>
    intro i
    have hhex {e : PyChar} (he : e.isHex = true) (j : Nat) :
        step text ⟨depth, start, true, false, out⟩ j e = ⟨depth, start, true, false, out⟩ := by
      have hq : e ≠ .scalar '"' := by
        rintro rfl
        exact absurd he (by decide)
      have hb : e ≠ .scalar '\\' := by
        rintro rfl
        exact absurd he (by decide)
      simp [step, hq, hb]
    rw [run, run, run, run, run, run]
    have hu : step text (step text ⟨depth, start, true, false, out⟩ i (.scalar '\\')) (i + 1)
        (.scalar 'u') = ⟨depth, start, true, false, out⟩ := rfl
    rw [hu, hhex ha, hhex hb, hhex hc, hhex hd, ih]

theorem neutral_string {k : List PyChar} (h : StringText k) : Neutral k := by
  cases h with
  | quoted h =>
    rintro text i ⟨depth, start, inString, escaped, out⟩ ⟨rfl, rfl, hd⟩
    have hopen : step text ⟨depth, start, false, false, out⟩ i (.scalar '"') =
        ⟨depth, start, true, false, out⟩ := rfl
    rw [run, hopen, run_append, run_body h]
    rfl

theorem inert_space {c : PyChar} (h : c.isJsonSpace = true) : inert c = true := by
  obtain ⟨d, hd, rfl⟩ := PyChar.isJsonSpace_inv h
  simp only [List.mem_cons, List.not_mem_nil, or_false] at hd
  rcases hd with rfl | rfl | rfl | rfl <;> decide

theorem neutral_spaces {w : List PyChar} (h : Spaces w) : Neutral w :=
  neutral_of_inert fun c hc => inert_space (h c hc)

theorem inert_digit {c : PyChar} (h : c.isDigit = true) : inert c = true := by
  have hne (d : Char) (hd : d.isDigit = false) : c ≠ .scalar d := by
    rintro rfl
    rw [PyChar.isDigit, hd] at h
    cases h
  simp [inert, hne '"' (by decide), hne '{' (by decide), hne '}' (by decide)]

theorem neutral_digits {ds : List PyChar} (h : ∀ d ∈ ds, d.isDigit = true) : Neutral ds :=
  neutral_of_inert fun d hd => inert_digit (h d hd)

theorem neutral_whole {w : List PyChar} (h : Whole w) : Neutral w := by
  cases h with
  | zero => exact neutral_cons (by decide) neutral_nil
  | digits hc hz hds => exact neutral_cons (inert_digit hc) (neutral_digits hds)

theorem neutral_fraction {f : List PyChar} (h : Fraction f) : Neutral f := by
  cases h with
  | absent => exact neutral_nil
  | digits hds => exact neutral_cons (by decide) (neutral_digits hds.2)

theorem neutral_exponent {e : List PyChar} (h : Exponent e) : Neutral e := by
  cases h with
  | absent => exact neutral_nil
  | digits he hds =>
    exact neutral_cons (by rcases he with rfl | rfl <;> decide) (neutral_digits hds.2)
  | signed he hs hds =>
    exact neutral_cons (by rcases he with rfl | rfl <;> decide)
      (neutral_cons (by rcases hs with rfl | rfl <;> decide) (neutral_digits hds.2))

theorem neutral_number {x : List PyChar} (h : NumberText x) : Neutral x := by
  cases h with
  | unsigned hw hf he =>
    exact (neutral_whole hw).append ((neutral_fraction hf).append (neutral_exponent he))
  | negative hw hf he =>
    exact neutral_cons (by decide)
      ((neutral_whole hw).append ((neutral_fraction hf).append (neutral_exponent he)))

theorem neutral_literal {x : String} (h : x ∈ literals) : Neutral (PyStr.ofString x).chars := by
  apply neutral_of_inert
  revert x
  decide

theorem neutral_brackets {xs : List PyChar} (h : Neutral xs) :
    Neutral (.scalar '[' :: (xs ++ [.scalar ']'])) :=
  neutral_cons (by decide) (h.append (neutral_cons (by decide) neutral_nil))

theorem neutral_comma {xs : List PyChar} (h : Neutral xs) : Neutral (.scalar ',' :: xs) :=
  neutral_cons (by decide) h

theorem neutral_colon {xs : List PyChar} (h : Neutral xs) : Neutral (.scalar ':' :: xs) :=
  neutral_cons (by decide) h

mutual

theorem neutral_value : ∀ {x : List PyChar}, ValueText x → Neutral x
  | _, .literal h => neutral_literal h
  | _, .number h => neutral_number h
  | _, .string h => neutral_string h
  | _, .emptyArray h => neutral_brackets (neutral_spaces h)
  | _, .array h => neutral_brackets (neutral_items h)
  | _, .object h => neutral_object h

theorem neutral_items : ∀ {xs : List PyChar}, ItemTexts xs → Neutral xs
  | _, .last ha hx hb => (neutral_spaces ha).append ((neutral_value hx).append (neutral_spaces hb))
  | _, .cons ha hx hb h =>
      (neutral_spaces ha).append ((neutral_value hx).append ((neutral_spaces hb).append
        (neutral_comma (neutral_items h))))

theorem neutral_object : ∀ {o : List PyChar}, ObjectText o → Neutral o
  | _, .empty h => neutral_braces (neutral_spaces h)
  | _, .members h => neutral_braces (neutral_members h)

theorem neutral_members : ∀ {xs : List PyChar}, MemberTexts xs → Neutral xs
  | _, .last ha hk hb hc hx hd =>
      (neutral_spaces ha).append ((neutral_string hk).append ((neutral_spaces hb).append
        (neutral_colon ((neutral_spaces hc).append ((neutral_value hx).append
          (neutral_spaces hd))))))
  | _, .cons ha hk hb hc hx hd h =>
      (neutral_spaces ha).append ((neutral_string hk).append ((neutral_spaces hb).append
        (neutral_colon ((neutral_spaces hc).append ((neutral_value hx).append
          ((neutral_spaces hd).append (neutral_comma (neutral_members h))))))))

end

theorem object_inner {o : List PyChar} (h : ObjectText o) :
    ∃ xs, o = .scalar '{' :: (xs ++ [.scalar '}']) ∧ Neutral xs := by
  cases h with
  | empty h => exact ⟨_, rfl, neutral_spaces h⟩
  | members h => exact ⟨_, rfl, neutral_members h⟩

end Inner

section Outer

variable {start : Option Nat} {out : List (List PyChar)}

def outside (start : Option Nat) (q : Bool × Bool) (out : List (List PyChar)) : Scan :=
  ⟨0, start, q.1, q.2, out⟩

theorem step_outside {c : PyChar} (hc : c ≠ .scalar '{') (q : Bool × Bool) :
    step text (outside start q out) i c = outside start (quoteStep q c) out := by
  obtain ⟨inString, escaped⟩ := q
  cases inString <;> cases escaped <;> simp only [step, outside, quoteStep] <;> split_ifs <;> simp_all

theorem run_prose {p : List PyChar} (hp : ∀ c ∈ p, c ≠ .scalar '{') (i : Nat) (q : Bool × Bool) :
    run text i (outside start q out) p = outside start (p.foldl quoteStep q) out := by
  induction p generalizing i q with
  | nil => rfl
  | cons c p ih =>
    rw [run, step_outside (hp c List.mem_cons_self), ih fun d hd => hp d (List.mem_cons_of_mem c hd),
      List.foldl_cons]

theorem quoteStep_quiet {q : Bool × Bool} {c : PyChar} (h : q.1 = false → q.2 = false)
    (hc : (quoteStep q c).1 = false) : (quoteStep q c).2 = false := by
  obtain ⟨inString, escaped⟩ := q
  revert hc
  unfold quoteStep
  split_ifs <;> simp_all

theorem quotes_closed {p : List PyChar} (h : closesQuotes p = true) :
    p.foldl quoteStep (false, false) = (false, false) := by
  have hq (p : List PyChar) (q : Bool × Bool) (hq : q.1 = false → q.2 = false) :
      (p.foldl quoteStep q).1 = false → (p.foldl quoteStep q).2 = false := by
    induction p generalizing q with
    | nil => exact hq
    | cons c p ih => exact ih (quoteStep q c) (quoteStep_quiet hq)
  have h1 : (p.foldl quoteStep (false, false)).1 = false := by simpa [closesQuotes] using h
  exact Prod.ext h1 (hq p (false, false) (fun _ => rfl) h1)

theorem run_object {o : List PyChar} (h : ObjectText o) (i : Nat) :
    run text i (outside start (false, false) out) o =
      outside (some i) (false, false) (out ++ [slice text i (i + o.length)]) := by
  obtain ⟨xs, rfl, hxs⟩ := object_inner h
  have hopen : step text (outside start (false, false) out) i (.scalar '{') =
      ⟨1, some i, false, false, out⟩ := rfl
  have hin : Inside ⟨1, some i, false, false, out⟩ := ⟨rfl, rfl, by simp⟩
  rw [run, hopen, run_append, hxs text _ _ hin, run, run]
  have hlen : i + (PyChar.scalar '{' :: (xs ++ [.scalar '}'])).length = i + 1 + xs.length + 1 := by
    simp
    omega
  rw [hlen]
  rfl

theorem slice_between (before o after : List PyChar) :
    slice (before ++ (o ++ after)) before.length (before.length + o.length) = o := by
  rw [slice, ← List.append_assoc, ← List.length_append, List.take_left, List.drop_left]

theorem run_response {parts : List (List PyChar × List PyChar)} {p : List PyChar}
    (before : List PyChar) (hp : ∀ c ∈ p, c ≠ .scalar '{')
    (hparts : ∀ q ∈ parts, ObjectText q.1 ∧ ∀ c ∈ q.2, c ≠ .scalar '{')
    (hquotes : ∀ q ∈ leads p parts, closesQuotes q = true) (htext : text = before ++ response p parts) :
    (run text before.length (outside start (false, false) out) (response p parts)).out =
      out ++ parts.map Prod.fst := by
  induction parts generalizing p before start out with
  | nil =>
    rw [response, run_prose hp, List.map_nil, List.append_nil]
    rfl
  | cons q parts ih =>
    obtain ⟨o, p'⟩ := q
    obtain ⟨⟨ho, hp'⟩, hrest⟩ := List.forall_mem_cons.mp hparts
    obtain ⟨hq, hqs⟩ := List.forall_mem_cons.mp hquotes
    have hbefore : text = (before ++ p) ++ (o ++ response p' parts) := by
      rw [htext, response, List.append_assoc]
    rw [response, run_append, run_prose hp, quotes_closed hq, run_append, ← List.length_append,
      run_object ho, hbefore, slice_between, ← hbefore, ← List.length_append,
      ih _ hp' hrest hqs (by rw [hbefore, List.append_assoc (before ++ p)]), List.map_cons, List.append_assoc]
    rfl

end Outer

end Scan

theorem balancedObjects_response {parts : List (List PyChar × List PyChar)} {p : List PyChar}
    (hp : ∀ c ∈ p, c ≠ .scalar '{')
    (hparts : ∀ q ∈ parts, ObjectText q.1 ∧ ∀ c ∈ q.2, c ≠ .scalar '{')
    (hquotes : ∀ q ∈ leads p parts, closesQuotes q = true) :
    balancedObjects (response p parts) = parts.map Prod.fst :=
  Scan.run_response [] hp hparts hquotes rfl

def quoteless (p : List PyChar) : Prop := ∀ c ∈ p, c ≠ .scalar '"'

theorem closesQuotes_of_quoteless {p : List PyChar} (h : quoteless p) : closesQuotes p = true := by
  have hfold : p.foldl quoteStep (false, false) = (false, false) := by
    induction p with
    | nil => rfl
    | cons c p ih =>
      have hstep : quoteStep (false, false) c = (false, false) := by
        simp [quoteStep, h c List.mem_cons_self]
      rw [List.foldl_cons, hstep]
      exact ih fun d hd => h d (List.mem_cons_of_mem c hd)
  rw [closesQuotes, hfold]
  rfl

theorem mem_leads {parts : List (List PyChar × List PyChar)} {p q : List PyChar}
    (h : q ∈ leads p parts) : q ∈ p :: parts.map Prod.snd := by
  induction parts generalizing p with
  | nil => cases h
  | cons x parts ih =>
    obtain ⟨o, p'⟩ := x
    rcases List.mem_cons.mp h with rfl | h
    · exact List.mem_cons_self
    · exact List.mem_cons_of_mem _ (ih h)

section Claim

def Prose (p : List PyChar) : Prop := ∀ c ∈ p, c ≠ .scalar '"' ∧ c ≠ .scalar '{'

theorem balanced_objects_split (p : List PyChar) (parts : List (List PyChar × List PyChar))
    (hp : Prose p) (hparts : ∀ q ∈ parts, ObjectText q.1 ∧ Prose q.2) :
    balancedObjects (response p parts) = parts.map Prod.fst := by
  apply balancedObjects_response fun c hc => (hp c hc).2
  · intro q hq
    exact ⟨(hparts q hq).1, fun c hc => ((hparts q hq).2 c hc).2⟩
  · intro q hq
    apply closesQuotes_of_quoteless
    rcases List.mem_cons.mp (mem_leads hq) with rfl | hq
    · exact fun c hc => (hp c hc).1
    · obtain ⟨part, hpart, rfl⟩ := List.mem_map.mp hq
      exact fun c hc => ((hparts part hpart).2 c hc).1

def chars (s : String) : List PyChar := (PyStr.ofString s).chars

def emptyText : List PyChar := chars "\x7b\x7d"

-- a quote mark, braces and a backslash inside the strings of two nested objects
def nestedText : List PyChar := chars "\x7b\"a\\\"\x7d\": [\x7b\"\x7b\": \"\\\\\"\x7d]\x7d"

theorem emptyText_object : ObjectText emptyText := by
  have h : ObjectText (.scalar '{' :: ([] ++ [.scalar '}'])) := .empty (by simp [Spaces])
  exact h

theorem nestedText_object : ObjectText nestedText := by
  have hnone : Spaces [] := by simp [Spaces]
  have hspace : Spaces (chars " ") := by unfold Spaces; decide
  have hinnerKey : StringText (.scalar '"' :: (chars "\x7b" ++ [.scalar '"'])) :=
    .quoted (.plain (by decide) .nil)
  have hinnerValue : StringText (.scalar '"' :: (chars "\\\\" ++ [.scalar '"'])) :=
    .quoted (@StringBody.escape '\\' [] (by decide) .nil)
  have hinner := ObjectText.members (.last hnone hinnerKey hnone hspace (.string hinnerValue) hnone)
  have hkey : StringText (.scalar '"' :: (chars "a\\\"\x7d" ++ [.scalar '"'])) :=
    .quoted (.plain (by decide) (@StringBody.escape '"' _ (by decide) (.plain (by decide) .nil)))
  exact ObjectText.members (.last hnone hkey hnone hspace
    (.array (.last hnone (.object hinner) hnone)) hnone)

theorem balanced_objects_split_nested :
    balancedObjects (response (chars "first \x7d ") [(nestedText, chars " or \x7d "), (emptyText, [])]) =
      [nestedText, emptyText] := by
  apply balanced_objects_split
  · unfold Prose
    decide
  · intro q hq
    simp only [List.mem_cons, List.not_mem_nil, or_false] at hq
    rcases hq with rfl | rfl
    · exact ⟨nestedText_object, by unfold Prose; decide⟩
    · exact ⟨emptyText_object, by simp [Prose]⟩

end Claim

end DurableAgent
