import DurableAgent.Decoder

namespace DurableAgent

open Grammar

def PyValue.isDict : PyValue → Bool
  | .dict _ => true
  | _ => false

namespace Decoder

variable {maxDepth : Nat} {float : List Char → PyFloat} {s : State} {st : List Container}

def Mode.skips : Mode → Bool
  | .value => true
  | .firstValue => true
  | .firstKey => true
  | .key => true
  | .colon => true
  | .done _ => true
  | _ => false

def Part.complete : Part → Bool
  | .zero => true
  | .digits => true
  | .fraction => true
  | .power => true
  | _ => false

def delimiters : List Char := [',', ']', '}']

def Delimiter (c : PyChar) : Prop :=
  c.isJsonSpace = true ∨ ∃ d ∈ delimiters, c = .scalar d

-- given up with an exception that escapes, or holding a value with `st` open around it
def Settled (st : List Container) (s : State) : Prop :=
  (∃ e, s.mode = .failed e ∧ e.escapes = true) ∨ ∃ v, s = ⟨.done v, st⟩

-- a number is not known to be over before the character after it
structure Ends (float : List Char → PyFloat) (maxDepth : Nat) (st : List Container) (s : State) :
    Prop where
  settled : Settled st (settle float s)
  next : ∀ c, Delimiter c → step maxDepth float s c = step maxDepth float (settle float s) c

section Runs

@[simp] theorem run_nil : run maxDepth float s [] = s := rfl

@[simp] theorem run_cons (c : PyChar) (cs : List PyChar) :
    run maxDepth float s (c :: cs) = run maxDepth float (step maxDepth float s c) cs := rfl

theorem run_append (xs ys : List PyChar) :
    run maxDepth float s (xs ++ ys) = run maxDepth float (run maxDepth float s xs) ys :=
  List.foldl_append ..

theorem run_failed {e : DecodeError} (h : s.mode = .failed e) (xs : List PyChar) :
    run maxDepth float s xs = s := by
  induction xs with
  | nil => rfl
  | cons c xs ih =>
    have hstep : step maxDepth float s c = s := by
      unfold step
      rw [h]
    rw [run_cons, hstep, ih]

theorem step_space {c : PyChar} (hs : s.mode.skips = true) (hc : c.isJsonSpace = true) :
    step maxDepth float s c = s := by
  obtain ⟨mode, stack⟩ := s
  cases mode <;> simp_all [step, afterValue, Mode.skips]

theorem run_spaces {w : List PyChar} (hs : s.mode.skips = true) (hw : Spaces w) :
    run maxDepth float s w = s := by
  induction w with
  | nil => rfl
  | cons c w ih =>
    rw [run_cons, step_space hs (hw c List.mem_cons_self)]
    exact ih fun d hd => hw d (List.mem_cons_of_mem c hd)

theorem settle_failed {e : DecodeError} (h : s.mode = .failed e) : settle float s = s := by
  unfold settle
  rw [h]

theorem Settled.settle_eq (h : Settled st s) : settle float s = s := by
  rcases h with ⟨e, he, _⟩ | ⟨v, rfl⟩
  · exact settle_failed he
  · rfl

theorem Settled.ends (h : Settled st s) : Ends float maxDepth st s := by
  constructor
  · rwa [h.settle_eq]
  · intro c _
    rw [h.settle_eq]

end Runs

section Strings

variable {read : List PyChar} {high : Bool}

theorem step_plain {key : Bool} {c : PyChar} (hc : c.isPlain = true) :
    step maxDepth float ⟨.string key read high .none, st⟩ c =
      ⟨.string key (read ++ [c]) false .none, st⟩ := by
  have hq : c ≠ .scalar '"' := by
    rintro rfl
    exact absurd hc (by decide)
  have hb : c ≠ .scalar '\\' := by
    rintro rfl
    exact absurd hc (by decide)
  simp only [step, inString, if_neg hq, if_neg hb, hc, if_true]

theorem unescape_escapes {c : Char} (h : c ∈ escapes) :
    c ≠ 'u' ∧ (unescape c).isSome = true := by
  simp only [escapes, List.mem_cons, List.not_mem_nil, or_false] at h
  rcases h with rfl | rfl | rfl | rfl | rfl | rfl | rfl | rfl <;> exact ⟨by decide, rfl⟩

theorem run_escape {key : Bool} {c : Char} (hc : c ∈ escapes) (read : List PyChar) (high : Bool) :
    ∃ read', run maxDepth float ⟨.string key read high .none, st⟩ [.scalar '\\', .scalar c] =
      ⟨.string key read' false .none, st⟩ := by
  obtain ⟨hu, hs⟩ := unescape_escapes hc
  obtain ⟨c', hc'⟩ := Option.isSome_iff_exists.mp hs
  refine ⟨read ++ [.scalar c'], ?_⟩
  simp [step, inString, hu, hc']

theorem isHex_inv {c : PyChar} (h : c.isHex = true) :
    ∃ d n, c = .scalar d ∧ hexValue d = some n := by
  cases c with
  | surrogate n => cases h
  | scalar d =>
    obtain ⟨n, hn⟩ := Option.isSome_iff_exists.mp h
    exact ⟨d, n, rfl, hn⟩

theorem run_unicode {key : Bool} {a b c d : PyChar} (ha : a.isHex = true) (hb : b.isHex = true)
    (hc : c.isHex = true) (hd : d.isHex = true) (read : List PyChar) (high : Bool) :
    ∃ read' high', run maxDepth float ⟨.string key read high .none, st⟩
        [.scalar '\\', .scalar 'u', a, b, c, d] = ⟨.string key read' high' .none, st⟩ := by
  obtain ⟨a', i, rfl, hi⟩ := isHex_inv ha
  obtain ⟨b', j, rfl, hj⟩ := isHex_inv hb
  obtain ⟨c', k, rfl, hk⟩ := isHex_inv hc
  obtain ⟨d', l, rfl, hl⟩ := isHex_inv hd
  simp [step, inString, hi, hj, hk, hl]

theorem run_body {cs : List PyChar} (h : StringBody cs) (st : List Container) (key : Bool) :
    ∀ (read : List PyChar) (high : Bool), ∃ read' high',
      run maxDepth float ⟨.string key read high .none, st⟩ cs =
        ⟨.string key read' high' .none, st⟩ := by
  induction h with
  | nil => exact fun read high => ⟨read, high, rfl⟩
  | @plain c cs hc _ ih =>
    intro read high
    rw [run_cons, step_plain hc]
    exact ih _ _
  | @escape c cs hc _ ih =>
    intro read high
    obtain ⟨read', hr⟩ := run_escape hc read high
    rw [show .scalar '\\' :: .scalar c :: cs = [PyChar.scalar '\\', .scalar c] ++ cs from rfl,
      run_append, hr]
    exact ih _ _
  | @unicode a b c d cs ha hb hc hd _ ih =>
    intro read high
    obtain ⟨read', high', hr⟩ := run_unicode ha hb hc hd read high
    rw [show .scalar '\\' :: .scalar 'u' :: a :: b :: c :: d :: cs =
      [PyChar.scalar '\\', .scalar 'u', a, b, c, d] ++ cs from rfl, run_append, hr]
    exact ih _ _

theorem run_string {k : List PyChar} (h : StringText k) {key : Bool}
    (hs : step maxDepth float s (.scalar '"') = ⟨.string key [] false .none, st⟩) :
    ∃ read high, run maxDepth float s k =
      endString ⟨.string key read high .none, st⟩ read key := by
  cases h with
  | quoted h =>
    obtain ⟨read, high, hr⟩ := run_body h st key [] false
    refine ⟨read, high, ?_⟩
    rw [run_cons, hs, run_append, hr]
    rfl

theorem run_string_value {x : List PyChar} (h : StringText x) :
    ∃ v, run maxDepth float ⟨.value, st⟩ x = ⟨.done v, st⟩ := by
  have hstep : step maxDepth float ⟨.value, st⟩ (.scalar '"') =
      ⟨.string false [] false .none, st⟩ := rfl
  obtain ⟨read, high, hr⟩ := run_string h hstep
  exact ⟨_, hr⟩

theorem run_string_key {k : List PyChar} (h : StringText k) {items : List (PyKey × PyValue)}
    {key : PyStr} (hs : s = ⟨.key, .object items key :: st⟩ ∨ s = ⟨.firstKey, .object items key :: st⟩) :
    ∃ read, run maxDepth float s k = ⟨.colon, .object items read :: st⟩ := by
  have hstep : step maxDepth float s (.scalar '"') =
      ⟨.string true [] false .none, .object items key :: st⟩ := by
    rcases hs with rfl | rfl <;> rfl
  obtain ⟨read, high, hr⟩ := run_string h hstep
  exact ⟨⟨read⟩, hr⟩

end Strings

section Numbers

theorem next_delimiter {part : Part} (hp : part.complete = true) {d : Char}
    (hd : d ∈ [' ', '\t', '\n', '\r'] ++ delimiters) : part.next d = none := by
  simp only [delimiters, List.cons_append, List.nil_append, List.mem_cons, List.not_mem_nil,
    or_false] at hd
  cases part with
  | zero | digits | fraction | power =>
    rcases hd with rfl | rfl | rfl | rfl | rfl | rfl | rfl <;> rfl
  | _ => cases hp

theorem nextPart_delimiter {part : Part} {c : PyChar} (hp : part.complete = true)
    (hc : Delimiter c) : nextPart part c = none := by
  have hd : ∃ d ∈ [' ', '\t', '\n', '\r'] ++ delimiters, c = .scalar d := by
    rcases hc with hc | ⟨d, hd, rfl⟩
    · obtain ⟨d, hd, rfl⟩ := PyChar.isJsonSpace_inv hc
      exact ⟨d, List.mem_append_left _ hd, rfl⟩
    · exact ⟨d, List.mem_append_right _ hd, rfl⟩
  obtain ⟨d, hd, rfl⟩ := hd
  rw [nextPart, next_delimiter hp hd, Option.map_none]

theorem readInt_settled (text : List Char) :
    (∃ v, readInt text = .ok v) ∨ readInt text = .error .valueError := by
  unfold readInt
  split <;> split
  · exact .inl ⟨_, rfl⟩
  · exact .inr rfl
  · exact .inl ⟨_, rfl⟩
  · exact .inr rfl

theorem endNumber_settled (float : List Char → PyFloat) (text : List Char) {part : Part}
    (hp : part.complete = true) :
    (∃ v, endNumber float text part = .ok v) ∨ endNumber float text part = .error .valueError := by
  cases part with
  | zero => exact readInt_settled text
  | digits => exact readInt_settled text
  | fraction => exact .inl ⟨_, rfl⟩
  | power => exact .inl ⟨_, rfl⟩
  | _ => cases hp

theorem number_ends {text : List Char} {part : Part} (hp : part.complete = true) :
    Ends float maxDepth st ⟨.number text part, st⟩ := by
  have hsettled : Settled st (settle float ⟨.number text part, st⟩) := by
    unfold settle
    rcases endNumber_settled float text hp with ⟨v, hv⟩ | he
    · simp only [hv]
      exact .inr ⟨v, rfl⟩
    · simp only [he]
      exact .inl ⟨.valueError, rfl, rfl⟩
  refine ⟨hsettled, fun c hc => ?_⟩
  have hsign : part ≠ .sign := by
    rintro rfl
    cases hp
  have hstep : step maxDepth float ⟨.number text part, st⟩ c =
      inNumber float ⟨.number text part, st⟩ text part c := rfl
  unfold inNumber at hstep
  rw [hstep, nextPart_delimiter hp hc]
  simp only [hsign, false_and, if_false]
  rcases hsettled with ⟨e, he, _⟩ | ⟨v, hv⟩
  · simp only [he, step]
  · simp only [hv, step]

theorem step_digit {text : List Char} {part part' : Part} {c : PyChar} {d : Char}
    (h : nextPart part c = some (d, part')) :
    step maxDepth float ⟨.number text part, st⟩ c = ⟨.number (text ++ [d]) part', st⟩ := by
  have hstep : step maxDepth float ⟨.number text part, st⟩ c =
      inNumber float ⟨.number text part, st⟩ text part c := rfl
  unfold inNumber at hstep
  rw [hstep, h]

theorem run_digits {ds : List PyChar} {part : Part}
    (hp : ∀ d : Char, d.isDigit = true → part.next d = some part)
    (hds : ∀ d ∈ ds, d.isDigit = true) : ∀ text : List Char, ∃ text',
      run maxDepth float ⟨.number text part, st⟩ ds = ⟨.number text' part, st⟩ := by
  induction ds with
  | nil => exact fun text => ⟨text, rfl⟩
  | cons c ds ih =>
    intro text
    have hc := hds c List.mem_cons_self
    cases c with
    | surrogate n => cases hc
    | scalar d =>
      have hn : nextPart part (.scalar d) = some (d, part) := by
        rw [nextPart, hp d hc, Option.map_some]
      rw [run_cons, step_digit hn]
      exact ih (fun e he => hds e (List.mem_cons_of_mem _ he)) _

theorem run_integer {ds : List Char} (hds : ∀ d ∈ ds, d.isDigit = true) (text : List Char) :
    run maxDepth float ⟨.number text .digits, st⟩ (ds.map .scalar) =
      ⟨.number (text ++ ds) .digits, st⟩ := by
  induction ds generalizing text with
  | nil => rw [List.map_nil, run_nil, List.append_nil]
  | cons d ds ih =>
    have hn : nextPart .digits (.scalar d) = some (d, .digits) := by
      rw [nextPart, show Part.next .digits d = some .digits from if_pos (hds d List.mem_cons_self),
        Option.map_some]
    rw [List.map_cons, run_cons, step_digit hn, ih fun e he => hds e (List.mem_cons_of_mem d he),
      List.append_assoc, List.singleton_append]

def decimals : List Char := ['0', '1', '2', '3', '4', '5', '6', '7', '8', '9']

theorem isDigit_mem {c : Char} (h : c.isDigit = true) : c ∈ decimals := by
  have hn : 48 ≤ c.toNat ∧ c.toNat ≤ 57 := by
    simp only [Char.isDigit, Bool.and_eq_true, decide_eq_true_eq] at h
    exact h
  have hmem : ∀ i < 10, Char.ofNat (48 + i) ∈ decimals := by decide
  have hc := hmem (c.toNat - 48) (by omega)
  rwa [show 48 + (c.toNat - 48) = c.toNat by omega, Char.ofNat_toNat] at hc

theorem next_sign {c : Char} (h : c.isDigit = true) :
    Part.next .sign c = some (if c = '0' then .zero else .digits) := by
  by_cases hz : c = '0'
  · subst hz
    rfl
  · rw [if_neg hz]
    exact (if_neg hz).trans (if_pos h)

theorem start_digit {c : Char} (h : c.isDigit = true) {s : State}
    (hs : s = ⟨.value, st⟩ ∨ s = ⟨.number ['-'] .sign, st⟩) :
    ∃ text, step maxDepth float s (.scalar c) =
      ⟨.number text (if c = '0' then .zero else .digits), st⟩ := by
  have hc := isDigit_mem h
  rcases hs with rfl | rfl
  · refine ⟨[c], ?_⟩
    clear h
    simp only [decimals, List.mem_cons, List.not_mem_nil, or_false] at hc
    rcases hc with rfl | rfl | rfl | rfl | rfl | rfl | rfl | rfl | rfl | rfl <;> rfl
  · exact ⟨_, step_digit (by rw [nextPart, next_sign h, Option.map_some])⟩

theorem next_whole {d : Char} (h : d.isDigit = true) : Part.next .digits d = some .digits :=
  if_pos h

theorem run_whole {w : List PyChar} (h : Whole w) {s : State}
    (hs : s = ⟨.value, st⟩ ∨ s = ⟨.number ['-'] .sign, st⟩) :
    ∃ text part, (part = .zero ∨ part = .digits) ∧
      run maxDepth float s w = ⟨.number text part, st⟩ := by
  cases h with
  | zero =>
    obtain ⟨text, ht⟩ := start_digit (c := '0') rfl hs
    exact ⟨text, .zero, .inl rfl, ht⟩
  | @digits c ds hc hz hds =>
    obtain ⟨text, ht⟩ := start_digit hc hs
    rw [if_neg hz] at ht
    obtain ⟨text', hr⟩ := run_digits (fun d hd => next_whole hd) hds text
    exact ⟨text', .digits, .inr rfl, by rw [run_cons, ht, hr]⟩

-- digits after a part that needs at least one
theorem run_some_digits {ds : List PyChar} (part part' : Part) (hds : Digits ds)
    (hp : ∀ d : Char, d.isDigit = true → part.next d = some part' ∧ part'.next d = some part')
    (text : List Char) : ∃ text',
      run maxDepth float ⟨.number text part, st⟩ ds = ⟨.number text' part', st⟩ := by
  obtain ⟨hne, hall⟩ := hds
  cases ds with
  | nil => exact absurd rfl hne
  | cons c ds =>
    have hc := hall c List.mem_cons_self
    cases c with
    | surrogate n => cases hc
    | scalar d =>
      have hn : nextPart part (.scalar d) = some (d, part') := by
        rw [nextPart, (hp d hc).1, Option.map_some]
      rw [run_cons, step_digit hn]
      exact run_digits (fun e he => (hp e he).2)
        (fun e he => hall e (List.mem_cons_of_mem _ he)) _

theorem run_fraction {f : List PyChar} (h : Fraction f) {part : Part}
    (hp : part = .zero ∨ part = .digits) (text : List Char) :
    ∃ text' part', (part' = .zero ∨ part' = .digits ∨ part' = .fraction) ∧
      run maxDepth float ⟨.number text part, st⟩ f = ⟨.number text' part', st⟩ := by
  cases h with
  | absent => exact ⟨text, part, by rcases hp with rfl | rfl <;> simp, rfl⟩
  | @digits ds hds =>
    have hn : nextPart part (.scalar '.') = some ('.', .dot) := by
      rcases hp with rfl | rfl <;> rfl
    rcases run_some_digits .dot .fraction hds (fun d h => ⟨if_pos h, if_pos h⟩)
      (text ++ ['.']) with ⟨text', hr⟩
    exact ⟨text', .fraction, by simp, by rw [run_cons, step_digit hn, hr]⟩

theorem run_exponent {e : List PyChar} (h : Exponent e) {part : Part}
    (hp : part = .zero ∨ part = .digits ∨ part = .fraction) (text : List Char) :
    ∃ text' part', part'.complete = true ∧
      run maxDepth float ⟨.number text part, st⟩ e = ⟨.number text' part', st⟩ := by
  have hmark (c : Char) (hc : c = 'e' ∨ c = 'E') :
      nextPart part (.scalar c) = some (c, .mark) := by
    rcases hp with rfl | rfl | rfl <;> rcases hc with rfl | rfl <;> rfl
  cases h with
  | absent => exact ⟨text, part, by rcases hp with rfl | rfl | rfl <;> rfl, rfl⟩
  | @digits c ds hc hds =>
    rcases run_some_digits .mark .power hds (fun d h => ⟨if_pos h, if_pos h⟩)
      (text ++ [c]) with ⟨text', hr⟩
    exact ⟨text', .power, rfl, by rw [run_cons, step_digit (hmark c hc), hr]⟩
  | @signed c s ds hc hs hds =>
    have hn : nextPart .mark (.scalar s) = some (s, .markSign) := by
      rcases hs with rfl | rfl <;> rfl
    rcases run_some_digits .markSign .power hds (fun d h => ⟨if_pos h, if_pos h⟩)
      (text ++ [c] ++ [s]) with ⟨text', hr⟩
    exact ⟨text', .power, rfl, by
      rw [run_cons, step_digit (hmark c hc), run_cons, step_digit hn, hr]⟩

theorem run_number {x : List PyChar} (h : NumberText x) :
    Ends float maxDepth st (run maxDepth float ⟨.value, st⟩ x) := by
  have hrest {w f e : List PyChar} (hw : Whole w) (hf : Fraction f) (he : Exponent e) {s : State}
      (hs : s = ⟨.value, st⟩ ∨ s = ⟨.number ['-'] .sign, st⟩) :
      Ends float maxDepth st (run maxDepth float s (w ++ (f ++ e))) := by
    obtain ⟨t, p, hp, hr⟩ := run_whole hw hs
    obtain ⟨t', p', hp', hr'⟩ := run_fraction hf hp t
    obtain ⟨t'', p'', hp'', hr''⟩ := run_exponent he hp' t'
    rw [run_append, hr, run_append, hr', hr'']
    exact number_ends hp''
  cases h with
  | unsigned hw hf he => exact hrest hw hf he (.inl rfl)
  | negative hw hf he => exact hrest hw hf he (.inr rfl)

end Numbers

section Literals

theorem run_literal {x : String} (h : x ∈ literals) :
    ∃ v, run maxDepth float ⟨.value, st⟩ (PyStr.ofString x).chars = ⟨.done v, st⟩ := by
  simp only [literals, List.mem_cons, List.not_mem_nil, or_false] at h
  rcases h with rfl | rfl | rfl <;> exact ⟨_, rfl⟩

end Literals

section Values

def SettledDict (st : List Container) (s : State) : Prop :=
  (∃ e, s.mode = .failed e ∧ e.escapes = true) ∨ ∃ items, s = ⟨.done (.dict items), st⟩

theorem SettledDict.settled (h : SettledDict st s) : Settled st s := by
  rcases h with h | ⟨items, h⟩
  · exact .inl h
  · exact .inr ⟨_, h⟩

theorem Ends.run_next {w : List PyChar} {d : Char} (h : Ends float maxDepth st s) (hw : Spaces w)
    (hd : d ∈ delimiters) (ys : List PyChar) :
    run maxDepth float s (w ++ .scalar d :: ys) =
      run maxDepth float (step maxDepth float (settle float s) (.scalar d)) ys := by
  have hspaces : run maxDepth float (settle float s) w = settle float s := by
    rcases h.settled with ⟨e, he, _⟩ | ⟨v, hv⟩
    · exact run_failed he w
    · rw [hv]
      exact run_spaces rfl hw
  cases w with
  | nil => rw [List.nil_append, run_cons, h.next _ (.inr ⟨d, hd, rfl⟩)]
  | cons c w =>
    rw [List.cons_append, run_cons, h.next c (.inl (hw c List.mem_cons_self)), ← run_cons,
      ← List.cons_append, run_append, hspaces, run_cons]

-- what a value is followed by decides what becomes of it, unless an exception escaped before
theorem Ends.then_next {w : List PyChar} {d : Char} {P : State → Prop}
    (h : Ends float maxDepth st s) (hw : Spaces w) (hd : d ∈ delimiters) (ys : List PyChar)
    (hfailed : ∀ s' e, s'.mode = .failed e → e.escapes = true → P s')
    (hdone : ∀ v, P (run maxDepth float (afterValue ⟨.done v, st⟩ v (.scalar d)) ys)) :
    P (run maxDepth float s (w ++ .scalar d :: ys)) := by
  rw [h.run_next hw hd]
  rcases h.settled with ⟨e, he, hesc⟩ | ⟨v, hv⟩
  · rw [← run_cons, run_failed he]
    exact hfailed _ e he hesc
  · rw [hv]
    exact hdone v

theorem digit_head {c : Char} (h : c.isDigit = true) :
    (PyChar.scalar c).isJsonSpace = false ∧ PyChar.scalar c ≠ .scalar ']' := by
  have hc := isDigit_mem h
  clear h
  simp only [decimals, List.mem_cons, List.not_mem_nil, or_false] at hc
  rcases hc with rfl | rfl | rfl | rfl | rfl | rfl | rfl | rfl | rfl | rfl <;>
    exact ⟨rfl, by decide⟩

theorem value_head {x : List PyChar} (h : ValueText x) :
    ∃ c cs, x = c :: cs ∧ c.isJsonSpace = false ∧ c ≠ .scalar ']' := by
  cases h with
  | @literal s h =>
    simp only [literals, List.mem_cons, List.not_mem_nil, or_false] at h
    rcases h with rfl | rfl | rfl <;> exact ⟨_, _, rfl, rfl, by decide⟩
  | number h =>
    cases h with
    | unsigned hw hf he =>
      cases hw with
      | zero => exact ⟨_, _, rfl, rfl, by decide⟩
      | digits hc hz hds => exact ⟨_, _, rfl, digit_head hc⟩
    | negative => exact ⟨_, _, rfl, rfl, by decide⟩
  | string h =>
    cases h with
    | quoted h => exact ⟨_, _, rfl, rfl, by decide⟩
  | emptyArray => exact ⟨_, _, rfl, rfl, by decide⟩
  | array => exact ⟨_, _, rfl, rfl, by decide⟩
  | object h =>
    obtain ⟨xs, rfl⟩ := h.bounds
    exact ⟨_, _, rfl, rfl, by decide⟩

theorem step_firstValue {c : PyChar} (hc : c.isJsonSpace = false) (hne : c ≠ .scalar ']') :
    step maxDepth float ⟨.firstValue, st⟩ c = step maxDepth float ⟨.value, st⟩ c := by
  have hstart : startValue maxDepth ⟨.firstValue, st⟩ c = startValue maxDepth ⟨.value, st⟩ c := by
    unfold startValue
    split <;> rfl
  have hfirst : step maxDepth float ⟨.firstValue, st⟩ c =
      startValue maxDepth ⟨.firstValue, st⟩ c := by
    simp only [step, hc, Bool.false_eq_true, if_false]
  have hvalue : step maxDepth float ⟨.value, st⟩ c = startValue maxDepth ⟨.value, st⟩ c := by
    simp only [step, hc, Bool.false_eq_true, if_false]
  rw [hfirst, hstart, hvalue]

theorem run_first_item {a x ys : List PyChar} (ha : Spaces a) (hx : ValueText x) :
    run maxDepth float ⟨.firstValue, st⟩ (a ++ (x ++ ys)) =
      run maxDepth float ⟨.value, st⟩ (a ++ (x ++ ys)) := by
  obtain ⟨c, cs, rfl, hc, hne⟩ := value_head hx
  rw [run_append, run_spaces rfl ha, run_append (s := ⟨.value, st⟩), run_spaces rfl ha,
    List.cons_append, run_cons, run_cons, step_firstValue hc hne]

theorem items_first {xs : List PyChar} (h : ItemTexts xs) (ys : List PyChar) :
    run maxDepth float ⟨.firstValue, st⟩ (xs ++ ys) = run maxDepth float ⟨.value, st⟩ (xs ++ ys) := by
  cases h with
  | last ha hx hb =>
    rw [List.append_assoc, List.append_assoc]
    exact run_first_item ha hx
  | cons ha hx hb h =>
    rw [List.append_assoc, List.append_assoc]
    exact run_first_item ha hx

theorem run_first_key {a k ys : List PyChar} {items : List (PyKey × PyValue)} {key : PyStr}
    (ha : Spaces a) (hk : StringText k) :
    run maxDepth float ⟨.firstKey, .object items key :: st⟩ (a ++ (k ++ ys)) =
      run maxDepth float ⟨.key, .object items key :: st⟩ (a ++ (k ++ ys)) := by
  rw [run_append, run_spaces rfl ha, run_append (s := ⟨.key, _⟩), run_spaces rfl ha]
  cases hk
  rfl

theorem members_first {xs : List PyChar} (h : MemberTexts xs) (ys : List PyChar)
    (items : List (PyKey × PyValue)) (key : PyStr) :
    run maxDepth float ⟨.firstKey, .object items key :: st⟩ (xs ++ ys) =
      run maxDepth float ⟨.key, .object items key :: st⟩ (xs ++ ys) := by
  cases h with
  | last ha hk =>
    rw [List.append_assoc, List.append_assoc]
    exact run_first_key ha hk
  | cons ha hk =>
    rw [List.append_assoc, List.append_assoc]
    exact run_first_key ha hk

theorem run_open {mode : Mode} {c : Container} {d : Char} {P : State → Prop}
    (hstep : step maxDepth float ⟨.value, st⟩ (.scalar d) =
      openContainer maxDepth ⟨.value, st⟩ mode c) (ys : List PyChar)
    (hfailed : ∀ s' e, s'.mode = .failed e → e.escapes = true → P s')
    (hopen : P (run maxDepth float ⟨mode, c :: st⟩ ys)) :
    P (run maxDepth float ⟨.value, st⟩ (.scalar d :: ys)) := by
  rw [run_cons, hstep, openContainer]
  split
  · exact hopen
  · rw [run_failed (e := .recursionError) rfl]
    exact hfailed _ .recursionError rfl rfl

theorem run_member_name {a k b c ys : List PyChar} (ha : Spaces a) (hk : StringText k)
    (hb : Spaces b) (hc : Spaces c) (items : List (PyKey × PyValue)) (key : PyStr) :
    ∃ key', run maxDepth float ⟨.key, .object items key :: st⟩
        (a ++ (k ++ (b ++ .scalar ':' :: (c ++ ys)))) =
      run maxDepth float ⟨.value, .object items key' :: st⟩ ys := by
  have hs : (⟨.key, .object items key :: st⟩ : State) = ⟨.key, .object items key :: st⟩ ∨
      (⟨.key, .object items key :: st⟩ : State) = ⟨.firstKey, .object items key :: st⟩ := .inl rfl
  obtain ⟨key', hr⟩ := run_string_key hk hs
  refine ⟨key', ?_⟩
  rw [run_append, run_spaces rfl ha, run_append, hr, run_append, run_spaces rfl hb, run_cons,
    run_append]
  exact congrArg (fun s => run maxDepth float s ys) (run_spaces rfl hc)

mutual

theorem value_ends : ∀ {x : List PyChar}, ValueText x → ∀ st : List Container,
    Ends float maxDepth st (run maxDepth float ⟨.value, st⟩ x)
  | _, .literal h, st => by
      obtain ⟨v, hv⟩ := run_literal h
      rw [hv]
      exact Settled.ends (.inr ⟨v, rfl⟩)
  | _, .number h, st => run_number h
  | _, .string h, st => by
      obtain ⟨v, hv⟩ := run_string_value h
      rw [hv]
      exact Settled.ends (.inr ⟨v, rfl⟩)
  | _, .emptyArray h, st => by
      apply Settled.ends
      apply run_open rfl
      · exact fun s e he hesc => .inl ⟨e, he, hesc⟩
      · rw [run_append, run_spaces rfl h]
        exact .inr ⟨_, rfl⟩
  | _, .array h, st => by
      apply Settled.ends
      apply run_open rfl
      · exact fun s e he hesc => .inl ⟨e, he, hesc⟩
      · rw [items_first h]
        exact items_settled h [] st
  | _, .object h, st => (object_settled h st).settled.ends

theorem items_settled : ∀ {xs : List PyChar}, ItemTexts xs → ∀ (vs : List PyValue)
    (st : List Container),
    Settled st (run maxDepth float ⟨.value, .array vs :: st⟩ (xs ++ [.scalar ']']))
  | _, @ItemTexts.last a x b ha hx hb, vs, st => by
      rw [List.append_assoc, run_append, run_spaces rfl ha, List.append_assoc, run_append]
      apply (value_ends hx (.array vs :: st)).then_next hb (by decide)
      · exact fun s e he hesc => .inl ⟨e, he, hesc⟩
      · exact fun v => .inr ⟨_, rfl⟩
  | _, @ItemTexts.cons a x b ys ha hx hb h, vs, st => by
      rw [List.append_assoc, run_append, run_spaces rfl ha, List.append_assoc, run_append,
        List.append_assoc, List.cons_append]
      apply (value_ends hx (.array vs :: st)).then_next hb (by decide)
      · exact fun s e he hesc => .inl ⟨e, he, hesc⟩
      · exact fun v => items_settled h (vs ++ [v]) st

theorem object_settled : ∀ {o : List PyChar}, ObjectText o → ∀ st : List Container,
    SettledDict st (run maxDepth float ⟨.value, st⟩ o)
  | _, .empty h, st => by
      apply run_open rfl
      · exact fun s e he hesc => .inl ⟨e, he, hesc⟩
      · rw [run_append, run_spaces rfl h]
        exact .inr ⟨_, rfl⟩
  | _, .members h, st => by
      apply run_open rfl
      · exact fun s e he hesc => .inl ⟨e, he, hesc⟩
      · rw [members_first h]
        exact members_settled h [] ⟨[]⟩ st

theorem members_settled : ∀ {xs : List PyChar}, MemberTexts xs →
    ∀ (items : List (PyKey × PyValue)) (key : PyStr) (st : List Container),
    SettledDict st (run maxDepth float ⟨.key, .object items key :: st⟩ (xs ++ [.scalar '}']))
  | _, @MemberTexts.last a k b c x d ha hk hb hc hx hd, items, key, st => by
      obtain ⟨key', hr⟩ := run_member_name ha hk hb hc items key
      simp only [List.append_assoc, List.cons_append]
      rw [hr, run_append]
      apply (value_ends hx (.object items key' :: st)).then_next hd (by decide)
      · exact fun s e he hesc => .inl ⟨e, he, hesc⟩
      · exact fun v => .inr ⟨_, rfl⟩
  | _, @MemberTexts.cons a k b c x d ys ha hk hb hc hx hd h, items, key, st => by
      obtain ⟨key', hr⟩ := run_member_name ha hk hb hc items key
      simp only [List.append_assoc, List.cons_append]
      rw [hr, run_append]
      apply (value_ends hx (.object items key' :: st)).then_next hd (by decide)
      · exact fun s e he hesc => .inl ⟨e, he, hesc⟩
      · exact fun v => members_settled h (items ++ [(PyKey.str key', v)]) ⟨[]⟩ st

end

theorem run_rest (v : PyValue) (rest : List PyChar) :
    run maxDepth float ⟨.done v, []⟩ rest =
      if rest.all PyChar.isJsonSpace then ⟨.done v, []⟩ else ⟨.failed .jsonDecodeError, []⟩ := by
  induction rest with
  | nil => rfl
  | cons c rest ih =>
    cases hc : c.isJsonSpace with
    | true =>
      rw [run_cons, step_space rfl hc, ih, List.all_cons, hc, Bool.true_and]
    | false =>
      have hstep : step maxDepth float ⟨.done v, []⟩ c = ⟨.failed .jsonDecodeError, []⟩ := by
        simp only [step, afterValue, hc, Bool.false_eq_true, if_false]
        rfl
      rw [run_cons, hstep, List.all_cons, hc, Bool.false_and]
      exact run_failed rfl rest

end Values

section Outermost

def Mode.bare : Mode → Bool
  | .string _ _ _ _ => true
  | .number _ _ => true
  | .literal _ v => !v.isDict
  | .done v => !v.isDict
  | .failed _ => true
  | _ => false

def Rooted (st : List Container) : Prop := ∃ items, st.getLast? = some (.array items)

-- the outermost value is no object: an array is open outside everything, or it has no parts
def Bare (s : State) : Prop := (s.stack = [] ∧ s.mode.bare = true) ∨ Rooted s.stack

theorem rooted_push (c : Container) (h : Rooted st) : Rooted (c :: st) := by
  obtain ⟨items, h⟩ := h
  cases st with
  | nil => cases h
  | cons d st => exact ⟨items, by rwa [List.getLast?_cons_cons]⟩

theorem rooted_of_array {items : List PyValue} (h : Rooted (.array items :: st)) :
    st = [] ∨ Rooted st := by
  cases st with
  | nil => exact .inl rfl
  | cons d st =>
    obtain ⟨items', h⟩ := h
    exact .inr ⟨items', by rwa [List.getLast?_cons_cons] at h⟩

theorem rooted_of_object {items : List (PyKey × PyValue)} {key : PyStr}
    (h : Rooted (.object items key :: st)) : Rooted st := by
  obtain ⟨items', h⟩ := h
  cases st with
  | nil => cases h
  | cons d st => exact ⟨items', by rwa [List.getLast?_cons_cons] at h⟩

theorem rooted_array (items : List PyValue) {items' : List PyValue}
    (h : Rooted (.array items' :: st)) : Rooted (.array items :: st) := by
  rcases rooted_of_array h with rfl | h
  · exact ⟨items, rfl⟩
  · exact rooted_push _ h

theorem bare_fail {e : DecodeError} (h : Bare s) : Bare (s.fail e) := by
  rcases h with ⟨hs, _⟩ | h
  · exact .inl ⟨hs, rfl⟩
  · exact .inr h

theorem bare_mode {mode : Mode} (h : Bare s) (hm : mode.bare = true) :
    Bare { s with mode := mode } := by
  rcases h with ⟨hs, _⟩ | h
  · exact .inl ⟨hs, hm⟩
  · exact .inr h

theorem Bare.rooted {c : Container} (h : Bare s) (hs : s.stack = c :: st) : Rooted (c :: st) := by
  rcases h with ⟨hn, _⟩ | h
  · rw [hn] at hs
    cases hs
  · rwa [← hs]

theorem closeArray_bare {items : List PyValue} (v : PyValue) (hv : v.isDict = false)
    (h : Rooted (.array items :: st)) : Bare ⟨.done v, st⟩ := by
  rcases rooted_of_array h with rfl | h
  · exact .inl ⟨rfl, by rw [Mode.bare, hv]; rfl⟩
  · exact .inr h

theorem afterValue_bare {v : PyValue} {c : PyChar} (h : Bare s) : Bare (afterValue s v c) := by
  unfold afterValue
  split
  · exact h
  · split
    · rename_i hs _
      exact .inr (rooted_array _ (h.rooted hs))
    · rename_i hs _
      exact closeArray_bare _ rfl (h.rooted hs)
    · rename_i hs _
      exact .inr (rooted_push _ (rooted_of_object (h.rooted hs)))
    · rename_i hs _
      exact .inr (rooted_of_object (h.rooted hs))
    · exact bare_fail h

theorem endString_bare {read : List PyChar} {key : Bool} (h : Bare s) :
    Bare (endString s read key) := by
  unfold endString
  split
  · exact bare_mode h rfl
  · split
    · rename_i hs
      exact .inr (rooted_push _ (rooted_of_object (h.rooted hs)))
    · exact bare_fail h

theorem inString_bare {key : Bool} {read : List PyChar} {high : Bool} {escape : Escape}
    {c : PyChar} (h : Bare s) : Bare (inString s key read high escape c) := by
  unfold inString
  split
  · split
    · exact endString_bare h
    · split
      · exact bare_mode h rfl
      · split
        · exact bare_mode h rfl
        · exact bare_fail h
  · split
    · exact bare_mode h rfl
    · split
      · exact bare_mode h rfl
      · exact bare_fail h
  · split
    · exact bare_fail h
    · split
      · exact bare_mode h rfl
      · exact bare_mode h rfl
  · exact bare_fail h

theorem readInt_not_dict {text : List Char} {v : PyValue} (h : readInt text = .ok v) :
    v.isDict = false := by
  unfold readInt at h
  split at h <;> split at h <;> cases h <;> rfl

theorem cutShort_error {text : List Char} {v : PyValue} : cutShort text ≠ .ok v := by
  unfold cutShort
  split
  · simp
  · cases readInt (text.takeWhile fun c => c.isDigit || c = '-') <;> simp [Except.bind]

theorem endNumber_not_dict {text : List Char} {part : Part} {v : PyValue}
    (h : endNumber float text part = .ok v) : v.isDict = false := by
  cases part with
  | zero => exact readInt_not_dict h
  | digits => exact readInt_not_dict h
  | fraction => cases h; rfl
  | power => cases h; rfl
  | sign => cases h
  | dot => exact absurd h cutShort_error
  | mark => exact absurd h cutShort_error
  | markSign => exact absurd h cutShort_error

theorem settle_bare (h : Bare s) : Bare (settle float s) := by
  unfold settle
  split
  · split
    · rename_i hv
      exact bare_mode h (by rw [Mode.bare, endNumber_not_dict hv]; rfl)
    · exact bare_fail h
  · exact h

theorem inNumber_bare {text : List Char} {part : Part} {c : PyChar} (h : Bare s) :
    Bare (inNumber float s text part c) := by
  unfold inNumber
  split
  · exact bare_mode h rfl
  · split
    · exact bare_mode h rfl
    · split
      · exact afterValue_bare (settle_bare h)
      · exact settle_bare h

theorem inLiteral_bare {rest rest' : List Char} {v : PyValue} {c : PyChar} (h : Bare s)
    (hs : s.mode = .literal rest' v) : Bare (inLiteral s v c rest) := by
  unfold inLiteral
  split
  · exact bare_fail h
  · split
    · rcases h with ⟨hn, hv⟩ | h
      · rw [hs, Mode.bare] at hv
        refine .inl ⟨hn, ?_⟩
        split <;> exact hv
      · exact .inr h
    · exact bare_fail h

theorem closeEmpty_bare (h : Bare s) : Bare (closeEmpty s) := by
  unfold closeEmpty
  split
  · rename_i hs
    exact closeArray_bare _ rfl (h.rooted hs)
  · rename_i hs
    exact .inr (rooted_of_object (h.rooted hs))
  · exact bare_fail h

theorem openContainer_rooted {mode : Mode} {c : Container} (h : Rooted s.stack) :
    Bare (openContainer maxDepth s mode c) := by
  unfold openContainer
  split
  · exact .inr (rooted_push c h)
  · exact .inr h

theorem startValue_rooted {c : PyChar} (h : Rooted s.stack) : Bare (startValue maxDepth s c) := by
  unfold startValue
  split
  case h_2 => exact openContainer_rooted h
  case h_3 => exact openContainer_rooted h
  case h_10 => split <;> exact .inr h
  all_goals exact .inr h

theorem step_bare {c : PyChar} (h : Bare s) : Bare (step maxDepth float s c) := by
  unfold step
  split
  · exact h
  · exact afterValue_bare h
  · exact inString_bare h
  · exact inNumber_bare h
  · rename_i hs
    exact inLiteral_bare h hs
  · split
    · exact h
    · rename_i hf hd hstr hn hl _
      have hr : Rooted s.stack := by
        rcases h with ⟨_, hm⟩ | h
        · cases hmode : s.mode with
          | failed e => exact absurd hmode (hf e)
          | done v => exact absurd hmode (hd v)
          | string key read high escape => exact absurd hmode (hstr key read high escape)
          | number text part => exact absurd hmode (hn text part)
          | literal rest v => exact absurd hmode (hl rest v)
          | _ =>
            rw [hmode] at hm
            cases hm
        · exact h
      split
      · exact startValue_rooted hr
      · exact closeEmpty_bare h
      · exact startValue_rooted hr
      · exact closeEmpty_bare h
      · exact .inr hr
      · exact .inr hr
      · exact .inr hr
      · exact bare_fail h

theorem run_bare {text : List PyChar} (h : Bare s) : Bare (run maxDepth float s text) := by
  induction text generalizing s with
  | nil => exact h
  | cons c text ih => exact ih (step_bare h)

theorem settle_stack (s : State) : (settle float s).stack = s.stack := by
  unfold settle
  split
  · split <;> rfl
  · rfl

theorem finish_bare {v : PyValue} (h : Bare s) (hv : finish float s = .ok v) :
    v.isDict = false := by
  have hb : Bare (settle float s) := settle_bare h
  unfold finish at hv
  split at hv
  · rename_i w hm hn
    cases hv
    rcases hb with ⟨_, hb⟩ | ⟨items, hb⟩
    · rw [hm, Mode.bare] at hb
      simpa using hb
    · rw [settle_stack, hn] at hb
      cases hb
  · cases hv
  · cases hv

-- every value but an object begins with another character than a brace
theorem startValue_bare {c : PyChar} (hc : c ≠ .scalar '{') :
    Bare (startValue maxDepth ⟨.value, []⟩ c) := by
  unfold startValue
  split
  case h_2 => exact absurd rfl hc
  case h_3 =>
    unfold openContainer
    split
    · exact .inr ⟨[], rfl⟩
    · exact .inl ⟨rfl, rfl⟩
  case h_10 => split <;> exact .inl ⟨rfl, rfl⟩
  all_goals exact .inl ⟨rfl, rfl⟩

end Outermost

end Decoder

section Objects

variable {maxDepth : Nat} {float : List Char → PyFloat} {o : List PyChar}

theorem decode_eq (text : List PyChar) : decode maxDepth float text =
    Decoder.finish float (Decoder.run maxDepth float Decoder.start text) := rfl

-- the text of an object is read as one dict or raises past `except json.JSONDecodeError`, and
-- after it only space may follow
theorem decode_object (ho : ObjectText o) (maxDepth : Nat) (float : List Char → PyFloat) :
    (∃ e, e.escapes = true ∧ ∀ rest, decode maxDepth float (o ++ rest) = .error e) ∨
      ∃ items, ∀ rest, decode maxDepth float (o ++ rest) =
        if rest.all PyChar.isJsonSpace then .ok (.dict items) else .error .jsonDecodeError := by
  have hsettled : Decoder.SettledDict [] (Decoder.run maxDepth float Decoder.start o) :=
    Decoder.object_settled ho []
  rcases hsettled with ⟨e, he, hesc⟩ | ⟨items, hr⟩
  · refine .inl ⟨e, hesc, fun rest => ?_⟩
    rw [decode_eq, Decoder.run_append, Decoder.run_failed he, Decoder.finish,
      Decoder.settle_failed he, he]
  · refine .inr ⟨items, fun rest => ?_⟩
    rw [decode_eq, Decoder.run_append, hr, Decoder.run_rest]
    split <;> rfl

theorem decode_not_dict {c : PyChar} {text : List PyChar} {v : PyValue}
    (hs : c.isJsonSpace = false) (hc : c ≠ .scalar '{')
    (h : decode maxDepth float (c :: text) = .ok v) : v.isDict = false := by
  have hstep : Decoder.step maxDepth float Decoder.start c =
      Decoder.startValue maxDepth ⟨.value, []⟩ c := by
    simp only [Decoder.step, Decoder.start, hs, Bool.false_eq_true, if_false]
  rw [decode_eq, Decoder.run_cons, hstep] at h
  exact Decoder.finish_bare (Decoder.run_bare (Decoder.startValue_bare hc)) h

-- an integer past the digit limit is refused with a plain `ValueError`
theorem decode_long_integer {d : Char} {ds : List Char} (hd : d.isDigit = true) (hz : d ≠ '0')
    (hds : ∀ c ∈ ds, c.isDigit = true) (hlen : Decoder.maxStrDigits < (d :: ds).length) :
    decode maxDepth float ((d :: ds).map .scalar) = .error .valueError := by
  have hmem := Decoder.isDigit_mem hd
  have hstart : Decoder.step maxDepth float Decoder.start (.scalar d) =
      ⟨.number [d] .digits, []⟩ := by
    clear hd
    simp only [Decoder.decimals, List.mem_cons, List.not_mem_nil, or_false] at hmem
    rcases hmem with rfl | rfl | rfl | rfl | rfl | rfl | rfl | rfl | rfl | rfl
    · exact absurd rfl hz
    all_goals rfl
  have hread : Decoder.readInt (d :: ds) = .error .valueError := by
    have hsign : d ≠ '-' := by
      rintro rfl
      exact absurd hmem (by decide)
    unfold Decoder.readInt
    split
    · rename_i heq
      exact absurd (List.cons.inj heq).1 hsign
    · rw [if_neg (Nat.not_le.mpr hlen)]
  rw [decode_eq, List.map_cons, Decoder.run_cons, hstart, Decoder.run_integer hds,
    List.singleton_append, Decoder.finish, Decoder.settle]
  simp only [Decoder.endNumber, hread]
  rfl

end Objects

end DurableAgent
