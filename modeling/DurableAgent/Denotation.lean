import DurableAgent.Decoding

namespace DurableAgent

open Grammar

namespace Decoder

-- what the text of a string is read as, from what is read already
inductive BodyReads : List PyChar → Bool → List PyChar → List PyChar → Prop
  | nil {read : List PyChar} {high : Bool} : BodyReads read high [] read
  | plain {read cs r : List PyChar} {high : Bool} {c : PyChar} (hc : c.isPlain = true)
      (h : BodyReads (read ++ [c]) false cs r) : BodyReads read high (c :: cs) r
  | escape {read cs r : List PyChar} {high : Bool} {c c' : Char} (hc : unescape c = some c')
      (h : BodyReads (read ++ [.scalar c']) false cs r) :
      BodyReads read high (.scalar '\\' :: .scalar c :: cs) r
  | unicode {read cs r : List PyChar} {high : Bool} {a b c d : Char} {i j k l : Nat}
      (ha : hexValue a = some i) (hb : hexValue b = some j) (hc : hexValue c = some k)
      (hd : hexValue d = some l)
      (h : BodyReads (pushEscape read high (16 * (16 * (16 * i + j) + k) + l)).1
        (pushEscape read high (16 * (16 * (16 * i + j) + k) + l)).2 cs r) :
      BodyReads read high (.scalar '\\' :: .scalar 'u' :: .scalar a :: .scalar b :: .scalar c ::
        .scalar d :: cs) r

def Sign (s : List Char) : Prop := s = [] ∨ s = ['-']

inductive NumberReads (float : List Char → PyFloat) : List Char → PyValue → Prop
  | integer {sign w : List Char} {v : PyValue} (hs : Sign sign) (hw : Whole (w.map .scalar))
      (hv : readInt (sign ++ w) = .ok v) : NumberReads float (sign ++ w) v
  | real {sign w f e : List Char} (hs : Sign sign) (hw : Whole (w.map .scalar))
      (hf : Fraction (f.map .scalar)) (he : Exponent (e.map .scalar)) (hne : f ++ e ≠ []) :
      NumberReads float (sign ++ (w ++ (f ++ e))) (.float (float (sign ++ (w ++ (f ++ e)))))

-- the last three are beyond the standard
def literalValues : List (String × PyValue) :=
  [("null", .none), ("true", .bool true), ("false", .bool false), ("NaN", .float .nan),
    ("Infinity", .float .infinity), ("-Infinity", .float .negInfinity)]

mutual

-- a text under `n` open containers, and the value it denotes
inductive ValueReads (maxDepth : Nat) (float : List Char → PyFloat) :
    Nat → List PyChar → PyValue → Prop
  | literal {n : Nat} {s : String} {v : PyValue} (h : (s, v) ∈ literalValues) :
      ValueReads maxDepth float n (PyStr.ofString s).chars v
  | number {n : Nat} {text : List Char} {v : PyValue} (h : NumberReads float text v) :
      ValueReads maxDepth float n (text.map .scalar) v
  | string {n : Nat} {cs r : List PyChar} (h : BodyReads [] false cs r) :
      ValueReads maxDepth float n (.scalar '"' :: (cs ++ [.scalar '"'])) (.str ⟨r⟩)
  | emptyArray {n : Nat} {w : List PyChar} (hn : n < maxDepth) (h : Spaces w) :
      ValueReads maxDepth float n (.scalar '[' :: (w ++ [.scalar ']'])) (.list [])
  | array {n : Nat} {xs : List PyChar} {vs : List PyValue} (hn : n < maxDepth)
      (h : ItemsRead maxDepth float (n + 1) xs vs) :
      ValueReads maxDepth float n (.scalar '[' :: (xs ++ [.scalar ']'])) (.list vs)
  | emptyObject {n : Nat} {w : List PyChar} (hn : n < maxDepth) (h : Spaces w) :
      ValueReads maxDepth float n (.scalar '{' :: (w ++ [.scalar '}'])) (closeObject [])
  | object {n : Nat} {xs : List PyChar} {items : List (PyKey × PyValue)} (hn : n < maxDepth)
      (h : MembersRead maxDepth float (n + 1) xs items) :
      ValueReads maxDepth float n (.scalar '{' :: (xs ++ [.scalar '}'])) (closeObject items)

inductive ItemsRead (maxDepth : Nat) (float : List Char → PyFloat) :
    Nat → List PyChar → List PyValue → Prop
  | last {n : Nat} {a x b : List PyChar} {v : PyValue} (ha : Spaces a)
      (hx : ValueReads maxDepth float n x v) (hb : Spaces b) :
      ItemsRead maxDepth float n (a ++ (x ++ b)) [v]
  | cons {n : Nat} {a x b ys : List PyChar} {v : PyValue} {vs : List PyValue} (ha : Spaces a)
      (hx : ValueReads maxDepth float n x v) (hb : Spaces b)
      (h : ItemsRead maxDepth float n ys vs) :
      ItemsRead maxDepth float n (a ++ (x ++ (b ++ .scalar ',' :: ys))) (v :: vs)

inductive MembersRead (maxDepth : Nat) (float : List Char → PyFloat) :
    Nat → List PyChar → List (PyKey × PyValue) → Prop
  | last {n : Nat} {a k b c x d r : List PyChar} {v : PyValue} (ha : Spaces a)
      (hk : BodyReads [] false k r) (hb : Spaces b) (hc : Spaces c)
      (hx : ValueReads maxDepth float n x v) (hd : Spaces d) :
      MembersRead maxDepth float n
        (a ++ (.scalar '"' :: (k ++ .scalar '"' :: (b ++ .scalar ':' :: (c ++ (x ++ d))))))
        [(.str ⟨r⟩, v)]
  | cons {n : Nat} {a k b c x d r ys : List PyChar} {v : PyValue}
      {items : List (PyKey × PyValue)} (ha : Spaces a) (hk : BodyReads [] false k r)
      (hb : Spaces b) (hc : Spaces c) (hx : ValueReads maxDepth float n x v) (hd : Spaces d)
      (h : MembersRead maxDepth float n ys items) :
      MembersRead maxDepth float n
        (a ++ (.scalar '"' :: (k ++ .scalar '"' :: (b ++ .scalar ':' :: (c ++ (x ++
          (d ++ .scalar ',' :: ys))))))) ((.str ⟨r⟩, v) :: items)

end

variable {maxDepth : Nat} {float : List Char → PyFloat} {s : State} {st : List Container}

section Strings

theorem body_run {read cs r : List PyChar} {high : Bool} (h : BodyReads read high cs r)
    (key : Bool) : ∃ high', run maxDepth float ⟨.string key read high .none, st⟩ cs =
      ⟨.string key r high' .none, st⟩ := by
  induction h with
  | @nil read high => exact ⟨high, rfl⟩
  | plain hc _ ih =>
    rw [run_cons, step_plain hc]
    exact ih
  | @escape read cs r high c c' hc _ ih =>
    have hu : c ≠ 'u' := by
      rintro rfl
      cases hc
    have hrun : run maxDepth float ⟨.string key read high .none, st⟩ [.scalar '\\', .scalar c] =
        ⟨.string key (read ++ [.scalar c']) false .none, st⟩ := by
      simp [step, inString, hu, hc]
    rw [show .scalar '\\' :: .scalar c :: cs = [PyChar.scalar '\\', .scalar c] ++ cs from rfl,
      run_append, hrun]
    exact ih
  | @unicode read cs r high a b c d i j k l ha hb hc hd _ ih =>
    have hrun : run maxDepth float ⟨.string key read high .none, st⟩
        [.scalar '\\', .scalar 'u', .scalar a, .scalar b, .scalar c, .scalar d] =
        ⟨.string key (pushEscape read high (16 * (16 * (16 * i + j) + k) + l)).1
          (pushEscape read high (16 * (16 * (16 * i + j) + k) + l)).2 .none, st⟩ := by
      simp [step, inString, ha, hb, hc, hd]
    rw [show .scalar '\\' :: .scalar 'u' :: .scalar a :: .scalar b :: .scalar c :: .scalar d :: cs =
      [PyChar.scalar '\\', .scalar 'u', .scalar a, .scalar b, .scalar c, .scalar d] ++ cs from rfl,
      run_append, hrun]
    exact ih

theorem quoted_run {cs r ys : List PyChar} (h : BodyReads [] false cs r) (key : Bool) :
    ∃ high, run maxDepth float ⟨.string key [] false .none, st⟩ (cs ++ .scalar '"' :: ys) =
      run maxDepth float (endString ⟨.string key r high .none, st⟩ r key) ys := by
  obtain ⟨high, hr⟩ := body_run h key
  refine ⟨high, ?_⟩
  rw [run_append, hr, run_cons]
  rfl

end Strings

section Numbers

def Part.run (part : Part) (cs : List Char) : Option Part := cs.foldlM Part.next part

theorem number_run {part part' : Part} {cs : List Char} (h : part.run cs = some part')
    (text : List Char) :
    run maxDepth float ⟨.number text part, st⟩ (cs.map .scalar) =
      ⟨.number (text ++ cs) part', st⟩ := by
  induction cs generalizing part text with
  | nil =>
    obtain rfl := Option.some.inj h
    rw [List.map_nil, run_nil, List.append_nil]
  | cons c cs ih =>
    rw [Part.run, List.foldlM_cons] at h
    obtain ⟨next, hn, hrest⟩ := Option.bind_eq_some_iff.mp h
    have hstep : nextPart part (.scalar c) = some (c, next) := by
      rw [nextPart, hn, Option.map_some]
    rw [List.map_cons, run_cons, step_digit hstep, ih hrest, List.append_assoc,
      List.singleton_append]

theorem Part.run_append {part part' part'' : Part} {cs ds : List Char}
    (h : part.run cs = some part') (h' : part'.run ds = some part'') :
    part.run (cs ++ ds) = some part'' := by
  rw [Part.run, List.foldlM_append]
  exact Option.bind_eq_some_iff.mpr ⟨part', h, h'⟩

theorem digits_part {part : Part} (hp : ∀ d : Char, d.isDigit = true → part.next d = some part)
    {ds : List Char} (hds : ∀ d ∈ ds, d.isDigit = true) : part.run ds = some part := by
  induction ds with
  | nil => rfl
  | cons d ds ih =>
    have hd : part.run [d] = some part := by
      rw [Part.run, List.foldlM_cons, hp d (hds d List.mem_cons_self)]
      rfl
    exact Part.run_append hd (ih fun e he => hds e (List.mem_cons_of_mem d he))

theorem map_scalar_digits {ds : List Char} (h : ∀ d ∈ ds.map PyChar.scalar, d.isDigit = true) :
    ∀ d ∈ ds, d.isDigit = true := fun d hd => h (.scalar d) (List.mem_map_of_mem hd)

theorem some_digits_part {part part' : Part} {ds : List Char} (hds : Digits (ds.map .scalar))
    (hp : ∀ d : Char, d.isDigit = true → part.next d = some part' ∧ part'.next d = some part') :
    part.run ds = some part' := by
  have hall := map_scalar_digits hds.2
  cases ds with
  | nil => exact absurd rfl hds.1
  | cons d ds =>
    have hd := hp d (hall d List.mem_cons_self)
    have hfirst : part.run [d] = some part' := by
      rw [Part.run, List.foldlM_cons, hd.1]
      rfl
    exact Part.run_append hfirst
      (digits_part (fun e he => (hp e he).2) fun e he => hall e (List.mem_cons_of_mem d he))

theorem whole_inv {w : List Char} (h : Whole (w.map .scalar)) :
    w = ['0'] ∨ ∃ c ds, w = c :: ds ∧ c.isDigit = true ∧ c ≠ '0' ∧
      ∀ d ∈ ds, d.isDigit = true := by
  generalize hx : w.map PyChar.scalar = x at h
  cases h with
  | zero =>
    obtain ⟨c, rfl, hc⟩ := List.map_eq_singleton_iff.mp hx
    cases hc
    exact .inl rfl
  | @digits c ds hc hz hds =>
    obtain ⟨c', ds', rfl, hc', rfl⟩ := List.map_eq_cons_iff.mp hx
    cases hc'
    exact .inr ⟨_, ds', rfl, hc, hz, map_scalar_digits hds⟩

theorem fraction_inv {f : List Char} (h : Fraction (f.map .scalar)) :
    f = [] ∨ ∃ ds, f = '.' :: ds ∧ Digits (ds.map .scalar) := by
  generalize hx : f.map PyChar.scalar = x at h
  cases h with
  | absent => exact .inl (List.map_eq_nil_iff.mp hx)
  | digits hds =>
    obtain ⟨c, ds, rfl, hc, rfl⟩ := List.map_eq_cons_iff.mp hx
    cases hc
    exact .inr ⟨ds, rfl, hds⟩

theorem exponent_inv {e : List Char} (h : Exponent (e.map .scalar)) :
    e = [] ∨ ∃ m sign ds, e = m :: (sign ++ ds) ∧ (m = 'e' ∨ m = 'E') ∧
      (sign = [] ∨ sign = ['+'] ∨ sign = ['-']) ∧ Digits (ds.map .scalar) := by
  generalize hx : e.map PyChar.scalar = x at h
  cases h with
  | absent => exact .inl (List.map_eq_nil_iff.mp hx)
  | digits hm hds =>
    obtain ⟨c, ds, rfl, hc, rfl⟩ := List.map_eq_cons_iff.mp hx
    cases hc
    exact .inr ⟨_, [], ds, rfl, hm, .inl rfl, hds⟩
  | signed hm hs hds =>
    obtain ⟨c, rest, rfl, hc, hrest⟩ := List.map_eq_cons_iff.mp hx
    obtain ⟨d, ds, rfl, hd, rfl⟩ := List.map_eq_cons_iff.mp hrest
    cases hc
    cases hd
    refine .inr ⟨_, [_], ds, rfl, hm, .inr ?_, hds⟩
    rcases hs with rfl | rfl
    · exact .inl rfl
    · exact .inr rfl

theorem whole_part {w : List Char} (h : Whole (w.map .scalar)) :
    ∃ part, (part = .zero ∨ part = .digits) ∧ Part.run .sign w = some part := by
  rcases whole_inv h with rfl | ⟨c, ds, rfl, hc, hz, hds⟩
  · exact ⟨.zero, .inl rfl, rfl⟩
  · refine ⟨.digits, .inr rfl, ?_⟩
    have hfirst : Part.run .sign [c] = some .digits := by
      rw [Part.run, List.foldlM_cons, next_sign hc, if_neg hz]
      rfl
    exact Part.run_append hfirst (digits_part (fun d hd => next_whole hd) hds)

theorem fraction_part {f : List Char} (h : Fraction (f.map .scalar)) {part : Part}
    (hp : part = .zero ∨ part = .digits) :
    ∃ part', part.run f = some part' ∧ part' = if f = [] then part else .fraction := by
  rcases fraction_inv h with rfl | ⟨ds, rfl, hds⟩
  · exact ⟨part, rfl, rfl⟩
  · refine ⟨.fraction, ?_, rfl⟩
    have hdot : part.run ['.'] = some .dot := by rcases hp with rfl | rfl <;> rfl
    exact Part.run_append hdot (some_digits_part hds fun d h => ⟨if_pos h, if_pos h⟩)

theorem exponent_part {e : List Char} (h : Exponent (e.map .scalar)) {part : Part}
    (hp : part = .zero ∨ part = .digits ∨ part = .fraction) :
    ∃ part', part.run e = some part' ∧ part' = if e = [] then part else .power := by
  rcases exponent_inv h with rfl | ⟨m, sign, ds, rfl, hm, hs, hds⟩
  · exact ⟨part, rfl, rfl⟩
  · refine ⟨.power, ?_, rfl⟩
    have hmark : part.run [m] = some .mark := by
      rcases hp with rfl | rfl | rfl <;> rcases hm with rfl | rfl <;> rfl
    refine Part.run_append hmark ?_
    rcases hs with rfl | rfl | rfl
    · exact some_digits_part hds fun d h => ⟨if_pos h, if_pos h⟩
    · exact Part.run_append (show Part.run .mark ['+'] = some .markSign from rfl)
        (some_digits_part hds fun d h => ⟨if_pos h, if_pos h⟩)
    · exact Part.run_append (show Part.run .mark ['-'] = some .markSign from rfl)
        (some_digits_part hds fun d h => ⟨if_pos h, if_pos h⟩)

theorem reads_parts {text : List Char} {v : PyValue} (h : NumberReads float text v) :
    ∃ sign rest part, text = sign ++ rest ∧ Sign sign ∧
      (∃ c cs, rest = c :: cs ∧ c.isDigit = true) ∧ Part.run .sign rest = some part ∧
      part.complete = true ∧ endNumber float text part = .ok v := by
  have head {w : List Char} (more : List Char) (hw : Whole (w.map .scalar)) :
      ∃ c cs, w ++ more = c :: cs ∧ c.isDigit = true := by
    rcases whole_inv hw with rfl | ⟨c, ds, rfl, hc, _⟩
    · exact ⟨'0', more, rfl, rfl⟩
    · exact ⟨c, ds ++ more, rfl, hc⟩
  cases h with
  | @integer sign w v hs hw hv =>
    obtain ⟨part, hp, hrun⟩ := whole_part hw
    have hhead : ∃ c cs, w = c :: cs ∧ c.isDigit = true := by
      simpa only [List.append_nil] using head [] hw
    refine ⟨sign, w, part, rfl, hs, hhead, hrun, ?_, ?_⟩
    · rcases hp with rfl | rfl <;> rfl
    · rcases hp with rfl | rfl <;> exact hv
  | @real sign w f e hs hw hf he hne =>
    obtain ⟨part, hp, hrun⟩ := whole_part hw
    obtain ⟨part', hrun', hp'⟩ := fraction_part hf hp
    have hmid : part' = .zero ∨ part' = .digits ∨ part' = .fraction := by
      rw [hp']
      split
      · rcases hp with rfl | rfl <;> simp
      · simp
    obtain ⟨part'', hrun'', hp''⟩ := exponent_part he hmid
    refine ⟨sign, _, part'', rfl, hs, head _ hw,
      Part.run_append hrun (Part.run_append hrun' hrun''), ?_⟩
    by_cases hempty : e = []
    · rw [if_pos hempty] at hp''
      have hfull : f ≠ [] := by
        rintro rfl
        exact hne (by rw [hempty]; rfl)
      rw [if_neg hfull] at hp'
      rw [hp'', hp']
      exact ⟨rfl, rfl⟩
    · rw [if_neg hempty] at hp''
      rw [hp'']
      exact ⟨rfl, rfl⟩

theorem start_number {c : Char} {cs : List Char} {part : Part} (hc : c.isDigit = true)
    (h : Part.run .sign (c :: cs) = some part) (sign : List Char) (hs : Sign sign) :
    run maxDepth float ⟨.value, st⟩ ((sign ++ c :: cs).map .scalar) =
      ⟨.number (sign ++ c :: cs) part, st⟩ := by
  rcases hs with rfl | rfl
  · have hstep : step maxDepth float ⟨.value, st⟩ (.scalar c) =
        ⟨.number [c] (if c = '0' then .zero else .digits), st⟩ := by
      have hmem := isDigit_mem hc
      clear hc h
      simp only [decimals, List.mem_cons, List.not_mem_nil, or_false] at hmem
      rcases hmem with rfl | rfl | rfl | rfl | rfl | rfl | rfl | rfl | rfl | rfl <;> rfl
    rw [Part.run, List.foldlM_cons, next_sign hc] at h
    rw [List.nil_append, List.map_cons, run_cons, hstep, number_run h]
    rfl
  · rw [List.singleton_append, List.map_cons, run_cons]
    exact number_run h ['-']

theorem reads_number {text : List Char} {v : PyValue} (h : NumberReads float text v) :
    ∃ part, run maxDepth float ⟨.value, st⟩ (text.map .scalar) = ⟨.number text part, st⟩ ∧
      part.complete = true ∧ endNumber float text part = .ok v := by
  obtain ⟨sign, rest, part, rfl, hs, ⟨c, cs, rfl, hc⟩, hrun, hcomplete, hend⟩ := reads_parts h
  exact ⟨part, start_number hc hrun sign hs, hcomplete, hend⟩

end Numbers

section Values

-- settled on one value, if only by what comes next
structure Holds (float : List Char → PyFloat) (maxDepth : Nat) (st : List Container) (v : PyValue)
    (s : State) : Prop where
  ends : Ends float maxDepth st s
  value : settle float s = ⟨.done v, st⟩

theorem Holds.of_done {v : PyValue} (h : s = ⟨.done v, st⟩) : Holds float maxDepth st v s :=
  ⟨Settled.ends (.inr ⟨v, h⟩), by rw [h]; rfl⟩

theorem Holds.next {v : PyValue} {w : List PyChar} {d : Char} (h : Holds float maxDepth st v s)
    (hw : Spaces w) (hd : d ∈ delimiters) (ys : List PyChar) :
    run maxDepth float s (w ++ .scalar d :: ys) =
      run maxDepth float (afterValue ⟨.done v, st⟩ v (.scalar d)) ys := by
  rw [h.ends.run_next hw hd, h.value]
  rfl

theorem Holds.finish {v : PyValue} {b : List PyChar} (h : Holds float maxDepth [] v s)
    (hb : Spaces b) : finish float (run maxDepth float s b) = .ok v := by
  have hstack : (settle float s).stack = s.stack := settle_stack s
  rw [h.value] at hstack
  cases b with
  | nil => simp only [run_nil, Decoder.finish, h.value, ← hstack]
  | cons c b =>
    rw [run_cons, h.ends.next c (.inl (hb c List.mem_cons_self)), h.value, ← run_cons,
      run_spaces rfl hb]
    rfl

theorem literal_run {x : String} {v : PyValue} (h : (x, v) ∈ literalValues) :
    run maxDepth float ⟨.value, st⟩ (PyStr.ofString x).chars = ⟨.done v, st⟩ := by
  simp only [literalValues, List.mem_cons, Prod.mk.injEq, List.not_mem_nil, or_false] at h
  rcases h with ⟨rfl, rfl⟩ | ⟨rfl, rfl⟩ | ⟨rfl, rfl⟩ | ⟨rfl, rfl⟩ | ⟨rfl, rfl⟩ | ⟨rfl, rfl⟩ <;> rfl

theorem number_holds {text : List Char} {v : PyValue} (h : NumberReads float text v) :
    Holds float maxDepth st v (run maxDepth float ⟨.value, st⟩ (text.map .scalar)) := by
  have hreads : ∃ part, run maxDepth float ⟨.value, st⟩ (text.map .scalar) =
      ⟨.number text part, st⟩ ∧ part.complete = true ∧ endNumber float text part = .ok v :=
    reads_number h
  obtain ⟨part, hr, hcomplete, hend⟩ := hreads
  rw [hr]
  refine ⟨number_ends hcomplete, ?_⟩
  simp only [settle, hend]

theorem reads_head {n : Nat} {x : List PyChar} {v : PyValue}
    (h : ValueReads maxDepth float n x v) :
    ∃ c cs, x = c :: cs ∧ c.isJsonSpace = false ∧ c ≠ .scalar ']' := by
  cases h with
  | @literal _ s v h =>
    simp only [literalValues, List.mem_cons, Prod.mk.injEq, List.not_mem_nil, or_false] at h
    rcases h with ⟨rfl, rfl⟩ | ⟨rfl, rfl⟩ | ⟨rfl, rfl⟩ | ⟨rfl, rfl⟩ | ⟨rfl, rfl⟩ | ⟨rfl, rfl⟩ <;>
      exact ⟨_, _, rfl, rfl, by decide⟩
  | number h =>
    obtain ⟨sign, rest, part, rfl, hs, ⟨c, cs, rfl, hc⟩, _⟩ := reads_parts h
    rcases hs with rfl | rfl
    · exact ⟨_, _, rfl, digit_head hc⟩
    · exact ⟨_, _, rfl, rfl, by decide⟩
  | string _ => exact ⟨_, _, rfl, rfl, by decide⟩
  | emptyArray _ _ => exact ⟨_, _, rfl, rfl, by decide⟩
  | array _ _ => exact ⟨_, _, rfl, rfl, by decide⟩
  | emptyObject _ _ => exact ⟨_, _, rfl, rfl, by decide⟩
  | object _ _ => exact ⟨_, _, rfl, rfl, by decide⟩

theorem items_read_first {n : Nat} {xs : List PyChar} {vs : List PyValue}
    (h : ItemsRead maxDepth float n xs vs) (ys : List PyChar) :
    run maxDepth float ⟨.firstValue, st⟩ (xs ++ ys) = run maxDepth float ⟨.value, st⟩ (xs ++ ys) := by
  have first {a x more : List PyChar} {v : PyValue} (ha : Spaces a)
      (hx : ValueReads maxDepth float n x v) :
      run maxDepth float ⟨.firstValue, st⟩ (a ++ (x ++ more)) =
        run maxDepth float ⟨.value, st⟩ (a ++ (x ++ more)) := by
    obtain ⟨c, cs, rfl, hc, hne⟩ := reads_head hx
    rw [run_append, run_spaces rfl ha, run_append (s := ⟨.value, st⟩), run_spaces rfl ha,
      List.cons_append, run_cons, run_cons, step_firstValue hc hne]
  cases h with
  | last ha hx hb =>
    rw [List.append_assoc, List.append_assoc]
    exact first ha hx
  | cons ha hx hb h =>
    rw [List.append_assoc, List.append_assoc]
    exact first ha hx

theorem members_read_first {n : Nat} {xs : List PyChar} {items new : List (PyKey × PyValue)}
    (h : MembersRead maxDepth float n xs new) (key : PyStr) (ys : List PyChar) :
    run maxDepth float ⟨.firstKey, .object items key :: st⟩ (xs ++ ys) =
      run maxDepth float ⟨.key, .object items key :: st⟩ (xs ++ ys) := by
  have first {a more : List PyChar} (ha : Spaces a) :
      run maxDepth float ⟨.firstKey, .object items key :: st⟩ (a ++ .scalar '"' :: more) =
        run maxDepth float ⟨.key, .object items key :: st⟩ (a ++ .scalar '"' :: more) := by
    rw [run_append, run_spaces rfl ha, run_append (s := ⟨.key, _⟩), run_spaces rfl ha]
    rfl
  cases h with
  | last ha hk =>
    rw [List.append_assoc, List.cons_append]
    exact first ha
  | cons ha hk =>
    rw [List.append_assoc, List.cons_append]
    exact first ha

theorem open_run {mode : Mode} {c : Container} {d : Char} (hn : st.length < maxDepth)
    (hstep : step maxDepth float ⟨.value, st⟩ (.scalar d) =
      openContainer maxDepth ⟨.value, st⟩ mode c) (ys : List PyChar) :
    run maxDepth float ⟨.value, st⟩ (.scalar d :: ys) =
      run maxDepth float ⟨mode, c :: st⟩ ys := by
  rw [run_cons, hstep, openContainer, if_pos hn]

theorem member_name_run {a k b c r ys : List PyChar} (ha : Spaces a) (hk : BodyReads [] false k r)
    (hb : Spaces b) (hc : Spaces c) (items : List (PyKey × PyValue)) (key : PyStr) :
    run maxDepth float ⟨.key, .object items key :: st⟩
        (a ++ (.scalar '"' :: (k ++ .scalar '"' :: (b ++ .scalar ':' :: (c ++ ys))))) =
      run maxDepth float ⟨.value, .object items ⟨r⟩ :: st⟩ ys := by
  have hquote : step maxDepth float ⟨.key, .object items key :: st⟩ (.scalar '"') =
      ⟨.string true [] false .none, .object items key :: st⟩ := rfl
  have hname : ∃ high, run maxDepth float ⟨.string true [] false .none, .object items key :: st⟩
      (k ++ .scalar '"' :: (b ++ .scalar ':' :: (c ++ ys))) =
      run maxDepth float (endString ⟨.string true r high .none, .object items key :: st⟩ r true)
        (b ++ .scalar ':' :: (c ++ ys)) := quoted_run hk true
  obtain ⟨high, hr⟩ := hname
  rw [run_append, run_spaces rfl ha, run_cons, hquote, hr]
  have hcolon : run maxDepth float ⟨.colon, .object items ⟨r⟩ :: st⟩ (b ++ .scalar ':' :: (c ++ ys)) =
      run maxDepth float ⟨.value, .object items ⟨r⟩ :: st⟩ (c ++ ys) := by
    rw [run_append, run_spaces rfl hb, run_cons]
    rfl
  rw [show endString ⟨.string true r high .none, .object items key :: st⟩ r true =
    ⟨.colon, .object items ⟨r⟩ :: st⟩ from rfl, hcolon, run_append, run_spaces rfl hc]

mutual

theorem value_run : ∀ {n : Nat} {x : List PyChar} {v : PyValue}, ValueReads maxDepth float n x v →
    ∀ st : List Container, st.length = n →
    Holds float maxDepth st v (run maxDepth float ⟨.value, st⟩ x)
  | _, _, _, .literal h, st, _ => .of_done (literal_run h)
  | _, _, _, .number h, st, _ => number_holds h
  | _, _, _, @ValueReads.string _ _ _ cs r h, st, _ => by
      have hquoted : ∃ high, run maxDepth float ⟨.string false [] false .none, st⟩
          (cs ++ [.scalar '"']) =
          run maxDepth float (endString ⟨.string false r high .none, st⟩ r false) [] :=
        quoted_run h false
      obtain ⟨high, hr⟩ := hquoted
      exact .of_done hr
  | _, _, _, .emptyArray hn h, st, hst => by
      apply Holds.of_done
      rw [open_run (hst ▸ hn) rfl, run_append, run_spaces rfl h]
      rfl
  | _, _, _, .array hn h, st, hst => by
      apply Holds.of_done
      rw [open_run (hst ▸ hn) rfl, items_read_first h]
      exact items_run h [] st (by rw [hst])
  | _, _, _, .emptyObject hn h, st, hst => by
      apply Holds.of_done
      rw [open_run (hst ▸ hn) rfl, run_append, run_spaces rfl h]
      rfl
  | _, _, _, .object hn h, st, hst => by
      apply Holds.of_done
      rw [open_run (hst ▸ hn) rfl, members_read_first h]
      exact members_run h [] ⟨[]⟩ st (by rw [hst])

theorem items_run : ∀ {n : Nat} {xs : List PyChar} {vs : List PyValue},
    ItemsRead maxDepth float n xs vs → ∀ (us : List PyValue) (st : List Container),
    st.length + 1 = n →
    run maxDepth float ⟨.value, .array us :: st⟩ (xs ++ [.scalar ']']) =
      ⟨.done (.list (us ++ vs)), st⟩
  | _, _, _, .last ha hx hb, us, st, hst => by
      rw [List.append_assoc, run_append, run_spaces rfl ha, List.append_assoc, run_append,
        (value_run hx (.array us :: st) hst).next hb (by decide)]
      rfl
  | _, _, _, @ItemsRead.cons _ _ _ a x b ys v vs ha hx hb h, us, st, hst => by
      rw [List.append_assoc, run_append, run_spaces rfl ha, List.append_assoc, run_append,
        List.append_assoc, List.cons_append,
        (value_run hx (.array us :: st) hst).next hb (by decide)]
      have hrest := items_run h (us ++ [v]) st hst
      rw [List.append_assoc, List.singleton_append] at hrest
      exact hrest

theorem members_run : ∀ {n : Nat} {xs : List PyChar} {new : List (PyKey × PyValue)},
    MembersRead maxDepth float n xs new → ∀ (items : List (PyKey × PyValue)) (key : PyStr)
    (st : List Container), st.length + 1 = n →
    run maxDepth float ⟨.key, .object items key :: st⟩ (xs ++ [.scalar '}']) =
      ⟨.done (closeObject (items ++ new)), st⟩
  | _, _, _, @MembersRead.last _ _ _ a k b c x d r v ha hk hb hc hx hd, items, key, st, hst => by
      simp only [List.append_assoc, List.cons_append]
      rw [member_name_run ha hk hb hc, run_append,
        (value_run hx (.object items ⟨r⟩ :: st) hst).next hd (by decide)]
      rfl
  | _, _, _, @MembersRead.cons _ _ _ a k b c x d r ys v new ha hk hb hc hx hd h, items, key, st,
      hst => by
      simp only [List.append_assoc, List.cons_append]
      rw [member_name_run ha hk hb hc, run_append,
        (value_run hx (.object items ⟨r⟩ :: st) hst).next hd (by decide)]
      have hrest := members_run h (items ++ [(.str ⟨r⟩, v)]) ⟨[]⟩ st hst
      rw [List.append_assoc, List.singleton_append] at hrest
      exact hrest

end

end Values

end Decoder

end DurableAgent
