import DurableAgent.Corrections

namespace DurableAgent

open Decoder Grammar

variable {α : Type} {maxDepth : Nat} {float : List Char → PyFloat}

section Edges

theorem not_space_of_digit {c : PyChar} (h : c.isDigit = true) : c.isSpace = false := by
  cases c with
  | surrogate n => rfl
  | scalar c =>
    have hrange : 48 ≤ c.toNat ∧ c.toNat ≤ 57 := by
      simpa [PyChar.isDigit, Char.isDigit, UInt32.le_iff_toNat_le] using h
    simp only [PyChar.isSpace, spaces, List.contains_eq_mem, decide_eq_false_iff_not, List.mem_cons,
      List.not_mem_nil, or_false]
    omega

-- the characters a text starts and ends with are not stripped
def Solid (x : List PyChar) : Prop :=
  (∃ c cs, x = c :: cs ∧ c.isSpace = false) ∧ ∃ cs c, x = cs ++ [c] ∧ c.isSpace = false

theorem solid_of_all {x : List PyChar} (hne : x ≠ []) (h : ∀ c ∈ x, c.isSpace = false) :
    Solid x := by
  refine ⟨?_, x.dropLast, x.getLast hne, (List.dropLast_append_getLast hne).symm,
    h _ (List.getLast_mem hne)⟩
  obtain ⟨c, cs, rfl⟩ := List.exists_cons_of_ne_nil hne
  exact ⟨c, cs, rfl, h c List.mem_cons_self⟩

theorem solid_between {c d : PyChar} (hc : c.isSpace = false) (hd : d.isSpace = false)
    (cs : List PyChar) : Solid (c :: (cs ++ [d])) :=
  ⟨⟨c, cs ++ [d], rfl, hc⟩, c :: cs, d, rfl, hd⟩

theorem whole_solid {w : List PyChar} (h : Whole w) : ∀ c ∈ w, c.isSpace = false := by
  cases h with
  | zero =>
    intro c hc
    rw [List.mem_singleton.mp hc]
    rfl
  | digits hc _ hds =>
    intro d hd
    rcases List.mem_cons.mp hd with rfl | hd
    · exact not_space_of_digit hc
    · exact not_space_of_digit (hds d hd)

theorem fraction_solid {f : List PyChar} (h : Fraction f) : ∀ c ∈ f, c.isSpace = false := by
  cases h with
  | absent =>
    intro c hc
    cases hc
  | digits hds =>
    intro c hc
    rcases List.mem_cons.mp hc with rfl | hc
    · rfl
    · exact not_space_of_digit (hds.2 c hc)

theorem exponent_solid {e : List PyChar} (h : Exponent e) : ∀ c ∈ e, c.isSpace = false := by
  cases h with
  | absent =>
    intro c hc
    cases hc
  | digits hm hds =>
    intro c hc
    rcases List.mem_cons.mp hc with rfl | hc
    · rcases hm with rfl | rfl <;> rfl
    · exact not_space_of_digit (hds.2 c hc)
  | signed hm hs hds =>
    intro c hc
    rcases List.mem_cons.mp hc with rfl | hc
    · rcases hm with rfl | rfl <;> rfl
    · rcases List.mem_cons.mp hc with rfl | hc
      · rcases hs with rfl | rfl <;> rfl
      · exact not_space_of_digit (hds.2 c hc)

theorem sign_solid {s : List Char} (h : Sign s) : ∀ c ∈ s.map PyChar.scalar, c.isSpace = false := by
  rcases h with rfl | rfl
  · intro c hc
    cases hc
  · intro c hc
    rw [List.mem_singleton.mp hc]
    rfl

theorem number_solid {text : List Char} {v : PyValue} (h : NumberReads float text v) :
    Solid (text.map .scalar) := by
  have hne {w : List Char} (hw : Whole (w.map .scalar)) : w ≠ [] := by
    rintro rfl
    cases hw
  cases h with
  | @integer sign w v hs hw hv =>
    refine solid_of_all ?_ ?_
    · simp [hne hw]
    · intro c hc
      rw [List.map_append] at hc
      rcases List.mem_append.mp hc with hc | hc
      · exact sign_solid hs c hc
      · exact whole_solid hw c hc
  | @real sign w f e hs hw hf he _ =>
    refine solid_of_all ?_ ?_
    · simp [hne hw]
    · intro c hc
      simp only [List.map_append, List.mem_append] at hc
      rcases hc with hc | hc | hc | hc
      · exact sign_solid hs c hc
      · exact whole_solid hw c hc
      · exact fraction_solid hf c hc
      · exact exponent_solid he c hc

theorem value_solid {n : Nat} {x : List PyChar} {v : PyValue}
    (h : ValueReads maxDepth float n x v) : Solid x := by
  cases h with
  | @literal _ s v h =>
    simp only [literalValues, List.mem_cons, Prod.mk.injEq, List.not_mem_nil, or_false] at h
    rcases h with ⟨rfl, rfl⟩ | ⟨rfl, rfl⟩ | ⟨rfl, rfl⟩ | ⟨rfl, rfl⟩ | ⟨rfl, rfl⟩ | ⟨rfl, rfl⟩ <;>
      exact solid_of_all (by decide) (by decide)
  | number h => exact number_solid h
  | string _ => exact solid_between rfl rfl _
  | emptyArray _ _ => exact solid_between rfl rfl _
  | array _ _ => exact solid_between rfl rfl _
  | emptyObject _ _ => exact solid_between rfl rfl _
  | object _ _ => exact solid_between rfl rfl _

-- stripping a document leaves the text of its value
theorem strip_document {a x b : List PyChar} (ha : Spaces a) (hx : Solid x) (hb : Spaces b) :
    stripChars (a ++ (x ++ b)) = x := by
  obtain ⟨⟨c, cs, hhead, hc⟩, ds, d, hlast, hd⟩ := hx
  have hlead : a.dropWhile PyChar.isSpace = [] :=
    List.dropWhile_eq_nil_iff.mpr fun c hc => isSpace_of_json (ha c hc)
  have htrail : b.rdropWhile PyChar.isSpace = [] :=
    List.rdropWhile_eq_nil_iff.mpr fun c hc => isSpace_of_json (hb c hc)
  rw [stripChars, List.dropWhile_append, hlead, List.isEmpty_nil, if_pos rfl]
  have hkeep : (x ++ b).dropWhile PyChar.isSpace = x ++ b := by
    rw [hhead, List.cons_append, List.dropWhile_cons_of_neg (by simp [hc])]
  rw [hkeep, hlast, List.append_assoc, List.singleton_append, rdropWhile_append ds hd, htrail]

theorem decode_strip {text : List PyChar} {v : PyValue} (h : decode maxDepth float text = .ok v) :
    decode maxDepth float (stripChars text) = .ok v := by
  obtain ⟨a, x, b, rfl, ha, hx, hb⟩ := decode_ok_iff.mp h
  rw [strip_document ha (value_solid hx) hb]
  exact decode_reads hx

end Edges

section Reading

-- a reply that is one document is read as that document, whatever else is found in it
theorem parse_document {schema : BaseModel α} {text : List PyChar} {v : PyValue} {a : α}
    (hd : decode maxDepth float text = .ok v) (ht : Tolerated maxDepth float text)
    (ha : schema.validate v = .ok a) :
    parseOrFaults maxDepth float schema text = .ok (some a, []) := by
  have hfirst : (candidateTexts text).reverse =
      stripChars text :: (fences text ++ spans text).reverse := by
    rw [candidateTexts, ← List.append_assoc, List.reverse_append]
    rfl
  have haccepts : schema.accepts maxDepth float (stripChars text) = some a := by
    rw [BaseModel.accepts, decode_strip hd]
    simp only [ha]
    rfl
  apply parse_accepted ht
  rw [hfirst, List.findSome?_cons, haccepts]

-- what `json.dumps` writes of an answer is accepted as what `json.loads` makes of it
theorem parse_dumped {schema : BaseModel α} {answer : PyValue} {j : Json} {a : α}
    (hj : toJson answer = some j) (hdepth : j.depth ≤ maxDepth)
    (hfloats : ReadFloats float j.floats)
    (ht : Tolerated maxDepth float (j.written asciiEscape))
    (ha : schema.validate (loads j) = .ok a) :
    parseReply maxDepth float schema ⟨j.written asciiEscape⟩ = .ok (some a, []) :=
  parse_document (decode_written hj hdepth hfloats) ht ha

end Reading

section Asking

variable {ε : Type} {stack : Nat} {parse : PyStr → Except ε (Option α × List FieldFault)}
  {schemaName prompt : PyStr} {budget : Int}

-- an accepted reply is the last one
theorem raisingAskFrom_accepted {calls : Nat → Except ε Reply} {remaining attempt corrections : Nat}
    {current : PyStr} {ctx : StepContext} {t : Turn ε} {text : PyStr} {tokens : Int} {v : α}
    {faults : List FieldFault}
    (ht : t ∈ (raisingAskFrom stack parse schemaName budget prompt calls remaining attempt current
      corrections ctx).turns)
    (hcall : t.call = .ok (.completion text tokens)) (hp : parse text = .ok (some v, faults)) :
    (raisingAskFrom stack parse schemaName budget prompt calls remaining attempt current corrections
      ctx).ending = .answer (.returned v) := by
  induction remaining generalizing attempt corrections current ctx with
  | zero => cases ht
  | succ remaining ih =>
    have hled (current : PyStr) (corrections : Nat) (ctx : StepContext) :
        ∃ ctx',
          askTurn stack parse schemaName prompt budget attempt current corrections ctx t.call =
          .ends (.answer (.returned v)) ctx' := by
      rw [hcall]
      simp only [askTurn, hp]
      exact ⟨_, rfl⟩
    rw [raisingAskFrom_succ] at ht ⊢
    cases hturn : askTurn stack parse schemaName prompt budget attempt current corrections ctx
        (calls attempt) with
    | ends ending ctx' =>
      rw [hturn, Led.attempted, List.mem_singleton] at ht
      obtain ⟨ctx'', hends⟩ := hled current corrections ctx
      rw [ht, hturn] at hends
      cases hends
      rfl
    | sends next corrections' ctx' =>
      rw [hturn] at ht
      rcases List.mem_cons.mp ht with rfl | hrest
      · obtain ⟨ctx'', hends⟩ := hled current corrections ctx
        rw [hturn] at hends
        cases hends
      · exact ih hrest

theorem document_ends_ask (schema : BaseModel α) (schemaName prompt : PyStr) (ctx : StepContext)
    (maxAttempts : Option Int) (calls : Nat → Except ReadError Reply) {k : Nat}
    {t : Turn ReadError} {text : PyStr} {tokens : Int} {v : PyValue} {a : α}
    (ht : (raisingAsk stack (parseReply maxDepth float schema) schemaName ctx prompt maxAttempts
      calls).turns[k]? = some t)
    (hcall : t.call = .ok (.completion text tokens))
    (hd : decode maxDepth float text.chars = .ok v)
    (htolerated : Tolerated maxDepth float text.chars) (ha : schema.validate v = .ok a) :
    (raisingAsk stack (parseReply maxDepth float schema) schemaName ctx prompt maxAttempts
        calls).turns.length = k + 1 ∧
      (raisingAsk stack (parseReply maxDepth float schema) schemaName ctx prompt maxAttempts
        calls).ending = .answer (.returned a) := by
  have hp : parseReply maxDepth float schema text = .ok (some a, []) :=
    parse_document hd htolerated ha
  refine ⟨?_, raisingAskFrom_accepted (List.mem_of_getElem? ht) hcall hp⟩
  have hchain := raisingAskFrom_chain stack (parseReply maxDepth float schema) schemaName prompt
    (maxAttempts.getD ctx.maxAttempts) calls (maxAttempts.getD ctx.maxAttempts).toNat 1 prompt 0 ctx
  obtain ⟨hk, rfl⟩ := List.getElem?_eq_some_iff.mp ht
  refine (Nat.le_antisymm (Nat.le_of_not_lt fun hk' => ?_) hk)
  obtain ⟨faults, hp', _⟩ := (hchain.getElem k hk').rejected text tokens hcall
  rw [hp] at hp'
  cases hp'

-- the string holds what would be accepted alone
def fencedMember : PyStr :=
  ⟨chars "\x7b\"a\": \"\x60\x60\x60\x7b\x7d\x60\x60\x60\"\x7d"⟩

def fencedValue : PyValue :=
  .dict [(.str (.ofString "a"), .str (.ofString "\x60\x60\x60\x7b\x7d\x60\x60\x60"))]

def quotesFence : Nat → Except ReadError Reply
  | 1 => .ok (.transient (.ofString "connection reset by peer"))
  | _ => .ok (.completion fencedMember 4)

def fencing : Attempted ReadError PyValue :=
  raisingAsk 900 (parseReply 1000 writtenFloat (requiring [])) (.ofString "Decision") freshContext
    (.ofString "Assess") none quotesFence

theorem document_ends_ask_fencing :
    fencing.turns.length = 2 ∧ fencing.ending = .answer (.returned fencedValue) := by
  have hreply : (fencing.turns[1]?.bind fun t => t.call.toOption) =
      some (.completion fencedMember 4) := by decide +kernel
  obtain ⟨t, ht, hcall⟩ := Option.bind_eq_some_iff.mp hreply
  have hd : decode 1000 writtenFloat fencedMember.chars = .ok fencedValue :=
    toOption_eq_some (by decide +kernel)
  exact document_ends_ask _ _ _ _ _ _ ht (toOption_eq_some hcall) hd
    (by unfold Tolerated; decide +kernel) (toOption_eq_some (by decide +kernel))

end Asking

end DurableAgent
