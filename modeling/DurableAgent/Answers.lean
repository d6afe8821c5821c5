import DurableAgent.Healing

namespace DurableAgent

open Grammar

variable {α : Type}

def braceless (p : List PyChar) : Prop := ∀ c ∈ p, c ≠ .scalar '{' ∧ c ≠ .scalar '}'

-- a text of the form p0 o1 p1 ... on pn
structure Response where
  lead : List PyChar
  parts : List (List PyChar × List PyChar)
  objectTexts : ∀ q ∈ parts, ObjectText q.1
  leadBraceless : braceless lead
  braceless : ∀ q ∈ parts, braceless q.2

def Response.text (r : Response) : List PyChar := response r.lead r.parts

def Response.objects (r : Response) : List (List PyChar) := r.parts.map Prod.fst

def Braced (xs : List PyChar) : Prop := ∃ m, xs = .scalar '{' :: (m ++ [.scalar '}'])

section Spans

theorem find_append {p xs : List PyChar} {c : PyChar} (h : ∀ d ∈ p, d ≠ c) :
    find (p ++ c :: xs) c = some p.length := by
  unfold find
  induction p with
  | nil => rw [List.nil_append, List.findIdx?_cons, decide_eq_true rfl, if_pos rfl, List.length_nil]
  | cons d p ih =>
    have hd := h d List.mem_cons_self
    rw [List.cons_append, List.findIdx?_cons, ih fun e he => h e (List.mem_cons_of_mem d he)]
    simp [hd]

theorem rfind_append {p xs : List PyChar} {c : PyChar} (h : ∀ d ∈ xs, d ≠ c) :
    rfind (p ++ c :: xs) c = some p.length := by
  have hrev : (p ++ c :: xs).reverse = xs.reverse ++ c :: p.reverse := by simp
  have hfind : find (xs.reverse ++ c :: p.reverse) c = some xs.reverse.length :=
    find_append fun d hd => h d (List.mem_reverse.mp hd)
  rw [find] at hfind
  rw [rfind, hrev, hfind, Option.map_some, List.length_reverse, List.length_append,
    List.length_cons]
  congr 1
  omega

theorem spans_braced {p core tail : List PyChar} (hp : braceless p) (hc : Braced core)
    (ht : braceless tail) :
    spans (p ++ (core ++ tail)) = core :: balancedObjects (p ++ (core ++ tail)) := by
  obtain ⟨m, rfl⟩ := hc
  have hfind : find (p ++ (.scalar '{' :: (m ++ [.scalar '}']) ++ tail)) (.scalar '{') =
      some p.length := by
    rw [List.cons_append]
    exact find_append fun c hc => (hp c hc).1
  have hrfind : rfind (p ++ (.scalar '{' :: (m ++ [.scalar '}']) ++ tail)) (.scalar '}') =
      some (p ++ .scalar '{' :: m).length := by
    rw [show p ++ (PyChar.scalar '{' :: (m ++ [.scalar '}']) ++ tail) =
      (p ++ .scalar '{' :: m) ++ .scalar '}' :: tail by simp]
    exact rfind_append fun c hc => (ht c hc).2
  have hlast : (p ++ PyChar.scalar '{' :: m).length + 1 =
      p.length + (PyChar.scalar '{' :: (m ++ [.scalar '}'])).length := by
    simp
    omega
  rw [spans, hfind, hrfind]
  simp only
  rw [if_pos (by simp), hlast, Scan.slice_between]

-- what follows the first object up to the end of the last one, and the prose after that
theorem response_core {parts : List (List PyChar × List PyChar)} {o p : List PyChar}
    (ho : ObjectText o) (hp : braceless p)
    (hparts : ∀ q ∈ parts, ObjectText q.1 ∧ braceless q.2) :
    ∃ inner tail, response p parts = inner ++ tail ∧ braceless tail ∧ Braced (o ++ inner) ∧
      ((parts = [] ∧ inner = []) ∨ .scalar '{' ∈ inner) := by
  induction parts generalizing o p with
  | nil => exact ⟨[], p, rfl, hp, by rw [List.append_nil]; exact ho.bounds, .inl ⟨rfl, rfl⟩⟩
  | cons q parts ih =>
    obtain ⟨o', p'⟩ := q
    obtain ⟨⟨ho', hp'⟩, hrest⟩ := List.forall_mem_cons.mp hparts
    obtain ⟨inner, tail, heq, htail, ⟨m, hm⟩, _⟩ := ih ho' hp' hrest
    obtain ⟨xs, rfl⟩ := ho.bounds
    refine ⟨p ++ (o' ++ inner), tail, ?_, htail, ?_, .inr ?_⟩
    · rw [response, heq, List.append_assoc, List.append_assoc]
    · rw [hm]
      exact ⟨xs ++ [.scalar '}'] ++ p ++ .scalar '{' :: m, by simp⟩
    · rw [hm]
      simp

end Spans

section Strip

variable {p : PyChar → Bool}

theorem isSpace_of_json {c : PyChar} (h : c.isJsonSpace = true) : c.isSpace = true := by
  obtain ⟨d, hd, rfl⟩ := PyChar.isJsonSpace_inv h
  simp only [List.mem_cons, List.not_mem_nil, or_false] at hd
  rcases hd with rfl | rfl | rfl | rfl <;> rfl

-- a character that is kept keeps all before it
theorem rdropWhile_append (xs : List PyChar) {c : PyChar} (hp : p c = false) (ys : List PyChar) :
    (xs ++ c :: ys).rdropWhile p = xs ++ c :: ys.rdropWhile p := by
  induction ys using List.reverseRecOn with
  | nil =>
    rw [List.rdropWhile_concat_neg _ _ _ (by rw [hp]; exact Bool.false_ne_true), List.rdropWhile_nil]
  | append_singleton ys d ih =>
    rw [← List.cons_append, ← List.append_assoc, List.rdropWhile_concat, List.rdropWhile_concat, ih]
    split <;> simp

variable {maxDepth : Nat} {float : List Char → PyFloat} {r : Response} {o p' : List PyChar}
  {rest : List (List PyChar × List PyChar)}

theorem strip_of_prose {c : PyChar} {cs xs : List PyChar}
    (h : xs.dropWhile PyChar.isSpace = c :: cs) (ys : List PyChar) :
    c.isSpace = false ∧ ∃ zs, stripChars (xs ++ ys) = c :: zs := by
  have hc : c.isSpace = false := by
    have := List.head?_dropWhile_not PyChar.isSpace xs
    rwa [h] at this
  refine ⟨hc, (cs ++ ys).rdropWhile PyChar.isSpace, ?_⟩
  rw [stripChars, List.dropWhile_append, h, List.isEmpty_cons, if_neg Bool.false_ne_true]
  exact rdropWhile_append [] hc (cs ++ ys)

theorem strip_of_space {xs ys : List PyChar}
    (h : xs.dropWhile PyChar.isSpace = []) (ho : ObjectText o) :
    stripChars (xs ++ (o ++ ys)) = o ++ ys.rdropWhile PyChar.isSpace := by
  obtain ⟨m, rfl⟩ := ho.bounds
  have hbrace : (PyChar.scalar '{').isSpace = false := by decide
  have hclose : (PyChar.scalar '}').isSpace = false := by decide
  rw [stripChars, List.dropWhile_append, h, List.isEmpty_nil, if_pos rfl, List.cons_append,
    List.dropWhile_cons_of_neg (by rw [hbrace]; exact Bool.false_ne_true)]
  have hkeep := rdropWhile_append (.scalar '{' :: m) hclose ys
  simpa using hkeep

-- the whole text is an object only where there is one object and space around it
theorem strip_dict (hr : r.parts = (o, p') :: rest) {v : PyValue}
    (h : decode maxDepth float (stripChars r.text) = .ok v) (hd : v.isDict = true) :
    rest = [] ∧ decode maxDepth float o = .ok v := by
  have hparts : ∀ q ∈ rest, ObjectText q.1 ∧ braceless q.2 := fun q hq =>
    ⟨r.objectTexts q (hr ▸ List.mem_cons_of_mem _ hq), r.braceless q (hr ▸ List.mem_cons_of_mem _ hq)⟩
  have ho : ObjectText o := r.objectTexts (o, p') (hr ▸ List.mem_cons_self)
  have hp' : braceless p' := r.braceless (o, p') (hr ▸ List.mem_cons_self)
  obtain ⟨inner, tail, heq, _, _, hinner⟩ := response_core ho hp' hparts
  rw [Response.text, hr, response, heq] at h
  cases hlead : r.lead.dropWhile PyChar.isSpace with
  | cons c cs =>
    obtain ⟨hc, zs, hstrip⟩ := strip_of_prose hlead (o ++ (inner ++ tail))
    have hmem : c ∈ r.lead := List.dropWhile_subset _ (hlead ▸ List.mem_cons_self)
    have hjson : c.isJsonSpace = false := by
      rw [← Bool.not_eq_true]
      intro hj
      rw [isSpace_of_json hj] at hc
      cases hc
    rw [hstrip] at h
    rw [decode_not_dict hjson (r.leadBraceless c hmem).1 h] at hd
    cases hd
  | nil =>
    rw [strip_of_space hlead ho] at h
    rcases decode_object ho maxDepth float with ⟨e, _, he⟩ | ⟨items, hi⟩
    · rw [he] at h
      cases h
    · rw [hi] at h
      split at h
      · rename_i hspace
        rcases hinner with ⟨hrest, _⟩ | hbrace
        · refine ⟨hrest, ?_⟩
          have hone := hi []
          rw [List.append_nil, List.all_nil, if_pos rfl] at hone
          rw [hone, h]
        · obtain ⟨i₁, i₂, rfl⟩ := List.append_of_mem hbrace
          have hkeep := rdropWhile_append (p := PyChar.isSpace) i₁ (c := .scalar '{') (by decide)
            (i₂ ++ tail)
          rw [List.append_assoc, List.cons_append, hkeep, List.all_append, List.all_cons] at hspace
          simp [PyChar.isJsonSpace] at hspace
      · cases h

end Strip

section Claims

variable (maxDepth : Nat) (float : List Char → PyFloat)

def lastValid (schema : Schema α) (r : Response) : Option α :=
  r.objects.reverse.findSome? (schema.accepts maxDepth float)

def LastMatchWins (schema : Schema α) (r : Response) : Prop :=
  ∀ a, lastValid maxDepth float schema r = some a →
    parseOrFaults maxDepth float schema r.text = .ok (some a, [])

-- no text tried makes `json.loads` raise what is not caught
def Tolerated (text : List PyChar) : Prop :=
  ∀ c ∈ candidateTexts text, escaping maxDepth float c = false

variable {maxDepth : Nat} {float : List Char → PyFloat} {r : Response} {o p' : List PyChar}
  {rest : List (List PyChar × List PyChar)}

theorem tolerated_of_returned {schema : BaseModel α} {text : List PyChar}
    {result : Option α × List FieldFault}
    (h : parseOrFaults maxDepth float schema text = .ok result) : Tolerated maxDepth float text := by
  intro c hc
  rw [← Bool.not_eq_true]
  intro he
  have hesc : ∃ e, parseOrFaults maxDepth float schema text = .error (.escaped e) :=
    parse_escaped hc he
  obtain ⟨e, hp⟩ := hesc
  rw [hp] at h
  cases h

theorem rejected_of_returned {schema : BaseModel α} {text : List PyChar} {faults : List FieldFault}
    (h : parseOrFaults maxDepth float schema text = .ok (none, faults)) :
    ∀ c ∈ candidateTexts text, schema.accepts maxDepth float c = none := by
  intro c hc
  cases hfind : (candidateTexts text).reverse.findSome? (schema.accepts maxDepth float) with
  | none => exact List.findSome?_eq_none_iff.mp hfind c (List.mem_reverse.mpr hc)
  | some a =>
    rw [parse_accepted (tolerated_of_returned h) hfind] at h
    cases h

theorem objects_of_parts (hr : r.parts = (o, p') :: rest) :
    ObjectText o ∧ braceless p' ∧ ∀ q ∈ rest, ObjectText q.1 ∧ braceless q.2 := by
  have hall : ∀ q ∈ (o, p') :: rest, ObjectText q.1 ∧ braceless q.2 := fun q hq =>
    ⟨r.objectTexts q (hr ▸ hq), r.braceless q (hr ▸ hq)⟩
  obtain ⟨⟨ho, hp'⟩, hrest⟩ := List.forall_mem_cons.mp hall
  exact ⟨ho, hp', hrest⟩

theorem objects_cons (hr : r.parts = (o, p') :: rest) :
    r.objects = o :: rest.map Prod.fst := by
  rw [Response.objects, hr, List.map_cons]

theorem candidateTexts_response (hr : r.parts = (o, p') :: rest)
    (hquotes : ∀ p ∈ leads r.lead r.parts, closesQuotes p = true) :
    ∃ inner, (rest = [] ∧ inner = [] ∨ .scalar '{' ∈ inner) ∧ candidateTexts r.text =
      fences r.text ++ ((o ++ inner) :: r.objects ++ [stripChars r.text]) := by
  obtain ⟨ho, hp', hrest⟩ := objects_of_parts hr
  obtain ⟨inner, tail, heq, htail, hbraced, hinner⟩ := response_core ho hp' hrest
  have htext : r.text = r.lead ++ ((o ++ inner) ++ tail) := by
    rw [Response.text, hr, response, heq, List.append_assoc]
  have hobjects : balancedObjects r.text = r.objects :=
    balancedObjects_response (fun c hc => (r.leadBraceless c hc).1)
      (fun q hq => ⟨r.objectTexts q hq, fun c hc => (r.braceless q hq c hc).1⟩) hquotes
  refine ⟨inner, hinner, ?_⟩
  rw [candidateTexts, ← hobjects, htext, spans_braced r.leadBraceless hbraced htail]

theorem accepts_inv {schema : Schema α} {c : List PyChar} {a : α}
    (h : schema.accepts maxDepth float c = some a) :
    ∃ v, decode maxDepth float c = .ok v ∧ v.isDict = true := by
  unfold BaseModel.accepts at h
  cases hd : decode maxDepth float c with
  | error e =>
    rw [hd] at h
    cases h
  | ok v =>
    rw [hd] at h
    cases hv : schema.validate v with
    | error e =>
      simp only [hv] at h
      cases h
    | ok b => exact ⟨v, rfl, schema.objectsOnly v b hv⟩

-- the whole text is accepted only in place of its one object
theorem strip_accepts {schema : Schema α} (hr : r.parts = (o, p') :: rest) {a : α}
    (h : schema.accepts maxDepth float (stripChars r.text) = some a) :
    rest = [] ∧ schema.accepts maxDepth float o = some a := by
  obtain ⟨v, hv, hd⟩ := accepts_inv h
  obtain ⟨hrest, ho⟩ := strip_dict hr hv hd
  refine ⟨hrest, ?_⟩
  rw [BaseModel.accepts, ho, ← h, BaseModel.accepts, hv]

theorem last_match_wins {schema : Schema α}
    (hquotes : ∀ p ∈ leads r.lead r.parts, closesQuotes p = true)
    (htolerated : Tolerated maxDepth float r.text) : LastMatchWins maxDepth float schema r := by
  intro a ha
  apply parse_accepted htolerated
  cases hr : r.parts with
  | nil =>
    rw [lastValid, Response.objects, hr] at ha
    cases ha
  | cons q rest =>
    obtain ⟨o, p'⟩ := q
    obtain ⟨inner, _, hcand⟩ := candidateTexts_response hr hquotes
    rw [hcand, List.reverse_append, List.reverse_append, List.reverse_singleton,
      List.singleton_append, List.cons_append, List.findSome?_cons]
    cases hstrip : schema.accepts maxDepth float (stripChars r.text) with
    | some b =>
      obtain ⟨rfl, ho⟩ := strip_accepts hr hstrip
      rw [lastValid, Response.objects, hr] at ha
      simpa [ho] using ha
    | none =>
      rw [List.reverse_cons, List.append_assoc, List.findSome?_append]
      rw [lastValid] at ha
      rw [ha, Option.some_or]

def FaultsDescribeAnswer (maxDepth : Nat) (float : List Char → PyFloat) (schema : Schema α)
    (r : Response) : Prop :=
  ∃ faults, r.objects.getLast?.bind (schema.faultsOf maxDepth float) = some faults ∧
    ∃ result, parseOrFaults maxDepth float (schema : BaseModel α) r.text = .ok result ∧ result.1 = none ∧
      result.2 = faults ∧ ∀ stack schemaName prompt,
        correctionPrompt stack ⟨r.text⟩ result.2 schemaName = some prompt → prompt.Quotes faults

-- the JSON value read first has the faults of the last object
structure FirstFaultsLast (maxDepth : Nat) (float : List Char → PyFloat) (schema : Schema α)
    (r : Response) : Prop where
  tolerated : Tolerated maxDepth float r.text
  fencesRejected : ∀ f ∈ fences r.text, schema.accepts maxDepth float f = none
  sameFaults : (fences r.text ++ r.objects.head?.toList).findSome? (schema.faultsOf maxDepth float) =
    r.objects.getLast?.bind (schema.faultsOf maxDepth float)

theorem decode_tolerated (ho : ObjectText o) (ht : escaping maxDepth float o = false) :
    ∃ items, decode maxDepth float o = .ok (.dict items) ∧
      ∀ ys, .scalar '{' ∈ ys → decode maxDepth float (o ++ ys) = .error .jsonDecodeError := by
  rcases decode_object ho maxDepth float with ⟨e, hesc, he⟩ | ⟨items, hi⟩
  · have he := he []
    rw [List.append_nil] at he
    rw [escaping, he] at ht
    exact absurd (hesc.symm.trans ht) (by decide)
  · refine ⟨items, ?_, fun ys hys => ?_⟩
    · have hi := hi []
      rwa [List.append_nil, List.all_nil, if_pos rfl] at hi
    · rw [hi, if_neg]
      intro hall
      exact absurd (List.all_eq_true.mp hall _ hys) (by decide)

theorem faultsOf_isSome {schema : Schema α} (ho : ObjectText o)
    (ht : escaping maxDepth float o = false) (hr : schema.accepts maxDepth float o = none) :
    ∃ faults, schema.faultsOf maxDepth float o = some faults := by
  obtain ⟨items, hd, _⟩ := decode_tolerated ho ht
  rw [accepts_eq, hd] at hr
  rw [faultsOf_eq, hd]
  cases hv : schema.validate (.dict items) with
  | ok a => simp [Except.toOption, hv] at hr
  | error e => exact ⟨faultsFrom e, by simp [Except.toOption, BaseModel.faults, hv]⟩

-- the first object is itself one of the texts tried
theorem first_tolerated (hr : r.parts = (o, p') :: rest)
    (hquotes : ∀ p ∈ leads r.lead r.parts, closesQuotes p = true)
    (htolerated : Tolerated maxDepth float r.text) : escaping maxDepth float o = false := by
  obtain ⟨inner, _, hcand⟩ := candidateTexts_response hr hquotes
  apply htolerated
  rw [hcand, objects_cons hr]
  simp

-- a text that goes on to another object is no candidate value
theorem longer_unread (schema : Schema α) {inner : List PyChar} (ho : ObjectText o)
    (ht : escaping maxDepth float o = false)
    (hinner : rest = [] ∧ inner = [] ∨ .scalar '{' ∈ inner) :
    o ++ inner = o ∨ schema.accepts maxDepth float (o ++ inner) = none ∧
      schema.faultsOf maxDepth float (o ++ inner) = none := by
  rcases hinner with ⟨_, rfl⟩ | hbrace
  · exact .inl (List.append_nil o)
  · obtain ⟨items, _, hd⟩ := decode_tolerated ho ht
    refine .inr ⟨?_, ?_⟩
    · rw [BaseModel.accepts, hd inner hbrace]
    · rw [BaseModel.faultsOf, hd inner hbrace]

section Rejected

variable {schema : Schema α} (hr : r.parts = (o, p') :: rest)
  (hquotes : ∀ p ∈ leads r.lead r.parts, closesQuotes p = true)
  (htolerated : Tolerated maxDepth float r.text)
  (hinvalid : ∀ o ∈ r.objects, schema.accepts maxDepth float o = none)

include hr hquotes htolerated hinvalid

theorem first_faults : ∃ faults,
    (candidateTexts r.text).findSome? (schema.faultsOf maxDepth float) = some faults ∧
      (fences r.text ++ r.objects.head?.toList).findSome? (schema.faultsOf maxDepth float) =
        some faults := by
  obtain ⟨inner, hinner, hcand⟩ := candidateTexts_response hr hquotes
  have ho : ObjectText o := (objects_of_parts hr).1
  have hobjects := objects_cons hr
  have hmem : o ∈ r.objects := hobjects ▸ List.mem_cons_self
  have ht := first_tolerated hr hquotes htolerated
  obtain ⟨faults, hf⟩ := faultsOf_isSome ho ht (hinvalid o hmem)
  have hspan : ((o ++ inner) :: r.objects ++ [stripChars r.text]).findSome?
      (schema.faultsOf maxDepth float) = some faults := by
    rw [hobjects, List.cons_append, List.cons_append, List.findSome?_cons]
    rcases longer_unread schema ho ht hinner with heq | ⟨_, hnone⟩
    · rw [heq, hf]
    · rw [hnone, List.findSome?_cons, hf]
  have hfirst : r.objects.head?.toList.findSome? (schema.faultsOf maxDepth float) = some faults := by
    rw [hobjects, List.head?_cons, Option.toList_some, List.findSome?_cons, hf]
  rw [hcand, List.findSome?_append, hspan, List.findSome?_append, hfirst]
  cases (fences r.text).findSome? (schema.faultsOf maxDepth float) with
  | none => exact ⟨faults, rfl, rfl⟩
  | some f => exact ⟨f, rfl, rfl⟩

theorem only_fences_accepted
    (hfences : ∀ f ∈ fences r.text, schema.accepts maxDepth float f = none) :
    ∀ c ∈ candidateTexts r.text, schema.accepts maxDepth float c = none := by
  obtain ⟨inner, hinner, hcand⟩ := candidateTexts_response hr hquotes
  have ho : ObjectText o := (objects_of_parts hr).1
  have hmem : o ∈ r.objects := objects_cons hr ▸ List.mem_cons_self
  have ht := first_tolerated hr hquotes htolerated
  intro c hc
  rw [hcand, List.mem_append, List.mem_append, List.mem_cons, List.mem_singleton] at hc
  rcases hc with hc | (rfl | hc) | rfl
  · exact hfences c hc
  · rcases longer_unread schema ho ht hinner with heq | ⟨hnone, _⟩
    · rw [heq]
      exact hinvalid o hmem
    · exact hnone
  · exact hinvalid c hc
  · cases hstrip : schema.accepts maxDepth float (stripChars r.text) with
    | none => rfl
    | some a =>
      rw [← (strip_accepts hr hstrip).2]
      exact hinvalid o hmem

end Rejected

theorem faults_describe_answer_iff {schema : Schema α} (hne : r.parts ≠ [])
    (hquotes : ∀ p ∈ r.lead :: r.parts.map Prod.snd, quoteless p)
    (hinvalid : ∀ o ∈ r.objects, schema.accepts maxDepth float o = none) :
    FaultsDescribeAnswer maxDepth float schema r ↔ FirstFaultsLast maxDepth float schema r := by
  have hclosed : ∀ p ∈ leads r.lead r.parts, closesQuotes p = true := fun p hp =>
    closesQuotes_of_quoteless (hquotes p (mem_leads hp))
  cases hr : r.parts with
  | nil => exact absurd hr hne
  | cons q rest =>
    obtain ⟨o, p'⟩ := q
    constructor
    · rintro ⟨faults, hlast, ⟨value, faults'⟩, hparse, rfl, rfl, _⟩
      have htolerated := tolerated_of_returned hparse
      have hrejected := rejected_of_returned hparse
      obtain ⟨faults, hf, hfirst⟩ := first_faults hr hclosed htolerated hinvalid
      rw [parse_rejected htolerated hrejected hf] at hparse
      cases hparse
      exact ⟨htolerated, fun f hf => hrejected f (List.mem_append_left _ hf),
        hfirst.trans hlast.symm⟩
    · rintro ⟨htolerated, hfences, hsame⟩
      obtain ⟨faults, hf, hfirst⟩ := first_faults hr hclosed htolerated hinvalid
      have hp := parse_rejected htolerated
        (only_fences_accepted hr hclosed htolerated hinvalid hfences) hf
      exact ⟨faults, hsame.symm.trans hfirst, _, hp, rfl, rfl, fun _ _ _ => correctionPrompt_quotes⟩

end Claims

-- a model whose fields take any value
def requiring (fields : List String) : Schema PyValue where
  validate
    | .dict items =>
        let missing := fields.filter fun f => (Dict.get? items (.str (.ofString f))).isNone
        if missing = [] then .ok (.dict items)
        else .error (missing.map fun f =>
          ⟨[.key (.ofString f)], .ofString "Field required", .dict items⟩)
    | data => .error [⟨[], .ofString "Input should be a valid dictionary", data⟩]
  objectsOnly := by
    intro v a h
    cases v with
    | dict items => rfl
    | _ => cases h

def writtenFloat (text : List Char) : PyFloat := .finite (String.ofList text)

def memberText : List PyChar := chars "\x7b\"a\": 1\x7d"

theorem memberText_object : ObjectText memberText := by
  have hnone : Spaces [] := by simp [Spaces]
  have hspace : Spaces (chars " ") := by unfold Spaces; decide
  have hkey : StringText (.scalar '"' :: (chars "a" ++ [.scalar '"'])) :=
    .quoted (.plain (by decide) .nil)
  have hone : NumberText (chars "1" ++ ([] ++ [])) :=
    .unsigned (@Whole.digits '1' [] (by decide) (by decide) (by simp)) .absent .absent
  exact ObjectText.members (.last hnone hkey hnone hspace (.number hone) hnone)

def quotedProse : Response where
  lead := chars "Say \"so\": "
  parts := [(memberText, chars " and not "), (emptyText, chars " said")]
  objectTexts := by
    simp [memberText_object, emptyText_object]
  leadBraceless := by unfold braceless; decide
  braceless := by unfold braceless; decide

theorem last_match_wins_quoted :
    parseOrFaults 1000 writtenFloat (requiring ["a"] : BaseModel PyValue) quotedProse.text =
      .ok (some (.dict [(.str (.ofString "a"), .int 1)]), []) :=
  last_match_wins (by decide +kernel) (by unfold Tolerated; decide +kernel) _ (by decide +kernel)

-- the quote mark of the prose is open where the objects begin
def inches : Response where
  lead := chars "6\" "
  parts := [(emptyText, chars " "), (emptyText, [])]
  objectTexts := by simp [emptyText_object]
  leadBraceless := by unfold braceless; decide
  braceless := by unfold braceless; decide

theorem open_quote_hides_objects :
    ¬ ∀ (α : Type) (maxDepth : Nat) (float : List Char → PyFloat) (schema : Schema α)
      (r : Response), LastMatchWins maxDepth float schema r := by
  intro h
  have hparse := h PyValue 1000 writtenFloat (requiring []) inches (.dict []) (by decide +kernel)
  exact absurd (congrArg Except.toOption hparse) (by decide +kernel)

-- an example in the prose, the answer fenced
def fencedAnswer : Response where
  lead := chars "Instead of "
  parts := [(emptyText, chars " I answer\n```json\n"), (memberText, chars "\n```")]
  objectTexts := by simp [memberText_object, emptyText_object]
  leadBraceless := by unfold braceless; decide
  braceless := by unfold braceless; decide

theorem faults_describe_fenced_answer :
    FaultsDescribeAnswer 1000 writtenFloat (requiring ["a", "b"]) fencedAnswer :=
  (faults_describe_answer_iff (by decide) (by unfold quoteless; decide) (by decide +kernel)).mpr
    ⟨by unfold Tolerated; decide +kernel, by decide +kernel, by decide +kernel⟩

def exampleThenAnswer : Response where
  lead := []
  parts := [(emptyText, chars " "), (memberText, [])]
  objectTexts := by simp [memberText_object, emptyText_object]
  leadBraceless := by simp [braceless]
  braceless := by unfold braceless; decide

theorem faults_of_example_reported :
    ¬ ∀ (α : Type) (maxDepth : Nat) (float : List Char → PyFloat) (schema : Schema α)
      (r : Response), r.parts ≠ [] → (∀ p ∈ r.lead :: r.parts.map Prod.snd, quoteless p) →
      (∀ o ∈ r.objects, schema.accepts maxDepth float o = none) →
      FaultsDescribeAnswer maxDepth float schema r := by
  intro h
  have hclaim := h PyValue 1000 writtenFloat (requiring ["a", "b"]) exampleThenAnswer (by decide)
    (by unfold quoteless; decide) (by decide +kernel)
  obtain ⟨faults, hlast, result, hparse, _, rfl, _⟩ := hclaim
  have hsame : ((parseOrFaults 1000 writtenFloat (requiring ["a", "b"] : BaseModel PyValue)
      exampleThenAnswer.text).toOption.map Prod.snd) =
      exampleThenAnswer.objects.getLast?.bind
        ((requiring ["a", "b"]).faultsOf 1000 writtenFloat) := by
    rw [hparse, hlast]
    rfl
  exact absurd hsame (by decide +kernel)

end DurableAgent
