import DurableAgent.Ask
import DurableAgent.Drafts

namespace DurableAgent

variable {α : Type}

section Parsing

variable (maxDepth : Nat) (float : List Char → PyFloat)

def validates (schema : BaseModel α) (text : List PyChar) : Bool :=
  (candidateTexts text).any fun c => (schema.accepts maxDepth float c).isSome

-- nothing is raised: a value without faults, or no value and a fault
def ReadsOrFaults (schema : BaseModel α) (text : List PyChar) : Prop :=
  (∃ a, parseOrFaults maxDepth float schema text = .ok (some a, [])) ∨
    ∃ faults, faults ≠ [] ∧ parseOrFaults maxDepth float schema text = .ok (none, faults)

variable {maxDepth : Nat} {float : List Char → PyFloat} {schema : BaseModel α}
  {text : List PyChar}

theorem parse_valid (h : Tolerated maxDepth float text)
    (hv : validates maxDepth float schema text = true) :
    ∃ a, parseOrFaults maxDepth float schema text = .ok (some a, []) := by
  obtain ⟨c, hc, hsome⟩ := List.any_eq_true.mp hv
  cases hfind : (candidateTexts text).reverse.findSome? (schema.accepts maxDepth float) with
  | some a => exact ⟨a, parse_accepted h hfind⟩
  | none =>
    rw [List.findSome?_eq_none_iff.mp hfind c (List.mem_reverse.mpr hc)] at hsome
    cases hsome

theorem parse_undecodable (h : Tolerated maxDepth float text)
    (hd : ∀ c ∈ candidateTexts text, (decode maxDepth float c).toOption = none) :
    parseOrFaults maxDepth float schema text = .ok (none, [unparseableFault text]) := by
  have hall : decodeAll maxDepth float (candidateTexts text) = .ok [] := by
    rw [decodeAll_ok h, List.filterMap_eq_nil_iff.mpr hd]
  rw [parseOrFaults, jsonCandidates, hall]

theorem parse_invalid (h : Tolerated maxDepth float text)
    (hv : validates maxDepth float schema text = false) :
    ∃ faults, parseOrFaults maxDepth float schema text = .ok (none, faults) := by
  have hnone : ∀ c ∈ candidateTexts text, schema.accepts maxDepth float c = none := by
    intro c hc
    have hany := List.any_eq_false.mp hv c hc
    simpa using hany
  cases hf : (candidateTexts text).findSome? (schema.faultsOf maxDepth float) with
  | some faults => exact ⟨faults, parse_rejected h hnone hf⟩
  | none =>
    refine ⟨_, parse_undecodable h fun c hc => ?_⟩
    have haccepts := hnone c hc
    have hfaults := List.findSome?_eq_none_iff.mp hf c hc
    rw [accepts_eq] at haccepts
    rw [faultsOf_eq] at hfaults
    -- a value that is read is accepted or has faults
    cases hd : (decode maxDepth float c).toOption with
    | none => rfl
    | some v =>
      rw [hd, Option.bind_some] at haccepts hfaults
      unfold BaseModel.faults at hfaults
      cases hval : schema.validate v with
      | ok a =>
        rw [hval] at haccepts
        cases haccepts
      | error e =>
        rw [hval] at hfaults
        cases hfaults

theorem draftError_validate {e : ValidationError}
    (h : draftError maxDepth float schema text = some e) : ∃ v, schema.validate v = .error e := by
  unfold draftError at h
  split at h
  · rename_i v vs hvs
    cases hval : schema.validate v with
    | ok a =>
      rw [hval] at h
      cases h
    | error e' =>
      rw [hval, Option.some.injEq] at h
      exact ⟨v, h ▸ hval⟩
  · cases h

theorem reads_or_faults_iff (hreported : ∀ v, schema.validate v ≠ .error []) :
    ReadsOrFaults maxDepth float schema text ↔ Tolerated maxDepth float text := by
  constructor
  · rintro (⟨a, h⟩ | ⟨faults, -, h⟩)
    · exact tolerated_of_returned h
    · exact tolerated_of_returned h
  · intro h
    cases hv : validates maxDepth float schema text with
    | true => exact .inl (parse_valid h hv)
    | false =>
      obtain ⟨faults, hp⟩ := parse_invalid h hv
      refine .inr ⟨faults, ?_, hp⟩
      rcases reported_cases hp with ⟨-, rfl⟩ | ⟨-, e, he, rfl⟩
      · exact List.cons_ne_nil _ _
      · obtain ⟨v, hval⟩ := draftError_validate he
        intro hnil
        rw [faultsFrom, List.map_eq_nil_iff] at hnil
        exact hreported v (hnil ▸ hval)

end Parsing

section Asking

variable (stack maxDepth : Nat) (float : List Char → PyFloat) (schema : BaseModel α) (budget : Int)
  (replies : Nat → Reply)

def parseReply (text : PyStr) : Except ReadError (Option α × List FieldFault) :=
  parseOrFaults maxDepth float schema text.chars

-- the retry an invalid answer calls for can be built
def Resendable (text : List PyChar) : Prop :=
  NoJson maxDepth float text ∨ ∀ e, draftError maxDepth float schema text = some e →
    (∃ err ∈ e, err.loc = [.key unparseableField]) ∨
      0 < stack ∧ ∀ err ∈ e, err.sendable stack = true

def validReply : Reply → Bool
  | .completion text _ => validates maxDepth float schema text.chars
  | .transient _ => false

def invalidReply : Reply → Bool
  | .completion text _ => !validates maxDepth float schema text.chars
  | .transient _ => false

def invalidCount (k : Nat) : Nat :=
  (List.range k).countP fun m => invalidReply maxDepth float schema (replies (1 + m))

def readable : Reply → Prop
  | .completion text _ => Tolerated maxDepth float text.chars
  | .transient _ => True

def Survives (n corrections : Nat) : Reply → Prop
  | .transient _ => (n : Int) = budget ∨ n ≤ 1024
  | .completion text _ => Tolerated maxDepth float text.chars ∧
      (validates maxDepth float schema text.chars = true ∨ maxCorrectionRounds ≤ corrections ∨
        Resendable stack maxDepth float schema text.chars)

-- every reply the loop can get to is one it has an answer to
def AllSurvive : Prop :=
  ∀ k < budget.toNat, (∀ m < k, validReply maxDepth float schema (replies (1 + m)) = false) →
    invalidCount maxDepth float schema replies k ≤ maxCorrectionRounds →
    Survives stack maxDepth float schema budget (1 + k)
      (invalidCount maxDepth float schema replies k)
      (replies (1 + k))

variable {stack maxDepth float schema budget replies}

theorem resendable_iff {text : List PyChar} {faults : List FieldFault}
    (h : parseOrFaults maxDepth float schema text = .ok (none, faults)) :
    Resendable stack maxDepth float schema text ↔ resendable stack faults = true := by
  rcases reported_cases h with ⟨hno, rfl⟩ | ⟨hdraft, e, he, rfl⟩
  · exact iff_of_true (.inl hno) rfl
  · rw [resendable, Bool.or_eq_true, Bool.and_eq_true, decide_eq_true_eq, faultsFrom_unparseable,
      faultsFrom_sendable, List.all_eq_true]
    constructor
    · rintro (hno | hall)
      · exact absurd hno hdraft
      · exact hall e he
    · intro hor
      refine .inr fun e' he' => ?_
      obtain rfl := Option.some.inj (he.symm.trans he')
      exact hor

theorem accepted_eq {reply : Reply} (h : readable maxDepth float reply) :
    accepted (parseReply maxDepth float schema) (.ok reply) =
      validReply maxDepth float schema reply := by
  cases reply with
  | transient exc => rfl
  | completion text tokens =>
    cases hv : validates maxDepth float schema text.chars with
    | true =>
      obtain ⟨a, hp⟩ := parse_valid h hv
      simp only [accepted, parseReply, validReply, hp, hv]
    | false =>
      obtain ⟨faults, hp⟩ := parse_invalid h hv
      simp only [accepted, parseReply, validReply, hp, hv]

theorem rejected_eq {reply : Reply} (h : readable maxDepth float reply) :
    rejected (parseReply maxDepth float schema) (.ok reply) =
      invalidReply maxDepth float schema reply := by
  cases reply with
  | transient exc => rfl
  | completion text tokens =>
    cases hv : validates maxDepth float schema text.chars with
    | true =>
      obtain ⟨a, hp⟩ := parse_valid h hv
      simp only [rejected, parseReply, invalidReply, hp, hv, Bool.not_true]
    | false =>
      obtain ⟨faults, hp⟩ := parse_invalid h hv
      simp only [rejected, parseReply, invalidReply, hp, hv, Bool.not_false]

theorem blocked_iff (n corrections : Nat) (reply : Reply) :
    blocked stack (parseReply maxDepth float schema) budget n corrections (.ok reply) = false ↔
      Survives stack maxDepth float schema budget n corrections reply := by
  cases reply with
  | transient exc =>
    simp only [blocked, Survives, backoffOverflows, Bool.and_eq_false_iff, decide_eq_false_iff_not,
      not_not]
    omega
  | completion text tokens =>
    by_cases ht : Tolerated maxDepth float text.chars
    · simp only [Survives, ht, true_and]
      cases hv : validates maxDepth float schema text.chars with
      | true =>
        obtain ⟨a, hp⟩ := parse_valid ht hv
        simp [blocked, parseReply, hp]
      | false =>
        obtain ⟨faults, hp⟩ := parse_invalid ht hv
        rw [resendable_iff hp]
        simp only [blocked, parseReply, hp, Bool.false_eq_true, false_or]
        rw [Bool.and_eq_false_iff, decide_eq_false_iff_not, Nat.not_lt, Bool.not_eq_false']
    · refine iff_of_false (fun h => ?_) fun h => ht h.1
      have hraises : ∃ e, parseOrFaults maxDepth float schema text.chars = .error e := by
        cases hp : parseOrFaults maxDepth float schema text.chars with
        | ok result => exact absurd (tolerated_of_returned hp) ht
        | error e => exact ⟨e, rfl⟩
      obtain ⟨e, hp⟩ := hraises
      simp [blocked, parseReply, hp] at h

theorem Survives.readable {n corrections : Nat} {reply : Reply}
    (h : Survives stack maxDepth float schema budget n corrections reply) :
    readable maxDepth float reply := by
  cases reply with
  | transient exc => trivial
  | completion text tokens => exact h.1

theorem invalidCount_mono {m k : Nat} (h : m ≤ k) :
    invalidCount maxDepth float schema replies m ≤ invalidCount maxDepth float schema replies k :=
  (List.range_sublist.mpr h).countP_le

theorem rejectedCount_range {ε : Type} (parse : PyStr → Except ε (Option α × List FieldFault))
    (calls : Nat → Except ε Reply) (n k : Nat) : rejectedCount parse calls n k =
      (List.range k).countP fun m => rejected parse (calls (n + m)) := by
  induction k generalizing n with
  | zero => rfl
  | succ k ih =>
    rw [rejectedCount, ih, List.range_succ_eq_map, List.countP_cons, List.countP_map, Nat.add_zero,
      Nat.add_comm]
    congr 1
    apply List.countP_congr
    intro m _
    rw [Function.comp_apply, Nat.add_assoc, Nat.add_comm 1 m]

theorem rejectedCount_eq {k : Nat} (h : ∀ m < k, readable maxDepth float (replies (1 + m))) :
    rejectedCount (parseReply maxDepth float schema) (fun n => .ok (replies n)) 1 k =
      invalidCount maxDepth float schema replies k := by
  rw [rejectedCount_range, invalidCount]
  apply List.countP_congr
  intro m hm
  rw [rejected_eq (h m (List.mem_range.mp hm))]

-- what was got to earlier was readable, so both conditions count the same replies
theorem unblocked_iff :
    Unblocked stack (parseReply maxDepth float schema) budget
      (fun n => .ok (replies n)) budget.toNat
        1 0 ↔
      AllSurvive stack maxDepth float schema budget replies := by
  constructor
  · intro h k
    induction k using Nat.strong_induction_on with
    | _ k ih =>
      intro hk hval hcount
      have hread : ∀ m < k, readable maxDepth float (replies (1 + m)) := fun m hm =>
        (ih m hm (hm.trans hk) (fun i hi => hval i (hi.trans hm))
          ((invalidCount_mono hm.le).trans hcount)).readable
      have hblocked := h k hk (fun m hm => (accepted_eq (hread m hm)).trans (hval m hm))
      rw [rejectedCount_eq hread, Nat.zero_add, blocked_iff] at hblocked
      exact hblocked hcount
  · intro h k
    induction k using Nat.strong_induction_on with
    | _ k ih =>
      intro hk haccepted hcount
      have hread : ∀ m < k, readable maxDepth float (replies (1 + m)) := by
        intro m hm
        have hcount' : rejectedCount (parseReply maxDepth float schema) (fun n => .ok (replies n)) 1 m ≤
            rejectedCount (parseReply maxDepth float schema) (fun n => .ok (replies n)) 1 k := by
          rw [rejectedCount_range, rejectedCount_range]
          exact (List.range_sublist.mpr hm.le).countP_le
        have hblocked := ih m hm (hm.trans hk) (fun i hi => haccepted i (hi.trans hm)) (by omega)
        exact ((blocked_iff _ _ _).mp hblocked).readable
      rw [rejectedCount_eq hread, Nat.zero_add] at hcount ⊢
      rw [blocked_iff]
      exact h k hk (fun m hm => (accepted_eq (hread m hm)).symm.trans (haccepted m hm)) hcount

end Asking

section Claim

variable (stack maxDepth : Nat) (float : List Char → PyFloat)

def askTexts (schema : BaseModel α) (schemaName : PyStr) (ctx : StepContext) (prompt : PyStr)
    (maxAttempts : Option Int) (replies : Nat → Reply) : Attempted ReadError α :=
  raisingAsk stack (parseReply maxDepth float schema) schemaName ctx prompt maxAttempts
    fun n => .ok (replies n)

def NothingEscapes (schema : BaseModel α) : Prop :=
  (∀ text, ReadsOrFaults maxDepth float schema text) ∧
    ∀ schemaName ctx prompt maxAttempts replies,
      (askTexts stack maxDepth float schema schemaName ctx prompt maxAttempts replies
        ).ending.Answered

variable {stack maxDepth : Nat} {float : List Char → PyFloat}

-- 4301 digits, one more than the interpreter converts
def longInteger : List Char := '1' :: List.replicate 4300 '1'

theorem longInteger_untolerated : ¬ Tolerated maxDepth float (longInteger.map .scalar) := by
  intro h
  have hdigits : ∀ c ∈ longInteger, c = '1' := by
    intro c hc
    rcases List.mem_cons.mp hc with rfl | hc
    · rfl
    · exact List.eq_of_mem_replicate hc
  have hstrip : stripChars (longInteger.map .scalar) = longInteger.map .scalar := by
    have hspace : ∀ c ∈ longInteger.map PyChar.scalar, ¬ c.isSpace = true := by
      intro c hc
      obtain ⟨d, hd, rfl⟩ := List.mem_map.mp hc
      rw [hdigits d hd]
      decide
    rw [stripChars, List.dropWhile_eq_self_iff.mpr, List.rdropWhile_eq_self_iff.mpr]
    · exact fun hne => hspace _ (List.getLast_mem hne)
    · exact fun hne => hspace _ (List.getElem_mem hne)
  have hdecode : decode maxDepth float (longInteger.map .scalar) = .error .valueError := by
    apply decode_long_integer (by decide) (by decide)
    · exact fun c hc => (hdigits c (List.mem_cons_of_mem _ hc)) ▸ by decide
    · rw [List.length_cons, List.length_replicate]
      decide
  have hmem : longInteger.map .scalar ∈ candidateTexts (longInteger.map .scalar) := by
    have hlast : stripChars (longInteger.map .scalar) ∈ candidateTexts (longInteger.map .scalar) :=
      List.mem_append_right _ (List.mem_append_right _ List.mem_cons_self)
    rwa [hstrip] at hlast
  have hesc := h _ hmem
  rw [escaping, hdecode] at hesc
  exact absurd hesc (by decide)

theorem forbidding_reports : ∀ v, forbidding.validate v ≠ .error [] := by
  intro v h
  cases v with
  | dict items => cases items <;> cases h
  | _ => cases h

theorem long_integer_escapes :
    ¬ ∀ (α : Type) (stack maxDepth : Nat) (float : List Char → PyFloat) (schema : BaseModel α),
      (∀ v, schema.validate v ≠ .error []) → NothingEscapes stack maxDepth float schema := by
  intro h
  have hreads := (h PyValue 900 1000 writtenFloat forbidding forbidding_reports).1
    (longInteger.map .scalar)
  exact longInteger_untolerated ((reads_or_faults_iff forbidding_reports).mp hreads)

theorem nothing_escapes_iff (stack : Nat) (schema : BaseModel α)
    (hreported : ∀ v, schema.validate v ≠ .error []) :
    (∀ text, ReadsOrFaults maxDepth float schema text ↔ Tolerated maxDepth float text) ∧
      ∀ schemaName ctx prompt maxAttempts replies,
        (askTexts stack maxDepth float schema schemaName ctx prompt maxAttempts replies
          ).ending.Answered ↔
          AllSurvive stack maxDepth float schema (maxAttempts.getD ctx.maxAttempts) replies := by
  refine ⟨fun text => reads_or_faults_iff hreported, ?_⟩
  intro schemaName ctx prompt maxAttempts replies
  rw [askTexts, raisingAsk_answers_iff, unblocked_iff]

theorem nothing_escapes_empty_object :
    ReadsOrFaults 1000 writtenFloat forbidding emptyText ∧
      (askTexts 900 1000 writtenFloat forbidding (.ofString "Empty")
        ⟨"run", 0, [], [], 3, [], [], 0⟩ (.ofString "Return nothing") (some 1) fun _ => .completion ⟨emptyText⟩ 5).ending.Answered := by
  have htolerated : Tolerated 1000 writtenFloat emptyText := by
    unfold Tolerated
    decide +kernel
  refine ⟨((nothing_escapes_iff 900 forbidding forbidding_reports).1 emptyText).mpr htolerated, ?_⟩
  refine ((nothing_escapes_iff 900 forbidding forbidding_reports).2 _ _ _ _ _).mpr ?_
  intro k _ _ _
  exact ⟨htolerated, .inl (by decide +kernel)⟩

end Claim

end DurableAgent
