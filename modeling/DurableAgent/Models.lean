import DurableAgent.Values
import DurableAgent.Library.FirstGap
import Mathlib.Data.Set.Function

namespace DurableAgent

-- `folds`: the offset is another one under the other `fold`, as in an hour a zone repeats or skips
structure Datetime where
  micros : Int
  utcoffset : Option Int
  folds : Bool
deriving DecidableEq, Repr

-- Python's `==`: an aware time whose offset depends on `fold` equals none of another zone
def Datetime.same (d d' : Datetime) : Bool :=
  d.micros = d'.micros && d.utcoffset.isSome = d'.utcoffset.isSome && !d.folds && !d'.folds

inductive RunStatus where
  | pending
  | running
  | completed
  | failed
  | escalated
deriving DecidableEq, Repr

def RunStatus.value : RunStatus → String
  | .pending => "pending"
  | .running => "running"
  | .completed => "completed"
  | .failed => "failed"
  | .escalated => "escalated"

def RunStatus.isTerminal : RunStatus → Bool
  | .pending => false
  | .running => false
  | .completed => true
  | .failed => true
  | .escalated => true

inductive StepOutcome where
  | ok
  | retried
  | healed
  | failed
deriving DecidableEq, Repr

structure Step where
  name : String
  effect : Bool := false
  maxAttempts : Nat := 3
  nameLength : 1 ≤ name.length ∧ name.length ≤ 80 := by decide
  attemptsRange : 1 ≤ maxAttempts ∧ maxAttempts ≤ 10 := by decide
deriving DecidableEq

structure Plan where
  name : String
  steps : List Step
  nameLength : 1 ≤ name.length ∧ name.length ≤ 80 := by decide
  nonempty : steps ≠ [] := by simp
  uniqueNames : (steps.map Step.name).Nodup := by decide
deriving DecidableEq

structure RunSpec where
  plan : Plan
  payload : StrDict
  idempotencyKey : String
  keyLength : 8 ≤ idempotencyKey.length ∧ idempotencyKey.length ≤ 200 := by decide

structure StepRecord where
  runId : String
  index : Nat
  name : String
  outcome : StepOutcome
  attempts : Nat
  output : StrDict
  tokensUsed : Nat
  createdAt : Datetime
  attemptsPositive : 1 ≤ attempts

structure RunState where
  runId : String
  idempotencyKey : String
  status : RunStatus
  planName : String
  payload : StrDict
  steps : List StepRecord
  error : Option String

def RunState.done (s : RunState) : List Nat :=
  (s.steps.filter fun r => r.outcome ≠ .failed).map StepRecord.index

def RunState.nextIndex (s : RunState) : Nat := FirstGap.firstGap s.done

def RunState.tokensUsed (s : RunState) : Nat :=
  s.steps.foldl (fun total r => total + r.tokensUsed) 0

def effectToken (blake2b : String → String) (runId : String) (stepIndex : Nat) : String :=
  blake2b (runId ++ ":" ++ toString stepIndex)

-- `digest` is the 8-byte blake2b of the key read as a big-endian integer
def advisoryLockId (digest : String → Nat) (key : String) : Nat := digest key &&& 0x7FFFFFFFFFFFFFFF

theorem Plan.name_injective (p : Plan) {i j : Nat} {s t : Step} (hi : p.steps[i]? = some s)
    (hj : p.steps[j]? = some t) (h : s.name = t.name) : i = j := by
  have hlt : i < (p.steps.map Step.name).length := by
    simpa using (List.getElem?_eq_some_iff.mp hi).1
  exact (List.getElem?_inj hlt p.uniqueNames).mp (by simp [List.getElem?_map, hi, hj, h])

theorem RunState.mem_done_of_lt {s : RunState} {i : Nat} (h : i < s.nextIndex) :
    ∃ r ∈ s.steps, r.index = i ∧ r.outcome ≠ .failed := by
  obtain ⟨r, hr, rfl⟩ := List.mem_map.mp (FirstGap.mem_of_lt_firstGap h)
  simp only [List.mem_filter, decide_eq_true_eq] at hr
  exact ⟨r, hr.1, rfl, hr.2⟩

theorem colon_split {a b c d : List Char} (hc : ':' ∉ c) (hd : ':' ∉ d)
    (h : a ++ ':' :: c = b ++ ':' :: d) : a = b ∧ c = d := by
  induction a generalizing b with
  | nil =>
    cases b with
    | nil => simpa using h
    | cons x b =>
      simp only [List.nil_append, List.cons_append, List.cons.injEq] at h
      exact absurd (h.2 ▸ by simp) hc
  | cons x a ih =>
    cases b with
    | nil =>
      simp only [List.nil_append, List.cons_append, List.cons.injEq] at h
      exact absurd (h.2 ▸ by simp) hd
    | cons y b =>
      simp only [List.cons_append, List.cons.injEq] at h
      obtain ⟨rfl, rfl⟩ := ih h.2
      exact ⟨by rw [h.1], rfl⟩

theorem colon_not_mem_toDigits (n : Nat) : ':' ∉ Nat.toDigits 10 n := by
  intro h
  have := Nat.isDigit_of_mem_toDigits (by decide) (by decide) h
  exact absurd this (by decide)

theorem effectText_injective {r s : String} {i j : Nat}
    (h : r ++ ":" ++ toString i = s ++ ":" ++ toString j) : r = s ∧ i = j := by
  have ht := congrArg String.toList h
  have hs : (":" : String).toList = [':'] := by decide
  simp only [String.toList_append, hs, List.append_assoc, List.singleton_append,
    Nat.toString_eq_repr, Nat.toList_repr] at ht
  obtain ⟨hr, hd⟩ := colon_split (colon_not_mem_toDigits i) (colon_not_mem_toDigits j) ht
  refine ⟨String.toList_inj.mp hr, ?_⟩
  rw [← Nat.ofDigitChars_ten_toDigits (n := i), hd, Nat.ofDigitChars_ten_toDigits]

theorem effectToken_injective {blake2b : String → String}
    (hb : Function.Injective blake2b) {r s : String} {i j : Nat}
    (h : effectToken blake2b r i = effectToken blake2b s j) : r = s ∧ i = j :=
  effectText_injective (hb h)

section AnyString

-- the text `effect_token` hashes; an index past the digit limit has no decimal text
def effectText (runId : PyStr) (stepIndex : Nat) : Option PyStr :=
  if fitsDigits stepIndex then
    some ((runId.append (.ofString ":")).append (.ofString (toString stepIndex)))
  else none

-- `none` where the call raises
def PyStr.effectToken (blake2b : ByteArray → String) (runId : PyStr) (stepIndex : Nat) :
    Option String :=
  (effectText runId stepIndex).bind fun text => text.encode.map fun s => blake2b s.toUTF8

def effectInputs : Set ByteArray :=
  {b | ∃ r i text s, effectText r i = some text ∧ text.encode = some s ∧ b = s.toUTF8}

theorem PyStr.encode_append (s t : PyStr) : (s.append t).encode =
    s.encode.bind fun a => t.encode.map fun b => a ++ b := by
  simp only [encode, append, List.mapM_append]
  cases s.chars.mapM PyChar.encode with
  | none => rfl
  | some a =>
    cases t.chars.mapM PyChar.encode with
    | none => rfl
    | some b => simp

theorem effectText_encode (r : PyStr) {i : Nat} {text : PyStr} (h : effectText r i = some text) :
    text.encode = r.encode.map fun t => t ++ ":" ++ toString i := by
  unfold effectText at h
  split at h
  · obtain rfl := Option.some.inj h
    rw [PyStr.encode_append, PyStr.encode_append, PyStr.encode_ofString, PyStr.encode_ofString]
    cases r.encode <;> rfl
  · cases h

theorem PyStr.effectToken_inv {blake2b : ByteArray → String} {r : PyStr} {i : Nat} {t : String}
    (h : r.effectToken blake2b i = some t) : ∃ s : String, r = .ofString s ∧
      t = blake2b (s ++ ":" ++ toString i).toUTF8 ∧ (s ++ ":" ++ toString i).toUTF8 ∈ effectInputs := by
  obtain ⟨text, htext, ht⟩ := Option.bind_eq_some_iff.mp h
  obtain ⟨e, he, rfl⟩ := Option.map_eq_some_iff.mp ht
  have henc := effectText_encode r htext
  rw [he, eq_comm] at henc
  obtain ⟨s, hs, rfl⟩ := Option.map_eq_some_iff.mp henc
  exact ⟨s, (ofString_of_encode hs).symm, rfl, r, i, text, _, htext, he, rfl⟩

theorem PyStr.effectToken_ofString (blake2b : ByteArray → String) (runId : String) {i : Nat}
    (hi : fitsDigits i = true) : (ofString runId).effectToken blake2b i =
      some (DurableAgent.effectToken (fun s => blake2b s.toUTF8) runId i) := by
  have htext : effectText (ofString runId) i =
      some (((ofString runId).append (.ofString ":")).append (.ofString (toString i))) := if_pos hi
  rw [effectToken, htext, Option.bind_some, effectText_encode _ htext, encode_ofString]
  rfl

theorem effect_tokens_identify_steps (blake2b : ByteArray → String)
    (hb : Set.InjOn blake2b effectInputs) (r s : PyStr) (i j : Nat) (t u : String)
    (ht : r.effectToken blake2b i = some t) (hu : s.effectToken blake2b j = some u) :
    t = u ↔ r = s ∧ i = j := by
  constructor
  · rintro rfl
    obtain ⟨r, rfl, htr, hr⟩ := PyStr.effectToken_inv ht
    obtain ⟨s, rfl, hts, hs⟩ := PyStr.effectToken_inv hu
    have hbytes := hb hr hs (htr.symm.trans hts)
    obtain ⟨rfl, rfl⟩ := effectText_injective (String.toByteArray_inj.mp hbytes)
    exact ⟨rfl, rfl⟩
  · rintro ⟨rfl, rfl⟩
    exact Option.some.inj (ht.symm.trans hu)

def latin1 (b : ByteArray) : List Char := b.data.toList.map Char.ofUInt8

theorem latin1_injective : Function.Injective latin1 := by
  have hchar : Function.Injective Char.ofUInt8 := by
    intro x y h
    exact UInt8.toUInt32_inj.mp (congrArg Char.val h)
  intro a b h
  exact ByteArray.ext (Array.ext' (List.map_injective_iff.mpr hchar h))

theorem colon_mem_latin1 {b : ByteArray} (h : b ∈ effectInputs) : ':' ∈ latin1 b := by
  obtain ⟨r, i, text, e, htext, he, rfl⟩ := h
  rw [effectText_encode r htext] at he
  obtain ⟨s, -, rfl⟩ := Option.map_eq_some_iff.mp he
  have hcolon : ":".toUTF8.data.toList = [0x3A] := by decide
  simp only [latin1, String.toUTF8_eq_toByteArray, String.toByteArray_append, ByteArray.data_append,
    Array.toList_append, List.map_append, List.mem_append] at *
  refine .inl (.inr ?_)
  rw [hcolon]
  decide

-- the digests of the two texts below; any other text stands for itself
def digests (b : ByteArray) : String :=
  if latin1 b = "a:1:2".toList then "c81b376c91c23a0f5cddd50ca1d7c69d"
  else if latin1 b = "a:12".toList then "27b1bb3f543a787710dea317993ccdbb"
  else .ofList (latin1 b)

theorem digests_injOn : Set.InjOn digests effectInputs := by
  intro a ha b hb h
  have hne {d : String} (hd : ':' ∉ d.toList) {b : ByteArray} (hb : b ∈ effectInputs) :
      d ≠ .ofList (latin1 b) := by
    rintro rfl
    rw [String.toList_ofList] at hd
    exact hd (colon_mem_latin1 hb)
  have h1 : ':' ∉ "c81b376c91c23a0f5cddd50ca1d7c69d".toList := by decide
  have h2 : ':' ∉ "27b1bb3f543a787710dea317993ccdbb".toList := by decide
  unfold digests at h
  split_ifs at h with ha1 hb1 hb2 ha2 hb1 hb2 hb1 hb2
  · exact latin1_injective (ha1.trans hb1.symm)
  · exact absurd h (by decide)
  · exact absurd h (hne h1 hb)
  · exact absurd h (by decide)
  · exact latin1_injective (ha2.trans hb2.symm)
  · exact absurd h (hne h2 hb)
  · exact absurd h.symm (hne h1 ha)
  · exact absurd h.symm (hne h2 ha)
  · exact latin1_injective (String.ofList_injective h)

theorem effect_tokens_colons :
    (PyStr.ofString "a:1").effectToken digests 2 = some "c81b376c91c23a0f5cddd50ca1d7c69d" ∧
    (PyStr.ofString "a").effectToken digests 12 = some "27b1bb3f543a787710dea317993ccdbb" ∧
    ("c81b376c91c23a0f5cddd50ca1d7c69d" = "27b1bb3f543a787710dea317993ccdbb" ↔
      PyStr.ofString "a:1" = PyStr.ofString "a" ∧ 2 = 12) := by
  have h : (PyStr.ofString "a:1").effectToken digests 2 = some "c81b376c91c23a0f5cddd50ca1d7c69d" := by
    rw [PyStr.effectToken_ofString digests "a:1" (by decide)]
    decide
  have h' : (PyStr.ofString "a").effectToken digests 12 = some "27b1bb3f543a787710dea317993ccdbb" := by
    rw [PyStr.effectToken_ofString digests "a" (by decide)]
    decide
  exact ⟨h, h', effect_tokens_identify_steps digests digests_injOn _ _ 2 12 _ _ h h'⟩

end AnyString

end DurableAgent
