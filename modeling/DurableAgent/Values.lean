import DurableAgent.Library.Dict

namespace DurableAgent

inductive PyChar where
  | scalar (c : Char)
  | surrogate (n : Fin 0x800)
deriving DecidableEq, Repr

structure PyStr where
  chars : List PyChar
deriving DecidableEq, Repr

def PyChar.encode : PyChar → Option Char
  | .scalar c => some c
  | .surrogate _ => none

namespace PyStr

def ofString (s : String) : PyStr := ⟨s.toList.map .scalar⟩

def append (s t : PyStr) : PyStr := ⟨s.chars ++ t.chars⟩

-- UTF-8 has no code for a lone surrogate, so `str.encode` refuses it
def encode (s : PyStr) : Option String := (s.chars.mapM PyChar.encode).map String.ofList

theorem mapM_encode_scalar (cs : List Char) :
    (cs.map PyChar.scalar).mapM PyChar.encode = some cs := by
  induction cs with
  | nil => rfl
  | cons c cs ih => rw [List.map_cons, List.mapM_cons, ih]; rfl

@[simp] theorem encode_ofString (s : String) : (ofString s).encode = some s := by
  simp only [encode, ofString, mapM_encode_scalar, Option.map_some, String.ofList_toList]

theorem mapM_encode_inv {ps : List PyChar} {cs : List Char}
    (h : ps.mapM PyChar.encode = some cs) : ps = cs.map PyChar.scalar := by
  induction ps generalizing cs with
  | nil => simpa [eq_comm] using h
  | cons p ps ih =>
    cases p with
    | surrogate n => simp [PyChar.encode] at h
    | scalar c =>
      simp only [List.mapM_cons, PyChar.encode, Option.pure_def, Option.bind_eq_bind,
        Option.bind_some, Option.bind_eq_some_iff, Option.some.injEq] at h
      obtain ⟨ds, hds, rfl⟩ := h
      simp [ih hds]

theorem ofString_of_encode {s : PyStr} {t : String} (h : s.encode = some t) : ofString t = s := by
  simp only [encode, Option.map_eq_some_iff] at h
  obtain ⟨cs, hcs, rfl⟩ := h
  simp only [ofString, String.toList_ofList, ← mapM_encode_inv hcs]

def joinPairs : List PyChar → List PyChar
  | .surrogate a :: .surrogate b :: cs =>
      if a.val < 0x400 ∧ 0x400 ≤ b.val then
        .scalar (Char.ofNat (0x10000 + a.val * 0x400 + (b.val - 0x400))) :: joinPairs cs
      else .surrogate a :: joinPairs (.surrogate b :: cs)
  | c :: cs => c :: joinPairs cs
  | [] => []

-- a high and a low surrogate written as two escapes are read back as one character
def joined (s : PyStr) : PyStr := ⟨joinPairs s.chars⟩

theorem joinPairs_scalar (cs : List Char) :
    joinPairs (cs.map PyChar.scalar) = cs.map PyChar.scalar := by
  induction cs with
  | nil => rfl
  | cons c cs ih => rw [List.map_cons, joinPairs, ih]; simp

theorem joined_of_encode {s : PyStr} {t : String} (h : s.encode = some t) : s.joined = s := by
  rw [← ofString_of_encode h, joined, ofString, joinPairs_scalar]

@[simp] theorem joined_ofString (s : String) : (ofString s).joined = ofString s :=
  joined_of_encode (encode_ofString s)

end PyStr

inductive PyFloat where
  | nan
  | infinity
  | negInfinity
  | finite (repr : String)
deriving DecidableEq, Repr

def PyFloat.text : PyFloat → String
  | .nan => "NaN"
  | .infinity => "Infinity"
  | .negInfinity => "-Infinity"
  | .finite r => r

inductive PyKey where
  | none
  | bool (b : Bool)
  | int (i : Int)
  | float (f : PyFloat)
  | str (s : PyStr)
  | bytes (b : List UInt8)
  | other
deriving DecidableEq, Repr

-- `mapping` is a `Mapping` that is no dict, `other` any other object `json` has no encoding for, a
-- container inside itself included
inductive PyValue where
  | none
  | bool (b : Bool)
  | int (i : Int)
  | float (f : PyFloat)
  | str (s : PyStr)
  | bytes (b : List UInt8)
  | list (items : List PyValue)
  | tuple (items : List PyValue)
  | dict (items : List (PyKey × PyValue))
  | mapping (items : List (PyKey × PyValue))
  | other

mutual

def PyValue.beq : PyValue → PyValue → Bool
  | .none, .none => true
  | .bool a, .bool b => a == b
  | .int a, .int b => a == b
  | .float a, .float b => a == b
  | .str a, .str b => a == b
  | .bytes a, .bytes b => a == b
  | .list a, .list b => PyValue.beqItems a b
  | .tuple a, .tuple b => PyValue.beqItems a b
  | .dict a, .dict b => PyValue.beqPairs a b
  | .mapping a, .mapping b => PyValue.beqPairs a b
  | .other, .other => true
  | _, _ => false

def PyValue.beqItems : List PyValue → List PyValue → Bool
  | [], [] => true
  | a :: as, b :: bs => PyValue.beq a b && PyValue.beqItems as bs
  | _, _ => false

def PyValue.beqPairs : List (PyKey × PyValue) → List (PyKey × PyValue) → Bool
  | [], [] => true
  | (k, a) :: as, (l, b) :: bs => k == l && PyValue.beq a b && PyValue.beqPairs as bs
  | _, _ => false

end

mutual

theorem PyValue.beq_iff : ∀ a b : PyValue, PyValue.beq a b = true ↔ a = b
  | .list as, b => by
      cases b <;> simp [PyValue.beq]
      exact PyValue.beqItems_iff as _
  | .tuple as, b => by
      cases b <;> simp [PyValue.beq]
      exact PyValue.beqItems_iff as _
  | .dict as, b => by
      cases b <;> simp [PyValue.beq]
      exact PyValue.beqPairs_iff as _
  | .mapping as, b => by
      cases b <;> simp [PyValue.beq]
      exact PyValue.beqPairs_iff as _
  | .none, b => by cases b <;> simp [PyValue.beq]
  | .bool _, b => by cases b <;> simp [PyValue.beq]
  | .int _, b => by cases b <;> simp [PyValue.beq]
  | .float _, b => by cases b <;> simp [PyValue.beq]
  | .str _, b => by cases b <;> simp [PyValue.beq]
  | .bytes _, b => by cases b <;> simp [PyValue.beq]
  | .other, b => by cases b <;> simp [PyValue.beq]

theorem PyValue.beqItems_iff : ∀ as bs : List PyValue, PyValue.beqItems as bs = true ↔ as = bs
  | [], bs => by cases bs <;> simp [PyValue.beqItems]
  | a :: as, bs => by
      cases bs with
      | nil => simp [PyValue.beqItems]
      | cons b bs => simp [PyValue.beqItems, PyValue.beq_iff a b, PyValue.beqItems_iff as bs]

theorem PyValue.beqPairs_iff :
    ∀ as bs : List (PyKey × PyValue), PyValue.beqPairs as bs = true ↔ as = bs
  | [], bs => by cases bs <;> simp [PyValue.beqPairs]
  | (k, a) :: as, bs => by
      cases bs with
      | nil => simp [PyValue.beqPairs]
      | cons b bs =>
        obtain ⟨l, b⟩ := b
        simp [PyValue.beqPairs, PyValue.beq_iff a b, PyValue.beqPairs_iff as bs]

end

instance : DecidableEq PyValue := fun a b => decidable_of_iff _ (PyValue.beq_iff a b)

inductive Json where
  | null
  | bool (b : Bool)
  | int (i : Int)
  | float (f : PyFloat)
  | str (s : PyStr)
  | arr (items : List Json)
  | obj (items : List (PyStr × Json))

def intMaxStrDigits : Nat := 4300

def fitsDigits (i : Int) : Bool := (Nat.toDigits 10 i.natAbs).length ≤ intMaxStrDigits

def jsonKey : PyKey → Option PyStr
  | .none => some (.ofString "null")
  | .bool b => some (.ofString (if b then "true" else "false"))
  | .int i => if fitsDigits i then some (.ofString (toString i)) else .none
  | .float f => some (.ofString f.text)
  | .str s => some s
  | .bytes _ => .none
  | .other => .none

mutual

-- what `json` writes for a value, given all the stack it wants
def toJson : PyValue → Option Json
  | .none => some .null
  | .bool b => some (.bool b)
  | .int i => if fitsDigits i then some (.int i) else .none
  | .float f => some (.float f)
  | .str s => some (.str s)
  | .bytes _ => .none
  | .list items => (toJsonItems items).map .arr
  | .tuple items => (toJsonItems items).map .arr
  | .dict items => (toJsonPairs items).map .obj
  | .mapping _ => .none
  | .other => .none

def toJsonItems : List PyValue → Option (List Json)
  | [] => some []
  | v :: vs =>
      match toJson v, toJsonItems vs with
      | some j, some js => some (j :: js)
      | _, _ => .none

def toJsonPairs : List (PyKey × PyValue) → Option (List (PyStr × Json))
  | [] => some []
  | (k, v) :: kvs =>
      match jsonKey k, toJson v, toJsonPairs kvs with
      | some s, some j, some js => some ((s, j) :: js)
      | _, _, _ => .none

end

mutual

-- the arrays and objects open at once
def Json.depth : Json → Nat
  | .null => 0
  | .bool _ => 0
  | .int _ => 0
  | .float _ => 0
  | .str _ => 0
  | .arr items => Json.itemsDepth items + 1
  | .obj items => Json.membersDepth items + 1

def Json.itemsDepth : List Json → Nat
  | [] => 0
  | j :: js => max (Json.depth j) (Json.itemsDepth js)

def Json.membersDepth : List (PyStr × Json) → Nat
  | [] => 0
  | (_, j) :: js => max (Json.depth j) (Json.membersDepth js)

end

-- `json.dumps`: `stack` is the nesting the interpreter's stack has room for, and what it has no
-- room for raises as what has no encoding does
def dumps (stack : Nat) (v : PyValue) : Option Json := (toJson v).filter fun j => j.depth ≤ stack

theorem dumps_eq_some {stack : Nat} {v : PyValue} {j : Json} :
    dumps stack v = some j ↔ toJson v = some j ∧ j.depth ≤ stack := by
  simp [dumps, Option.filter_eq_some_iff]

mutual

def loads : Json → PyValue
  | .null => .none
  | .bool b => .bool b
  | .int i => .int i
  | .float f => .float f
  | .str s => .str s.joined
  | .arr items => .list (loadsItems items)
  | .obj items => .dict (Dict.ofPairs (loadsPairs items))

def loadsItems : List Json → List PyValue
  | [] => []
  | j :: js => loads j :: loadsItems js

def loadsPairs : List (PyStr × Json) → List (PyKey × PyValue)
  | [] => []
  | (s, j) :: js => (.str s.joined, loads j) :: loadsPairs js

end

def strKey : PyKey → Bool
  | .none => false
  | .bool _ => false
  | .int _ => false
  | .float _ => false
  | .str s => s.joined = s
  | .bytes _ => false
  | .other => false

theorem strKey_inv {k : PyKey} (h : strKey k = true) : ∃ s, k = .str s ∧ s.joined = s := by
  cases k with
  | str s => exact ⟨s, rfl, by simpa [strKey] using h⟩
  | _ => exact absurd h Bool.false_ne_true

mutual

def isJson : PyValue → Bool
  | .none => true
  | .bool _ => true
  | .int i => fitsDigits i
  | .float _ => true
  | .str s => s.joined = s
  | .bytes _ => false
  | .list items => isJsonItems items
  | .tuple _ => false
  | .dict items => decide (Dict.keys items).Nodup && isJsonPairs items
  | .mapping _ => false
  | .other => false

def isJsonItems : List PyValue → Bool
  | [] => true
  | v :: vs => isJson v && isJsonItems vs

def isJsonPairs : List (PyKey × PyValue) → Bool
  | [] => true
  | (k, v) :: kvs => strKey k && isJson v && isJsonPairs kvs

end

mutual

theorem loads_toJson : ∀ v : PyValue, isJson v = true → ∃ j, toJson v = some j ∧ loads j = v
  | .none, _ => ⟨.null, by simp [toJson], by simp [loads]⟩
  | .bool b, _ => ⟨.bool b, by simp [toJson], by simp [loads]⟩
  | .int i, h => ⟨.int i, by simpa [toJson, isJson] using h, by simp [loads]⟩
  | .float f, _ => ⟨.float f, by simp [toJson], by simp [loads]⟩
  | .str s, h => ⟨.str s, by simp [toJson], by simpa [loads, isJson] using h⟩
  | .bytes _, h => by simp [isJson] at h
  | .tuple _, h => by simp [isJson] at h
  | .mapping _, h => by simp [isJson] at h
  | .other, h => by simp [isJson] at h
  | .list items, h => by
      obtain ⟨js, hd, hl⟩ := loads_toJson_items items (by simpa [isJson] using h)
      exact ⟨.arr js, by simp [toJson, hd], by simp [loads, hl]⟩
  | .dict items, h => by
      simp only [isJson, Bool.and_eq_true, decide_eq_true_eq] at h
      obtain ⟨js, hd, hl⟩ := loads_toJson_pairs items h.2
      exact ⟨.obj js, by simp [toJson, hd], by simp [loads, hl, Dict.ofPairs_of_nodup h.1]⟩

theorem loads_toJson_items : ∀ vs : List PyValue, isJsonItems vs = true →
    ∃ js, toJsonItems vs = some js ∧ loadsItems js = vs
  | [], _ => ⟨[], by simp [toJsonItems], by simp [loadsItems]⟩
  | v :: vs, h => by
      simp only [isJsonItems, Bool.and_eq_true] at h
      obtain ⟨j, hd, hl⟩ := loads_toJson v h.1
      obtain ⟨js, hds, hls⟩ := loads_toJson_items vs h.2
      exact ⟨j :: js, by simp [toJsonItems, hd, hds], by simp [loadsItems, hl, hls]⟩

theorem loads_toJson_pairs : ∀ kvs : List (PyKey × PyValue), isJsonPairs kvs = true →
    ∃ js, toJsonPairs kvs = some js ∧ loadsPairs js = kvs
  | [], _ => ⟨[], by simp [toJsonPairs], by simp [loadsPairs]⟩
  | (k, v) :: kvs, h => by
      simp only [isJsonPairs, Bool.and_eq_true] at h
      obtain ⟨j, hd, hl⟩ := loads_toJson v h.1.2
      obtain ⟨js, hds, hls⟩ := loads_toJson_pairs kvs h.2
      obtain ⟨s, rfl, hs⟩ := strKey_inv h.1.1
      exact ⟨(s, j) :: js, by simp [toJsonPairs, jsonKey, hd, hds],
        by simp [loadsPairs, hs, hl, hls]⟩

end

abbrev StrDict := Dict PyStr PyValue

abbrev JsonObject := List (PyStr × Json)

def ofStrDict (d : StrDict) : PyValue := .dict (d.map fun kv => (.str kv.1, kv.2))

def toJsonObject (d : StrDict) : Option JsonObject :=
  d.mapM fun kv => (toJson kv.2).map fun j => (kv.1, j)

def dumpsObject (stack : Nat) (d : StrDict) : Option JsonObject :=
  (toJsonObject d).filter fun o => (Json.obj o).depth ≤ stack

def loadsObject (o : JsonObject) : StrDict :=
  Dict.ofPairs (o.map fun kv => (kv.1.joined, loads kv.2))

theorem dumpsObject_eq_some {stack : Nat} {d : StrDict} {o : JsonObject} :
    dumpsObject stack d = some o ↔ toJsonObject d = some o ∧ (Json.obj o).depth ≤ stack := by
  simp [dumpsObject, Option.filter_eq_some_iff]

-- pydantic takes `bytes` for a key where they are UTF-8
def strOfKey : PyKey → Option PyStr
  | .str s => some s
  | .bytes b => (String.fromUTF8? ⟨b.toArray⟩).map PyStr.ofString
  | _ => none

def validateItems (items : List (PyKey × PyValue)) : Option StrDict :=
  (items.mapM fun kv => (strOfKey kv.1).map fun k => (k, kv.2)).map Dict.ofPairs

-- `dict[str, Any]` takes any `Mapping` and keeps its entries in a dict of its own
def validateDict : PyValue → Option StrDict
  | .dict items => validateItems items
  | .mapping items => validateItems items
  | _ => none

def isJsonDict : PyValue → Prop
  | .dict items => isJson (.dict items) = true
  | _ => False

theorem str_items_inv {items : List (PyKey × PyValue)} (hj : isJsonPairs items = true) :
    ∃ d : StrDict, items = d.map (fun kv => (.str kv.1, kv.2)) ∧
      items.mapM (fun kv => (strOfKey kv.1).map fun k => (k, kv.2)) = some d ∧
      ∀ kv ∈ d, kv.1.joined = kv.1 ∧ isJson kv.2 = true := by
  induction items with
  | nil => exact ⟨[], rfl, rfl, by simp⟩
  | cons kv items ih =>
    obtain ⟨k, v⟩ := kv
    simp only [isJsonPairs, Bool.and_eq_true] at hj
    obtain ⟨s, rfl, hs⟩ := strKey_inv hj.1.1
    obtain ⟨d, hd, hm, hv⟩ := ih hj.2
    refine ⟨(s, v) :: d, by rw [List.map_cons, ← hd], ?_, ?_⟩
    · rw [List.mapM_cons, hm]
      rfl
    · intro kv h
      rcases List.mem_cons.mp h with rfl | h
      · exact ⟨hs, hj.1.2⟩
      · exact hv kv h

theorem loadsObject_toJsonObject {d : StrDict} (hn : (Dict.keys d).Nodup)
    (hv : ∀ kv ∈ d, kv.1.joined = kv.1 ∧ isJson kv.2 = true) :
    ∃ o, toJsonObject d = some o ∧ loadsObject o = d := by
  have h : ∃ o : JsonObject, toJsonObject d = some o ∧
      o.map (fun kv => (kv.1.joined, loads kv.2)) = d := by
    clear hn
    induction d with
    | nil => exact ⟨[], rfl, rfl⟩
    | cons kv d ih =>
      obtain ⟨k, v⟩ := kv
      obtain ⟨o, ho, hl⟩ := ih fun kv h => hv kv (by simp [h])
      obtain ⟨hk, hjson⟩ := hv (k, v) (by simp)
      obtain ⟨j, hj, hlj⟩ := loads_toJson v hjson
      refine ⟨(k, j) :: o, ?_, by simp [hk, hlj, hl]⟩
      rw [toJsonObject, List.mapM_cons, ← toJsonObject, ho]
      simp [hj]
  obtain ⟨o, ho, hl⟩ := h
  exact ⟨o, ho, by rw [loadsObject, hl, Dict.ofPairs_of_nodup hn]⟩

theorem ofStrDict_keys_nodup {d : StrDict}
    (h : (Dict.keys (d.map fun kv => (PyKey.str kv.1, kv.2))).Nodup) : (Dict.keys d).Nodup := by
  have hm : Dict.keys (d.map fun kv => (PyKey.str kv.1, kv.2)) = (Dict.keys d).map PyKey.str := by
    simp [Dict.keys, Function.comp_def]
  rw [hm] at h
  exact List.Nodup.of_map _ h

theorem json_dict_round_trip {v : PyValue} (h : isJsonDict v) :
    ∃ d, validateDict v = some d ∧ ofStrDict d = v ∧
      ∃ o, toJsonObject d = some o ∧ loadsObject o = d := by
  cases v with
  | dict items =>
    simp only [isJsonDict, isJson, Bool.and_eq_true, decide_eq_true_eq] at h
    obtain ⟨d, rfl, hm, hv⟩ := str_items_inv h.2
    have hn : (Dict.keys d).Nodup := ofStrDict_keys_nodup h.1
    refine ⟨d, ?_, rfl, loadsObject_toJsonObject hn hv⟩
    rw [validateDict, validateItems, hm, Option.map_some, Dict.ofPairs_of_nodup hn]
  | _ => exact False.elim h

end DurableAgent
