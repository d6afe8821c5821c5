import DurableAgent.RoundTrip
import Mathlib.Algebra.Group.Nat.Defs
import Mathlib.Data.List.Sort

namespace DurableAgent

def PyChar.storable : PyChar → Bool
  | .scalar c => c.toNat ≠ 0
  | .surrogate _ => false

def storableText (s : String) : Bool := s.toList.all fun c => c.toNat ≠ 0

-- the integer a float of this text stands for, where it has a positive exponent
def positiveExponent (r : String) : Option Int :=
  let mantissa := r.toList.takeWhile fun c => c ≠ 'e'
  match r.toList.dropWhile fun c => c ≠ 'e' with
  | 'e' :: '+' :: exponent =>
      let fraction := (mantissa.dropWhile fun c => c ≠ '.').drop 1
      let digits := mantissa.filter fun c => c.isDigit
      let scaled : Nat := Nat.ofDigitChars 10 digits 0 *
        10 ^ (Nat.ofDigitChars 10 exponent 0 - fraction.length)
      some (if mantissa.head? = some '-' then -scaled else scaled)
  | _ => none

-- JSONB keeps a number as a numeric: no NaN, no infinity, no negative zero, no exponent
def PyFloat.numeric : PyFloat → Option Json
  | .nan => none
  | .infinity => none
  | .negInfinity => none
  | .finite r =>
      match positiveExponent r with
      | some i => some (.int i)
      | none => some (.float (.finite (if r = "-0.0" then "0.0" else r)))

def PyStr.jsonb (s : PyStr) : Option PyStr :=
  if s.joined.chars.all PyChar.storable then some s.joined else none

def keyLe (a b : String) : Prop :=
  a.utf8ByteSize < b.utf8ByteSize ∨ a.utf8ByteSize = b.utf8ByteSize ∧ a ≤ b

instance (a b : String) : Decidable (keyLe a b) :=
  inferInstanceAs (Decidable (_ ∨ _ ∧ _))

def PyStr.keyLe (a b : PyStr) : Prop := DurableAgent.keyLe (a.encode.getD "") (b.encode.getD "")

instance (a b : PyStr) : Decidable (a.keyLe b) := inferInstanceAs (Decidable (DurableAgent.keyLe _ _))

mutual

-- what JSONB stores for a document, `none` where it refuses it
def jsonb : Json → Option Json
  | .null => some .null
  | .bool b => some (.bool b)
  | .int i => some (.int i)
  | .float f => f.numeric
  | .str s => s.jsonb.map .str
  | .arr items => (jsonbItems items).map .arr
  | .obj items => (jsonbPairs items).map fun pairs =>
      .obj ((Dict.ofPairs pairs).insertionSort fun a b => a.1.keyLe b.1)

def jsonbItems : List Json → Option (List Json)
  | [] => some []
  | j :: js =>
      match jsonb j, jsonbItems js with
      | some j', some js' => some (j' :: js')
      | _, _ => none

def jsonbPairs : List (PyStr × Json) → Option (List (PyStr × Json))
  | [] => some []
  | (s, j) :: js =>
      match s.jsonb, jsonb j, jsonbPairs js with
      | some s', some j', some js' => some ((s', j') :: js')
      | _, _, _ => none

end

def jsonbObject (o : JsonObject) : Option JsonObject :=
  (jsonbPairs o).map fun pairs => (Dict.ofPairs pairs).insertionSort fun a b => a.1.keyLe b.1

mutual

-- what both backends keep: no NUL, no lone surrogate, no NaN or infinity, no float JSONB would turn
-- into an integer
def Json.portable : Json → Bool
  | .null => true
  | .bool _ => true
  | .int _ => true
  | .float (.finite r) => (positiveExponent r).isNone
  | .float _ => false
  | .str s => s.joined.chars.all PyChar.storable
  | .arr items => Json.portableItems items
  | .obj items => Json.portablePairs items

def Json.portableItems : List Json → Bool
  | [] => true
  | j :: js => Json.portable j && Json.portableItems js

def Json.portablePairs : List (PyStr × Json) → Bool
  | [] => true
  | (s, j) :: js => s.joined.chars.all PyChar.storable && Json.portable j && Json.portablePairs js

end

def portableObject (o : JsonObject) : Bool := Json.portablePairs o

def SameValue (v w : PyValue) : Prop := PyValue.same v w = true

section Values

theorem same_of_entries {A B : List (PyKey × PyValue)} (h : List.Forall₂ (Dict.EntryRel SameValue) A B)
    (hn : (Dict.keys B).Nodup) : SameValue (.dict A) (.dict B) := by
  simp only [SameValue, PyValue.same, Bool.and_eq_true, decide_eq_true_eq, PyValue.sameEntries_iff]
  refine ⟨h.length_eq, ?_⟩
  have hall : ∀ kv ∈ A, ∃ kv' ∈ B, Dict.EntryRel SameValue kv kv' := by
    clear hn
    induction h with
    | nil => simp
    | cons hk _ ih =>
      intro kv hkv
      rcases List.mem_cons.mp hkv with rfl | hkv
      · exact ⟨_, List.mem_cons_self, hk⟩
      · obtain ⟨kv', hkv', hrel⟩ := ih kv hkv
        exact ⟨kv', List.mem_cons_of_mem _ hkv', hrel⟩
  intro kv hkv
  obtain ⟨kv', hkv', hk, hs⟩ := hall kv hkv
  exact ⟨kv'.2, hk ▸ Dict.get?_of_mem hn hkv', hs⟩

theorem SameValue.perm {v : PyValue} {B B' : List (PyKey × PyValue)} (h : SameValue v (.dict B))
    (hp : B.Perm B') (hn : (Dict.keys B).Nodup) : SameValue v (.dict B') := by
  cases v with
  | dict A
  | mapping A =>
    simp only [SameValue, PyValue.same, Bool.and_eq_true, decide_eq_true_eq,
      PyValue.sameEntries_iff] at h ⊢
    refine ⟨h.1.trans hp.length_eq, fun kv hkv => ?_⟩
    obtain ⟨b, hb, hs⟩ := h.2 kv hkv
    exact ⟨b, (Dict.get?_perm hp hn kv.1).trans hb, hs⟩
  | _ => simp [SameValue, PyValue.same] at h

theorem same_dict {A P Q : List (PyKey × PyValue)} (h : List.Forall₂ (Dict.EntryRel SameValue) A P)
    (hp : (Dict.ofPairs P).Perm Q) : SameValue (.dict (Dict.ofPairs A)) (.dict (Dict.ofPairs Q)) := by
  have hn := Dict.nodup_ofPairs P
  have hnq : (Dict.keys Q).Nodup := (hp.map Prod.fst).nodup_iff.mp hn
  rw [Dict.ofPairs_of_nodup hnq]
  exact (same_of_entries (Dict.ofPairs_related h) hn).perm hp hn

theorem loadsPairs_joined {kvs : List (PyStr × Json)} (h : ∀ kv ∈ kvs, kv.1.joined = kv.1) :
    loadsPairs kvs = kvs.map fun kv => (.str kv.1, loads kv.2) := by
  induction kvs with
  | nil => rw [loadsPairs, List.map_nil]
  | cons kv kvs ih =>
    obtain ⟨s, j⟩ := kv
    rw [loadsPairs, h (s, j) List.mem_cons_self, ih fun kv hkv => h kv (List.mem_cons_of_mem _ hkv),
      List.map_cons]

theorem same_sorted {A : List (PyKey × PyValue)} {ps : List (PyStr × Json)}
    (h : List.Forall₂ (Dict.EntryRel SameValue) A (ps.map fun kv => (.str kv.1, loads kv.2)))
    (hj : ∀ kv ∈ ps, kv.1.joined = kv.1) :
    SameValue (.dict (Dict.ofPairs A))
      (loads (.obj ((Dict.ofPairs ps).insertionSort fun a b => a.1.keyLe b.1))) := by
  have hperm := List.perm_insertionSort (fun a b : PyStr × Json => a.1.keyLe b.1) (Dict.ofPairs ps)
  have hj' : ∀ kv ∈ (Dict.ofPairs ps).insertionSort fun a b => a.1.keyLe b.1,
      kv.1.joined = kv.1 := by
    intro kv hkv
    have hk : kv.1 ∈ Dict.keys ps :=
      Dict.mem_keys_ofPairs.mp (List.mem_map_of_mem (hperm.subset hkv))
    obtain ⟨kv', hkv', he⟩ := List.mem_map.mp hk
    rw [← he]
    exact hj kv' hkv'
  have hinj : Function.Injective PyKey.str := fun _ _ he => PyKey.str.inj he
  rw [loads, loadsPairs_joined hj']
  apply same_dict h
  rw [Dict.ofPairs_map hinj loads]
  exact (hperm.map _).symm

theorem PyStr.jsonb_of_storable {s : PyStr} (h : s.joined.chars.all PyChar.storable = true) :
    s.jsonb = some s.joined := if_pos h

theorem PyFloat.same_zero (r : String) :
    PyFloat.same (.finite r) (.finite (if r = "-0.0" then "0.0" else r)) = true := by
  by_cases h : r = "-0.0"
  · subst h
    decide
  · simp [PyFloat.same, h]

mutual

theorem same_jsonb : ∀ j : Json, j.portable = true →
    ∃ j', jsonb j = some j' ∧ SameValue (loads j) (loads j')
  | .null, _ => ⟨.null, by simp [jsonb], by simp [SameValue, loads, PyValue.same]⟩
  | .bool b, _ => ⟨.bool b, by simp [jsonb], by simp [SameValue, loads, PyValue.same]⟩
  | .int i, _ => ⟨.int i, by simp [jsonb], by simp [SameValue, loads, PyValue.same]⟩
  | .float .nan, h => by simp [Json.portable] at h
  | .float .infinity, h => by simp [Json.portable] at h
  | .float .negInfinity, h => by simp [Json.portable] at h
  | .float (.finite r), h => by
      rw [Json.portable, Option.isNone_iff_eq_none] at h
      refine ⟨.float (.finite (if r = "-0.0" then "0.0" else r)), ?_, ?_⟩
      · rw [jsonb, PyFloat.numeric, h]
      · rw [SameValue, loads, loads, PyValue.same, PyFloat.same_zero]
  | .str s, h => by
      rw [Json.portable] at h
      refine ⟨.str s.joined, by rw [jsonb, PyStr.jsonb_of_storable h, Option.map_some], ?_⟩
      rw [SameValue, loads, loads, PyValue.same, PyStr.joined_joined, beq_self_eq_true]
  | .arr items, h => by
      obtain ⟨js, hjs, hs⟩ := same_jsonb_items items (by simpa [Json.portable] using h)
      refine ⟨.arr js, by rw [jsonb, hjs, Option.map_some], ?_⟩
      rwa [SameValue, loads, loads, PyValue.same]
  | .obj items, h => by
      obtain ⟨ps, hps, hs, hj⟩ := same_jsonb_pairs items (by simpa [Json.portable] using h)
      exact ⟨_, by rw [jsonb, hps, Option.map_some], by rw [loads]; exact same_sorted hs hj⟩

theorem same_jsonb_items : ∀ js : List Json, Json.portableItems js = true →
    ∃ js', jsonbItems js = some js' ∧ PyValue.sameItems (loadsItems js) (loadsItems js') = true
  | [], _ => ⟨[], by simp [jsonbItems], by simp [loadsItems, PyValue.sameItems]⟩
  | j :: js, h => by
      simp only [Json.portableItems, Bool.and_eq_true] at h
      obtain ⟨j', hj', hs⟩ := same_jsonb j h.1
      obtain ⟨js', hjs', hss⟩ := same_jsonb_items js h.2
      refine ⟨j' :: js', by rw [jsonbItems, hj', hjs'], ?_⟩
      rw [loadsItems, loadsItems, PyValue.sameItems, hs, hss, Bool.and_self]

theorem same_jsonb_pairs : ∀ kvs : List (PyStr × Json), Json.portablePairs kvs = true →
    ∃ ps, jsonbPairs kvs = some ps ∧
      List.Forall₂ (Dict.EntryRel SameValue) (loadsPairs kvs)
        (ps.map fun kv => (.str kv.1, loads kv.2)) ∧ ∀ kv ∈ ps, kv.1.joined = kv.1
  | [], _ => ⟨[], by simp [jsonbPairs], by rw [loadsPairs]; exact .nil, by simp⟩
  | (s, j) :: kvs, h => by
      simp only [Json.portablePairs, Bool.and_eq_true] at h
      obtain ⟨j', hj', hs⟩ := same_jsonb j h.1.2
      obtain ⟨ps, hps, hss, hj⟩ := same_jsonb_pairs kvs h.2
      refine ⟨(s.joined, j') :: ps,
        by rw [jsonbPairs, PyStr.jsonb_of_storable h.1.1, hj', hps], ?_, ?_⟩
      · rw [loadsPairs, List.map_cons]
        exact .cons ⟨rfl, hs⟩ hss
      · intro kv hkv
        rcases List.mem_cons.mp hkv with rfl | hkv
        · exact PyStr.joined_joined s
        · exact hj kv hkv

end

theorem same_jsonbObject {o : JsonObject} (h : portableObject o = true) :
    ∃ o', jsonbObject o = some o' ∧
      SameValue (ofStrDict (loadsObject o)) (ofStrDict (loadsObject o')) := by
  obtain ⟨ps, hps, hs, hj⟩ := same_jsonb_pairs o h
  refine ⟨_, by rw [jsonbObject, hps, Option.map_some], ?_⟩
  rw [← loads_ofStrDict, ← loads_ofStrDict, loads]
  exact same_sorted hs hj

end Values

section Nesting

theorem membersDepth_le {kvs : List (PyStr × Json)} {n : Nat} :
    Json.membersDepth kvs ≤ n ↔ ∀ kv ∈ kvs, kv.2.depth ≤ n := by
  induction kvs with
  | nil => simp [Json.membersDepth]
  | cons kv kvs ih => rw [Json.membersDepth, Nat.max_le, ih, List.forall_mem_cons]

theorem membersDepth_sorted (ps : List (PyStr × Json)) :
    Json.membersDepth ((Dict.ofPairs ps).insertionSort fun a b => a.1.keyLe b.1) ≤
      Json.membersDepth ps := by
  rw [membersDepth_le]
  intro kv hkv
  rw [List.mem_insertionSort] at hkv
  exact membersDepth_le.mp le_rfl kv (Dict.mem_ofPairs hkv)

mutual

theorem jsonb_depth : ∀ (j : Json) {j' : Json}, jsonb j = some j' → j'.depth ≤ j.depth
  | .null, _, h => by
      cases h
      exact le_rfl
  | .bool _, _, h => by
      cases h
      exact le_rfl
  | .int _, _, h => by
      cases h
      exact le_rfl
  | .float f, j', h => by
      rw [jsonb] at h
      unfold PyFloat.numeric at h
      split at h
      · cases h
      · cases h
      · cases h
      · split at h <;> cases h <;> exact le_rfl
  | .str s, j', h => by
      rw [jsonb] at h
      obtain ⟨s', _, rfl⟩ := Option.map_eq_some_iff.mp h
      exact le_rfl
  | .arr items, j', h => by
      rw [jsonb] at h
      obtain ⟨js, hjs, rfl⟩ := Option.map_eq_some_iff.mp h
      exact Nat.succ_le_succ (jsonb_itemsDepth items hjs)
  | .obj items, j', h => by
      rw [jsonb] at h
      obtain ⟨ps, hps, rfl⟩ := Option.map_eq_some_iff.mp h
      exact Nat.succ_le_succ ((membersDepth_sorted ps).trans (jsonb_membersDepth items hps))

theorem jsonb_itemsDepth : ∀ (js : List Json) {js' : List Json}, jsonbItems js = some js' →
    Json.itemsDepth js' ≤ Json.itemsDepth js
  | [], _, h => by
      cases h
      exact le_rfl
  | j :: js, js'', h => by
      rw [jsonbItems] at h
      split at h
      · rename_i j' js' hj hjs
        cases h
        have hd := jsonb_depth j hj
        have hds := jsonb_itemsDepth js hjs
        rw [Json.itemsDepth, Json.itemsDepth]
        omega
      · cases h

theorem jsonb_membersDepth : ∀ (kvs : List (PyStr × Json)) {ps : List (PyStr × Json)},
    jsonbPairs kvs = some ps → Json.membersDepth ps ≤ Json.membersDepth kvs
  | [], _, h => by
      cases h
      exact le_rfl
  | (s, j) :: kvs, ps, h => by
      rw [jsonbPairs] at h
      split at h
      · rename_i s' j' ps' hs hj hps
        cases h
        have hd := jsonb_depth j hj
        have hds := jsonb_membersDepth kvs hps
        rw [Json.membersDepth, Json.membersDepth]
        omega
      · cases h

end

-- of members with one key JSONB keeps the last, so that a document may come back shallower
theorem jsonbObject_depth {o o' : JsonObject} (h : jsonbObject o = some o') :
    (Json.obj o').depth ≤ (Json.obj o).depth := by
  obtain ⟨ps, hps, rfl⟩ := Option.map_eq_some_iff.mp h
  exact Nat.succ_le_succ ((membersDepth_sorted ps).trans (jsonb_membersDepth o hps))

end Nesting

end DurableAgent
