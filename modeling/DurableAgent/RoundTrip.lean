import DurableAgent.Values
import Mathlib.Data.List.Forall2

namespace DurableAgent

namespace PyStr

theorem joinPairs_scalar_cons (c : Char) (cs : List PyChar) :
    joinPairs (.scalar c :: cs) = .scalar c :: joinPairs cs := by
  rw [joinPairs]
  simp

theorem joinPairs_surrogate_head (a : Fin 0x800) (cs : List PyChar) :
    joinPairs (.surrogate a :: cs) = .surrogate a :: joinPairs cs ∨
      ∃ c ds, joinPairs (.surrogate a :: cs) = .scalar c :: ds := by
  cases cs with
  | nil => exact .inl (by simp [joinPairs])
  | cons d cs =>
    cases d with
    | scalar c => exact .inl (by rw [joinPairs]; simp)
    | surrogate b =>
      by_cases hp : a.val < 0x400 ∧ 0x400 ≤ b.val
      · exact .inr ⟨_, _, by rw [joinPairs, if_pos hp]⟩
      · exact .inl (by rw [joinPairs, if_neg hp])

-- after joining, a surrogate stands before a character it did not pair with
theorem joinPairs_joinPairs (cs : List PyChar) : joinPairs (joinPairs cs) = joinPairs cs := by
  induction cs using joinPairs.induct with
  | case1 a b cs hp ih => rw [joinPairs, if_pos hp, joinPairs_scalar_cons, ih]
  | case2 a b cs hp ih =>
    rw [joinPairs, if_neg hp]
    rcases joinPairs_surrogate_head b cs with h | ⟨c, ds, h⟩
    · rw [h] at ih ⊢
      rw [joinPairs, if_neg hp, ih]
    · rw [h] at ih ⊢
      rw [joinPairs, ih]
      simp
  | case3 c cs hc ih =>
    cases c with
    | scalar c => rw [joinPairs_scalar_cons, joinPairs_scalar_cons, ih]
    | surrogate a =>
      cases cs with
      | nil => simp [joinPairs]
      | cons d cs =>
        cases d with
        | surrogate b => exact absurd rfl (hc a b cs rfl)
        | scalar c =>
          have h : joinPairs (.surrogate a :: .scalar c :: cs) =
              .surrogate a :: joinPairs (.scalar c :: cs) := by
            rw [joinPairs]
            simp
          rw [h, joinPairs_scalar_cons]
          rw [joinPairs_scalar_cons] at ih
          rw [joinPairs, ih]
          simp
  | case4 => rfl

theorem joined_joined (s : PyStr) : s.joined.joined = s.joined := by
  rw [joined, joined, joinPairs_joinPairs]

end PyStr

def PyFloat.same : PyFloat → PyFloat → Bool
  | .nan, _ => false
  | .infinity, b => b = .infinity
  | .negInfinity, b => b = .negInfinity
  | .finite a, .finite b => a = b || (["0.0", "-0.0"].contains a && ["0.0", "-0.0"].contains b)
  | .finite _, _ => false

mutual

-- Python's `==`, the order of entries aside; a `Mapping` equals a dict with its entries, and a
-- number -- is compared with its own type only
def PyValue.same : PyValue → PyValue → Bool
  | .none, .none => true
  | .bool a, .bool b => a == b
  | .int a, .int b => a == b
  | .float a, .float b => a.same b
  | .str a, .str b => a == b
  | .bytes a, .bytes b => a == b
  | .list a, .list b => PyValue.sameItems a b
  | .tuple a, .tuple b => PyValue.sameItems a b
  | .dict a, .dict b => decide (a.length = b.length) && PyValue.sameEntries a b
  | .dict a, .mapping b => decide (a.length = b.length) && PyValue.sameEntries a b
  | .mapping a, .dict b => decide (a.length = b.length) && PyValue.sameEntries a b
  | .mapping a, .mapping b => decide (a.length = b.length) && PyValue.sameEntries a b
  | _, _ => false

def PyValue.sameItems : List PyValue → List PyValue → Bool
  | [], [] => true
  | a :: as, b :: bs => PyValue.same a b && PyValue.sameItems as bs
  | _, _ => false

def PyValue.sameEntries : List (PyKey × PyValue) → List (PyKey × PyValue) → Bool
  | [], _ => true
  | (k, a) :: as, bs => (Dict.get? bs k).any (PyValue.same a) && PyValue.sameEntries as bs

end

mutual

-- a value that equals what `json.loads` gives back for it, or for the dict made of it
def PyValue.exact : PyValue → Bool
  | .none => true
  | .bool _ => true
  | .int _ => true
  | .float f => f ≠ .nan
  | .str s => s.joined = s
  | .bytes _ => false
  | .list items => PyValue.exactItems items
  | .tuple _ => false
  | .dict items => decide (Dict.keys items).Nodup && PyValue.exactEntries items
  | .mapping items => decide (Dict.keys items).Nodup && PyValue.exactEntries items
  | .other => false

def PyValue.exactItems : List PyValue → Bool
  | [] => true
  | v :: vs => PyValue.exact v && PyValue.exactItems vs

def PyValue.exactEntries : List (PyKey × PyValue) → Bool
  | [] => true
  | (k, v) :: kvs => strKey k && PyValue.exact v && PyValue.exactEntries kvs

end

theorem PyFloat.same_self (f : PyFloat) : f.same f = decide (f ≠ .nan) := by
  cases f <;> simp [PyFloat.same]

theorem PyValue.sameEntries_iff {as bs : List (PyKey × PyValue)} :
    PyValue.sameEntries as bs = true ↔
      ∀ kv ∈ as, ∃ b, Dict.get? bs kv.1 = some b ∧ PyValue.same kv.2 b = true := by
  induction as with
  | nil => simp [PyValue.sameEntries]
  | cons kv as ih =>
    obtain ⟨k, a⟩ := kv
    rw [PyValue.sameEntries, Bool.and_eq_true, ih, Option.any_eq_true, List.forall_mem_cons]

theorem PyValue.exactEntries_iff {items : List (PyKey × PyValue)} :
    PyValue.exactEntries items = true ↔
      ∀ kv ∈ items, strKey kv.1 = true ∧ PyValue.exact kv.2 = true := by
  induction items with
  | nil => simp [PyValue.exactEntries]
  | cons kv items ih =>
    obtain ⟨k, v⟩ := kv
    rw [PyValue.exactEntries, Bool.and_eq_true, Bool.and_eq_true, ih, List.forall_mem_cons]

def Decoded (kv kv' : PyKey × PyValue) : Prop :=
  (∃ s, jsonKey kv.1 = some s ∧ kv'.1 = .str s.joined) ∧
    PyValue.same kv.2 kv'.2 = PyValue.exact kv.2

section Decoded

variable {items ps : List (PyKey × PyValue)}

theorem Decoded.key_eq {kv kv' : PyKey × PyValue} (h : Decoded kv kv')
    (hk : strKey kv.1 = true) : kv'.1 = kv.1 := by
  obtain ⟨s, hs, hkv'⟩ := h.1
  obtain ⟨t, ht, hj⟩ := strKey_inv hk
  rw [ht, jsonKey, Option.some.injEq] at hs
  rw [hkv', ht, ← hs, hj]

theorem decoded_keys (h : List.Forall₂ Decoded items ps)
    (hk : ∀ kv ∈ items, strKey kv.1 = true) : Dict.keys ps = Dict.keys items := by
  induction h with
  | nil => rfl
  | cons hd _ ih =>
    simp only [Dict.keys, List.map_cons, List.cons.injEq]
    exact ⟨hd.key_eq (hk _ List.mem_cons_self),
      ih fun kv hkv => hk kv (List.mem_cons_of_mem _ hkv)⟩

theorem decoded_strKey (h : List.Forall₂ Decoded items ps) {k : PyKey} (hk : k ∈ Dict.keys ps) :
    strKey k = true := by
  induction h with
  | nil => cases hk
  | cons hd _ ih =>
    rcases List.mem_cons.mp hk with rfl | hk
    · obtain ⟨s, _, hs⟩ := hd.1
      rw [hs]
      simp [strKey, PyStr.joined_joined]
    · exact ih hk

theorem decoded_mem (h : List.Forall₂ Decoded items ps) :
    ∀ kv ∈ items, ∃ kv' ∈ ps, Decoded kv kv' := by
  induction h with
  | nil => simp
  | cons hd _ ih =>
    intro kv hkv
    rcases List.mem_cons.mp hkv with rfl | hkv
    · exact ⟨_, List.mem_cons_self, hd⟩
    · obtain ⟨kv', hkv', hd'⟩ := ih kv hkv
      exact ⟨kv', List.mem_cons_of_mem _ hkv', hd'⟩

theorem decoded_get (h : List.Forall₂ Decoded items ps) (hn : (Dict.keys ps).Nodup)
    (hk : ∀ kv ∈ items, strKey kv.1 = true) :
    ∀ kv ∈ items, ∃ b, Dict.get? ps kv.1 = some b ∧
      PyValue.same kv.2 b = PyValue.exact kv.2 := by
  intro kv hkv
  obtain ⟨kv', hkv', hd⟩ := decoded_mem h kv hkv
  refine ⟨kv'.2, ?_, hd.2⟩
  rw [← hd.key_eq (hk kv hkv)]
  exact Dict.get?_of_mem hn hkv'

theorem same_decoded (h : List.Forall₂ Decoded items ps) :
    PyValue.same (.dict items) (.dict (Dict.ofPairs ps)) = PyValue.exact (.dict items) := by
  rw [Bool.eq_iff_iff]
  simp only [PyValue.same, PyValue.exact, Bool.and_eq_true, decide_eq_true_eq,
    PyValue.sameEntries_iff, PyValue.exactEntries_iff]
  constructor
  · rintro ⟨hlen, hsame⟩
    rw [h.length_eq] at hlen
    have hn := Dict.nodup_of_length_ofPairs hlen.symm
    rw [Dict.ofPairs_of_nodup hn] at hsame
    have hk : ∀ kv ∈ items, strKey kv.1 = true := by
      intro kv hkv
      obtain ⟨b, hb, _⟩ := hsame kv hkv
      exact decoded_strKey h (List.mem_map.mpr ⟨_, Dict.mem_of_get?_eq_some hb, rfl⟩)
    refine ⟨decoded_keys h hk ▸ hn, fun kv hkv => ⟨hk kv hkv, ?_⟩⟩
    obtain ⟨b, hb, hs⟩ := hsame kv hkv
    obtain ⟨b', hb', hs'⟩ := decoded_get h hn hk kv hkv
    rw [hb, Option.some.injEq] at hb'
    rw [← hs', ← hb', hs]
  · rintro ⟨hn, hexact⟩
    have hk : ∀ kv ∈ items, strKey kv.1 = true := fun kv hkv => (hexact kv hkv).1
    rw [← decoded_keys h hk] at hn
    rw [Dict.ofPairs_of_nodup hn]
    refine ⟨h.length_eq, fun kv hkv => ?_⟩
    obtain ⟨b, hb, hs⟩ := decoded_get h hn hk kv hkv
    exact ⟨b, hb, hs.trans (hexact kv hkv).2⟩

end Decoded

theorem toJsonItems_cons {v : PyValue} {vs : List PyValue} {js : List Json}
    (h : toJsonItems (v :: vs) = some js) :
    ∃ j js', toJson v = some j ∧ toJsonItems vs = some js' ∧ js = j :: js' := by
  rw [toJsonItems] at h
  split at h
  · rename_i j js' hj hjs
    exact ⟨j, js', hj, hjs, (Option.some.inj h).symm⟩
  · cases h

theorem toJsonPairs_cons {k : PyKey} {v : PyValue} {kvs : List (PyKey × PyValue)}
    {js : List (PyStr × Json)} (h : toJsonPairs ((k, v) :: kvs) = some js) :
    ∃ s j js', jsonKey k = some s ∧ toJson v = some j ∧ toJsonPairs kvs = some js' ∧
      js = (s, j) :: js' := by
  rw [toJsonPairs] at h
  split at h
  · rename_i s j js' hs hj hjs
    exact ⟨s, j, js', hs, hj, hjs, (Option.some.inj h).symm⟩
  · cases h

mutual

theorem same_loads : ∀ (v : PyValue) (j : Json), toJson v = some j →
    PyValue.same v (loads j) = PyValue.exact v
  | .none, j, h => by
      obtain rfl := Option.some.inj h
      simp [loads, PyValue.same, PyValue.exact]
  | .bool b, j, h => by
      obtain rfl := Option.some.inj h
      simp [loads, PyValue.same, PyValue.exact]
  | .int i, j, h => by
      rw [toJson] at h
      split at h
      · obtain rfl := Option.some.inj h
        simp [loads, PyValue.same, PyValue.exact]
      · cases h
  | .float f, j, h => by
      obtain rfl := Option.some.inj h
      rw [loads, PyValue.same, PyFloat.same_self, PyValue.exact]
  | .str s, j, h => by
      obtain rfl := Option.some.inj h
      rw [loads, PyValue.same, PyValue.exact, Bool.eq_iff_iff, beq_iff_eq, decide_eq_true_eq]
      exact eq_comm
  | .bytes _, j, h => by simp [toJson] at h
  | .mapping _, j, h => by simp [toJson] at h
  | .other, j, h => by simp [toJson] at h
  | .list items, j, h => by
      rw [toJson, Option.map_eq_some_iff] at h
      obtain ⟨js, hjs, rfl⟩ := h
      rw [loads, PyValue.same, PyValue.exact, same_loads_items items js hjs]
  | .tuple items, j, h => by
      rw [toJson, Option.map_eq_some_iff] at h
      obtain ⟨js, hjs, rfl⟩ := h
      simp [loads, PyValue.same, PyValue.exact]
  | .dict items, j, h => by
      rw [toJson, Option.map_eq_some_iff] at h
      obtain ⟨js, hjs, rfl⟩ := h
      rw [loads]
      exact same_decoded (loads_pairs_decoded items js hjs)

theorem same_loads_items : ∀ (vs : List PyValue) (js : List Json), toJsonItems vs = some js →
    PyValue.sameItems vs (loadsItems js) = PyValue.exactItems vs
  | [], js, h => by
      obtain rfl := Option.some.inj h
      simp [loadsItems, PyValue.sameItems, PyValue.exactItems]
  | v :: vs, js, h => by
      obtain ⟨j, js', hj, hjs, rfl⟩ := toJsonItems_cons h
      rw [loadsItems, PyValue.sameItems, PyValue.exactItems, same_loads v j hj,
        same_loads_items vs js' hjs]

theorem loads_pairs_decoded : ∀ (kvs : List (PyKey × PyValue)) (js : List (PyStr × Json)),
    toJsonPairs kvs = some js → List.Forall₂ Decoded kvs (loadsPairs js)
  | [], js, h => by
      obtain rfl := Option.some.inj h
      rw [loadsPairs]
      exact .nil
  | (k, v) :: kvs, js, h => by
      obtain ⟨s, j, js', hs, hj, hjs, rfl⟩ := toJsonPairs_cons h
      rw [loadsPairs]
      exact .cons ⟨⟨s, hs, rfl⟩, same_loads v j hj⟩ (loads_pairs_decoded kvs js' hjs)

end

section Objects

variable {d : StrDict} {o : JsonObject}

theorem toJsonPairs_ofStrDict (h : toJsonObject d = some o) :
    toJsonPairs (d.map fun kv => (.str kv.1, kv.2)) = some o := by
  induction d generalizing o with
  | nil =>
    obtain rfl := Option.some.inj h
    rfl
  | cons kv d ih =>
    obtain ⟨k, v⟩ := kv
    simp only [toJsonObject, List.mapM_cons, Option.pure_def, Option.bind_eq_bind,
      Option.bind_eq_some_iff, Option.map_eq_some_iff, Option.some.injEq] at h
    obtain ⟨_, ⟨j, hj, rfl⟩, o', ho', rfl⟩ := h
    rw [List.map_cons, toJsonPairs, jsonKey, hj, ih ho']

theorem toJson_ofStrDict (h : toJsonObject d = some o) : toJson (ofStrDict d) = some (.obj o) := by
  rw [ofStrDict, toJson, toJsonPairs_ofStrDict h, Option.map_some]

theorem loadsPairs_eq (o : JsonObject) :
    loadsPairs o = o.map fun kv => (.str kv.1.joined, loads kv.2) := by
  induction o with
  | nil => rw [List.map_nil, loadsPairs]
  | cons kv o ih => rw [List.map_cons, loadsPairs, ih]

theorem key_str_injective : Function.Injective PyKey.str := fun _ _ h => PyKey.str.inj h

theorem ofStrDict_loadsObject (o : JsonObject) : ofStrDict (loadsObject o) =
    .dict (Dict.ofPairs (o.map fun kv => (.str kv.1.joined, loads kv.2))) := by
  have h := Dict.ofPairs_map key_str_injective id (o.map fun kv => (kv.1.joined, loads kv.2))
  rw [List.map_map] at h
  exact congrArg PyValue.dict h.symm

theorem loads_ofStrDict (o : JsonObject) : loads (.obj o) = ofStrDict (loadsObject o) := by
  rw [loads, loadsPairs_eq, ofStrDict_loadsObject]

theorem same_loadsObject (h : toJsonObject d = some o) :
    PyValue.same (ofStrDict d) (ofStrDict (loadsObject o)) = PyValue.exact (ofStrDict d) := by
  rw [← loads_ofStrDict]
  exact same_loads _ _ (toJson_ofStrDict h)

theorem validated_items {items : List (PyKey × PyValue)} {pairs : List (PyStr × PyValue)}
    (h : (items.mapM fun kv => (strOfKey kv.1).map fun k => (k, kv.2)) = some pairs)
    (hs : ∀ kv ∈ items, ∃ s, kv.1 = .str s) : PyValue.dict items = ofStrDict pairs := by
  rw [ofStrDict, PyValue.dict.injEq]
  induction items generalizing pairs with
  | nil =>
    obtain rfl := Option.some.inj h
    rfl
  | cons kv items ih =>
    obtain ⟨k, v⟩ := kv
    simp only [List.mapM_cons, Option.pure_def, Option.bind_eq_bind, Option.bind_eq_some_iff,
      Option.map_eq_some_iff, Option.some.injEq] at h
    obtain ⟨_, ⟨t, ht, rfl⟩, pairs', hp, rfl⟩ := h
    obtain ⟨s, rfl⟩ := hs (k, v) List.mem_cons_self
    obtain rfl := Option.some.inj ht
    rw [List.map_cons, ← ih hp fun kv hkv => hs kv (List.mem_cons_of_mem _ hkv)]

theorem length_validated {items : List (PyKey × PyValue)} {pairs : List (PyStr × PyValue)}
    (h : (items.mapM fun kv => (strOfKey kv.1).map fun k => (k, kv.2)) = some pairs) :
    pairs.length = items.length := by
  induction items generalizing pairs with
  | nil =>
    obtain rfl := Option.some.inj h
    rfl
  | cons kv items ih =>
    simp only [List.mapM_cons, Option.pure_def, Option.bind_eq_bind, Option.bind_eq_some_iff,
      Option.some.injEq] at h
    obtain ⟨_, _, pairs', hp, rfl⟩ := h
    rw [List.length_cons, List.length_cons, ih hp]

theorem length_toJsonObject (h : toJsonObject d = some o) : o.length = d.length := by
  induction d generalizing o with
  | nil =>
    obtain rfl := Option.some.inj h
    rfl
  | cons kv d ih =>
    simp only [toJsonObject, List.mapM_cons, Option.pure_def, Option.bind_eq_bind,
      Option.bind_eq_some_iff, Option.some.injEq] at h
    obtain ⟨_, _, o', ho', rfl⟩ := h
    rw [List.length_cons, List.length_cons, ih ho']

theorem length_loadsObject_le (o : JsonObject) : (loadsObject o).length ≤ o.length := by
  simpa [loadsObject] using Dict.length_ofPairs_le (o.map fun kv => (kv.1.joined, loads kv.2))

theorem get?_ofStrDict_key {k : PyKey} {v : PyValue}
    (h : Dict.get? (d.map fun kv => (PyKey.str kv.1, kv.2)) k = some v) : ∃ s, k = .str s := by
  obtain ⟨kv, _, he⟩ := List.mem_map.mp (Dict.mem_of_get?_eq_some h)
  exact ⟨_, (Prod.mk.inj he).1.symm⟩

theorem same_validatedItems {items : List (PyKey × PyValue)} (hv : validateItems items = some d)
    (h : toJsonObject d = some o) :
    PyValue.same (.dict items) (ofStrDict (loadsObject o)) = PyValue.exact (.dict items) := by
  obtain ⟨pairs, hp, hd⟩ := Option.map_eq_some_iff.mp hv
  -- with string keys and no key twice, validation has nothing to change
  have hunchanged (hs : ∀ kv ∈ items, ∃ s, kv.1 = .str s) (hn : (Dict.keys pairs).Nodup) :
      PyValue.same (.dict items) (ofStrDict (loadsObject o)) = PyValue.exact (.dict items) := by
    rw [Dict.ofPairs_of_nodup hn] at hd
    rw [validated_items hp hs, hd]
    exact same_loadsObject h
  rw [Bool.eq_iff_iff]
  constructor
  · intro hsame
    have hsame' := hsame
    simp only [ofStrDict, PyValue.same, Bool.and_eq_true, decide_eq_true_eq,
      PyValue.sameEntries_iff, List.length_map] at hsame'
    have hlen : (Dict.ofPairs pairs).length = pairs.length := by
      have h1 := length_loadsObject_le o
      have h2 := length_toJsonObject h
      have h3 := Dict.length_ofPairs_le pairs
      have h4 := length_validated hp
      rw [hd] at h3 ⊢
      omega
    have hs : ∀ kv ∈ items, ∃ s, kv.1 = .str s := by
      intro kv hkv
      obtain ⟨b, hb, _⟩ := hsame'.2 kv hkv
      exact get?_ofStrDict_key hb
    rwa [← hunchanged hs (Dict.nodup_of_length_ofPairs hlen)]
  · intro hexact
    have hexact' := hexact
    simp only [PyValue.exact, Bool.and_eq_true, decide_eq_true_eq,
      PyValue.exactEntries_iff] at hexact'
    have hs : ∀ kv ∈ items, ∃ s, kv.1 = .str s := by
      intro kv hkv
      obtain ⟨s, hs, _⟩ := strKey_inv (hexact'.2 kv hkv).1
      exact ⟨s, hs⟩
    have hn : (Dict.keys pairs).Nodup := by
      have hi := validated_items hp hs
      rw [ofStrDict, PyValue.dict.injEq] at hi
      rw [hi] at hexact'
      exact ofStrDict_keys_nodup hexact'.1
    rwa [hunchanged hs hn]

theorem same_validated {output : PyValue} (hv : validateDict output = some d)
    (h : toJsonObject d = some o) :
    PyValue.same output (ofStrDict (loadsObject o)) = PyValue.exact output := by
  cases output with
  | dict items => exact same_validatedItems hv h
  | mapping items =>
    have hdict := same_validatedItems hv h
    simpa only [ofStrDict, PyValue.same, PyValue.exact] using hdict
  | _ => cases hv

end Objects

end DurableAgent
