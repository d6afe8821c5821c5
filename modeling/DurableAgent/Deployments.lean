import DurableAgent.Backends
import DurableAgent.Library.Unwinding
import Mathlib.Logic.Function.Basic

namespace DurableAgent

open Simulation Unwinding

namespace Postgres

inductive SchemaError where
  | empty
  | tooLong
deriving DecidableEq, Repr

-- `user` and `zone` are those of the sessions its DSN opens
structure Store where
  user : String
  zone : Zone
  schema : String
  named : schema ≠ ""
  fits : schema.utf8ByteSize ≤ 63

def Store.init (user : String) (zone : Zone) (schema : String) : Except SchemaError Store :=
  if h : schema = "" then .error .empty
  else if hf : schema.utf8ByteSize ≤ 63 then .ok ⟨user, zone, schema, h, hf⟩
  else .error .tooLong

-- quoting an identifier stops at a NUL
def Store.identifier (s : Store) : String :=
  String.ofList (s.schema.toList.takeWhile fun c => c.toNat ≠ 0)

-- without a setting it is `"$user", public`, and a quoted "$user" is still the session's user
def Store.searchPath (s : Store) : List String :=
  if s.schema = "public" then [s.user, "public"]
  else if s.identifier = "$user" then [s.user]
  else [s.identifier]

-- `none`: no such schema, `some none`: one without this program's tables
abbrev Schemas : Type := String → Option (Option Tables)

structure Database where
  schemas : Schemas
  held : List ((Bool × Nat) × Nat)

inductive StoreOp where
  | setup
  | call (c : StoreCall)
  | lock (block : Nat) (key : String)
  | unlock (block : Nat)

inductive OpResult where
  | setUp
  | syntaxError
  | reservedName
  | invalidSchemaName
  | undefinedTable
  | called (result : CallResult Error)
  | locked
  | lockUnavailable
  | unlocked

-- `CREATE TABLE IF NOT EXISTS` looks in the first schema of the path that exists
def createTables (s : Store) (schemas : Schemas) : Schemas × OpResult :=
  match s.searchPath.find? fun n => (schemas n).isSome with
  | none => (schemas, .invalidSchemaName)
  | some n =>
      (Function.update schemas n (some (some ((schemas n).join.getD Tables.empty))), .setUp)

def createSchema (n : String) (schemas : Schemas) : Schemas :=
  if (schemas n).isSome then schemas else Function.update schemas n (some none)

def setup (s : Store) (schemas : Schemas) : Schemas × OpResult :=
  if s.schema = "public" then createTables s schemas
  else if s.identifier = "" then (schemas, .syntaxError)
  else if s.identifier.startsWith "pg_" then (schemas, .reservedName)
  else createTables s (createSchema s.identifier schemas)

-- a table's name means the first schema of the path that has it; without one every call raises
def callOn (s : Store) (schemas : Schemas) (c : StoreCall) : Schemas × OpResult :=
  if s.identifier = "" then (schemas, .syntaxError)
  else
    match s.searchPath.findSome? fun n => (schemas n).join.map fun t => (n, t) with
    | none => (schemas, .undefinedTable)
    | some (n, t) =>
        let r := postgresCall s.zone t c
        (Function.update schemas n (some (some r.1)), .called r.2)

-- each `with store.lock(key)` block is a session of its own
def perform (digest : String → Nat) (stores : Bool → Store) (db : Database) :
    Bool × StoreOp → Database × OpResult
  | (w, .setup) => let r := setup (stores w) db.schemas; ({ db with schemas := r.1 }, r.2)
  | (w, .call c) => let r := callOn (stores w) db.schemas c; ({ db with schemas := r.1 }, r.2)
  | (w, .lock block key) =>
      let lockId := advisoryLockId digest key
      if db.held.any fun h => h.2 = lockId then (db, .lockUnavailable)
      else ({ db with held := db.held ++ [((w, block), lockId)] }, .locked)
  | (w, .unlock block) =>
      ({ db with held := db.held.filter fun h => h.1 ≠ (w, block) }, .unlocked)

-- the schemas the store's operations can create or write
def Store.touched (s : Store) : List String :=
  if s.schema = "public" then s.searchPath else s.identifier :: s.searchPath

def Separate (stores : Bool → Store) : Prop :=
  ∀ w, ∀ n ∈ (stores (!w)).touched, n ∉ (stores w).searchPath

instance (stores : Bool → Store) : Decidable (Separate stores) :=
  inferInstanceAs (Decidable (∀ w, ∀ n ∈ (stores (!w)).touched, n ∉ (stores w).searchPath))

-- a lock is not asked for while the other store holds its id
def Undisturbed (digest : String → Nat) (db : Database) : Bool × StoreOp → Prop
  | (w, .lock _ key) => ∀ h ∈ db.held, h.2 = advisoryLockId digest key → h.1.1 = w
  | _ => True

instance (digest : String → Nat) (db : Database) (e : Bool × StoreOp) :
    Decidable (Undisturbed digest db e) := by
  unfold Undisturbed
  split <;> infer_instance

structure View (s : Store) (w : Bool) (db db' : Database) : Prop where
  schemas : ∀ n ∈ s.searchPath, db.schemas n = db'.schemas n
  held : (db.held.filter fun h => h.1.1 = w) = db'.held

section Path

variable {s : Store} {a b : Schemas}

theorem find?_agree {p : Option (Option Tables) → Bool} {path : List String}
    (h : ∀ n ∈ path, a n = b n) : (path.find? fun n => p (a n)) = path.find? fun n => p (b n) := by
  induction path with
  | nil => rfl
  | cons n path ih =>
    rw [List.find?_cons, List.find?_cons, h n List.mem_cons_self,
      ih fun m hm => h m (List.mem_cons_of_mem n hm)]

theorem findSome?_agree {f : String → Option (Option Tables) → Option (String × Tables)}
    {path : List String} (h : ∀ n ∈ path, a n = b n) :
    (path.findSome? fun n => f n (a n)) = path.findSome? fun n => f n (b n) := by
  induction path with
  | nil => rfl
  | cons n path ih =>
    rw [List.findSome?_cons, List.findSome?_cons, h n List.mem_cons_self,
      ih fun m hm => h m (List.mem_cons_of_mem n hm)]

theorem update_agree {path : List String} (h : ∀ n ∈ path, a n = b n) (m : String)
    (v : Option (Option Tables)) :
    ∀ n ∈ path, Function.update a m v n = Function.update b m v n := by
  intro n hn
  by_cases hm : n = m
  · subst hm
    rw [Function.update_self, Function.update_self]
  · rw [Function.update_of_ne hm, Function.update_of_ne hm, h n hn]

theorem createTables_agree (h : ∀ n ∈ s.searchPath, a n = b n) :
    (createTables s a).2 = (createTables s b).2 ∧
      ∀ n ∈ s.searchPath, (createTables s a).1 n = (createTables s b).1 n := by
  unfold createTables
  rw [find?_agree (p := Option.isSome) h]
  split
  · exact ⟨rfl, h⟩
  · rename_i n hn
    rw [h n (List.mem_of_find?_eq_some hn)]
    exact ⟨rfl, update_agree h n _⟩

theorem createSchema_frame {m n : String} (h : n ≠ m) : createSchema m a n = a n := by
  unfold createSchema
  split
  · rfl
  · exact Function.update_of_ne h ..

theorem createSchema_agree {path : List String} (h : ∀ n ∈ path, a n = b n) (m : String) :
    ∀ n ∈ path, createSchema m a n = createSchema m b n := by
  intro n hn
  by_cases hm : n = m
  · subst hm
    unfold createSchema
    rw [h n hn]
    split
    · exact h n hn
    · rw [Function.update_self, Function.update_self]
  · rw [createSchema_frame hm, createSchema_frame hm, h n hn]

theorem setup_agree (h : ∀ n ∈ s.searchPath, a n = b n) :
    (setup s a).2 = (setup s b).2 ∧ ∀ n ∈ s.searchPath, (setup s a).1 n = (setup s b).1 n := by
  unfold setup
  split
  · exact createTables_agree h
  · split
    · exact ⟨rfl, h⟩
    · split
      · exact ⟨rfl, h⟩
      · exact createTables_agree (createSchema_agree h s.identifier)

theorem callOn_agree (h : ∀ n ∈ s.searchPath, a n = b n) (c : StoreCall) :
    (callOn s a c).2 = (callOn s b c).2 ∧
      ∀ n ∈ s.searchPath, (callOn s a c).1 n = (callOn s b c).1 n := by
  unfold callOn
  split
  · exact ⟨rfl, h⟩
  · rw [findSome?_agree (f := fun n v => v.join.map fun t => (n, t)) h]
    split
    · exact ⟨rfl, h⟩
    · exact ⟨rfl, update_agree h _ _⟩

theorem createTables_frame {n : String} (h : n ∉ s.searchPath) :
    (createTables s a).1 n = a n := by
  unfold createTables
  split
  · rfl
  · rename_i m hm
    have hne : n ≠ m := fun he => h (he ▸ List.mem_of_find?_eq_some hm)
    exact Function.update_of_ne hne ..

theorem setup_frame {n : String} (h : n ∉ s.touched) : (setup s a).1 n = a n := by
  unfold Store.touched at h
  unfold setup
  split
  · rename_i hp
    rw [if_pos hp] at h
    exact createTables_frame h
  · rename_i hp
    rw [if_neg hp, List.mem_cons, not_or] at h
    split
    · rfl
    · split
      · rfl
      · rw [createTables_frame h.2, createSchema_frame h.1]

theorem callOn_frame {n : String} {c : StoreCall} (h : n ∉ s.touched) :
    (callOn s a c).1 n = a n := by
  have hpath : n ∉ s.searchPath := by
    unfold Store.touched at h
    split at h
    · exact h
    · exact fun hn => h (List.mem_cons_of_mem _ hn)
  unfold callOn
  split
  · rfl
  · split
    · rfl
    · rename_i m t hm
      obtain ⟨m', hmem, hm'⟩ := List.exists_of_findSome?_eq_some hm
      rw [Option.map_eq_some_iff] at hm'
      obtain ⟨t', _, he⟩ := hm'
      obtain rfl : m' = m := congrArg Prod.fst he
      have hne : n ≠ m' := fun hn => hpath (hn ▸ hmem)
      exact Function.update_of_ne hne ..

end Path

section Runs

variable {digest : String → Nat} {stores : Bool → Store} {w : Bool} {db db' : Database}

theorem lock_own {block : Nat} {key : String} (hv : View (stores w) w db db')
    (hp : Undisturbed digest db (w, .lock block key)) :
    (perform digest stores db (w, .lock block key)).2 =
        (perform digest stores db' (w, .lock block key)).2 ∧
      View (stores w) w (perform digest stores db (w, .lock block key)).1
        (perform digest stores db' (w, .lock block key)).1 := by
  have hheld : (db.held.any fun h => h.2 = advisoryLockId digest key) =
      db'.held.any fun h => h.2 = advisoryLockId digest key := by
    rw [← hv.held, Bool.eq_iff_iff, List.any_eq_true, List.any_eq_true]
    constructor
    · rintro ⟨h, hh, hid⟩
      have hw := hp h hh (of_decide_eq_true hid)
      exact ⟨h, List.mem_filter.mpr ⟨hh, decide_eq_true hw⟩, hid⟩
    · rintro ⟨h, hh, hid⟩
      exact ⟨h, List.mem_of_mem_filter hh, hid⟩
  simp only [perform, hheld]
  split
  · exact ⟨rfl, hv⟩
  · refine ⟨rfl, hv.schemas, ?_⟩
    simp [List.filter_append, hv.held]

theorem view_own {op : StoreOp} (hv : View (stores w) w db db')
    (hp : Undisturbed digest db (w, op)) :
    (perform digest stores db (w, op)).2 = (perform digest stores db' (w, op)).2 ∧
      View (stores w) w (perform digest stores db (w, op)).1
        (perform digest stores db' (w, op)).1 := by
  cases op with
  | setup =>
    obtain ⟨hr, hs⟩ := setup_agree hv.schemas
    exact ⟨hr, hs, hv.held⟩
  | call c =>
    obtain ⟨hr, hs⟩ := callOn_agree hv.schemas c
    exact ⟨hr, hs, hv.held⟩
  | lock block key => exact lock_own hv hp
  | unlock block =>
    refine ⟨rfl, hv.schemas, ?_⟩
    simp only [perform, ← hv.held, List.filter_filter, Bool.and_comm]

theorem view_other {op : StoreOp} (hs : Separate stores) (hv : View (stores w) w db db') :
    View (stores w) w (perform digest stores db (!w, op)).1 db' := by
  have hframe : ∀ n ∈ (stores w).searchPath, n ∉ (stores !w).touched := fun n hn ht =>
    hs w n ht hn
  cases op with
  | setup => exact ⟨fun n hn => (setup_frame (hframe n hn)).trans (hv.schemas n hn), hv.held⟩
  | call c => exact ⟨fun n hn => (callOn_frame (hframe n hn)).trans (hv.schemas n hn), hv.held⟩
  | lock block key =>
    simp only [perform]
    split
    · exact hv
    · refine ⟨hv.schemas, ?_⟩
      simp [List.filter_append, hv.held]
  | unlock block =>
    refine ⟨hv.schemas, ?_⟩
    rw [← hv.held]
    simp only [perform, List.filter_filter]
    apply List.filter_congr
    intro h _
    by_cases hw : h.1.1 = w
    · have hne : h.1 ≠ (!w, block) := fun he => by
        rw [he] at hw
        exact Bool.not_ne_self w hw
      rw [decide_eq_true hw, decide_eq_true hne, Bool.and_self]
    · rw [decide_eq_false hw, Bool.false_and]

theorem deployments_do_not_interfere {schemas : Schemas} {es : List (Bool × StoreOp)}
    (hs : Separate stores)
    (h : Each (perform digest stores) (Undisturbed digest) ⟨schemas, []⟩ es) (w : Bool) :
    outcomes (perform digest stores) w ⟨schemas, []⟩ es =
      outcomes (perform digest stores) w ⟨schemas, []⟩ (alone w es) := by
  refine outcomes_alone (View (stores w) w) ?_ ?_ ⟨fun _ _ => rfl, rfl⟩ h
  · rintro s t ⟨v, op⟩ rfl hv hp
    exact view_own hv hp
  · rintro s t ⟨v, op⟩ hne hv _
    obtain rfl : v = !w := Bool.eq_not_of_ne hne
    exact view_other hs hv

end Runs

def deployment (schema : String) (named : schema ≠ "") (fits : schema.utf8ByteSize ≤ 63) : Store :=
  ⟨"durable", utc, schema, named, fits⟩

def alphaAndBeta (w : Bool) : Store :=
  if w then deployment "alpha" (by decide) (by decide) else deployment "beta" (by decide) (by decide)

def sideBySide : List (Bool × StoreOp) :=
  [(true, .setup), (false, .setup), (true, .lock 0 "order-0001"), (false, .lock 0 "refund-00001"),
    (true, .call (.createRun depths rooms "run" chargeSpec 0 0 0)),
    (false, .call (.load rooms "run"))]

theorem deployments_do_not_interfere_apart :
    outcomes (perform String.length alphaAndBeta) false ⟨fun _ => none, []⟩ sideBySide =
      outcomes (perform String.length alphaAndBeta) false ⟨fun _ => none, []⟩
        (alone false sideBySide) := by
  apply deployments_do_not_interfere
  · decide
  · rw [sideBySide]
    simp only [each_cons]
    exact ⟨trivial, trivial, by decide, by decide, trivial, trivial, each_nil⟩

theorem lock_held_by_other_deployment :
    ¬ ∀ (digest : String → Nat) (stores : Bool → Store) (schemas : Schemas)
      (es : List (Bool × StoreOp)) (w : Bool), (stores false).schema ≠ (stores true).schema →
      outcomes (perform digest stores) w ⟨schemas, []⟩ es =
        outcomes (perform digest stores) w ⟨schemas, []⟩ (alone w es) := by
  intro h
  have h := h String.length alphaAndBeta (fun _ => none)
    [(true, .lock 0 "order-0001"), (false, .lock 0 "order-0001")] false (by decide)
  simp [outcomes, alone, perform] at h

end Postgres

end DurableAgent
