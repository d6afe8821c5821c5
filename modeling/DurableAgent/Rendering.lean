import DurableAgent.Exactness
import DurableAgent.Prompts
import DurableAgent.RoundTrip

namespace DurableAgent

open Grammar Decoder

def unicodeEscape (n : Nat) : List PyChar :=
  (PyStr.ofString "\\u").chars ++ [.scalar (Nat.digitChar (n / 0x1000)),
    .scalar (Nat.digitChar (n / 0x100 % 16)), .scalar (Nat.digitChar (n / 0x10 % 16)),
    .scalar (Nat.digitChar (n % 16))]

-- what `json.dumps` puts for a character of a string: printable ASCII and escapes alone
def asciiEscape : PyChar → List PyChar
  | .surrogate n => unicodeEscape (0xD800 + n.val)
  | .scalar c =>
      if c = '"' then (PyStr.ofString "\\\"").chars
      else if c = '\\' then (PyStr.ofString "\\\\").chars
      else if c.toNat = 0x0A then (PyStr.ofString "\\n").chars
      else if c.toNat = 0x0D then (PyStr.ofString "\\r").chars
      else if c.toNat = 0x09 then (PyStr.ofString "\\t").chars
      else if c.toNat = 0x0C then (PyStr.ofString "\\f").chars
      else if c.toNat = 0x08 then (PyStr.ofString "\\b").chars
      else if 0x20 ≤ c.toNat ∧ c.toNat ≤ 0x7E then [.scalar c]
      else if c.toNat < 0x10000 then unicodeEscape c.toNat
      else unicodeEscape (0xD800 + (c.toNat - 0x10000) / 0x400) ++
        unicodeEscape (0xDC00 + (c.toNat - 0x10000) % 0x400)

section Writing

variable (escape : PyChar → List PyChar)

def writtenString (s : PyStr) : List PyChar :=
  .scalar '"' :: (s.chars.flatMap escape ++ [.scalar '"'])

mutual

-- the text `json.dumps` writes, its escapes aside
def Json.written : Json → List PyChar
  | .null => (PyStr.ofString "null").chars
  | .bool b => (PyStr.ofString (if b then "true" else "false")).chars
  | .int i => (PyStr.ofString (toString i)).chars
  | .float f => (PyStr.ofString f.text).chars
  | .str s => writtenString escape s
  | .arr items => .scalar '[' :: (Json.writtenItems items ++ [.scalar ']'])
  | .obj items => .scalar '{' :: (Json.writtenMembers items ++ [.scalar '}'])

def Json.writtenItems : List Json → List PyChar
  | [] => []
  | [j] => Json.written j
  | j :: js => Json.written j ++ (PyStr.ofString ", ").chars ++ Json.writtenItems js

def Json.writtenMembers : List (PyStr × Json) → List PyChar
  | [] => []
  | [(s, j)] => writtenString escape s ++ (PyStr.ofString ": ").chars ++ Json.written j
  | (s, j) :: js =>
      writtenString escape s ++ (PyStr.ofString ": ").chars ++ Json.written j ++
        (PyStr.ofString ", ").chars ++ Json.writtenMembers js

end

end Writing

mutual

-- what is read of a value when `reads` is what is read of the characters of a string
def Json.readAs (reads : List PyChar → List PyChar) : Json → PyValue
  | .null => .none
  | .bool b => .bool b
  | .int i => .int i
  | .float f => .float f
  | .str s => .str ⟨reads s.chars⟩
  | .arr items => .list (Json.readItems reads items)
  | .obj items => closeObject (Json.readMembers reads items)

def Json.readItems (reads : List PyChar → List PyChar) : List Json → List PyValue
  | [] => []
  | j :: js => Json.readAs reads j :: Json.readItems reads js

def Json.readMembers (reads : List PyChar → List PyChar) :
    List (PyStr × Json) → List (PyKey × PyValue)
  | [] => []
  | (s, j) :: js => (.str ⟨reads s.chars⟩, Json.readAs reads j) :: Json.readMembers reads js

end

section Strings

theorem hexValue_digitChar {d : Nat} (h : d < 16) : hexValue (Nat.digitChar d) = some d := by
  have hall : ∀ d < 16, hexValue (Nat.digitChar d) = some d := by decide
  exact hall d h

theorem unicode_reads {read cs r : List PyChar} {high : Bool} {n : Nat} (hn : n < 0x10000)
    (h : BodyReads (pushEscape read high n).1 (pushEscape read high n).2 cs r) :
    BodyReads read high (unicodeEscape n ++ cs) r := by
  have hvalue : 16 * (16 * (16 * (n / 0x1000) + n / 0x100 % 16) + n / 0x10 % 16) + n % 16 = n := by
    omega
  refine .unicode (hexValue_digitChar (by omega)) (hexValue_digitChar (by omega))
    (hexValue_digitChar (by omega)) (hexValue_digitChar (by omega)) ?_
  rw [hvalue]
  exact h

theorem codePoint_scalar (c : Char) : codePoint c.toNat = .scalar c := by
  have hvalid := c.valid
  rw [codePoint, dif_neg]
  · rw [Char.ofNat_toNat]
  · rintro ⟨hlo, hhi⟩
    rcases hvalid with h | ⟨h, _⟩
    · exact absurd hlo (by simp only [Char.toNat]; omega)
    · exact absurd hhi (by simp only [Char.toNat]; omega)

theorem codePoint_surrogate (b : Fin 0x800) : codePoint (0xD800 + b.val) = .surrogate b := by
  rw [codePoint, dif_pos ⟨by omega, by omega⟩]
  simp only [Nat.add_sub_cancel_left]

theorem push_scalar (read : List PyChar) (high : Bool) (c : Char) :
    pushEscape read high c.toNat = (read ++ [.scalar c], false) := by
  rw [pushEscape, codePoint_scalar]

theorem push_high (read : List PyChar) (high : Bool) {b : Fin 0x800} (hb : b.val < 0x400) :
    pushEscape read high (0xD800 + b.val) = (read ++ [.surrogate b], true) := by
  have hlow : decide (0x400 ≤ b.val) = false := by simpa using hb
  rw [pushEscape, codePoint_surrogate]
  cases read.getLast? with
  | none => simp [hb]
  | some c => cases c <;> simp [hb, hlow]

theorem push_joined (read : List PyChar) {a b : Fin 0x800} (hb : 0x400 ≤ b.val) :
    pushEscape (read ++ [.surrogate a]) true (0xD800 + b.val) =
      (read ++ [joinSurrogates a.val b.val], false) := by
  rw [pushEscape, codePoint_surrogate]
  simp [hb]

theorem push_alone (read : List PyChar) {b : Fin 0x800} (hb : 0x400 ≤ b.val) :
    pushEscape read false (0xD800 + b.val) = (read ++ [.surrogate b], false) := by
  have hlow : decide (b.val < 0x400) = false := by simpa using hb
  rw [pushEscape, codePoint_surrogate]
  cases read.getLast? with
  | none => simp [hlow]
  | some c => cases c <;> simp [hlow]

-- the named escapes both writers share, and what is left to each
theorem named_cases {P : List PyChar → Prop} {other : List PyChar} (c : Char)
    (named : ∀ c' d, c.toNat = c'.toNat → unescape d = some c' → P [.scalar '\\', .scalar d])
    (rest : c ≠ '"' → c ≠ '\\' → P other) :
    P (if c = '"' then (PyStr.ofString "\\\"").chars
      else if c = '\\' then (PyStr.ofString "\\\\").chars
      else if c.toNat = 0x0A then (PyStr.ofString "\\n").chars
      else if c.toNat = 0x0D then (PyStr.ofString "\\r").chars
      else if c.toNat = 0x09 then (PyStr.ofString "\\t").chars
      else if c.toNat = 0x0C then (PyStr.ofString "\\f").chars
      else if c.toNat = 0x08 then (PyStr.ofString "\\b").chars
      else other) := by
  split
  · rename_i h
    exact named '"' '"' (congrArg Char.toNat h) rfl
  rename_i hquote
  split
  · rename_i h
    exact named '\\' '\\' (congrArg Char.toNat h) rfl
  rename_i hslash
  split
  · exact named '\n' 'n' ‹_› rfl
  split
  · exact named '\r' 'r' ‹_› rfl
  split
  · exact named '\t' 't' ‹_› rfl
  split
  · exact named '\x0c' 'f' ‹_› rfl
  split
  · exact named '\x08' 'b' ‹_› rfl
  · exact rest hquote hslash

theorem asciiEscape_cases {P : List PyChar → Prop} (c : Char)
    (named : ∀ c' d, c.toNat = c'.toNat → unescape d = some c' → P [.scalar '\\', .scalar d])
    (plain : c ≠ '"' → c ≠ '\\' → 0x20 ≤ c.toNat → c.toNat ≤ 0x7E → P [.scalar c])
    (unit : c.toNat < 0x10000 → P (unicodeEscape c.toNat))
    (pair : ∀ a b : Fin 0x800, a.val < 0x400 → 0x400 ≤ b.val →
      joinSurrogates a.val b.val = .scalar c →
      P (unicodeEscape (0xD800 + a.val) ++ unicodeEscape (0xD800 + b.val))) :
    P (asciiEscape (.scalar c)) := by
  refine named_cases c named fun hquote hslash => ?_
  split
  · rename_i h
    exact plain hquote hslash h.1 h.2
  split
  · exact unit ‹_›
  -- beyond the sixteen bits one escape holds
  · have hlt : c.toNat < 0x110000 := by
      rcases c.valid with hc | ⟨_, hc⟩
      · exact Nat.lt_trans hc (by decide)
      · exact hc
    have hpair : joinSurrogates ((c.toNat - 0x10000) / 0x400)
        (0x400 + (c.toNat - 0x10000) % 0x400) = .scalar c := by
      have hsum : 0x10000 + (c.toNat - 0x10000) / 0x400 * 0x400 +
          (0x400 + (c.toNat - 0x10000) % 0x400 - 0x400) = c.toNat := by omega
      rw [joinSurrogates, hsum, Char.ofNat_toNat]
    have hlow : 0xDC00 + (c.toNat - 0x10000) % 0x400 =
        0xD800 + (0x400 + (c.toNat - 0x10000) % 0x400) := by omega
    rw [hlow]
    exact pair ⟨(c.toNat - 0x10000) / 0x400, by omega⟩
      ⟨0x400 + (c.toNat - 0x10000) % 0x400, by omega⟩ (by simp only; omega) (by simp only; omega) hpair

theorem scalar_reads {read cs r : List PyChar} {high : Bool} (c : Char)
    (h : BodyReads (read ++ [.scalar c]) false cs r) :
    BodyReads read high (asciiEscape (.scalar c) ++ cs) r := by
  refine asciiEscape_cases (P := fun text => BodyReads read high (text ++ cs) r) c ?_ ?_ ?_ ?_
  · intro c' d hc hd
    obtain rfl := Char.toNat_inj.mp hc
    exact .escape hd h
  · intro hquote hslash hlo hhi
    have hplain : PyChar.isPlain (.scalar c) = true := by simp [PyChar.isPlain, hquote, hslash, hlo]
    exact .plain hplain h
  · intro hunit
    apply unicode_reads hunit
    rw [push_scalar]
    exact h
  · intro a b ha hb hpair
    rw [List.append_assoc]
    apply unicode_reads (by omega)
    rw [push_high read high ha]
    apply unicode_reads (by omega)
    rw [push_joined read hb, hpair]
    exact h

-- a surrogate just read as an escape waits, as `high`, for the one that may follow it
theorem escaped_reads (cs : List PyChar) : (∀ read, BodyReads read false
      (cs.flatMap asciiEscape) (read ++ PyStr.joinPairs cs)) ∧
    ∀ read (a : Fin 0x800), a.val < 0x400 → BodyReads (read ++ [.surrogate a]) true
      (cs.flatMap asciiEscape) (read ++ PyStr.joinPairs (.surrogate a :: cs)) := by
  induction cs with
  | nil =>
    refine ⟨fun read => ?_, fun read a _ => ?_⟩
    · rw [PyStr.joinPairs, List.append_nil]
      exact .nil
    · rw [show PyStr.joinPairs [.surrogate a] = [.surrogate a] by simp [PyStr.joinPairs]]
      exact .nil
  | cons c cs ih =>
    rw [List.flatMap_cons]
    cases c with
    | scalar c =>
      refine ⟨fun read => ?_, fun read a _ => ?_⟩
      · apply scalar_reads
        rw [PyStr.joinPairs_scalar_cons, List.append_cons read (.scalar c) (PyStr.joinPairs cs)]
        exact ih.1 _
      · have hjoin : PyStr.joinPairs (.surrogate a :: .scalar c :: cs) =
            .surrogate a :: .scalar c :: PyStr.joinPairs cs := by
          rw [PyStr.joinPairs, PyStr.joinPairs_scalar_cons]
          simp
        apply scalar_reads
        rw [hjoin, List.append_cons read (.surrogate a) (.scalar c :: PyStr.joinPairs cs),
          List.append_cons _ (.scalar c) (PyStr.joinPairs cs)]
        exact ih.1 _
    | surrogate b =>
      refine ⟨fun read => ?_, fun read a ha => ?_⟩
      · by_cases hb : b.val < 0x400
        · apply unicode_reads (by omega)
          rw [push_high read false hb]
          exact ih.2 read b hb
        · have hjoin : PyStr.joinPairs (.surrogate b :: cs) = .surrogate b :: PyStr.joinPairs cs := by
            cases cs with
            | nil => simp [PyStr.joinPairs]
            | cons d cs =>
              cases d with
              | scalar d => rw [PyStr.joinPairs]; simp
              | surrogate d => rw [PyStr.joinPairs, if_neg fun h => hb h.1]
          apply unicode_reads (by omega)
          rw [push_alone read (Nat.not_lt.mp hb), hjoin,
            List.append_cons read (.surrogate b) (PyStr.joinPairs cs)]
          exact ih.1 _
      · by_cases hb : b.val < 0x400
        · apply unicode_reads (by omega)
          rw [push_high _ true hb, PyStr.joinPairs, if_neg fun h => absurd h.2 (Nat.not_le.mpr hb),
            List.append_cons read (.surrogate a) (PyStr.joinPairs (.surrogate b :: cs))]
          exact ih.2 _ b hb
        · have hle : 0x400 ≤ b.val := Nat.not_lt.mp hb
          apply unicode_reads (by omega)
          rw [push_joined read hle, PyStr.joinPairs, if_pos ⟨ha, hle⟩,
            List.append_cons read (.scalar _) (PyStr.joinPairs cs)]
          exact ih.1 _

theorem ascii_reads (cs : List PyChar) :
    BodyReads [] false (cs.flatMap asciiEscape) (PyStr.joinPairs cs) :=
  (escaped_reads cs).1 []

theorem unescaped_reads {read cs r : List PyChar} {high : Bool} (c : PyChar)
    (h : BodyReads (read ++ [c]) false cs r) : BodyReads read high (escapeChar c ++ cs) r := by
  cases c with
  | surrogate n => exact .plain rfl h
  | scalar c =>
    refine named_cases (P := fun text => BodyReads read high (text ++ cs) r) c ?_ ?_
    · intro c' d hc hd
      obtain rfl := Char.toNat_inj.mp hc
      exact .escape hd h
    · intro hquote hslash
      split
      · refine .unicode (i := 0) rfl (j := 0) rfl (k := 0) rfl (hexValue_digitChar (by omega)) ?_
        rw [show 16 * (16 * (16 * 0 + 0) + 0) + c.toNat = c.toNat by omega, push_scalar]
        exact h
      split
      · refine .unicode (i := 0) rfl (j := 0) rfl (k := 1) rfl (hexValue_digitChar (by omega)) ?_
        rw [show 16 * (16 * (16 * 0 + 0) + 1) + (c.toNat - 0x10) = c.toNat by omega, push_scalar]
        exact h
      · rename_i hlo
        have hplain : PyChar.isPlain (.scalar c) = true := by
          simp only [PyChar.isPlain, Bool.and_eq_true, decide_eq_true_eq]
          exact ⟨⟨Nat.not_lt.mp hlo, hquote⟩, hslash⟩
        exact .plain hplain h

theorem raw_reads (cs : List PyChar) (read : List PyChar) (high : Bool) :
    BodyReads read high (cs.flatMap escapeChar) (read ++ cs) := by
  induction cs generalizing read high with
  | nil =>
    rw [List.append_nil]
    exact .nil
  | cons c cs ih =>
    rw [List.flatMap_cons, List.append_cons]
    exact unescaped_reads c (ih _ false)

end Strings

section Numbers

theorem toDigits_head {n : Nat} (h : n ≠ 0) :
    ∃ c ds, Nat.toDigits 10 n = c :: ds ∧ c ≠ '0' := by
  induction n using Nat.strong_induction_on with
  | _ n ih =>
    rw [Nat.toDigits_eq_if (by decide)]
    split
    · exact ⟨_, [], rfl, fun hc => h (Nat.digitChar_eq_zero.mp hc)⟩
    · obtain ⟨c, ds, hd, hc⟩ := ih (n / 10) (by omega) (by omega)
      exact ⟨c, ds ++ [Nat.digitChar (n % 10)], by rw [hd, List.cons_append], hc⟩

theorem digits_toDigits (n : Nat) : ∀ c ∈ Nat.toDigits 10 n, c.isDigit = true :=
  fun _ hc => Nat.isDigit_of_mem_toDigits (by decide) (by decide) hc

theorem whole_toDigits (n : Nat) : Whole ((Nat.toDigits 10 n).map .scalar) := by
  have hdigits := digits_toDigits n
  by_cases hn : n = 0
  · rw [hn, Nat.toDigits_zero]
    exact .zero
  · obtain ⟨c, ds, hd, hc⟩ := toDigits_head hn
    rw [hd] at hdigits ⊢
    refine .digits (hdigits c List.mem_cons_self) hc fun d hd => ?_
    obtain ⟨e, he, rfl⟩ := List.mem_map.mp hd
    exact hdigits e (List.mem_cons_of_mem _ he)

theorem readInt_natural {n : Nat} (h : (Nat.toDigits 10 n).length ≤ maxStrDigits) :
    readInt (Nat.toDigits 10 n) = .ok (.int n) := by
  have hvalue : natOf (Nat.toDigits 10 n) = n :=
    Nat.ofDigitChars_toDigits (by decide) (by decide)
  unfold readInt
  split
  · rename_i ds hd
    have hminus := digits_toDigits n '-' (hd ▸ List.mem_cons_self)
    exact absurd hminus (by decide)
  · rw [if_pos h, hvalue]

variable {float : List Char → PyFloat}

theorem int_reads {i : Int} (h : fitsDigits i = true) :
    NumberReads float (toString i).toList (.int i) := by
  have hlen : (Nat.toDigits 10 i.natAbs).length ≤ maxStrDigits := of_decide_eq_true h
  cases i with
  | ofNat n =>
    have htext : (toString (Int.ofNat n)).toList = [] ++ Nat.toDigits 10 n := Nat.toList_repr
    rw [htext]
    exact .integer (.inl rfl) (whole_toDigits n) (readInt_natural hlen)
  | negSucc n =>
    have htext : (toString (Int.negSucc n)).toList = ['-'] ++ Nat.toDigits 10 (n + 1) := by
      rw [show toString (Int.negSucc n) = "-" ++ (n + 1).repr from rfl, String.toList_append,
        Nat.toList_repr]
      rfl
    have hvalue : natOf (Nat.toDigits 10 (n + 1)) = n + 1 :=
      Nat.ofDigitChars_toDigits (by decide) (by decide)
    rw [htext]
    refine .integer (.inr rfl) (whole_toDigits (n + 1)) ?_
    rw [List.singleton_append, readInt,
      if_pos (show (Nat.toDigits 10 (n + 1)).length ≤ maxStrDigits from hlen), hvalue]
    rfl

-- `float()` takes back what `repr` wrote of it, the text of a number as JSON has them
def PyFloat.Reads (float : List Char → PyFloat) (f : PyFloat) : Prop :=
  ∀ r, f = .finite r → NumberReads float r.toList (.float f)

theorem float_reads {maxDepth n : Nat} {f : PyFloat} (h : f.Reads float) :
    ValueReads maxDepth float n (PyStr.ofString f.text).chars (.float f) := by
  cases f with
  | nan => exact .literal (by decide)
  | infinity => exact .literal (by decide)
  | negInfinity => exact .literal (by decide)
  | finite r => exact .number (h r rfl)

end Numbers

section Values

mutual

-- every integer is one `int` converts to text and back
def Json.Fits : Json → Prop
  | .null => True
  | .bool _ => True
  | .int i => fitsDigits i = true
  | .float _ => True
  | .str _ => True
  | .arr items => Json.ItemsFit items
  | .obj items => Json.MembersFit items

def Json.ItemsFit : List Json → Prop
  | [] => True
  | j :: js => Json.Fits j ∧ Json.ItemsFit js

def Json.MembersFit : List (PyStr × Json) → Prop
  | [] => True
  | (_, j) :: js => Json.Fits j ∧ Json.MembersFit js

end

mutual

def Json.floats : Json → List PyFloat
  | .null => []
  | .bool _ => []
  | .int _ => []
  | .float f => [f]
  | .str _ => []
  | .arr items => Json.itemsFloats items
  | .obj items => Json.membersFloats items

def Json.itemsFloats : List Json → List PyFloat
  | [] => []
  | j :: js => Json.floats j ++ Json.itemsFloats js

def Json.membersFloats : List (PyStr × Json) → List PyFloat
  | [] => []
  | (_, j) :: js => Json.floats j ++ Json.membersFloats js

end

def ReadFloats (float : List Char → PyFloat) (fs : List PyFloat) : Prop := ∀ f ∈ fs, f.Reads float

variable {maxDepth : Nat} {float : List Char → PyFloat} {escape : PyChar → List PyChar}
  {reads : List PyChar → List PyChar}

theorem spaces_nil : Spaces [] := fun _ h => nomatch h

theorem spaces_blank : Spaces (PyStr.ofString " ").chars := by
  intro c hc
  rw [List.mem_singleton.mp hc]
  rfl

theorem ReadFloats.append {fs gs : List PyFloat} (h : ReadFloats float (fs ++ gs)) :
    ReadFloats float fs ∧ ReadFloats float gs :=
  ⟨fun f hf => h f (List.mem_append_left _ hf), fun f hf => h f (List.mem_append_right _ hf)⟩

mutual

-- under `n` open containers there is room for what is nested in the value
theorem written_reads (hesc : ∀ cs, BodyReads [] false (cs.flatMap escape) (reads cs)) :
    ∀ (j : Json) (n : Nat), j.Fits → n + j.depth ≤ maxDepth → ReadFloats float j.floats →
      ValueReads maxDepth float n (j.written escape) (j.readAs reads)
  | .null, n, _, _, _ => by
      simp only [Json.written, Json.readAs]
      exact .literal (by decide)
  | .bool b, n, _, _, _ => by
      simp only [Json.written, Json.readAs]
      cases b <;> exact .literal (by decide)
  | .int i, n, hfit, _, _ => by
      simp only [Json.written, Json.readAs]
      exact .number (int_reads (by simpa only [Json.Fits] using hfit))
  | .float f, n, _, _, hf => by
      simp only [Json.written, Json.readAs]
      exact float_reads (hf f (by simp only [Json.floats, List.mem_singleton]))
  | .str s, n, _, _, _ => by
      simp only [Json.written, Json.readAs]
      exact .string (hesc s.chars)
  | .arr [], n, _, hd, _ => by
      rw [Json.depth] at hd
      simp only [Json.written, Json.writtenItems, Json.readAs, Json.readItems]
      exact .emptyArray (by omega) spaces_nil
  | .arr (j :: js), n, hfit, hd, hf => by
      rw [Json.Fits] at hfit
      rw [Json.depth] at hd
      rw [Json.floats] at hf
      simp only [Json.written, Json.readAs]
      exact .array (by omega) (written_items_read hesc (j :: js) (n + 1) [] (List.cons_ne_nil _ _)
        spaces_nil hfit (by omega) hf)
  | .obj [], n, _, hd, _ => by
      rw [Json.depth] at hd
      simp only [Json.written, Json.writtenMembers, Json.readAs, Json.readMembers]
      exact .emptyObject (by omega) spaces_nil
  | .obj (kv :: js), n, hfit, hd, hf => by
      rw [Json.Fits] at hfit
      rw [Json.depth] at hd
      rw [Json.floats] at hf
      simp only [Json.written, Json.readAs]
      exact .object (by omega) (written_members_read hesc (kv :: js) (n + 1) []
        (List.cons_ne_nil _ _) spaces_nil hfit (by omega) hf)

theorem written_items_read (hesc : ∀ cs, BodyReads [] false (cs.flatMap escape) (reads cs)) :
    ∀ (js : List Json) (n : Nat) (a : List PyChar), js ≠ [] → Spaces a → Json.ItemsFit js →
      n + Json.itemsDepth js ≤ maxDepth → ReadFloats float (Json.itemsFloats js) →
      ItemsRead maxDepth float n (a ++ Json.writtenItems escape js) (Json.readItems reads js)
  | [], _, _, hne, _, _, _, _ => absurd rfl hne
  | [j], n, a, _, ha, hfit, hd, hf => by
      simp only [Json.ItemsFit, and_true] at hfit
      simp only [Json.itemsDepth, Nat.max_zero] at hd
      simp only [Json.itemsFloats, List.append_nil] at hf
      have hlast := ItemsRead.last ha (written_reads hesc j n hfit hd hf) spaces_nil
      rw [List.append_nil] at hlast
      simpa only [Json.writtenItems, Json.readItems] using hlast
  | j :: k :: js, n, a, _, ha, hfit, hd, hf => by
      rw [Json.ItemsFit] at hfit
      rw [Json.itemsDepth] at hd
      rw [Json.itemsFloats] at hf
      have hrest := written_items_read hesc (k :: js) n (PyStr.ofString " ").chars
        (List.cons_ne_nil _ _) spaces_blank hfit.2 (by omega) hf.append.2
      have hcons := ItemsRead.cons ha (written_reads hesc j n hfit.1 (by omega) hf.append.1)
        spaces_nil hrest
      rw [Json.writtenItems, Json.readItems, List.append_assoc (Json.written escape j)]
      · exact hcons
      · exact List.cons_ne_nil _ _

theorem written_members_read (hesc : ∀ cs, BodyReads [] false (cs.flatMap escape) (reads cs)) :
    ∀ (js : List (PyStr × Json)) (n : Nat) (a : List PyChar), js ≠ [] → Spaces a →
      Json.MembersFit js → n + Json.membersDepth js ≤ maxDepth →
      ReadFloats float (Json.membersFloats js) →
      MembersRead maxDepth float n (a ++ Json.writtenMembers escape js)
        (Json.readMembers reads js)
  | [], _, _, hne, _, _, _, _ => absurd rfl hne
  | [(s, j)], n, a, _, ha, hfit, hd, hf => by
      simp only [Json.MembersFit, and_true] at hfit
      simp only [Json.membersDepth, Nat.max_zero] at hd
      simp only [Json.membersFloats, List.append_nil] at hf
      have hlast := MembersRead.last ha (hesc s.chars) spaces_nil spaces_blank
        (written_reads hesc j n hfit hd hf) spaces_nil
      simp only [Json.writtenMembers, Json.readMembers]
      simpa [writtenString, PyStr.ofString] using hlast
  | (s, j) :: kv :: js, n, a, _, ha, hfit, hd, hf => by
      rw [Json.MembersFit] at hfit
      rw [Json.membersDepth] at hd
      rw [Json.membersFloats] at hf
      have hrest := written_members_read hesc (kv :: js) n (PyStr.ofString " ").chars
        (List.cons_ne_nil _ _) spaces_blank hfit.2 (by omega) hf.append.2
      have hcons := MembersRead.cons ha (hesc s.chars) spaces_nil spaces_blank
        (written_reads hesc j n hfit.1 (by omega) hf.append.1) spaces_nil hrest
      rw [Json.writtenMembers, Json.readMembers]
      · simpa [writtenString, PyStr.ofString] using hcons
      · simp

end

mutual

theorem toJson_fits : ∀ (v : PyValue) (j : Json), toJson v = some j → j.Fits
  | .none, j, h => by
      obtain rfl := Option.some.inj h
      simp only [Json.Fits]
  | .bool b, j, h => by
      obtain rfl := Option.some.inj h
      simp only [Json.Fits]
  | .int i, j, h => by
      rw [toJson] at h
      split at h
      · obtain rfl := Option.some.inj h
        simpa only [Json.Fits]
      · cases h
  | .float f, j, h => by
      obtain rfl := Option.some.inj h
      simp only [Json.Fits]
  | .str s, j, h => by
      obtain rfl := Option.some.inj h
      simp only [Json.Fits]
  | .bytes b, j, h => by cases h
  | .list items, j, h => by
      rw [toJson] at h
      obtain ⟨js, hjs, rfl⟩ := Option.map_eq_some_iff.mp h
      simpa only [Json.Fits] using toJsonItems_fit items js hjs
  | .tuple items, j, h => by
      rw [toJson] at h
      obtain ⟨js, hjs, rfl⟩ := Option.map_eq_some_iff.mp h
      simpa only [Json.Fits] using toJsonItems_fit items js hjs
  | .dict items, j, h => by
      rw [toJson] at h
      obtain ⟨js, hjs, rfl⟩ := Option.map_eq_some_iff.mp h
      simpa only [Json.Fits] using toJsonPairs_fit items js hjs
  | .mapping items, j, h => by cases h
  | .other, j, h => by cases h

theorem toJsonItems_fit : ∀ (vs : List PyValue) (js : List Json), toJsonItems vs = some js →
    Json.ItemsFit js
  | [], js, h => by
      obtain rfl := Option.some.inj h
      simp only [Json.ItemsFit]
  | v :: vs, js, h => by
      obtain ⟨j, js', hj, hjs, rfl⟩ := toJsonItems_cons h
      rw [Json.ItemsFit]
      exact ⟨toJson_fits v j hj, toJsonItems_fit vs js' hjs⟩

theorem toJsonPairs_fit : ∀ (kvs : List (PyKey × PyValue)) (js : List (PyStr × Json)),
    toJsonPairs kvs = some js → Json.MembersFit js
  | [], js, h => by
      obtain rfl := Option.some.inj h
      simp only [Json.MembersFit]
  | (k, v) :: kvs, js, h => by
      obtain ⟨s, j, js', _, hj, hjs, rfl⟩ := toJsonPairs_cons h
      rw [Json.MembersFit]
      exact ⟨toJson_fits v j hj, toJsonPairs_fit kvs js' hjs⟩

end

mutual

theorem readAs_joined : ∀ j : Json, j.readAs PyStr.joinPairs = loads j
  | .null => by rw [Json.readAs, loads]
  | .bool b => by rw [Json.readAs, loads]
  | .int i => by rw [Json.readAs, loads]
  | .float f => by rw [Json.readAs, loads]
  | .str s => by rw [Json.readAs, loads, PyStr.joined]
  | .arr items => by rw [Json.readAs, loads, readItems_joined items]
  | .obj items => by rw [Json.readAs, loads, readMembers_joined items, closeObject]

theorem readItems_joined : ∀ js : List Json, Json.readItems PyStr.joinPairs js = loadsItems js
  | [] => by rw [Json.readItems, loadsItems]
  | j :: js => by rw [Json.readItems, loadsItems, readAs_joined j, readItems_joined js]

theorem readMembers_joined : ∀ js : List (PyStr × Json),
    Json.readMembers PyStr.joinPairs js = loadsPairs js
  | [] => by rw [Json.readMembers, loadsPairs]
  | (s, j) :: js => by
      rw [Json.readMembers, loadsPairs, readAs_joined j, readMembers_joined js, PyStr.joined]

end

theorem decode_reads {x : List PyChar} {v : PyValue} (h : ValueReads maxDepth float 0 x v) :
    decode maxDepth float x = .ok v :=
  decode_ok_iff.mpr ⟨[], x, [], (List.append_nil x).symm, spaces_nil, h, spaces_nil⟩

-- `json.loads` of the text `json.dumps` writes is the value the model of both has it be
theorem decode_written {v : PyValue} {j : Json} (h : toJson v = some j) (hd : j.depth ≤ maxDepth)
    (hf : ReadFloats float j.floats) :
    decode maxDepth float (j.written asciiEscape) = .ok (loads j) := by
  rw [← readAs_joined]
  exact decode_reads (written_reads ascii_reads j 0 (toJson_fits v j h) (by omega) hf)

end Values

section Printable

def PyChar.isPrintable : PyChar → Bool
  | .scalar c => 0x20 ≤ c.toNat && c.toNat ≤ 0x7E
  | .surrogate _ => false

def Printable (cs : List PyChar) : Prop := ∀ c ∈ cs, c.isPrintable = true

theorem printable_append {cs ds : List PyChar} (hc : Printable cs) (hd : Printable ds) :
    Printable (cs ++ ds) := fun c h => (List.mem_append.mp h).elim (hc c) (hd c)

theorem printable_cons {c : PyChar} {cs : List PyChar} (hc : c.isPrintable = true)
    (h : Printable cs) : Printable (c :: cs) := List.forall_mem_cons.mpr ⟨hc, h⟩

theorem printable_of_all {cs : List PyChar} (h : cs.all PyChar.isPrintable = true) :
    Printable cs := List.all_eq_true.mp h

theorem printable_digits {ds : List Char} (h : ∀ c ∈ ds, c.isDigit = true) :
    Printable (ds.map .scalar) := by
  intro c hc
  obtain ⟨d, hd, rfl⟩ := List.mem_map.mp hc
  have hall : (decimals.all fun d => PyChar.isPrintable (.scalar d)) = true := by decide
  exact List.all_eq_true.mp hall d (isDigit_mem (h d hd))

theorem printable_unicode {n : Nat} (hn : n < 0x10000) : Printable (unicodeEscape n) := by
  have hall : ∀ d < 16, PyChar.isPrintable (.scalar (Nat.digitChar d)) = true := by decide
  refine printable_append (printable_of_all rfl) ?_
  refine printable_cons (hall _ (by omega)) (printable_cons (hall _ (by omega)) ?_)
  exact printable_cons (hall _ (by omega)) (printable_cons (hall _ (by omega)) (printable_of_all rfl))

theorem printable_named {c d : Char} (h : unescape d = some c) :
    PyChar.isPrintable (.scalar d) = true := by
  unfold unescape at h
  split at h <;> try rfl
  split at h
  · rename_i hd
    rcases hd with rfl | rfl | rfl <;> rfl
  · cases h

theorem printable_ascii (c : PyChar) : Printable (asciiEscape c) := by
  cases c with
  | surrogate n => exact printable_unicode (by omega)
  | scalar c =>
    refine asciiEscape_cases c ?_ ?_ printable_unicode ?_
    · intro c' d _ hd
      exact printable_cons rfl (printable_cons (printable_named hd) (printable_of_all rfl))
    · intro _ _ hlo hhi
      refine printable_cons ?_ (printable_of_all rfl)
      simp only [PyChar.isPrintable, Bool.and_eq_true, decide_eq_true_eq]
      exact ⟨hlo, hhi⟩
    · intro a b _ _ _
      exact printable_append (printable_unicode (by omega)) (printable_unicode (by omega))

theorem printable_whole {w : List Char} (h : Whole (w.map .scalar)) :
    Printable (w.map .scalar) := by
  apply printable_digits
  rcases whole_inv h with rfl | ⟨c, ds, rfl, hc, _, hds⟩
  · exact List.forall_mem_cons.mpr ⟨rfl, nofun⟩
  · exact List.forall_mem_cons.mpr ⟨hc, hds⟩

theorem printable_some_digits {ds : List Char} (h : Digits (ds.map .scalar)) :
    Printable (ds.map .scalar) :=
  printable_digits fun c hc => h.2 (.scalar c) (List.mem_map_of_mem hc)

theorem printable_number {float : List Char → PyFloat} {text : List Char} {v : PyValue}
    (h : NumberReads float text v) : Printable (text.map .scalar) := by
  have signed {sign : List Char} (hs : Sign sign) : Printable (sign.map .scalar) := by
    rcases hs with rfl | rfl <;> exact printable_of_all (by decide)
  cases h with
  | integer hs hw _ =>
    rw [List.map_append]
    exact printable_append (signed hs) (printable_whole hw)
  | @real sign w f e hs hw hf he _ =>
    have hfraction : Printable (f.map .scalar) := by
      rcases fraction_inv hf with rfl | ⟨ds, rfl, hds⟩
      · exact printable_of_all rfl
      · exact printable_cons rfl (printable_some_digits hds)
    have hexponent : Printable (e.map .scalar) := by
      rcases exponent_inv he with rfl | ⟨m, sign, ds, rfl, hm, hsign, hds⟩
      · exact printable_of_all rfl
      · rw [List.map_cons, List.map_append]
        refine printable_cons ?_ (printable_append ?_ (printable_some_digits hds))
        · rcases hm with rfl | rfl <;> decide
        · rcases hsign with rfl | rfl | rfl <;> exact printable_of_all (by decide)
    rw [List.map_append, List.map_append, List.map_append]
    exact printable_append (signed hs)
      (printable_append (printable_whole hw) (printable_append hfraction hexponent))

theorem printable_string (s : PyStr) : Printable (writtenString asciiEscape s) := by
  refine printable_cons rfl (printable_append ?_ (printable_of_all rfl))
  intro c hc
  obtain ⟨d, _, hd⟩ := List.mem_flatMap.mp hc
  exact printable_ascii d c hd

variable {float : List Char → PyFloat}

mutual

-- `ensure_ascii`: what is written has a code in every encoding
theorem printable_written : ∀ j : Json, j.Fits → ReadFloats float j.floats →
    Printable (j.written asciiEscape)
  | .null, _, _ => by
      rw [Json.written]
      exact printable_of_all (by decide)
  | .bool b, _, _ => by
      rw [Json.written]
      cases b <;> exact printable_of_all (by decide)
  | .int i, hfit, _ => by
      rw [Json.Fits] at hfit
      rw [Json.written]
      have hreads : NumberReads float (toString i).toList (.int i) := int_reads hfit
      exact printable_number hreads
  | .float f, _, hf => by
      have hreads : f.Reads float := hf f (by simp only [Json.floats, List.mem_singleton])
      rw [Json.written]
      cases f with
      | finite r => exact printable_number (hreads r rfl)
      | _ => exact printable_of_all (by decide)
  | .str s, _, _ => by
      rw [Json.written]
      exact printable_string s
  | .arr items, hfit, hf => by
      rw [Json.Fits] at hfit
      rw [Json.floats] at hf
      rw [Json.written]
      exact printable_cons rfl
        (printable_append (printable_items items hfit hf) (printable_of_all rfl))
  | .obj items, hfit, hf => by
      rw [Json.Fits] at hfit
      rw [Json.floats] at hf
      rw [Json.written]
      exact printable_cons rfl
        (printable_append (printable_members items hfit hf) (printable_of_all rfl))

theorem printable_items : ∀ js : List Json, Json.ItemsFit js →
    ReadFloats float (Json.itemsFloats js) → Printable (Json.writtenItems asciiEscape js)
  | [], _, _ => by
      rw [Json.writtenItems]
      exact printable_of_all rfl
  | [j], hfit, hf => by
      simp only [Json.ItemsFit, and_true] at hfit
      simp only [Json.itemsFloats, List.append_nil] at hf
      rw [Json.writtenItems]
      exact printable_written j hfit hf
  | j :: k :: js, hfit, hf => by
      rw [Json.ItemsFit] at hfit
      rw [Json.itemsFloats] at hf
      rw [Json.writtenItems]
      · exact printable_append
          (printable_append (printable_written j hfit.1 hf.append.1) (printable_of_all rfl))
          (printable_items (k :: js) hfit.2 hf.append.2)
      · exact List.cons_ne_nil _ _

theorem printable_members : ∀ js : List (PyStr × Json), Json.MembersFit js →
    ReadFloats float (Json.membersFloats js) → Printable (Json.writtenMembers asciiEscape js)
  | [], _, _ => by
      rw [Json.writtenMembers]
      exact printable_of_all rfl
  | [(s, j)], hfit, hf => by
      simp only [Json.MembersFit, and_true] at hfit
      simp only [Json.membersFloats, List.append_nil] at hf
      rw [Json.writtenMembers]
      exact printable_append (printable_append (printable_string s) (printable_of_all rfl))
        (printable_written j hfit hf)
  | (s, j) :: kv :: js, hfit, hf => by
      rw [Json.MembersFit] at hfit
      rw [Json.membersFloats] at hf
      rw [Json.writtenMembers]
      · refine printable_append (printable_append ?_ (printable_of_all rfl))
          (printable_members (kv :: js) hfit.2 hf.append.2)
        exact printable_append (printable_append (printable_string s) (printable_of_all rfl))
          (printable_written j hfit.1 hf.append.1)
      · simp

end

end Printable

end DurableAgent
