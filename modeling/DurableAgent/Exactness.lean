import DurableAgent.Denotation

namespace DurableAgent

open Grammar

namespace Decoder

def Accepts (maxDepth : Nat) (float : List Char → PyFloat) (s : State) (text : List PyChar)
    (r : PyValue) : Prop := finish float (run maxDepth float s text) = .ok r

variable {maxDepth : Nat} {float : List Char → PyFloat} {s : State} {st : List Container}
  {text : List PyChar} {r v : PyValue}

section Tokens

theorem Accepts.cons {c : PyChar} (h : Accepts maxDepth float s (c :: text) r) :
    Accepts maxDepth float (step maxDepth float s c) text r := h

theorem not_accepts_failed {e : DecodeError} (h : s.mode = .failed e) :
    ¬ Accepts maxDepth float s text r := by
  intro ha
  rw [Accepts, run_failed h, finish, settle_failed h, h] at ha
  cases ha

theorem not_accepts_error {mode : Mode} {e : DecodeError} :
    ¬ Accepts maxDepth float (State.fail ⟨mode, st⟩ e) text r := not_accepts_failed rfl

-- a state that needs more text skips space and then takes a step
theorem Accepts.token (h : Accepts maxDepth float s text r) (hs : s.mode.skips = true)
    (hnil : ¬ Accepts maxDepth float s [] r) :
    ∃ a c rest, text = a ++ c :: rest ∧ Spaces a ∧ c.isJsonSpace = false ∧
      Accepts maxDepth float (step maxDepth float s c) rest r := by
  induction text with
  | nil => exact absurd h hnil
  | cons c text ih =>
    cases hc : c.isJsonSpace with
    | false => exact ⟨[], c, text, rfl, fun _ hd => absurd hd List.not_mem_nil, hc, h⟩
    | true =>
      have hrest := h.cons
      rw [step_space hs hc] at hrest
      obtain ⟨a, d, rest, rfl, ha, hd, hstep⟩ := ih hrest
      refine ⟨c :: a, d, rest, rfl, ?_, hd, hstep⟩
      intro x hx
      rcases List.mem_cons.mp hx with rfl | hx
      · exact hc
      · exact ha x hx

theorem not_accepts_nil {c : Container} : ¬ Accepts maxDepth float ⟨.done v, c :: st⟩ [] r := by
  intro h
  cases h

theorem literal_sound {rest : List Char} (hne : rest ≠ [])
    (h : Accepts maxDepth float ⟨.literal rest v, st⟩ text r) :
    ∃ more, text = rest.map .scalar ++ more ∧ Accepts maxDepth float ⟨.done v, st⟩ more r := by
  induction rest generalizing text with
  | nil => exact absurd rfl hne
  | cons d rest ih =>
    cases text with
    | nil => cases h
    | cons c text =>
      have hstep := h.cons
      simp only [step, inLiteral] at hstep
      split at hstep
      · rename_i hc
        subst hc
        by_cases hrest : rest = []
        · subst hrest
          exact ⟨text, rfl, hstep⟩
        · rw [if_neg hrest] at hstep
          obtain ⟨more, rfl, hmore⟩ := ih hrest hstep
          exact ⟨more, rfl, hmore⟩
      · exact absurd hstep not_accepts_error

end Tokens

section Strings

variable {key : Bool}

theorem hex_sound {read : List PyChar} {high : Bool} {ds : List Nat}
    (h : Accepts maxDepth float ⟨.string key read high (.hex ds), st⟩ text r) :
    ∃ c d rest, text = .scalar c :: rest ∧ hexValue c = some d ∧
      Accepts maxDepth float
        (if ds.length < 3 then ⟨.string key read high (.hex (ds ++ [d])), st⟩
        else ⟨.string key (pushEscape read high ((ds ++ [d]).foldl (fun n d => 16 * n + d) 0)).1
          (pushEscape read high ((ds ++ [d]).foldl (fun n d => 16 * n + d) 0)).2 .none, st⟩)
        rest r := by
  cases text with
  | nil => cases h
  | cons c rest =>
    have hstep := h.cons
    cases c with
    | surrogate n => exact absurd hstep not_accepts_error
    | scalar c =>
      simp only [step, inString] at hstep
      cases hc : hexValue c with
      | none =>
        rw [hc] at hstep
        exact absurd hstep not_accepts_error
      | some d =>
        rw [hc] at hstep
        exact ⟨c, d, rest, rfl, hc, hstep⟩

theorem unicode_sound {read : List PyChar} {high : Bool}
    (h : Accepts maxDepth float ⟨.string key read high (.hex []), st⟩ text r) :
    ∃ a b c d i j k l rest, text = .scalar a :: .scalar b :: .scalar c :: .scalar d :: rest ∧
      hexValue a = some i ∧ hexValue b = some j ∧ hexValue c = some k ∧ hexValue d = some l ∧
      Accepts maxDepth float
        ⟨.string key (pushEscape read high (16 * (16 * (16 * i + j) + k) + l)).1
          (pushEscape read high (16 * (16 * (16 * i + j) + k) + l)).2 .none, st⟩ rest r := by
  obtain ⟨a, i, text, rfl, ha, h⟩ := hex_sound h
  obtain ⟨b, j, text, rfl, hb, h⟩ := hex_sound h
  obtain ⟨c, k, text, rfl, hc, h⟩ := hex_sound h
  obtain ⟨d, l, rest, rfl, hd, h⟩ := hex_sound h
  refine ⟨a, b, c, d, i, j, k, l, rest, rfl, ha, hb, hc, hd, ?_⟩
  simpa using h

theorem body_sound : ∀ (text read : List PyChar) (high : Bool),
    Accepts maxDepth float ⟨.string key read high .none, st⟩ text r →
    ∃ cs res high' rest, text = cs ++ .scalar '"' :: rest ∧ BodyReads read high cs res ∧
      Accepts maxDepth float (endString ⟨.string key res high' .none, st⟩ res key) rest r
  | [], _, _, h => by cases h
  | c :: text, read, high, h => by
      have hstep := h.cons
      simp only [step, inString] at hstep
      split at hstep
      · rename_i hc
        subst hc
        exact ⟨[], read, high, text, rfl, .nil, hstep⟩
      split at hstep
      · rename_i hc
        subst hc
        cases text with
        | nil => cases hstep
        | cons c text =>
          have hesc := hstep.cons
          cases c with
          | surrogate n => exact absurd hesc not_accepts_error
          | scalar c =>
            simp only [step, inString] at hesc
            split at hesc
            · rename_i hu
              subst hu
              obtain ⟨a, b, c, d, i, j, k, l, rest, rfl, ha, hb, hc, hd, hrest⟩ := unicode_sound hesc
              obtain ⟨cs, res, high', more, rfl, hbody, hmore⟩ := body_sound rest _ _ hrest
              exact ⟨_, res, high', more, rfl, .unicode ha hb hc hd hbody, hmore⟩
            · cases hc : unescape c with
              | none =>
                rw [hc] at hesc
                exact absurd hesc not_accepts_error
              | some c' =>
                rw [hc] at hesc
                obtain ⟨cs, res, high', more, rfl, hbody, hmore⟩ := body_sound text _ _ hesc
                exact ⟨_, res, high', more, rfl, .escape hc hbody, hmore⟩
      split at hstep
      · rename_i hc
        obtain ⟨cs, res, high', more, rfl, hbody, hmore⟩ := body_sound text _ _ hstep
        exact ⟨_, res, high', more, rfl, .plain hc hbody, hmore⟩
      · exact absurd hstep not_accepts_error
termination_by text => text.length
decreasing_by
  all_goals simp_all
  all_goals omega

end Strings

section Numbers

-- the text of a number as far as it has come
def Shape : Part → List Char → Prop
  | .sign, cs => cs = []
  | .zero, cs => cs = ['0']
  | .digits, cs => ∃ c ds, cs = c :: ds ∧ c.isDigit = true ∧ c ≠ '0' ∧ ∀ d ∈ ds, d.isDigit = true
  | .dot, cs => ∃ w, Whole (w.map .scalar) ∧ cs = w ++ ['.']
  | .fraction, cs => ∃ w ds, Whole (w.map .scalar) ∧ Digits (ds.map .scalar) ∧ cs = w ++ '.' :: ds
  | .mark, cs => ∃ w f m, Whole (w.map .scalar) ∧ Fraction (f.map .scalar) ∧ (m = 'e' ∨ m = 'E') ∧
      cs = w ++ (f ++ [m])
  | .markSign, cs => ∃ w f m s, Whole (w.map .scalar) ∧ Fraction (f.map .scalar) ∧
      (m = 'e' ∨ m = 'E') ∧ (s = '+' ∨ s = '-') ∧ cs = w ++ (f ++ [m, s])
  | .power, cs => ∃ w f m sign ds, Whole (w.map .scalar) ∧ Fraction (f.map .scalar) ∧
      (m = 'e' ∨ m = 'E') ∧ (sign = [] ∨ sign = ['+'] ∨ sign = ['-']) ∧ Digits (ds.map .scalar) ∧
      cs = w ++ (f ++ m :: (sign ++ ds))

theorem digits_snoc {ds : List Char} {d : Char} (hds : ∀ x ∈ ds, x.isDigit = true)
    (hd : d.isDigit = true) : ∀ x ∈ ds ++ [d], x.isDigit = true := by
  intro x hx
  rcases List.mem_append.mp hx with hx | hx
  · exact hds x hx
  · rw [List.mem_singleton.mp hx]
    exact hd

theorem scalar_digits {ds : List Char} (h : ∀ d ∈ ds, d.isDigit = true) :
    ∀ d ∈ ds.map PyChar.scalar, d.isDigit = true := by
  intro d hd
  obtain ⟨c, hc, rfl⟩ := List.mem_map.mp hd
  exact h c hc

theorem digits_text {ds : List Char} (hne : ds ≠ []) (h : ∀ d ∈ ds, d.isDigit = true) :
    Digits (ds.map .scalar) :=
  ⟨fun he => hne (List.map_eq_nil_iff.mp he), scalar_digits h⟩

theorem digits_text_snoc {ds : List Char} {d : Char} (hds : Digits (ds.map .scalar))
    (hd : d.isDigit = true) : Digits ((ds ++ [d]).map .scalar) :=
  digits_text (by simp) (digits_snoc (map_scalar_digits hds.2) hd)

theorem Shape.whole {part : Part} {cs : List Char} (h : Shape part cs)
    (hp : part = .zero ∨ part = .digits) : Whole (cs.map .scalar) := by
  rcases hp with rfl | rfl
  · obtain rfl := h
    exact .zero
  · obtain ⟨c, ds, rfl, hc, hz, hds⟩ := h
    exact .digits hc hz (scalar_digits hds)

theorem Shape.mantissa {part : Part} {cs : List Char} (h : Shape part cs)
    (hp : part = .zero ∨ part = .digits ∨ part = .fraction) :
    ∃ w f, Whole (w.map .scalar) ∧ Fraction (f.map .scalar) ∧ cs = w ++ f := by
  rcases hp with rfl | rfl | rfl
  · exact ⟨cs, [], h.whole (.inl rfl), .absent, (List.append_nil cs).symm⟩
  · exact ⟨cs, [], h.whole (.inr rfl), .absent, (List.append_nil cs).symm⟩
  · obtain ⟨w, ds, hw, hds, rfl⟩ := h
    exact ⟨w, '.' :: ds, hw, .digits hds, rfl⟩

theorem Shape.mark {part : Part} {cs : List Char} {m : Char} (h : Shape part cs)
    (hp : part = .zero ∨ part = .digits ∨ part = .fraction) (hm : m = 'e' ∨ m = 'E') :
    Shape .mark (cs ++ [m]) := by
  obtain ⟨w, f, hw, hf, rfl⟩ := h.mantissa hp
  exact ⟨w, f, m, hw, hf, hm, List.append_assoc w f [m]⟩

theorem Shape.next {part part' : Part} {cs : List Char} {c : Char} (h : Shape part cs)
    (hn : part.next c = some part') : Shape part' (cs ++ [c]) := by
  cases part with
  | sign =>
    obtain rfl := h
    simp only [Part.next] at hn
    split at hn
    · rename_i hz
      cases hn
      rw [hz]
      rfl
    split at hn
    · rename_i hz hd
      cases hn
      exact ⟨c, [], rfl, hd, hz, fun d hd => absurd hd List.not_mem_nil⟩
    · cases hn
  | zero =>
    simp only [Part.next] at hn
    split at hn
    · rename_i hdot
      cases hn
      exact ⟨cs, h.whole (.inl rfl), by rw [hdot]⟩
    split at hn
    · rename_i hm
      cases hn
      exact h.mark (.inl rfl) hm
    · cases hn
  | digits =>
    simp only [Part.next] at hn
    split at hn
    · rename_i hd
      cases hn
      obtain ⟨c', ds, rfl, hc, hz, hds⟩ := h
      exact ⟨c', ds ++ [c], rfl, hc, hz, digits_snoc hds hd⟩
    split at hn
    · rename_i hdot
      cases hn
      exact ⟨cs, h.whole (.inr rfl), by rw [hdot]⟩
    split at hn
    · rename_i hm
      cases hn
      exact h.mark (.inr (.inl rfl)) hm
    · cases hn
  | dot =>
    simp only [Part.next] at hn
    split at hn
    · rename_i hd
      cases hn
      obtain ⟨w, hw, rfl⟩ := h
      refine ⟨w, [c], hw, digits_text (List.cons_ne_nil c []) ?_, List.append_assoc w ['.'] [c]⟩
      exact fun d hm => (List.mem_singleton.mp hm) ▸ hd
    · cases hn
  | fraction =>
    simp only [Part.next] at hn
    split at hn
    · rename_i hd
      cases hn
      obtain ⟨w, ds, hw, hds, rfl⟩ := h
      exact ⟨w, ds ++ [c], hw, digits_text_snoc hds hd, List.append_assoc w ('.' :: ds) [c]⟩
    split at hn
    · rename_i hm
      cases hn
      exact h.mark (.inr (.inr rfl)) hm
    · cases hn
  | mark =>
    obtain ⟨w, f, m, hw, hf, hm, rfl⟩ := h
    simp only [Part.next] at hn
    split at hn
    · rename_i hd
      cases hn
      refine ⟨w, f, m, [], [c], hw, hf, hm, .inl rfl, digits_text (List.cons_ne_nil c []) ?_, by simp⟩
      exact fun d hm => (List.mem_singleton.mp hm) ▸ hd
    split at hn
    · rename_i hs
      cases hn
      exact ⟨w, f, m, c, hw, hf, hm, hs, by simp⟩
    · cases hn
  | markSign =>
    obtain ⟨w, f, m, s, hw, hf, hm, hs, rfl⟩ := h
    simp only [Part.next] at hn
    split at hn
    · rename_i hd
      cases hn
      refine ⟨w, f, m, [s], [c], hw, hf, hm, .inr ?_, digits_text (List.cons_ne_nil c []) ?_, by simp⟩
      · rcases hs with rfl | rfl
        · exact .inl rfl
        · exact .inr rfl
      · exact fun d hm => (List.mem_singleton.mp hm) ▸ hd
    · cases hn
  | power =>
    obtain ⟨w, f, m, sign, ds, hw, hf, hm, hs, hds, rfl⟩ := h
    simp only [Part.next] at hn
    split at hn
    · rename_i hd
      cases hn
      exact ⟨w, f, m, sign, ds ++ [c], hw, hf, hm, hs, digits_text_snoc hds hd, by simp⟩
    · cases hn

theorem shape_run {cs ds : List Char} {part part' : Part} (h : Shape part cs)
    (hr : part.run ds = some part') : Shape part' (cs ++ ds) := by
  induction ds generalizing cs part with
  | nil =>
    obtain rfl := Option.some.inj hr
    rwa [List.append_nil]
  | cons d ds ih =>
    rw [Part.run, List.foldlM_cons] at hr
    obtain ⟨next, hn, hrest⟩ := Option.bind_eq_some_iff.mp hr
    have hnext := ih (h.next hn) hrest
    rwa [List.append_assoc, List.singleton_append] at hnext

theorem cutShort_refuses {cs : List Char} : cutShort cs ≠ .ok v := by
  unfold cutShort
  split
  · intro h
    cases h
  · cases readInt (cs.takeWhile fun c => c.isDigit || c = '-') <;> (intro h; cases h)

-- an ended number was a number
theorem shape_reads {sign cs : List Char} {part : Part} (hs : Sign sign) (h : Shape part cs)
    (hend : endNumber float (sign ++ cs) part = .ok v) : NumberReads float (sign ++ cs) v := by
  cases part with
  | sign => cases hend
  | zero => exact .integer hs (h.whole (.inl rfl)) hend
  | digits => exact .integer hs (h.whole (.inr rfl)) hend
  | dot => exact absurd hend cutShort_refuses
  | mark => exact absurd hend cutShort_refuses
  | markSign => exact absurd hend cutShort_refuses
  | fraction =>
    obtain ⟨w, ds, hw, hds, rfl⟩ := h
    cases hend
    have hreal : NumberReads float (sign ++ (w ++ (('.' :: ds) ++ []))) _ :=
      .real hs hw (.digits hds) .absent (by simp)
    rwa [List.append_nil] at hreal
  | power =>
    obtain ⟨w, f, m, s, ds, hw, hf, hm, hsign, hds, rfl⟩ := h
    cases hend
    refine .real hs hw hf ?_ (by simp)
    rcases hsign with rfl | rfl | rfl
    · exact .digits hm hds
    · exact .signed hm (.inl rfl) hds
    · exact .signed hm (.inr rfl) hds

theorem next_not_sign {part : Part} {c : Char} : part.next c ≠ some .sign := by
  cases part <;> simp only [Part.next] <;> repeat' split <;> simp

-- a number goes on to its end, or turns out to be the literal that begins with a sign
theorem number_sound {cs : List Char} {part : Part}
    (h : Accepts maxDepth float ⟨.number cs part, st⟩ text r) :
    (∃ ds part' rest v, text = ds.map .scalar ++ rest ∧ part.run ds = some part' ∧
      endNumber float (cs ++ ds) part' = .ok v ∧ Accepts maxDepth float ⟨.done v, st⟩ rest r) ∨
    ∃ rest, part = .sign ∧ text = .scalar 'I' :: rest ∧
      Accepts maxDepth float ⟨.literal "nfinity".toList (.float .negInfinity), st⟩ rest r := by
  have ended {text : List PyChar} {cs : List Char} {part : Part}
      (h : Accepts maxDepth float (settle float ⟨.number cs part, st⟩) text r) :
      ∃ v, endNumber float cs part = .ok v ∧ Accepts maxDepth float ⟨.done v, st⟩ text r := by
    simp only [settle] at h
    cases hend : endNumber float cs part with
    | error e =>
      rw [hend] at h
      exact absurd h not_accepts_error
    | ok v =>
      rw [hend] at h
      exact ⟨v, rfl, h⟩
  induction text generalizing cs part with
  | nil =>
    have hsettled : settle float (settle float ⟨.number cs part, st⟩) =
        settle float ⟨.number cs part, st⟩ := by
      simp only [settle]
      cases endNumber float cs part <;> rfl
    have hnil : Accepts maxDepth float (settle float ⟨.number cs part, st⟩) [] r := by
      have hfinish : finish float (settle float ⟨.number cs part, st⟩) =
          finish float ⟨.number cs part, st⟩ := by
        rw [finish, finish, hsettled]
        simp only [settle]
        cases endNumber float cs part <;> rfl
      exact hfinish.trans h
    obtain ⟨v, hv, hdone⟩ := ended hnil
    exact .inl ⟨[], part, [], v, rfl, rfl, by rwa [List.append_nil], hdone⟩
  | cons c text ih =>
    have hstep := h.cons
    simp only [step, inNumber] at hstep
    cases hn : nextPart part c with
    | some next =>
      obtain ⟨d, part'⟩ := next
      rw [hn] at hstep
      cases c with
      | surrogate n => cases hn
      | scalar c =>
        obtain ⟨p, hp, he⟩ := Option.map_eq_some_iff.mp hn
        cases he
        rcases ih hstep with ⟨ds, part'', rest, v, rfl, hrun, hend, hdone⟩ | ⟨rest, hsign, _⟩
        · refine .inl ⟨d :: ds, part'', rest, v, rfl, ?_, ?_, hdone⟩
          · rw [Part.run, List.foldlM_cons, hp]
            exact hrun
          · rwa [List.append_assoc] at hend
        · rw [hsign] at hp
          exact absurd hp next_not_sign
    | none =>
      rw [hn] at hstep
      simp only at hstep
      split at hstep
      · rename_i hi
        obtain ⟨rfl, rfl⟩ := hi
        exact .inr ⟨text, rfl, rfl, hstep⟩
      · split at hstep
        · rename_i v hv
          have hback : Accepts maxDepth float (settle float ⟨.number cs part, st⟩) (c :: text) r := by
            generalize settle float ⟨.number cs part, st⟩ = s at hv hstep ⊢
            obtain ⟨mode, stack⟩ := s
            obtain rfl : mode = .done v := hv
            exact hstep
          obtain ⟨v', hv', hdone⟩ := ended hback
          exact .inl ⟨[], part, c :: text, v', rfl, rfl, by rwa [List.append_nil], hdone⟩
        · rename_i hmode
          obtain ⟨v', hv', _⟩ := ended hstep
          refine absurd ?_ (hmode v')
          simp only [settle, hv']

end Numbers

section Values

def ReadsBack (maxDepth : Nat) (float : List Char → PyFloat) (r : PyValue) (n : Nat) : Prop :=
  ∀ (text : List PyChar) (st : List Container), text.length ≤ n →
    Accepts maxDepth float ⟨.value, st⟩ text r →
    ∃ a x rest v, text = a ++ (x ++ rest) ∧ Spaces a ∧ ValueReads maxDepth float st.length x v ∧
      Accepts maxDepth float ⟨.done v, st⟩ rest r

theorem accepts_spaces {a : List PyChar} (hs : s.mode.skips = true) (ha : Spaces a) :
    Accepts maxDepth float s (a ++ text) r ↔ Accepts maxDepth float s text r := by
  rw [Accepts, Accepts, run_append, run_spaces hs ha]

theorem after_item {us : List PyValue}
    (h : Accepts maxDepth float ⟨.done v, .array us :: st⟩ text r) :
    ∃ b c rest, text = b ++ c :: rest ∧ Spaces b ∧
      (c = .scalar ',' ∧ Accepts maxDepth float ⟨.value, .array (us ++ [v]) :: st⟩ rest r ∨
        c = .scalar ']' ∧ Accepts maxDepth float ⟨.done (.list (us ++ [v])), st⟩ rest r) := by
  obtain ⟨b, c, rest, rfl, hb, hc, hstep⟩ := h.token rfl not_accepts_nil
  refine ⟨b, c, rest, rfl, hb, ?_⟩
  simp only [step, afterValue, hc, Bool.false_eq_true, if_false] at hstep
  split at hstep
  · rename_i heq
    cases heq
    exact .inl ⟨rfl, hstep⟩
  · rename_i heq
    cases heq
    exact .inr ⟨rfl, hstep⟩
  · rename_i heq
    cases heq
  · rename_i heq
    cases heq
  · exact absurd hstep not_accepts_error

theorem after_member {items : List (PyKey × PyValue)} {key : PyStr}
    (h : Accepts maxDepth float ⟨.done v, .object items key :: st⟩ text r) :
    ∃ b c rest, text = b ++ c :: rest ∧ Spaces b ∧
      (c = .scalar ',' ∧
          Accepts maxDepth float ⟨.key, .object (items ++ [(.str key, v)]) ⟨[]⟩ :: st⟩ rest r ∨
        c = .scalar '}' ∧
          Accepts maxDepth float ⟨.done (closeObject (items ++ [(.str key, v)])), st⟩ rest r) := by
  obtain ⟨b, c, rest, rfl, hb, hc, hstep⟩ := h.token rfl not_accepts_nil
  refine ⟨b, c, rest, rfl, hb, ?_⟩
  simp only [step, afterValue, hc, Bool.false_eq_true, if_false] at hstep
  split at hstep
  · rename_i heq
    cases heq
  · rename_i heq
    cases heq
  · rename_i heq
    cases heq
    exact .inl ⟨rfl, hstep⟩
  · rename_i heq
    cases heq
    exact .inr ⟨rfl, hstep⟩
  · exact absurd hstep not_accepts_error

theorem items_sound {n : Nat} (hv : ReadsBack maxDepth float r n) (st : List Container) (m : Nat)
    (hm : m ≤ n) : ∀ (text : List PyChar) (us : List PyValue), text.length ≤ m →
    Accepts maxDepth float ⟨.value, .array us :: st⟩ text r →
    ∃ xs vs rest, text = xs ++ .scalar ']' :: rest ∧
      ItemsRead maxDepth float (st.length + 1) xs vs ∧
      Accepts maxDepth float ⟨.done (.list (us ++ vs)), st⟩ rest r := by
  induction m with
  | zero =>
    intro text us hlen h
    obtain rfl := List.length_eq_zero_iff.mp (Nat.le_zero.mp hlen)
    cases h
  | succ m ih =>
    intro text us hlen h
    obtain ⟨a, x, rest, v, rfl, ha, hx, hdone⟩ := hv text (.array us :: st) (Nat.le_trans hlen hm) h
    obtain ⟨b, c, rest, rfl, hb, ⟨rfl, hmore⟩ | ⟨rfl, hend⟩⟩ := after_item hdone
    · have hshort : rest.length ≤ m := by
        simp only [List.length_append, List.length_cons] at hlen
        omega
      obtain ⟨ys, vs, more, rfl, hys, hclosed⟩ := ih (Nat.le_of_succ_le hm) rest _ hshort hmore
      refine ⟨_, v :: vs, more, ?_, .cons ha hx hb hys, ?_⟩
      · simp
      · rwa [List.append_assoc, List.singleton_append] at hclosed
    · exact ⟨_, [v], rest, by simp, .last ha hx hb, hend⟩

-- between values only one character is taken, and an object may close before its first key
theorem key_step {c : PyChar} (hc : c.isJsonSpace = false)
    (h : Accepts maxDepth float (step maxDepth float ⟨.key, st⟩ c) text r) :
    c = .scalar '"' ∧ Accepts maxDepth float ⟨.string true [] false .none, st⟩ text r := by
  simp only [step, hc, Bool.false_eq_true, if_false] at h
  split at h
  case h_6 => exact ⟨rfl, h⟩
  case h_8 => exact absurd h not_accepts_error
  all_goals contradiction

theorem firstKey_step {c : PyChar} (hc : c.isJsonSpace = false)
    (h : Accepts maxDepth float (step maxDepth float ⟨.firstKey, st⟩ c) text r) :
    c = .scalar '}' ∧ Accepts maxDepth float (closeEmpty ⟨.firstKey, st⟩) text r ∨
      c = .scalar '"' ∧ Accepts maxDepth float ⟨.string true [] false .none, st⟩ text r := by
  simp only [step, hc, Bool.false_eq_true, if_false] at h
  split at h
  case h_4 => exact .inl ⟨rfl, h⟩
  case h_5 => exact .inr ⟨rfl, h⟩
  case h_8 => exact absurd h not_accepts_error
  all_goals contradiction

theorem colon_step {c : PyChar} (hc : c.isJsonSpace = false)
    (h : Accepts maxDepth float (step maxDepth float ⟨.colon, st⟩ c) text r) :
    c = .scalar ':' ∧ Accepts maxDepth float ⟨.value, st⟩ text r := by
  simp only [step, hc, Bool.false_eq_true, if_false] at h
  split at h
  case h_7 => exact ⟨rfl, h⟩
  case h_8 => exact absurd h not_accepts_error
  all_goals contradiction

theorem firstValue_step {c : PyChar} (hc : c.isJsonSpace = false)
    (h : Accepts maxDepth float (step maxDepth float ⟨.firstValue, st⟩ c) text r) :
    c = .scalar ']' ∧ Accepts maxDepth float (closeEmpty ⟨.firstValue, st⟩) text r ∨
      Accepts maxDepth float (step maxDepth float ⟨.value, st⟩ c) text r := by
  by_cases hclose : c = .scalar ']'
  · subst hclose
    exact .inl ⟨rfl, h⟩
  · rw [step_firstValue hc hclose] at h
    exact .inr h

theorem members_sound {n : Nat} (hv : ReadsBack maxDepth float r n) (st : List Container) (m : Nat)
    (hm : m ≤ n) : ∀ (text : List PyChar) (items : List (PyKey × PyValue)) (key : PyStr),
    text.length ≤ m → Accepts maxDepth float ⟨.key, .object items key :: st⟩ text r →
    ∃ xs new rest, text = xs ++ .scalar '}' :: rest ∧
      MembersRead maxDepth float (st.length + 1) xs new ∧
      Accepts maxDepth float ⟨.done (closeObject (items ++ new)), st⟩ rest r := by
  induction m with
  | zero =>
    intro text items key hlen h
    obtain rfl := List.length_eq_zero_iff.mp (Nat.le_zero.mp hlen)
    cases h
  | succ m ih =>
    intro text items key hlen h
    obtain ⟨a, c, rest, rfl, ha, hc, hstep⟩ := h.token rfl (fun hn => by cases hn)
    obtain ⟨rfl, hbody⟩ := key_step hc hstep
    obtain ⟨k, res, high, rest, rfl, hk, hname⟩ := body_sound rest [] false hbody
    have hcolon : Accepts maxDepth float ⟨.colon, .object items ⟨res⟩ :: st⟩ rest r := hname
    obtain ⟨b, c, rest, rfl, hb, hc, hstep⟩ := hcolon.token rfl (fun hn => by cases hn)
    obtain ⟨rfl, hvalue⟩ := colon_step hc hstep
    have hlong : rest.length ≤ m := by
      simp only [List.length_append, List.length_cons] at hlen
      omega
    obtain ⟨c, x, rest, v, rfl, hc, hx, hdone⟩ := hv rest (.object items ⟨res⟩ :: st) (by omega) hvalue
    obtain ⟨d, e, rest, rfl, hd, ⟨rfl, hmore⟩ | ⟨rfl, hend⟩⟩ := after_member hdone
    · have hshort : rest.length ≤ m := by
        simp only [List.length_append, List.length_cons] at hlong
        omega
      obtain ⟨ys, new, more, rfl, hys, hclosed⟩ :=
        ih (Nat.le_of_succ_le hm) rest _ ⟨[]⟩ hshort hmore
      refine ⟨_, (.str ⟨res⟩, v) :: new, more, ?_, .cons ha hk hb hc hx hd hys, ?_⟩
      · simp
      · rwa [List.append_assoc, List.singleton_append] at hclosed
    · exact ⟨_, [(.str ⟨res⟩, v)], rest, by simp, .last ha hk hb hc hx hd, hend⟩

-- the value a text begins with, under a stack that has room for it
theorem start_sound {n : Nat} (hv : ReadsBack maxDepth float r n) {c : PyChar} {rest : List PyChar}
    (hlen : rest.length ≤ n) (hc : c.isJsonSpace = false)
    (h : Accepts maxDepth float (startValue maxDepth ⟨.value, st⟩ c) rest r) :
    ∃ x more v, c :: rest = x ++ more ∧ ValueReads maxDepth float st.length x v ∧
      Accepts maxDepth float ⟨.done v, st⟩ more r := by
  have literal {x : String} {v : PyValue} {d : Char} {ds : List Char} (hx : (x, v) ∈ literalValues)
      (hd : x.toList = d :: ds) (hne : ds ≠ [])
      (h : Accepts maxDepth float ⟨.literal ds v, st⟩ rest r) :
      ∃ x more v, .scalar d :: rest = x ++ more ∧ ValueReads maxDepth float st.length x v ∧
        Accepts maxDepth float ⟨.done v, st⟩ more r := by
    obtain ⟨more, rfl, hmore⟩ := literal_sound hne h
    refine ⟨(PyStr.ofString x).chars, more, v, ?_, .literal hx, hmore⟩
    rw [PyStr.ofString, hd]
    rfl
  have hnone : Shape .sign [] := rfl
  have hunsigned : Sign [] := .inl rfl
  unfold startValue at h
  split at h
  case h_1 =>
    obtain ⟨cs, res, high, more, rfl, hbody, hend⟩ := body_sound rest [] false h
    exact ⟨_, more, _, by simp, .string hbody, hend⟩
  case h_2 =>
    rw [openContainer] at h
    split at h
    · rename_i hn
      obtain ⟨a, d, rest, rfl, ha, hd, hstep⟩ := h.token rfl (fun hn => by cases hn)
      rcases firstKey_step hd hstep with ⟨rfl, hclose⟩ | ⟨rfl, hkey⟩
      · exact ⟨_, rest, _, by simp, .emptyObject hn ha, hclose⟩
      · have hmembers : Accepts maxDepth float ⟨.key, .object [] ⟨[]⟩ :: st⟩
            (a ++ .scalar '"' :: rest) r := (accepts_spaces rfl ha).mpr hkey
        obtain ⟨xs, new, more, hx, hnew, hclosed⟩ :=
          members_sound hv st n (Nat.le_refl n) _ [] ⟨[]⟩ hlen hmembers
        exact ⟨_, more, _, by rw [hx]; simp, .object hn hnew, hclosed⟩
    · exact absurd h not_accepts_error
  case h_3 =>
    rw [openContainer] at h
    split at h
    · rename_i hn
      obtain ⟨a, d, rest, rfl, ha, hd, hstep⟩ := h.token rfl (fun hn => by cases hn)
      rcases firstValue_step hd hstep with ⟨rfl, hclose⟩ | hfirst
      · exact ⟨_, rest, _, by simp, .emptyArray hn ha, hclose⟩
      · have hitems : Accepts maxDepth float ⟨.value, .array [] :: st⟩ (a ++ d :: rest) r :=
          (accepts_spaces rfl ha).mpr hfirst
        obtain ⟨xs, vs, more, hx, hvs, hclosed⟩ :=
          items_sound hv st n (Nat.le_refl n) _ [] hlen hitems
        exact ⟨_, more, _, by rw [hx]; simp, .array hn hvs, hclosed⟩
    · exact absurd h not_accepts_error
  case h_4 =>
    rcases number_sound h with ⟨ds, part, more, v, rfl, hrun, hend, hdone⟩ | ⟨more, _, rfl, hrest⟩
    · have hshape := shape_run hnone hrun
      exact ⟨_, more, v, rfl, .number (shape_reads (.inr rfl) hshape hend), hdone⟩
    · obtain ⟨more, rfl, hmore⟩ := literal_sound (by decide) hrest
      exact ⟨(PyStr.ofString "-Infinity").chars, more, _, rfl, .literal (by decide), hmore⟩
  case h_5 => exact literal (x := "null") (by decide) rfl (by decide) h
  case h_6 => exact literal (x := "true") (by decide) rfl (by decide) h
  case h_7 => exact literal (x := "false") (by decide) rfl (by decide) h
  case h_8 => exact literal (x := "NaN") (by decide) rfl (by decide) h
  case h_9 => exact literal (x := "Infinity") (by decide) rfl (by decide) h
  case h_10 =>
    split at h
    · rename_i d part hn
      cases c with
      | surrogate _ => cases hn
      | scalar c =>
        obtain ⟨p, hp, he⟩ := Option.map_eq_some_iff.mp hn
        cases he
        rcases number_sound h with ⟨ds, part', more, v, rfl, hrun, hend, hdone⟩ | ⟨_, hsign, _⟩
        · have hshape := shape_run (Shape.next hnone hp) hrun
          exact ⟨_, more, v, rfl, .number (shape_reads hunsigned hshape hend), hdone⟩
        · rw [hsign] at hp
          exact absurd hp next_not_sign
    · exact absurd h not_accepts_error

theorem value_sound (n : Nat) : ReadsBack maxDepth float r n := by
  induction n with
  | zero =>
    intro text st hlen h
    obtain rfl := List.length_eq_zero_iff.mp (Nat.le_zero.mp hlen)
    cases h
  | succ n ih =>
    intro text st hlen h
    obtain ⟨a, c, rest, rfl, ha, hc, hstep⟩ := h.token rfl (fun hn => by cases hn)
    have hshort : rest.length ≤ n := by
      simp only [List.length_append, List.length_cons] at hlen
      omega
    have hstart : step maxDepth float ⟨.value, st⟩ c = startValue maxDepth ⟨.value, st⟩ c := by
      simp only [step, hc, Bool.false_eq_true, if_false]
    rw [hstart] at hstep
    obtain ⟨x, more, v, hx, hreads, hdone⟩ := start_sound ih hshort hc hstep
    exact ⟨a, x, more, v, by rw [hx], ha, hreads, hdone⟩

end Values

end Decoder

section Exact

variable {maxDepth : Nat} {float : List Char → PyFloat} {text : List PyChar} {v : PyValue}

-- `json.loads` accepts the texts of values between spaces, and nothing else
theorem decode_ok_iff : decode maxDepth float text = .ok v ↔
    ∃ a x b, text = a ++ (x ++ b) ∧ Spaces a ∧ Decoder.ValueReads maxDepth float 0 x v ∧
      Spaces b := by
  constructor
  · intro h
    obtain ⟨a, x, rest, v', rfl, ha, hx, hdone⟩ :=
      Decoder.value_sound text.length text [] (Nat.le_refl _) h
    rw [Decoder.Accepts, Decoder.run_rest] at hdone
    split at hdone
    · rename_i hrest
      cases hdone
      exact ⟨a, x, rest, rfl, ha, hx, List.all_eq_true.mp hrest⟩
    · cases hdone
  · rintro ⟨a, x, b, rfl, ha, hx, hb⟩
    rw [decode_eq, Decoder.run_append, Decoder.run_spaces rfl ha, Decoder.run_append]
    exact (Decoder.value_run hx [] rfl).finish hb

end Exact

end DurableAgent
