import TreeScript.Text.Decimal

/-!
Numerals: what digits in a row denote, said by how they are put together. Main statements:
a text is read as a number exactly when it is a numeral of that number, and as an integer
exactly when it is one after an optional minus sign.
-/
namespace TreeScript.Decimal

/-- Digits in a row and the number they denote. -/
inductive Numeral : List Char → Nat → Prop where
  | digit {c : Char} : c.isDigit = true → Numeral [c] (c.toNat - '0'.toNat)
  | snoc {text : List Char} {n : Nat} {c : Char} :
      Numeral text n → c.isDigit = true → Numeral (text ++ [c]) (10 * n + (c.toNat - '0'.toNat))

/-- A numeral, or the opposite of one after a minus sign. -/
inductive SignedNumeral : List Char → Int → Prop where
  | plain {text : List Char} {n : Nat} : Numeral text n → SignedNumeral text n
  | minus {text : List Char} {n : Nat} : Numeral text n → SignedNumeral ('-' :: text) (-n)

theorem Numeral.append {text digits : List Char} {n : Nat} (h : Numeral text n)
    (hdigits : ∀ c ∈ digits, c.isDigit = true) :
    Numeral (text ++ digits) (Nat.ofDigitChars 10 digits n) := by
  induction digits generalizing text n with
  | nil =>
    rw [List.append_nil]
    exact h
  | cons c digits ih =>
    have hc : Numeral (text ++ [c]) (10 * n + (c.toNat - '0'.toNat)) :=
      h.snoc (hdigits c List.mem_cons_self)
    have hrest := ih hc fun d hd => hdigits d (List.mem_cons_of_mem c hd)
    rw [List.append_assoc] at hrest
    exact hrest

/-- A numeral is a row of digits, and read from the left it is its number. -/
theorem Numeral.reads {text : List Char} {n : Nat} (h : Numeral text n) :
    text ≠ [] ∧ (∀ c ∈ text, c.isDigit = true) ∧ Nat.ofDigitChars 10 text 0 = n := by
  induction h with
  | digit hc => exact ⟨by simp, by simpa using hc, by simp [Nat.ofDigitChars_cons]⟩
  | snoc _ hc ih =>
    obtain ⟨-, hall, rfl⟩ := ih
    refine ⟨by simp, ?_, by simp [Nat.ofDigitChars_append, Nat.ofDigitChars_cons]⟩
    intro d hd
    rcases List.mem_append.mp hd with hd | hd
    · exact hall d hd
    · exact List.mem_singleton.mp hd ▸ hc

theorem nat?_eq_some_iff {text : List Char} {n : Nat} : nat? text = some n ↔ Numeral text n := by
  constructor
  · intro h
    unfold nat? at h
    split at h
    · cases h
    · rename_i hne
      split at h
      · rename_i hall
        cases h
        cases text with
        | nil => exact absurd rfl hne
        | cons c digits =>
          have hall := List.all_eq_true.mp hall
          have hc : Numeral [c] (10 * 0 + (c.toNat - '0'.toNat)) := by
            simpa using Numeral.digit (hall c List.mem_cons_self)
          exact hc.append fun d hd => hall d (List.mem_cons_of_mem c hd)
      · cases h
  · intro h
    obtain ⟨hne, hall, rfl⟩ := h.reads
    simp [nat?, hne, List.all_eq_true.mpr hall]

theorem int?_eq_some_iff {text : List Char} {n : Int} :
    int? text = some n ↔ SignedNumeral text n := by
  constructor
  · intro h
    unfold int? at h
    split at h
    · obtain ⟨_, hm, rfl⟩ := Option.map_eq_some_iff.mp h
      obtain ⟨m, hnat, hcast⟩ := Option.bind_eq_some_iff.mp hm
      cases hcast
      exact .minus (nat?_eq_some_iff.mp hnat)
    · obtain ⟨_, hm, rfl⟩ := Option.map_eq_some_iff.mp h
      obtain ⟨m, hnat, hcast⟩ := Option.bind_eq_some_iff.mp hm
      cases hcast
      exact .plain (nat?_eq_some_iff.mp hnat)
  · intro h
    cases h with
    | plain hm => exact int?_of_nat? (nat?_eq_some_iff.mpr hm)
    | minus hm => simp [int?, nat?_eq_some_iff.mpr hm]

theorem numeral_ofNat (n : Nat) : Numeral (ofNat n).toList n := nat?_eq_some_iff.mp (nat?_ofNat n)

theorem signedNumeral_ofInt (n : Int) : SignedNumeral (ofInt n).toList n :=
  int?_eq_some_iff.mp (int?_ofInt n)

end TreeScript.Decimal
