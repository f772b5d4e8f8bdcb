import Mathlib.Data.List.Basic
import TreeScript.Json.Scan
import TreeScript.Proofs.Text.Numeral

/-!
Numbers as JSON writes them: an integer literal, then a fraction and an exponent, either of which
may be missing. The scanners find each part, whatever follows the number. Main statements: a number
is kept as it is written, but for the spelling of its exponent; and a literal is the text of the
integer that it denotes, unless it is a minus zero.
-/
namespace TreeScript.Json

section Grammar

/-- Digits without a superfluous zero in front. -/
inductive Whole : List Char → Prop where
  | zero : Whole ['0']
  | digits {c : Char} {cs : List Char} : c ≠ '0' → (∀ d ∈ c :: cs, d.isDigit = true) →
    Whole (c :: cs)

inductive Literal : List Char → Prop where
  | plain {text : List Char} : Whole text → Literal text
  | minus {text : List Char} : Whole text → Literal ('-' :: text)

def Digits (text : List Char) : Prop := text ≠ [] ∧ ∀ c ∈ text, c.isDigit = true

inductive Fraction : List Char → Prop where
  | none : Fraction []
  | point {digits : List Char} : Digits digits → Fraction ('.' :: digits)

/-- An exponent and what is kept of it: its letter is small, and its sign is written. -/
inductive Exponent : List Char → List Char → Prop where
  | none : Exponent [] []
  | unsigned {mark : Char} {digits : List Char} : mark = 'e' ∨ mark = 'E' → Digits digits →
    Exponent (mark :: digits) ('e' :: '+' :: digits)
  | signed {mark sign : Char} {digits : List Char} : mark = 'e' ∨ mark = 'E' →
    sign = '+' ∨ sign = '-' → Digits digits →
    Exponent (mark :: sign :: digits) ('e' :: sign :: digits)

/-- A number with a fraction, an exponent or both, and what is kept of it. -/
inductive Scaled : List Char → List Char → Prop where
  | mk {text fraction exponent kept : List Char} : Literal text → Fraction fraction →
    Exponent exponent kept → fraction ≠ [] ∨ exponent ≠ [] →
    Scaled (text ++ (fraction ++ exponent)) (text ++ (fraction ++ kept))

/-- A number and what is kept of it. -/
inductive NumberText : List Char → List Char → Prop where
  | integer {text : List Char} : Literal text → NumberText text text
  | scaled {written kept : List Char} : Scaled written kept → NumberText written kept

end Grammar

section Scanning
variable {text fraction exponent kept rest : List Char}

/-- No digit stands at the start of the text. -/
def EndsDigits (text : List Char) : Prop := ∀ c ∈ text.head?, c.isDigit = false

/-- Nothing that could belong to a fraction stands at the start of the text. -/
def EndsFraction (text : List Char) : Prop := ∀ c ∈ text.head?, c.isDigit = false ∧ c ≠ '.'

/-- Nothing that could belong to a number stands at the start of the text. -/
def EndsNumber (text : List Char) : Prop :=
  ∀ c ∈ text.head?, c.isDigit = false ∧ c ≠ '.' ∧ c ≠ 'e' ∧ c ≠ 'E'

theorem EndsFraction.endsDigits (h : EndsFraction rest) : EndsDigits rest := fun c hc => (h c hc).1

theorem EndsNumber.endsDigits (h : EndsNumber rest) : EndsDigits rest := fun c hc => (h c hc).1

theorem Fraction.endsDigits (h : Fraction fraction) (hrest : EndsFraction rest) :
    EndsDigits (fraction ++ rest) := by
  cases h with
  | none => exact hrest.endsDigits
  | point _ =>
    rintro _ ⟨⟩
    rfl

theorem Exponent.endsFraction (h : Exponent exponent kept) (hrest : EndsNumber rest) :
    EndsFraction (exponent ++ rest) := by
  have hmark {mark : Char} {text : List Char} (h : mark = 'e' ∨ mark = 'E') :
      EndsFraction (mark :: text) := by
    rintro _ ⟨⟩
    rcases h with rfl | rfl <;> decide
  cases h with
  | none => exact fun c hc => ⟨(hrest c hc).1, (hrest c hc).2.1⟩
  | unsigned h | signed h => exact hmark h

theorem Digits.scan (h : Digits text) (hrest : EndsDigits rest) (taken : Nat) :
    scanDigits taken (text ++ rest) = .ok (String.ofList text, rest) := by
  have htake : rest.takeWhile Char.isDigit = [] := by
    cases rest with
    | nil => rfl
    | cons c rest => simp [hrest c rfl]
  have hdrop : rest.dropWhile Char.isDigit = rest := by
    cases rest with
    | nil => rfl
    | cons c rest => simp [hrest c rfl]
  obtain ⟨hne, hdigits⟩ := h
  obtain ⟨c, cs, rfl⟩ := List.exists_cons_of_ne_nil hne
  have hc : c.isDigit = true := hdigits c List.mem_cons_self
  have hall : ((c :: cs) ++ rest).takeWhile Char.isDigit = c :: cs := by
    rw [List.takeWhile_append_of_pos hdigits, htake, List.append_nil]
  have hnone : ((c :: cs) ++ rest).dropWhile Char.isDigit = rest := by
    rw [List.dropWhile_append_of_pos hdigits, hdrop]
  rw [List.cons_append] at hall hnone ⊢
  simp only [scanDigits, hc, if_true, hall, hnone]

theorem Whole.scan (h : Whole text) (hrest : EndsDigits rest) :
    scanWhole (text ++ rest) = .ok (String.ofList text, rest) := by
  cases h with
  | zero =>
    cases rest with
    | nil => rfl
    | cons c rest => simp [scanWhole, hrest c rfl]
  | @digits c cs hc hdigits =>
    have hscan := Digits.scan ⟨List.cons_ne_nil c cs, hdigits⟩ hrest 1
    unfold scanWhole
    split
    · rename_i text heq
      cases heq
      exact absurd rfl hc
    · exact hscan

theorem Fraction.scan (h : Fraction fraction) (hrest : EndsFraction rest) :
    scanFraction (fraction ++ rest) = .ok (String.ofList fraction, rest) := by
  cases h with
  | none =>
    rw [List.nil_append]
    unfold scanFraction
    split
    · exact absurd rfl (hrest '.' rfl).2
    · rfl
  | @point digits hdigits =>
    have htext : "." ++ String.ofList digits = String.ofList ('.' :: digits) := by
      apply String.toList_injective
      simp
    simp only [List.cons_append, scanFraction, hdigits.scan hrest.endsDigits, bind, Except.bind,
      pure, Except.pure, htext]

/-- Digits alone have a plus for their sign. -/
theorem Digits.scanSign_eq (h : Digits text) : scanSign (text ++ rest) = ("+", text ++ rest) := by
  obtain ⟨hne, hdigits⟩ := h
  obtain ⟨c, cs, rfl⟩ := List.exists_cons_of_ne_nil hne
  have hc : c.isDigit = true := hdigits c List.mem_cons_self
  rw [List.cons_append]
  unfold scanSign
  split
  · rename_i heq
    cases heq
    cases hc
  · rename_i heq
    cases heq
    cases hc
  · rfl

theorem Exponent.scan (h : Exponent exponent kept) (hrest : EndsNumber rest) :
    scanExponent (exponent ++ rest) = .ok (String.ofList kept, rest) := by
  -- What follows the letter, whichever it is.
  have hmark {mark : Char} {text digits : List Char} {sign : Char}
      (hletter : mark = 'e' ∨ mark = 'E')
      (hsign : scanSign (text ++ rest) = (String.ofList [sign], digits ++ rest))
      (hdigits : Digits digits) :
      scanExponent (mark :: (text ++ rest)) =
        .ok (String.ofList ('e' :: sign :: digits), rest) := by
    have htext : "e" ++ String.ofList [sign] ++ String.ofList digits =
        String.ofList ('e' :: sign :: digits) := by
      apply String.toList_injective
      simp
    rcases hletter with rfl | rfl <;>
      simp only [scanExponent, hsign, hdigits.scan hrest.endsDigits, bind, Except.bind, pure,
        Except.pure, htext]
  cases h with
  | none =>
    rw [List.nil_append]
    unfold scanExponent
    split
    · exact absurd rfl (hrest 'e' rfl).2.2.1
    · exact absurd rfl (hrest 'E' rfl).2.2.2
    · rfl
  | unsigned h hdigits => exact hmark h hdigits.scanSign_eq hdigits
  | @signed mark sign digits h hsign hdigits =>
    have hscan : scanSign (sign :: digits ++ rest) = (String.ofList [sign], digits ++ rest) := by
      rcases hsign with rfl | rfl <;> rfl
    exact hmark h hscan hdigits

theorem scanNumber_append (hwhole : Whole text) (hfraction : Fraction fraction)
    (hexponent : Exponent exponent kept) (hrest : EndsNumber rest) :
    scanNumber (text ++ (fraction ++ (exponent ++ rest))) =
      .ok (String.ofList (text ++ (fraction ++ kept)), rest) := by
  have hends := hexponent.endsFraction hrest
  simp only [scanNumber, hwhole.scan (hfraction.endsDigits hends), hfraction.scan hends,
    hexponent.scan hrest, bind, Except.bind, pure, Except.pure, String.ofList_append,
    String.append_assoc]

end Scanning

section Integers
open Decimal (Numeral SignedNumeral)

theorem isDigit_of_mem_toDigits {n : Nat} {c : Char} (h : c ∈ Nat.toDigits 10 n) :
    c.isDigit = true :=
  Nat.isDigit_of_mem_toDigits (by decide) (by decide) h

theorem head?_toDigits_ne_zero {n : Nat} (hn : 0 < n) :
    ∃ c cs, Nat.toDigits 10 n = c :: cs ∧ c ≠ '0' := by
  induction n using Nat.strongRecOn with
  | ind n ih =>
    by_cases hlt : n < 10
    · have hne : ∀ k < 10, 0 < k → k.digitChar ≠ '0' := by decide
      exact ⟨n.digitChar, [], Nat.toDigits_of_lt_base hlt, hne n hlt hn⟩
    · have hle : 10 ≤ n := by omega
      obtain ⟨c, cs, hcs, hc⟩ := ih (n / 10) (by omega) (by omega)
      refine ⟨c, cs ++ [(n % 10).digitChar], ?_, hc⟩
      rw [Nat.toDigits_of_base_le (by decide) hle, hcs]
      rfl

theorem whole_toDigits (n : Nat) : Whole (Nat.toDigits 10 n) := by
  by_cases hn : n = 0
  · subst hn
    exact .zero
  · obtain ⟨c, cs, hcs, hc⟩ := head?_toDigits_ne_zero (Nat.pos_of_ne_zero hn)
    rw [hcs]
    exact .digits hc fun d hd => isDigit_of_mem_toDigits (hcs ▸ hd)

theorem literal_ofInt (n : Int) : Literal (Decimal.ofInt n).toList := by
  cases n with
  | ofNat n =>
    show Literal (Decimal.ofNat n).toList
    rw [Decimal.toList_ofNat]
    exact .plain (whole_toDigits n)
  | negSucc n =>
    have htext : (Decimal.ofInt (.negSucc n)).toList = '-' :: Nat.toDigits 10 (n + 1) := by
      simp [Decimal.ofInt, Decimal.toList_ofNat]
    rw [htext]
    exact .minus (whole_toDigits (n + 1))

theorem Whole.digits_text {text : List Char} (h : Whole text) : Digits text := by
  cases h with
  | zero => exact ⟨List.cons_ne_nil _ _, List.forall_mem_singleton.mpr rfl⟩
  | digits _ hdigits => exact ⟨List.cons_ne_nil _ _, hdigits⟩

theorem Whole.exists_eq_cons {text : List Char} (h : Whole text) :
    ∃ c cs, text = c :: cs ∧ c.isDigit = true := by
  obtain ⟨hne, hdigits⟩ := h.digits_text
  obtain ⟨c, cs, rfl⟩ := List.exists_cons_of_ne_nil hne
  exact ⟨c, cs, rfl, hdigits c List.mem_cons_self⟩

theorem Digits.exists_numeral {text : List Char} (h : Digits text) : ∃ n, Numeral text n := by
  have hread : Decimal.nat? text = some (Nat.ofDigitChars 10 text 0) := by
    simp [Decimal.nat?, h.1, List.all_eq_true.mpr h.2]
  exact ⟨_, Decimal.nat?_eq_some_iff.mp hread⟩

theorem Literal.exists_signedNumeral {text : List Char} (h : Literal text) :
    ∃ n, SignedNumeral text n := by
  cases h with
  | plain h =>
    obtain ⟨n, hn⟩ := h.digits_text.exists_numeral
    exact ⟨n, .plain hn⟩
  | minus h =>
    obtain ⟨n, hn⟩ := h.digits_text.exists_numeral
    exact ⟨-n, .minus hn⟩

/-- The value of a digit, and the digit of this value. -/
theorem digit_value {c : Char} (h : c.isDigit = true) :
    c.toNat - '0'.toNat < 10 ∧ (c.toNat - '0'.toNat).digitChar = c := by
  obtain ⟨hlow, hhigh⟩ := Char.isDigit_iff_toNat.mp h
  have hzero : '0'.toNat = 48 := rfl
  have hnine : '9'.toNat = 57 := rfl
  have hlt : c.toNat - '0'.toNat < 10 := by omega
  refine ⟨hlt, Char.toNat_inj.mp ?_⟩
  rw [Nat.toNat_digitChar_of_lt_ten hlt]
  omega

/-- Without its last digit the text is still whole, and it is not the zero. -/
theorem Whole.of_append {text : List Char} {c : Char} (h : Whole (text ++ [c])) (hne : text ≠ []) :
    Whole text ∧ text ≠ ['0'] := by
  obtain ⟨d, ds, rfl⟩ := List.exists_cons_of_ne_nil hne
  generalize htext : d :: ds ++ [c] = whole at h
  cases h with
  | zero => simp at htext
  | digits hd hdigits =>
    cases htext
    refine ⟨.digits hd fun e he => hdigits e ?_, ?_⟩
    · exact List.mem_append_left [c] he
    · rintro ⟨⟩
      exact hd rfl

/-- Digits without a superfluous zero are the digits of what they denote. -/
theorem toDigits_of_numeral {text : List Char} {n : Nat} (h : Numeral text n)
    (hwhole : Whole text) : Nat.toDigits 10 n = text := by
  induction h with
  | digit hc =>
    obtain ⟨hlt, hchar⟩ := digit_value hc
    rw [Nat.toDigits_of_lt_base hlt, hchar]
  | @snoc text n c hn hc ih =>
    obtain ⟨hlt, hchar⟩ := digit_value hc
    obtain ⟨hbefore, hnonzero⟩ := hwhole.of_append hn.reads.1
    have hdigits : Nat.toDigits 10 n = text := ih hbefore
    have hpos : 0 < n := by
      apply Nat.pos_of_ne_zero
      rintro rfl
      exact hnonzero hdigits.symm
    have happend := Nat.toDigits_append_toDigits (by decide : 1 < 10) hpos hlt
    rw [← happend, hdigits, Nat.toDigits_of_lt_base hlt, hchar]

/-- An integer is written as the literal that denotes it, but a minus zero as zero. -/
theorem ofInt_of_literal {text : List Char} {n : Int} (h : Literal text)
    (hn : SignedNumeral text n) :
    Decimal.ofInt n = if text = ['-', '0'] then "0" else String.ofList text := by
  have hwhole {m : Nat} {text : List Char} (hm : Numeral text m) (htext : Whole text) :
      Decimal.ofNat m = String.ofList text := by
    apply String.toList_injective
    rw [Decimal.toList_ofNat, String.toList_ofList, toDigits_of_numeral hm htext]
  cases h with
  | plain htext =>
    cases hn with
    | plain hm =>
      have hne : text ≠ ['-', '0'] := by
        rintro rfl
        exact absurd (htext.digits_text.2 '-' List.mem_cons_self) (by decide)
      rw [if_neg hne]
      exact hwhole hm htext
    | minus hm => exact absurd (htext.digits_text.2 '-' List.mem_cons_self) (by decide)
  | @minus text htext =>
    cases hn with
    | plain hm => exact absurd (hm.reads.2.1 '-' List.mem_cons_self) (by decide)
    | @minus _ m hm =>
      have hm' : Decimal.ofNat m = String.ofList text := hwhole hm htext
      cases m with
      | zero =>
        have hzero : text = ['0'] := (toDigits_of_numeral hm htext).symm
        rw [if_pos (congrArg (List.cons '-') hzero)]
        rfl
      | succ m =>
        have hne : text ≠ ['0'] := by
          rintro rfl
          exact Nat.succ_ne_zero m hm.reads.2.2.symm
        rw [if_neg (fun h => hne (List.cons.inj h).2)]
        show "-" ++ Decimal.ofNat (m + 1) = String.ofList ('-' :: text)
        rw [hm']
        apply String.toList_injective
        simp

/-- What is kept of a number with a fraction or an exponent is no integer. -/
theorem Scaled.int?_eq_none {written kept : List Char} (h : Scaled written kept) :
    Decimal.int? kept = none := by
  cases hread : Decimal.int? kept with
  | none => rfl
  | some n =>
    have hmark {c : Char} (hc : c ∈ kept) (hdigit : c.isDigit = false) : c = '-' := by
      cases Decimal.int?_eq_some_iff.mp hread with
      | plain hm => exact absurd (hm.reads.2.1 c hc) (by simp [hdigit])
      | minus hm =>
        rcases List.mem_cons.mp hc with rfl | hc
        · rfl
        · exact absurd (hm.reads.2.1 c hc) (by simp [hdigit])
    cases h with
    | mk _ hfraction hexponent hne =>
      cases hfraction with
      | point _ => exact absurd (hmark (c := '.') (by simp) rfl) (by decide)
      | none =>
        cases hexponent with
        | none => simp at hne
        | unsigned _ _ | signed _ _ _ => exact absurd (hmark (c := 'e') (by simp) rfl) (by decide)

theorem le_toNat_of_mem_ofInt {n : Int} {d : Char} (h : d ∈ (Decimal.ofInt n).toList) :
    0x20 ≤ d.toNat := by
  have hdigits {m : Nat} (h : d ∈ (Decimal.ofNat m).toList) : 0x20 ≤ d.toNat := by
    rw [Decimal.toList_ofNat] at h
    have hd := isDigit_of_mem_toDigits h
    have hzero : 0x20 ≤ '0'.toNat := by decide
    have hle := (Char.isDigit_iff_toNat.mp hd).1
    omega
  cases n with
  | ofNat m => exact hdigits h
  | negSucc m =>
    simp only [Decimal.ofInt, String.toList_append, List.mem_append] at h
    rcases h with h | h
    · rw [List.mem_singleton.mp h]
      decide
    · exact hdigits h

end Integers

end TreeScript.Json
