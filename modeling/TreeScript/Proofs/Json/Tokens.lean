import Mathlib.Data.List.Basic
import TreeScript.Json.Compact
import TreeScript.Json.Scan

/-!
Strings as they are written, read again. A string between its quotes is what the scanner finds,
whatever follows; there are no control characters in it.
-/
namespace TreeScript.Json

/-- The characters of a string between its quotes. -/
def escaped (cs : List Char) : List Char := cs.flatMap fun c => (escape c).toList

theorem toList_foldl_escape (cs : List Char) (out : String) :
    (cs.foldl (fun out c => out ++ escape c) out).toList = out.toList ++ escaped cs := by
  induction cs generalizing out with
  | nil => simp [escaped]
  | cons c cs ih => simp [ih, escaped]

theorem toList_quote (s : String) : (quote s).toList = '"' :: (escaped s.toList ++ ['"']) := by
  simp [quote, toList_foldl_escape]

section Strings

theorem hexValue?_hexDigit : ∀ n < 16, hexValue? (hexDigit n) = some n := by decide

theorem scanString_close (out : String) (rest : List Char) :
    scanString out ('"' :: rest) = .ok (out, rest) := by
  rw [scanString]
  simp

theorem scanString_plain (out : String) {c : Char} (rest : List Char) (hquote : c ≠ '"')
    (hslash : c ≠ '\\') (hc : 0x20 ≤ c.toNat) :
    scanString out (c :: rest) = scanString (out.push c) rest := by
  have hle : ¬ c.toNat < 0x20 := by omega
  rw [scanString]
  simp [hquote, hslash, hle]

theorem scanString_escape_of_ok (out : String) {text rest : List Char} {c : Char}
    (h : scanEscape text = .ok (c, rest)) :
    scanString out ('\\' :: text) = scanString (out.push c) rest := by
  rw [scanString]
  simp only [Char.reduceEq, ↓reduceIte]
  split
  · rename_i d r hd
    cases hd.symm.trans h
    rfl
  · rename_i f hf
    cases hf.symm.trans h

/-- The hexadecimal escape of a control character. -/
theorem scanEscape_control {c : Char} (hc : c.toNat < 0x20) (rest : List Char) :
    scanEscape ('u' :: '0' :: '0' :: hexDigit (c.toNat / 16) :: hexDigit (c.toNat % 16) :: rest) =
      .ok (c, rest) := by
  have hhigh := hexValue?_hexDigit (c.toNat / 16) (by omega)
  have hlow := hexValue?_hexDigit (c.toNat % 16) (by omega)
  have hzero : hexValue? '0' = some 0 := by decide
  have hfour : hex4? '0' '0' (hexDigit (c.toNat / 16)) (hexDigit (c.toNat % 16)) =
      some c.toNat := by
    simp only [hex4?, hzero, hhigh, hlow, Option.bind_eq_bind, Option.bind_some]
    simp only [Option.pure_def, Option.some.injEq]
    omega
  have hsmall : isLowSurrogate c.toNat = false ∧ isHighSurrogate c.toNat = false := by
    simp [isLowSurrogate, isHighSurrogate]
    omega
  simp [scanEscape, scanCodePoint, scanHex4, hfour, hsmall, bind, Except.bind, pure, Except.pure]

/-- How a character is written in a string. -/
inductive Spelled (c : Char) : List Char → Prop where
  | letter {d : Char} : d ≠ 'u' → unescape? d = some c → 0x20 ≤ d.toNat → Spelled c ['\\', d]
  | control : c.toNat < 0x20 →
    Spelled c ['\\', 'u', '0', '0', hexDigit (c.toNat / 16), hexDigit (c.toNat % 16)]
  | plain : c ≠ '"' → c ≠ '\\' → 0x20 ≤ c.toNat → Spelled c [c]

theorem spelled_escape (c : Char) : Spelled c (escape c).toList := by
  unfold escape
  split
  · subst c
    exact .letter (by decide) rfl (by decide)
  split
  · subst c
    exact .letter (by decide) rfl (by decide)
  split
  · subst c
    exact .letter (by decide) rfl (by decide)
  split
  · subst c
    exact .letter (by decide) rfl (by decide)
  split
  · subst c
    exact .letter (by decide) rfl (by decide)
  split
  · subst c
    exact .letter (by decide) rfl (by decide)
  split
  · subst c
    exact .letter (by decide) rfl (by decide)
  split
  · rename_i hc
    rw [String.toList_ofList]
    exact .control hc
  · rename_i hquote hslash _ _ _ _ _ hc
    rw [Char.toString_eq_singleton, String.toList_singleton]
    exact .plain hquote hslash (Nat.le_of_not_lt hc)

/-- What is written for a character is read as this character. -/
theorem scanString_escape (out : String) (c : Char) (rest : List Char) :
    scanString out ((escape c).toList ++ rest) = scanString (out.push c) rest := by
  have hspelled := spelled_escape c
  generalize (escape c).toList = text at hspelled ⊢
  cases hspelled with
  | letter hletter hc _ =>
    exact scanString_escape_of_ok out (by simp [scanEscape, hletter, hc])
  | control hc => exact scanString_escape_of_ok out (scanEscape_control hc rest)
  | plain hquote hslash hc => exact scanString_plain out rest hquote hslash hc

theorem scanString_escaped (out : String) (cs rest : List Char) :
    scanString out (escaped cs ++ '"' :: rest) = .ok (out ++ String.ofList cs, rest) := by
  induction cs generalizing out with
  | nil => simpa [escaped] using scanString_close out rest
  | cons c cs ih =>
    have hcons : escaped (c :: cs) = (escape c).toList ++ escaped cs := rfl
    have happend : out.push c ++ String.ofList cs = out ++ String.ofList (c :: cs) := by
      apply String.toList_injective
      simp
    rw [hcons, List.append_assoc, scanString_escape, ih, happend]

theorem scanString_quote (s : String) (rest : List Char) :
    scanString "" (escaped s.toList ++ '"' :: rest) = .ok (s, rest) := by
  rw [scanString_escaped, String.ofList_toList, String.empty_append]

/-- No control character is written, whatever the string. -/
theorem le_toNat_of_mem_escaped {cs : List Char} {d : Char} (h : d ∈ escaped cs) :
    0x20 ≤ d.toNat := by
  obtain ⟨c, -, hd⟩ := List.mem_flatMap.mp h
  have hspelled := spelled_escape c
  generalize (escape c).toList = text at hspelled hd
  cases hspelled with
  | letter _ _ hletter =>
    rcases List.mem_pair.mp hd with rfl | rfl
    · decide
    · exact hletter
  | control hc =>
    have hdigits : ∀ n < 16, 0x20 ≤ (hexDigit n).toNat := by decide
    have hhigh := hdigits (c.toNat / 16) (by omega)
    have hlow := hdigits (c.toNat % 16) (by omega)
    simp only [List.mem_cons, List.not_mem_nil, or_false] at hd
    rcases hd with rfl | rfl | rfl | rfl | rfl | rfl
    · decide
    · decide
    · decide
    · decide
    · exact hhigh
    · exact hlow
  | plain _ _ hc => exact List.mem_singleton.mp hd ▸ hc

end Strings

end TreeScript.Json
