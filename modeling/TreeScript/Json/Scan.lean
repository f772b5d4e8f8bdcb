import TreeScript.Json.Basic
import TreeScript.Json.Fault
import TreeScript.Checks

/-!
The tokens of JSON text. A scanner returns what it read and the rest of the text,
which is never longer than what it was given.
-/
namespace TreeScript.Json

/-- A fault at the end of the text. -/
def failAtEnd {α : Type} (reason : Reason) : Except Fault α := .error (.near reason [] 0 0)

/-- A fault at the first character of the rest. -/
def failAt {α : Type} (reason : Reason) (rest : List Char) : Except Fault α :=
  .error (.near reason rest 0 1)

def isBlank (c : Char) : Bool := c = ' ' || c = '\n' || c = '\t' || c = '\r'

def skipBlanks (text : List Char) : List Char := text.dropWhile isBlank

def scanWord : List Char → List Char → Except Fault (List Char)
  | [], text => .ok text
  | _ :: _, [] => failAtEnd .endOfValue
  | w :: word, c :: text =>
    if c = w then scanWord word text else failAt .expectedWord (c :: text)

/-- One digit or more. Of another character `taken` bytes, one at most, are passed before
it is found wrong. -/
def scanDigits (taken : Nat) : List Char → Except Fault (String × List Char)
  | [] => failAtEnd .endOfValue
  | c :: text =>
    if c.isDigit then
      .ok (String.ofList ((c :: text).takeWhile Char.isDigit), (c :: text).dropWhile Char.isDigit)
    else .error (.near .invalidNumber (c :: text) taken (1 - taken))

/-- A zero alone, or digits that start with another one. -/
def scanWhole : List Char → Except Fault (String × List Char)
  | '0' :: text =>
    match text with
    | c :: _ => if c.isDigit then failAt .invalidNumber text else .ok ("0", text)
    | [] => .ok ("0", [])
  | text => scanDigits 1 text

def scanFraction : List Char → Except Fault (String × List Char)
  | '.' :: text => do
    let (digits, rest) ← scanDigits 0 text
    return ("." ++ digits, rest)
  | text => .ok ("", text)

/-- The sign of an exponent; one that is not written is a plus. -/
def scanSign : List Char → String × List Char
  | '+' :: text => ("+", text)
  | '-' :: text => ("-", text)
  | text => ("+", text)

def scanExponent : List Char → Except Fault (String × List Char)
  | 'e' :: text | 'E' :: text => do
    let (sign, rest) := scanSign text
    let (digits, rest) ← scanDigits 1 rest
    return ("e" ++ sign ++ digits, rest)
  | text => .ok ("", text)

/-- A number without its minus sign. -/
def scanNumber (text : List Char) : Except Fault (String × List Char) := do
  let (whole, rest) ← scanWhole text
  let (fraction, rest) ← scanFraction rest
  let (exponent, rest) ← scanExponent rest
  return (whole ++ fraction ++ exponent, rest)

/-- A number whose first character is `c`. It renders as the literal text from the
document, so a minus zero keeps its sign: an integer like any other, but no offset. -/
def scanSigned (c : Char) (text : List Char) : Except Fault (String × List Char) :=
  if c = '-' then do
    let (digits, rest) ← scanNumber text
    return ("-" ++ digits, rest)
  else scanNumber (c :: text)

/-- A number that fills a text. More text after a number, or after a fault in it, is the
fault that counts. -/
def scanFull : List Char → Except Fault String
  | [] => failAtEnd .endOfValue
  | c :: text =>
    if c = '-' || c.isDigit then
      match scanSigned c text with
      | .ok (numeral, []) => .ok numeral
      | .ok (_, rest) => failAt .invalidNumber rest
      | .error (.near reason rest taken ahead) =>
        if taken < byteLength rest then .error (.near .invalidNumber rest taken 1)
        else .error (.near reason rest taken ahead)
      | .error (.placed e) => .error (.placed e)
    else failAt .invalidNumber (c :: text)

def hexValue? (c : Char) : Option Nat :=
  if '0' ≤ c ∧ c ≤ '9' then some (c.toNat - '0'.toNat)
  else if 'a' ≤ c ∧ c ≤ 'f' then some (c.toNat - 'a'.toNat + 10)
  else if 'A' ≤ c ∧ c ≤ 'F' then some (c.toNat - 'A'.toNat + 10)
  else none

def hex4? (a b c d : Char) : Option Nat := do
  let a ← hexValue? a
  let b ← hexValue? b
  let c ← hexValue? c
  let d ← hexValue? d
  return ((a * 16 + b) * 16 + c) * 16 + d

/-- Four hexadecimal digits. Fewer than four bytes are an unfinished string, whatever
they are. -/
def scanHex4 : List Char → Except Fault (Nat × List Char)
  | a :: b :: c :: d :: text =>
    match hex4? a b c d with
    | some n => .ok (n, text)
    | none => .error (.near .invalidEscape (a :: b :: c :: d :: text) 4 0)
  | text =>
    if byteLength text < 4 then failAtEnd .endOfString
    else .error (.near .invalidEscape text 4 0)

def isHighSurrogate (n : Nat) : Bool := 0xD800 ≤ n && n ≤ 0xDBFF

def isLowSurrogate (n : Nat) : Bool := 0xDC00 ≤ n && n ≤ 0xDFFF

/-- The second half of a surrogate pair whose first half is `high`. -/
def scanLowSurrogate (high : Nat) : List Char → Except Fault (Char × List Char)
  | [] => failAtEnd .endOfString
  | '\\' :: [] => failAtEnd .endOfString
  | '\\' :: 'u' :: text => do
    let (low, rest) ← scanHex4 text
    if isLowSurrogate low then
      return (Char.ofNat (0x10000 + (high - 0xD800) * 0x400 + (low - 0xDC00)), rest)
    else .error (.near .loneSurrogate rest 0 0)
  | '\\' :: text => failAt .brokenSurrogatePair text
  | text => failAt .brokenSurrogatePair text

/-- The character of a `\u` escape. -/
def scanCodePoint (text : List Char) : Except Fault (Char × List Char) := do
  let (n, rest) ← scanHex4 text
  if isLowSurrogate n then .error (.near .loneSurrogate rest 0 0)
  else if isHighSurrogate n then scanLowSurrogate n rest
  else return (Char.ofNat n, rest)

def unescape? : Char → Option Char
  | '"' => some '"'
  | '\\' => some '\\'
  | '/' => some '/'
  | 'b' => some '\x08'
  | 'f' => some '\x0c'
  | 'n' => some '\n'
  | 'r' => some '\r'
  | 't' => some '\t'
  | _ => none

/-- The character that a backslash and what follows it stand for. -/
def scanEscape : List Char → Except Fault (Char × List Char)
  | [] => failAtEnd .endOfString
  | c :: text =>
    if c = 'u' then scanCodePoint text
    else
      match unescape? c with
      | some d => .ok (d, text)
      | none => failAt .invalidEscape (c :: text)

theorem length_skipBlanks_le (text : List Char) : (skipBlanks text).length ≤ text.length :=
  List.dropWhile_suffix isBlank |>.length_le

theorem scanWord_length {word text rest : List Char} (h : scanWord word text = .ok rest) :
    rest.length ≤ text.length := by
  fun_induction scanWord word text with
  | case1 text => cases h; exact Nat.le_refl _
  | case2 => cases h
  | case3 w word text ih => exact Nat.le_succ_of_le (ih h)
  | case4 => cases h

theorem scanDigits_length {taken : Nat} {text rest : List Char} {digits : String}
    (h : scanDigits taken text = .ok (digits, rest)) : rest.length < text.length := by
  cases text with
  | nil => cases h
  | cons c text =>
    simp only [scanDigits] at h
    split at h
    · rename_i hc
      cases h
      rw [List.dropWhile_cons_of_pos hc]
      exact Nat.lt_succ_of_le (List.dropWhile_suffix _).length_le
    · cases h

theorem scanWhole_length {text rest : List Char} {digits : String}
    (h : scanWhole text = .ok (digits, rest)) : rest.length < text.length := by
  unfold scanWhole at h
  split at h
  · split at h
    · split at h
      · cases h
      · cases h
        simp
    · cases h
      simp
  · exact scanDigits_length h

theorem scanFraction_length {text rest : List Char} {digits : String}
    (h : scanFraction text = .ok (digits, rest)) : rest.length ≤ text.length := by
  unfold scanFraction at h
  split at h
  · obtain ⟨p, hd, hp⟩ := Checks.bind_eq_ok.mp h
    cases hp
    exact Nat.le_succ_of_le (Nat.le_of_lt (scanDigits_length hd))
  · cases h
    exact Nat.le_refl _

theorem scanSign_length (text : List Char) : (scanSign text).2.length ≤ text.length := by
  unfold scanSign
  split <;> simp

theorem scanExponent_length {text rest : List Char} {digits : String}
    (h : scanExponent text = .ok (digits, rest)) : rest.length ≤ text.length := by
  have hdigits {text : List Char} {p : String × List Char}
      (hd : scanDigits 1 (scanSign text).2 = .ok p) : p.2.length ≤ text.length + 1 :=
    Nat.le_succ_of_le (Nat.le_trans (Nat.le_of_lt (scanDigits_length hd)) (scanSign_length text))
  unfold scanExponent at h
  split at h
  · obtain ⟨p, hd, hp⟩ := Checks.bind_eq_ok.mp h
    cases hp
    exact hdigits hd
  · obtain ⟨p, hd, hp⟩ := Checks.bind_eq_ok.mp h
    cases hp
    exact hdigits hd
  · cases h
    exact Nat.le_refl _

theorem scanNumber_length {text rest : List Char} {digits : String}
    (h : scanNumber text = .ok (digits, rest)) : rest.length < text.length := by
  obtain ⟨p, hp, h⟩ := Checks.bind_eq_ok.mp h
  obtain ⟨q, hq, h⟩ := Checks.bind_eq_ok.mp h
  obtain ⟨r, hr, h⟩ := Checks.bind_eq_ok.mp h
  cases h
  have := scanWhole_length hp
  have := scanFraction_length hq
  have := scanExponent_length hr
  omega

theorem scanSigned_length {c : Char} {text rest : List Char} {numeral : String}
    (h : scanSigned c text = .ok (numeral, rest)) : rest.length ≤ text.length := by
  unfold scanSigned at h
  split at h
  · obtain ⟨p, hp, h⟩ := Checks.bind_eq_ok.mp h
    cases h
    exact Nat.le_of_lt (scanNumber_length hp)
  · exact Nat.le_of_lt_succ (scanNumber_length h)

theorem scanHex4_length {text rest : List Char} {n : Nat} (h : scanHex4 text = .ok (n, rest)) :
    rest.length ≤ text.length := by
  unfold scanHex4 at h
  split at h
  · split at h
    · cases h
      simp
      omega
    · cases h
  · split at h <;> cases h

theorem scanLowSurrogate_length {high : Nat} {text rest : List Char} {c : Char}
    (h : scanLowSurrogate high text = .ok (c, rest)) : rest.length ≤ text.length := by
  unfold scanLowSurrogate at h
  split at h
  · cases h
  · cases h
  · obtain ⟨p, hp, h⟩ := Checks.bind_eq_ok.mp h
    have := scanHex4_length hp
    dsimp only at h
    split at h
    · simp only [pure, Except.pure, Except.ok.injEq, Prod.mk.injEq] at h
      obtain ⟨_, rfl⟩ := h
      simp
      omega
    · cases h
  · cases h
  · cases h

theorem scanCodePoint_length {text rest : List Char} {c : Char}
    (h : scanCodePoint text = .ok (c, rest)) : rest.length ≤ text.length := by
  obtain ⟨p, hp, h⟩ := Checks.bind_eq_ok.mp h
  have := scanHex4_length hp
  dsimp only at h
  split at h
  · cases h
  · split at h
    · exact Nat.le_trans (scanLowSurrogate_length h) this
    · cases h
      exact this

theorem scanEscape_length {text rest : List Char} {c : Char}
    (h : scanEscape text = .ok (c, rest)) : rest.length ≤ text.length := by
  cases text with
  | nil => cases h
  | cons d text =>
    simp only [scanEscape] at h
    split at h
    · exact Nat.le_succ_of_le (scanCodePoint_length h)
    · split at h
      · cases h
        exact Nat.le_succ _
      · cases h

/-- The rest of a string whose opening quote and first characters `out` are read. -/
def scanString (out : String) (text : List Char) : Except Fault (String × List Char) :=
  match text with
  | [] => failAtEnd .endOfString
  | c :: text =>
    if c = '"' then .ok (out, text)
    else if c = '\\' then
      match h : scanEscape text with
      | .ok (d, rest) =>
        have := scanEscape_length h
        scanString (out.push d) rest
      | .error f => .error f
    else if c.toNat < 0x20 then failAt .controlCharacter (c :: text)
    else scanString (out.push c) text
termination_by text.length

theorem scanString_length {out s : String} {text rest : List Char}
    (h : scanString out text = .ok (s, rest)) : rest.length < text.length := by
  fun_induction scanString out text with
  | case1 => cases h
  | case2 => cases h; exact Nat.lt_succ_self _
  | case3 out text d r hd hr hq ih =>
    exact Nat.lt_succ_of_le (Nat.le_trans (Nat.le_of_lt (ih h)) hr)
  | case4 => cases h
  | case5 => cases h
  | case6 out c text hq hb hc ih => exact Nat.lt_succ_of_lt (ih h)

end TreeScript.Json
