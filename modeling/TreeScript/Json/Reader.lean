import TreeScript.Json.Scan

/-!
Reading one JSON value from a text, at any depth of nesting. Containers that are
still open wait in a list. Each step of the reader consumes a character.
-/
namespace TreeScript.Json

/-- An array or object that is still open: the items read so far, last one first, or
the fields read so far and the name of the field being read. -/
inductive Container where
  | array (items : List Json)
  | object (fields : Fields) (name : String)

/-- What the reader has just passed. -/
inductive Phase where
  | beforeValue
  | afterValue (value : Json)

inductive Step where
  | finished (value : Json) (rest : List Char)
  | next (phase : Phase) (stack : List Container) (rest : List Char)

/-- A value that is no container, whose first character is `c`. -/
def readScalar (c : Char) (text : List Char) : Except Fault (Json × List Char) :=
  if c = '"' then do
    let (s, rest) ← scanString "" text
    return (.string s, rest)
  else if c = '-' || c.isDigit then do
    let (numeral, rest) ← scanSigned c text
    return (.number numeral, rest)
  else if c = 'n' then do
    let rest ← scanWord "ull".toList text
    return (.null, rest)
  else if c = 't' then do
    let rest ← scanWord "rue".toList text
    return (.bool true, rest)
  else if c = 'f' then do
    let rest ← scanWord "alse".toList text
    return (.bool false, rest)
  else failAt .expectedValue (c :: text)

def openArray (stack : List Container) (text : List Char) : Except Fault Step :=
  match skipBlanks text with
  | [] => failAtEnd .endOfList
  | c :: rest =>
    if c = ']' then .ok (.next (.afterValue (.array [])) stack rest)
    else .ok (.next .beforeValue (.array [] :: stack) (c :: rest))

/-- The name of a field, with the colon after it. -/
def readName (c : Char) (text : List Char) : Except Fault (String × List Char) :=
  if c = '"' then do
    let (name, rest) ← scanString "" text
    match skipBlanks rest with
    | [] => failAtEnd .endOfObject
    | d :: rest =>
      if d = ':' then .ok (name, rest) else failAt .expectedColon (d :: rest)
  else failAt .nameNotString (c :: text)

/-- The one name of an object that stands for a number, spelled out in a string. -/
def numberName : String := "$serde_json::private::Number"

/-- How a value is described where a string is wanted. -/
def description : Json → String
  | .null => "null"
  | .bool value => if value then "boolean `true`" else "boolean `false`"
  | .number _ => "number"
  | .string _ => "string"
  | .array _ => "sequence"
  | .object _ => "map"

/-- A value whose first character is `c`, in the place of a string with a number. -/
def failUnspelled {α : Type} (c : Char) (text : List Char) : Except Fault α :=
  if c = '[' then .error (.near (.unspelled (description (.array []))) (c :: text) 0 0)
  else if c = '\x7b' then .error (.near (.unspelled (description (.object []))) (c :: text) 0 0)
  else do
    let (value, rest) ← readScalar c text
    .error (.near (.unspelled (description value)) rest 0 0)

/-- The end of an object that may hold nothing more. -/
def closeObject (text : List Char) : Except Fault (List Char) :=
  match skipBlanks text with
  | [] => failAtEnd .endOfObject
  | c :: rest =>
    if c = '\x7d' then .ok rest
    else if c = ',' then failAt .trailingComma (c :: rest)
    else failAt .trailingCharacters (c :: rest)

/-- The string with a number, and the end of the object around it. -/
def readSpelled (text : List Char) : Except Fault (String × List Char) :=
  match skipBlanks text with
  | [] => failAtEnd .endOfValue
  | c :: rest =>
    if c = '"' then do
      let (spelled, rest) ← scanString "" rest
      match scanFull spelled.toList with
      | .ok numeral => do
        let rest ← closeObject rest
        return (numeral, rest)
      | .error f => .error (.placed (f.locate spelled.toList))
    else failUnspelled c rest

def openObject (stack : List Container) (text : List Char) : Except Fault Step :=
  match skipBlanks text with
  | [] => failAtEnd .endOfObject
  | c :: rest =>
    if c = '\x7d' then .ok (.next (.afterValue (.object [])) stack rest)
    else do
      let (name, rest) ← readName c rest
      if name = numberName then do
        let (numeral, rest) ← readSpelled rest
        return .next (.afterValue (.number numeral)) stack rest
      else return .next .beforeValue (.object [] name :: stack) rest

def readValue (stack : List Container) (text : List Char) : Except Fault Step :=
  match skipBlanks text with
  | [] => failAtEnd .endOfValue
  | c :: rest =>
    if c = '[' then openArray stack rest
    else if c = '\x7b' then openObject stack rest
    else do
      let (value, rest) ← readScalar c rest
      return .next (.afterValue value) stack rest

/-- After an item of an open array. -/
def continueArray (items : List Json) (stack : List Container) (text : List Char) :
    Except Fault Step :=
  match skipBlanks text with
  | [] => failAtEnd .endOfList
  | c :: rest =>
    if c = ']' then .ok (.next (.afterValue (.array items.reverse)) stack rest)
    else if c = ',' then
      match skipBlanks rest with
      | [] => failAtEnd .endOfValue
      | d :: rest =>
        if d = ']' then failAt .trailingComma (d :: rest)
        else .ok (.next .beforeValue (.array items :: stack) (d :: rest))
    else failAt .expectedCommaOrBracket (c :: rest)

/-- After a field of an open object. -/
def continueObject (fields : Fields) (stack : List Container) (text : List Char) :
    Except Fault Step :=
  match skipBlanks text with
  | [] => failAtEnd .endOfObject
  | c :: rest =>
    if c = '\x7d' then .ok (.next (.afterValue (.object fields)) stack rest)
    else if c = ',' then
      match skipBlanks rest with
      | [] => failAtEnd .endOfValue
      | d :: rest =>
        if d = '\x7d' then failAt .trailingComma (d :: rest)
        else do
          let (name, rest) ← readName d rest
          return .next .beforeValue (.object fields name :: stack) rest
    else failAt .expectedCommaOrBrace (c :: rest)

def readStep (phase : Phase) (stack : List Container) (text : List Char) : Except Fault Step :=
  match phase, stack with
  | .beforeValue, stack => readValue stack text
  | .afterValue value, [] => .ok (.finished value text)
  | .afterValue value, .array items :: stack => continueArray (value :: items) stack text
  | .afterValue value, .object fields name :: stack =>
    continueObject (fields.insert name value) stack text

theorem readScalar_length {c : Char} {text rest : List Char} {value : Json}
    (h : readScalar c text = .ok (value, rest)) : rest.length ≤ text.length := by
  unfold readScalar at h
  split at h
  · obtain ⟨p, hp, h⟩ := Checks.bind_eq_ok.mp h
    cases h
    exact Nat.le_of_lt (scanString_length hp)
  · split at h
    · obtain ⟨p, hp, h⟩ := Checks.bind_eq_ok.mp h
      cases h
      exact scanSigned_length hp
    · have word {w : List Char} {v : Json}
          (h : (scanWord w text >>= fun r => pure (v, r)) = Except.ok (value, rest)) :
          rest.length ≤ text.length := by
        obtain ⟨p, hp, h⟩ := Checks.bind_eq_ok.mp h
        cases h
        exact scanWord_length hp
      split at h
      · exact word h
      · split at h
        · exact word h
        · split at h
          · exact word h
          · cases h

theorem skipBlanks_cons_length {text rest : List Char} {c : Char}
    (h : skipBlanks text = c :: rest) : rest.length < text.length := by
  have := length_skipBlanks_le text
  rw [h] at this
  exact this

theorem openArray_length {stack stack' : List Container} {text rest : List Char} {phase : Phase}
    (h : openArray stack text = .ok (.next phase stack' rest)) :
    rest.length ≤ text.length := by
  unfold openArray at h
  split at h
  · cases h
  · rename_i c r hr
    have := skipBlanks_cons_length hr
    split at h
    · cases h
      omega
    · cases h
      simp
      omega

theorem readName_length {c : Char} {text rest : List Char} {name : String}
    (h : readName c text = .ok (name, rest)) : rest.length < text.length := by
  unfold readName at h
  split at h
  · obtain ⟨p, hp, h⟩ := Checks.bind_eq_ok.mp h
    have := scanString_length hp
    dsimp only at h
    split at h
    · cases h
    · rename_i d r hr
      have := skipBlanks_cons_length hr
      split at h
      · cases h
        omega
      · cases h
  · cases h

theorem closeObject_length {text rest : List Char} (h : closeObject text = .ok rest) :
    rest.length < text.length := by
  unfold closeObject at h
  split at h
  · cases h
  · rename_i c r hr
    split at h
    · cases h
      exact skipBlanks_cons_length hr
    · split at h <;> cases h

theorem failUnspelled_ne_ok {α : Type} {c : Char} {text : List Char} {a : α} :
    failUnspelled c text ≠ .ok a := by
  intro h
  unfold failUnspelled at h
  split at h
  · cases h
  · split at h
    · cases h
    · obtain ⟨p, -, h⟩ := Checks.bind_eq_ok.mp h
      cases h

theorem readSpelled_length {text rest : List Char} {numeral : String}
    (h : readSpelled text = .ok (numeral, rest)) : rest.length < text.length := by
  unfold readSpelled at h
  split at h
  · cases h
  · rename_i c r hr
    have := skipBlanks_cons_length hr
    split at h
    · obtain ⟨p, hp, h⟩ := Checks.bind_eq_ok.mp h
      have := scanString_length hp
      dsimp only at h
      split at h
      · obtain ⟨q, hq, h⟩ := Checks.bind_eq_ok.mp h
        have := closeObject_length hq
        cases h
        omega
      · cases h
    · cases failUnspelled_ne_ok h

theorem openObject_length {stack stack' : List Container} {text rest : List Char}
    {phase : Phase} (h : openObject stack text = .ok (.next phase stack' rest)) :
    rest.length ≤ text.length := by
  unfold openObject at h
  split at h
  · cases h
  · rename_i c r hr
    have := skipBlanks_cons_length hr
    split at h
    · cases h
      omega
    · obtain ⟨p, hp, h⟩ := Checks.bind_eq_ok.mp h
      have := readName_length hp
      dsimp only at h
      split at h
      · obtain ⟨q, hq, h⟩ := Checks.bind_eq_ok.mp h
        have := readSpelled_length hq
        cases h
        omega
      · cases h
        omega

theorem readValue_length {stack stack' : List Container} {text rest : List Char} {phase : Phase}
    (h : readValue stack text = .ok (.next phase stack' rest)) : rest.length < text.length := by
  unfold readValue at h
  split at h
  · cases h
  · rename_i c r hr
    have := skipBlanks_cons_length hr
    split at h
    · have := openArray_length h
      omega
    · split at h
      · have := openObject_length h
        omega
      · obtain ⟨p, hp, h⟩ := Checks.bind_eq_ok.mp h
        cases h
        have := readScalar_length hp
        omega

theorem continueArray_length {items : List Json} {stack stack' : List Container}
    {text rest : List Char} {phase : Phase}
    (h : continueArray items stack text = .ok (.next phase stack' rest)) :
    rest.length < text.length := by
  unfold continueArray at h
  split at h
  · cases h
  · rename_i c r hr
    have := skipBlanks_cons_length hr
    split at h
    · cases h
      omega
    · split at h
      · split at h
        · cases h
        · rename_i d r' hr'
          have := skipBlanks_cons_length hr'
          split at h
          · cases h
          · cases h
            simp
            omega
      · cases h

theorem continueObject_length {fields : Fields} {stack stack' : List Container}
    {text rest : List Char} {phase : Phase}
    (h : continueObject fields stack text = .ok (.next phase stack' rest)) :
    rest.length < text.length := by
  unfold continueObject at h
  split at h
  · cases h
  · rename_i c r hr
    have := skipBlanks_cons_length hr
    split at h
    · cases h
      omega
    · split at h
      · split at h
        · cases h
        · rename_i d r' hr'
          have := skipBlanks_cons_length hr'
          split at h
          · cases h
          · obtain ⟨p, hp, h⟩ := Checks.bind_eq_ok.mp h
            have := readName_length hp
            cases h
            omega
      · cases h

theorem readStep_length {phase phase' : Phase} {stack stack' : List Container}
    {text rest : List Char} (h : readStep phase stack text = .ok (.next phase' stack' rest)) :
    rest.length < text.length := by
  unfold readStep at h
  split at h
  · exact readValue_length h
  · cases h
  · exact continueArray_length h
  · exact continueObject_length h

/-- Reads on until the outermost value ends. -/
def readFrom (phase : Phase) (stack : List Container) (text : List Char) :
    Except Fault (Json × List Char) :=
  match h : readStep phase stack text with
  | .error f => .error f
  | .ok (.finished value rest) => .ok (value, rest)
  | .ok (.next phase' stack' rest) =>
    have := readStep_length h
    readFrom phase' stack' rest
termination_by text.length

/-- A whole text that holds one value and blanks around it. -/
def readAll (text : List Char) : Except Fault Json := do
  let (value, rest) ← readFrom .beforeValue [] text
  match skipBlanks rest with
  | [] => return value
  | c :: rest => failAt .trailingCharacters (c :: rest)

def parse (text : String) : Except SyntaxError Json :=
  let chars := text.toList
  match readAll chars with
  | .ok value => .ok value
  | .error f => .error (f.locate chars)

end TreeScript.Json
