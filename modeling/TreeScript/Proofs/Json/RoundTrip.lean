import TreeScript.Json.Reader
import TreeScript.Proofs.Json.Numbers
import TreeScript.Proofs.Json.Tokens

/-!
Values as they are written, read again. A value whose numbers are whole and whose objects name
their fields in order is what the reader makes of its text, whatever stands around it. Main
statement: reading undoes writing on such values.
-/
namespace TreeScript.Json

namespace Fields

/-- The names increase, so each stands once. -/
def Sorted (fields : Fields) : Prop := fields.Pairwise fun f g => f.1 < g.1

theorem mem_insert {name : String} {value : Json} {fields : Fields} {f : String × Json}
    (h : f ∈ insert name value fields) : f = (name, value) ∨ f ∈ fields := by
  induction fields with
  | nil => exact .inl (List.mem_singleton.mp h)
  | cons field rest ih =>
    obtain ⟨key, other⟩ := field
    unfold insert at h
    split at h
    · rcases List.mem_cons.mp h with h | h
      · exact .inl h
      · exact .inr h
    split at h
    · rcases List.mem_cons.mp h with h | h
      · exact .inl h
      · exact .inr (List.mem_cons_of_mem _ h)
    · rcases List.mem_cons.mp h with h | h
      · exact .inr (h ▸ List.mem_cons_self)
      · exact (ih h).imp_right (List.mem_cons_of_mem _)

theorem Sorted.insert {name : String} {value : Json} {fields : Fields} (h : Sorted fields) :
    Sorted (insert name value fields) := by
  induction fields with
  | nil => exact List.pairwise_singleton _ _
  | cons field rest ih =>
    obtain ⟨key, other⟩ := field
    have hhead := (List.pairwise_cons.mp h).1
    have hrest := (List.pairwise_cons.mp h).2
    unfold Fields.insert
    split
    · rename_i hlt
      have hall : ∀ f ∈ (key, other) :: rest, name < f.1 := by
        intro f hf
        rcases List.mem_cons.mp hf with rfl | hf
        · exact hlt
        · exact String.lt_trans hlt (hhead f hf)
      exact List.pairwise_cons.mpr ⟨hall, h⟩
    split
    · rename_i heq
      subst heq
      exact List.pairwise_cons.mpr ⟨hhead, hrest⟩
    · rename_i hlt hne
      have hkey : key < name := Std.lt_of_le_of_ne hlt (Ne.symm hne)
      have hall : ∀ f ∈ Fields.insert name value rest, key < f.1 := by
        intro f hf
        rcases mem_insert hf with rfl | hf
        · exact hkey
        · exact hhead f hf
      exact List.pairwise_cons.mpr ⟨hall, ih hrest⟩

/-- A name after all others is put at the end. -/
theorem insert_of_forall_lt {name : String} {value : Json} {fields : Fields}
    (h : ∀ f ∈ fields, f.1 < name) : insert name value fields = fields ++ [(name, value)] := by
  induction fields with
  | nil => rfl
  | cons field rest ih =>
    obtain ⟨key, other⟩ := field
    have hkey : key < name := h (key, other) List.mem_cons_self
    have hne : name ≠ key := by
      rintro rfl
      exact String.lt_irrefl _ hkey
    have hrest := ih fun f hf => h f (List.mem_cons_of_mem _ hf)
    simp [insert, String.lt_asymm hkey, hne, hrest]

theorem sorted_foldl_insert {fields out : Fields} (h : Sorted out) :
    Sorted (fields.foldl (fun out field => insert field.1 field.2 out) out) := by
  induction fields generalizing out with
  | nil => exact h
  | cons field rest ih => exact ih h.insert

theorem sorted_ofList (fields : List (String × Json)) : Sorted (ofList fields) :=
  sorted_foldl_insert List.Pairwise.nil

theorem mem_foldl_insert {fields out : Fields} {f : String × Json}
    (h : f ∈ fields.foldl (fun out field => insert field.1 field.2 out) out) :
    f ∈ fields ∨ f ∈ out := by
  induction fields generalizing out with
  | nil => exact .inr h
  | cons field rest ih =>
    rcases ih h with h | h
    · exact .inl (List.mem_cons_of_mem _ h)
    · rcases mem_insert h with rfl | h
      · exact .inl List.mem_cons_self
      · exact .inr h

theorem mem_of_mem_ofList {fields : List (String × Json)} {f : String × Json}
    (h : f ∈ ofList fields) : f ∈ fields :=
  (mem_foldl_insert h).resolve_right List.not_mem_nil

end Fields

section Text

mutual

/-- The characters of the text of a value. -/
def letters : Json → List Char
  | .null => ['n', 'u', 'l', 'l']
  | .bool true => ['t', 'r', 'u', 'e']
  | .bool false => ['f', 'a', 'l', 's', 'e']
  | .number text => text.toList
  | .string text => (quote text).toList
  | .array items => '[' :: lettersOfItems "" items
  | .object fields => '\x7b' :: lettersOfFields "" fields

def lettersOfItems (mark : String) : List Json → List Char
  | [] => [']']
  | v :: rest => mark.toList ++ (letters v ++ lettersOfItems "," rest)

def lettersOfFields (mark : String) : List (String × Json) → List Char
  | [] => ['\x7d']
  | (name, v) :: rest =>
    mark.toList ++ ((quote name).toList ++ ':' :: (letters v ++ lettersOfFields "," rest))

end

def Pending.letters : Pending → List Char
  | .value v => Json.letters v
  | .items mark vs => lettersOfItems mark vs
  | .fields mark fs => lettersOfFields mark fs

theorem Pending.letters_eq (p : Pending) :
    p.letters = p.front.1.toList ++ p.front.2.flatMap Pending.letters := by
  unfold Pending.front
  split <;> simp [Pending.letters, Json.letters, lettersOfItems, lettersOfFields]

theorem toList_write (out : String) (pending : List Pending) :
    (write out pending).toList = out.toList ++ pending.flatMap Pending.letters := by
  fun_induction write out pending with
  | case1 out => simp
  | case2 out p rest ih => simp [ih, p.letters_eq]

theorem toList_compact (v : Json) : v.compact.toList = letters v := by
  simp [compact, toList_write, Pending.letters]

end Text

/-- A value that writing and reading keep: each number is a whole one as it is written, the fields
of each object stand in the order of their names, and the first name is not the one that makes the
object a number. -/
inductive Canonical : Json → Prop where
  | null : Canonical .null
  | bool (value : Bool) : Canonical (.bool value)
  | number (n : Int) : Canonical (.number (Decimal.ofInt n))
  | string (text : String) : Canonical (.string text)
  | array {items : List Json} : (∀ v ∈ items, Canonical v) → Canonical (.array items)
  | object {fields : Fields} : Fields.Sorted fields → (∀ f ∈ fields.head?, f.1 ≠ numberName) →
    (∀ f ∈ fields, Canonical f.2) → Canonical (.object fields)

theorem Canonical.ofList {fields : List (String × Json)}
    (h : ∀ f ∈ fields, f.1 ≠ numberName ∧ Canonical f.2) :
    Canonical (.object (Fields.ofList fields)) := by
  refine .object (Fields.sorted_ofList fields) ?_ ?_
  · exact fun f hf => (h f (Fields.mem_of_mem_ofList (List.mem_of_mem_head? hf))).1
  · exact fun f hf => (h f (Fields.mem_of_mem_ofList hf)).2

section Reading
variable {stack : List Container} {rest : List Char}

/-- What may follow a value in a text without blanks. -/
def EndsValue (text : List Char) : Prop := ∀ c ∈ text.head?, c = ',' ∨ c = ']' ∨ c = '\x7d'

theorem EndsValue.endsNumber (h : EndsValue rest) : EndsNumber rest := by
  intro c hc
  rcases h c hc with rfl | rfl | rfl <;> decide

theorem readFrom_of_next {phase phase' : Phase} {stack' : List Container} {text : List Char}
    (h : readStep phase stack text = .ok (.next phase' stack' rest)) :
    readFrom phase stack text = readFrom phase' stack' rest := by
  rw [readFrom]
  split
  · rename_i hf
    cases hf.symm.trans h
  · rename_i hf
    cases hf.symm.trans h
  · rename_i hn
    cases hn.symm.trans h
    rfl

theorem readFrom_afterValue_nil (v : Json) : readFrom (.afterValue v) [] rest = .ok (v, rest) := by
  rw [readFrom]
  split
  · rename_i hf
    cases hf
  · rename_i hf
    cases hf
    rfl
  · rename_i hn
    cases hn

/-- A text of which the reader makes the value, whatever is open and whatever follows. -/
def ReadAs (text : List Char) (v : Json) : Prop :=
  ∀ (stack : List Container) (rest : List Char), EndsValue rest →
    readFrom .beforeValue stack (text ++ rest) = readFrom (.afterValue v) stack rest

def ReadsBack (v : Json) : Prop := ReadAs (letters v) v

@[simp] theorem isBlank_marks : isBlank '[' = false ∧ isBlank ']' = false ∧
    isBlank '\x7b' = false ∧ isBlank '\x7d' = false ∧ isBlank ',' = false ∧
    isBlank ':' = false ∧ isBlank '"' = false := by decide

@[simp] theorem skipBlanks_cons {c : Char} (h : isBlank c = false) :
    skipBlanks (c :: rest) = c :: rest := by
  simp [skipBlanks, h]

theorem readFrom_of_readScalar {c : Char} {text : List Char} {v : Json} (hc : isBlank c = false)
    (harray : c ≠ '[') (hobject : c ≠ '\x7b') (h : readScalar c text = .ok (v, rest)) :
    readFrom .beforeValue stack (c :: text) = readFrom (.afterValue v) stack rest := by
  apply readFrom_of_next
  simp [readStep, readValue, skipBlanks_cons hc, harray, hobject, h, bind, Except.bind, pure,
    Except.pure]

theorem scanWord_append (word : List Char) : scanWord word (word ++ rest) = .ok rest := by
  induction word with
  | nil => rfl
  | cons w word ih => simp [scanWord, ih]

theorem readsBack_null : ReadsBack .null := by
  intro stack rest _
  have hword : scanWord "ull".toList ('u' :: 'l' :: 'l' :: rest) = .ok rest :=
    scanWord_append ['u', 'l', 'l']
  have h : readScalar 'n' ('u' :: 'l' :: 'l' :: rest) = .ok (.null, rest) := by
    simp only [readScalar, hword]
    rfl
  exact readFrom_of_readScalar (by decide) (by decide) (by decide) h

theorem readsBack_bool (value : Bool) : ReadsBack (.bool value) := by
  intro stack rest _
  cases value with
  | false =>
    have hword : scanWord "alse".toList ('a' :: 'l' :: 's' :: 'e' :: rest) = .ok rest :=
      scanWord_append ['a', 'l', 's', 'e']
    have h : readScalar 'f' ('a' :: 'l' :: 's' :: 'e' :: rest) = .ok (.bool false, rest) := by
      simp only [readScalar, hword]
      rfl
    exact readFrom_of_readScalar (by decide) (by decide) (by decide) h
  | true =>
    have hword : scanWord "rue".toList ('r' :: 'u' :: 'e' :: rest) = .ok rest :=
      scanWord_append ['r', 'u', 'e']
    have h : readScalar 't' ('r' :: 'u' :: 'e' :: rest) = .ok (.bool true, rest) := by
      simp only [readScalar, hword]
      rfl
    exact readFrom_of_readScalar (by decide) (by decide) (by decide) h

theorem readsBack_string (text : String) : ReadsBack (.string text) := by
  intro stack rest _
  have h : readScalar '"' (escaped text.toList ++ '"' :: rest) = .ok (.string text, rest) := by
    simp only [readScalar, scanString_quote]
    rfl
  have htext : letters (.string text) ++ rest = '"' :: (escaped text.toList ++ '"' :: rest) := by
    simp [letters, toList_quote]
  rw [htext]
  exact readFrom_of_readScalar (by decide) (by decide) (by decide) h

/-- A digit is none of the marks that the reader looks for before it looks for digits. -/
theorem isDigit_marks {c : Char} (h : c.isDigit = true) :
    isBlank c = false ∧ c ≠ ']' ∧ c ≠ '[' ∧ c ≠ '\x7b' ∧ c ≠ '"' ∧ c ≠ '-' := by
  have hne {d : Char} (hd : d.isDigit = false) : c ≠ d := by
    rintro rfl
    exact Bool.false_ne_true (hd.symm.trans h)
  have hblank : isBlank c = false := by
    simp [isBlank, hne (d := ' ') rfl, hne (d := '\n') rfl, hne (d := '\t') rfl,
      hne (d := '\r') rfl]
  exact ⟨hblank, hne rfl, hne rfl, hne rfl, hne rfl, hne rfl⟩

theorem scanSigned_append {text fraction exponent kept : List Char} (htext : Literal text)
    (hfraction : Fraction fraction) (hexponent : Exponent exponent kept)
    (hrest : EndsNumber rest) : ∃ c cs, text = c :: cs ∧ (c = '-' ∨ c.isDigit = true) ∧
    scanSigned c (cs ++ (fraction ++ (exponent ++ rest))) =
      .ok (String.ofList (text ++ (fraction ++ kept)), rest) := by
  cases htext with
  | plain hwhole =>
    have hscan := scanNumber_append hwhole hfraction hexponent hrest
    obtain ⟨c, cs, rfl, hc⟩ := hwhole.exists_eq_cons
    obtain ⟨-, -, -, -, -, hminus⟩ := isDigit_marks hc
    refine ⟨c, cs, rfl, .inr hc, ?_⟩
    rw [scanSigned, if_neg hminus]
    exact hscan
  | @minus text hwhole =>
    have hminus : "-" ++ String.ofList (text ++ (fraction ++ kept)) =
        String.ofList ('-' :: text ++ (fraction ++ kept)) := by
      apply String.toList_injective
      simp
    refine ⟨'-', text, rfl, .inl rfl, ?_⟩
    rw [scanSigned, if_pos rfl, scanNumber_append hwhole hfraction hexponent hrest, ← hminus]
    rfl

/-- The reader keeps a number as it is written, but for the spelling of its exponent. -/
theorem NumberText.scanSigned_eq {written kept : List Char} (h : NumberText written kept)
    (hrest : EndsNumber rest) : ∃ c cs, written = c :: cs ∧ (c = '-' ∨ c.isDigit = true) ∧
    scanSigned c (cs ++ rest) = .ok (String.ofList kept, rest) := by
  cases h with
  | integer htext => simpa using scanSigned_append htext .none .none hrest
  | scaled h =>
    cases h with
    | mk htext hfraction hexponent _ =>
      obtain ⟨c, cs, rfl, hc, hscan⟩ := scanSigned_append htext hfraction hexponent hrest
      exact ⟨c, _, rfl, hc, by simpa using hscan⟩

theorem readAs_number {written kept : List Char} (h : NumberText written kept) :
    ReadAs written (.number (String.ofList kept)) := by
  intro stack rest hrest
  obtain ⟨c, cs, rfl, hc, hscan⟩ := h.scanSigned_eq hrest.endsNumber
  have hmarks : isBlank c = false ∧ c ≠ '[' ∧ c ≠ '\x7b' ∧ c ≠ '"' := by
    rcases hc with rfl | hc
    · decide
    · obtain ⟨hblank, -, harray, hobject, hquote, -⟩ := isDigit_marks hc
      exact ⟨hblank, harray, hobject, hquote⟩
  obtain ⟨hblank, harray, hobject, hquote⟩ := hmarks
  apply readFrom_of_readScalar hblank harray hobject
  have hstart : (decide (c = '-') || c.isDigit) = true := by simpa using hc
  simp only [readScalar, if_neg hquote, if_pos hstart, List.append_eq, hscan]
  rfl

theorem readsBack_number (n : Int) : ReadsBack (.number (Decimal.ofInt n)) := by
  have hread := readAs_number (.integer (literal_ofInt n))
  rwa [String.ofList_toList] at hread

theorem endsValue_lettersOfItems (items : List Json) :
    EndsValue (lettersOfItems "," items ++ rest) := by
  intro c hc
  cases items with
  | nil =>
    cases hc
    exact .inr (.inl rfl)
  | cons v items =>
    cases hc
    exact .inl rfl

theorem endsValue_lettersOfFields (fields : Fields) :
    EndsValue (lettersOfFields "," fields ++ rest) := by
  intro c hc
  cases fields with
  | nil =>
    cases hc
    exact .inr (.inr rfl)
  | cons f fields =>
    cases hc
    exact .inl rfl

/-- A text that starts neither with a blank nor with the end of an array. -/
def StartsValue (text : List Char) : Prop :=
  ∃ c cs, text = c :: cs ∧ isBlank c = false ∧ c ≠ ']'

theorem Literal.startsValue {text : List Char} (h : Literal text) : StartsValue text := by
  cases h with
  | plain hwhole =>
    obtain ⟨c, cs, rfl, hc⟩ := hwhole.exists_eq_cons
    obtain ⟨hblank, hclose, -⟩ := isDigit_marks hc
    exact ⟨c, cs, rfl, hblank, hclose⟩
  | @minus text _ => exact ⟨'-', text, rfl, by decide, by decide⟩

theorem startsValue_letters {v : Json} (h : Canonical v) : StartsValue (letters v) := by
  cases h with
  | null => exact ⟨_, _, rfl, by decide, by decide⟩
  | bool value =>
    cases value with
    | false => exact ⟨_, _, rfl, by decide, by decide⟩
    | true => exact ⟨_, _, rfl, by decide, by decide⟩
  | number n => exact (literal_ofInt n).startsValue
  | string text =>
    exact ⟨'"', _, by rw [letters, toList_quote], by decide, by decide⟩
  | array _ => exact ⟨_, _, rfl, by decide, by decide⟩
  | object _ _ _ => exact ⟨_, _, rfl, by decide, by decide⟩

theorem readStep_openArray {text : List Char} (h : StartsValue text) :
    readStep .beforeValue stack ('[' :: (text ++ rest)) =
      .ok (.next .beforeValue (.array [] :: stack) (text ++ rest)) := by
  obtain ⟨c, cs, rfl, hblank, hclose⟩ := h
  simp [readStep, readValue, openArray, hblank, hclose]

theorem readStep_nextItem {items : List Json} {v : Json} {text : List Char} (h : StartsValue text) :
    readStep (.afterValue v) (.array items :: stack) (',' :: (text ++ rest)) =
      .ok (.next .beforeValue (.array (v :: items) :: stack) (text ++ rest)) := by
  obtain ⟨c, cs, rfl, hblank, hclose⟩ := h
  simp [readStep, continueArray, hblank, hclose]

/-- The rest of an open array is read up to its end. -/
theorem readFrom_items {items : List Json} (hstart : ∀ v ∈ items, StartsValue (letters v))
    (hread : ∀ v ∈ items, ReadsBack v) (done : List Json) (v : Json) :
    readFrom (.afterValue v) (.array done :: stack) (lettersOfItems "," items ++ rest) =
      readFrom (.afterValue (.array (done.reverse ++ v :: items))) stack rest := by
  induction items generalizing done v with
  | nil =>
    apply readFrom_of_next
    simp [lettersOfItems, readStep, continueArray]
  | cons w items ih =>
    have hw := List.mem_cons_self (a := w) (l := items)
    have htext : lettersOfItems "," (w :: items) ++ rest =
        ',' :: (letters w ++ (lettersOfItems "," items ++ rest)) := by
      simp [lettersOfItems]
    rw [htext, readFrom_of_next (readStep_nextItem (hstart w hw)),
      hread w hw _ _ (endsValue_lettersOfItems items),
      ih (fun u hu => hstart u (List.mem_cons_of_mem _ hu))
        (fun u hu => hread u (List.mem_cons_of_mem _ hu))]
    simp

theorem readsBack_array {items : List Json} (hstart : ∀ v ∈ items, StartsValue (letters v))
    (hread : ∀ v ∈ items, ReadsBack v) : ReadsBack (.array items) := by
  intro stack rest _
  cases items with
  | nil =>
    apply readFrom_of_next
    simp [letters, lettersOfItems, readStep, readValue, openArray]
  | cons v items =>
    have hv := List.mem_cons_self (a := v) (l := items)
    have htext : letters (.array (v :: items)) ++ rest =
        '[' :: (letters v ++ (lettersOfItems "," items ++ rest)) := by
      simp [letters, lettersOfItems]
    rw [htext, readFrom_of_next (readStep_openArray (hstart v hv)),
      hread v hv _ _ (endsValue_lettersOfItems items),
      readFrom_items (fun u hu => hstart u (List.mem_cons_of_mem _ hu))
        (fun u hu => hread u (List.mem_cons_of_mem _ hu))]
    rfl

theorem readName_quote (name : String) :
    readName '"' (escaped name.toList ++ '"' :: ':' :: rest) = .ok (name, rest) := by
  simp [readName, scanString_quote, bind, Except.bind]

theorem NumberText.scanFull_eq {written kept : List Char} (h : NumberText written kept) :
    scanFull written = .ok (String.ofList kept) := by
  have hends : EndsNumber [] := fun c hc => by cases hc
  obtain ⟨c, cs, rfl, hc, hscan⟩ := h.scanSigned_eq hends
  have hstart : (decide (c = '-') || c.isDigit) = true := by simpa using hc
  rw [List.append_nil] at hscan
  rw [scanFull, if_pos hstart, hscan]

/-- An object whose first name says that a number follows is this number, and nothing may follow
in it. -/
theorem readAs_spelled {written kept : List Char} (h : NumberText written kept) :
    ReadAs ('\x7b' :: ((quote numberName).toList ++ ':' ::
      ((quote (String.ofList written)).toList ++ ['\x7d']))) (.number (String.ofList kept)) := by
  intro stack rest _
  have hclose : closeObject ('\x7d' :: rest) = .ok rest := by simp [closeObject]
  have hspelled : readSpelled ('"' :: (escaped written ++ '"' :: '\x7d' :: rest)) =
      .ok (String.ofList kept, rest) := by
    have hstring : scanString "" (escaped written ++ '"' :: '\x7d' :: rest) =
        .ok (String.ofList written, '\x7d' :: rest) := by
      simpa using scanString_quote (String.ofList written) ('\x7d' :: rest)
    simp [readSpelled, hstring, h.scanFull_eq, hclose, bind, Except.bind, pure, Except.pure]
  have htext : '\x7b' :: ((quote numberName).toList ++ ':' ::
      ((quote (String.ofList written)).toList ++ ['\x7d'])) ++ rest =
      '\x7b' :: '"' :: (escaped numberName.toList ++ '"' :: ':' ::
        ('"' :: (escaped written ++ '"' :: '\x7d' :: rest))) := by
    simp [toList_quote]
  rw [htext]
  apply readFrom_of_next
  simp [readStep, readValue, openObject, readName_quote, hspelled, bind, Except.bind, pure,
    Except.pure]

theorem readStep_openObject {name : String} (h : name ≠ numberName) :
    readStep .beforeValue stack ('\x7b' :: '"' :: (escaped name.toList ++ '"' :: ':' :: rest)) =
      .ok (.next .beforeValue (.object [] name :: stack) rest) := by
  simp [readStep, readValue, openObject, readName_quote, h, bind, Except.bind, pure, Except.pure]

theorem readStep_nextField {fields : Fields} {name : String} {v : Json} (next : String) :
    readStep (.afterValue v) (.object fields name :: stack)
        (',' :: '"' :: (escaped next.toList ++ '"' :: ':' :: rest)) =
      .ok (.next .beforeValue (.object (fields.insert name v) next :: stack) rest) := by
  simp [readStep, continueObject, readName_quote, bind, Except.bind, pure, Except.pure]

/-- The rest of an open object is read up to its end. The names that were read come before. -/
theorem readFrom_fields {fields : Fields} (hread : ∀ f ∈ fields, ReadsBack f.2) {done : Fields}
    {name : String} {v : Json} (hsorted : Fields.Sorted (done ++ (name, v) :: fields)) :
    readFrom (.afterValue v) (.object done name :: stack) (lettersOfFields "," fields ++ rest) =
      readFrom (.afterValue (.object (done ++ (name, v) :: fields))) stack rest := by
  have hinsert : done.insert name v = done ++ [(name, v)] := by
    apply Fields.insert_of_forall_lt
    intro f hf
    exact (List.pairwise_append.mp hsorted).2.2 f hf (name, v) List.mem_cons_self
  induction fields generalizing done name v with
  | nil =>
    apply readFrom_of_next
    simp [lettersOfFields, readStep, continueObject, hinsert]
  | cons f fields ih =>
    obtain ⟨next, w⟩ := f
    have hf := List.mem_cons_self (a := (next, w)) (l := fields)
    have htext : lettersOfFields "," ((next, w) :: fields) ++ rest =
        ',' :: '"' :: (escaped next.toList ++ '"' :: ':' ::
          (letters w ++ (lettersOfFields "," fields ++ rest))) := by
      simp [lettersOfFields, toList_quote]
    have hsorted : Fields.Sorted ((done ++ [(name, v)]) ++ (next, w) :: fields) := by
      simpa using hsorted
    have hlt : ∀ f ∈ done ++ [(name, v)], f.1 < next :=
      fun f hf => (List.pairwise_append.mp hsorted).2.2 f hf (next, w) List.mem_cons_self
    rw [htext, readFrom_of_next (readStep_nextField next), hinsert,
      hread (next, w) hf _ _ (endsValue_lettersOfFields fields),
      ih (fun u hu => hread u (List.mem_cons_of_mem _ hu)) hsorted
        (Fields.insert_of_forall_lt hlt)]
    simp

theorem readsBack_object {fields : Fields} (hsorted : Fields.Sorted fields)
    (hname : ∀ f ∈ fields.head?, f.1 ≠ numberName) (hread : ∀ f ∈ fields, ReadsBack f.2) :
    ReadsBack (.object fields) := by
  intro stack rest _
  cases fields with
  | nil =>
    apply readFrom_of_next
    simp [letters, lettersOfFields, readStep, readValue, openObject]
  | cons f fields =>
    obtain ⟨name, v⟩ := f
    have hf := List.mem_cons_self (a := (name, v)) (l := fields)
    have htext : letters (.object ((name, v) :: fields)) ++ rest =
        '\x7b' :: '"' :: (escaped name.toList ++ '"' :: ':' ::
          (letters v ++ (lettersOfFields "," fields ++ rest))) := by
      simp [letters, lettersOfFields, toList_quote]
    rw [htext, readFrom_of_next (readStep_openObject (hname (name, v) rfl)),
      hread (name, v) hf _ _ (endsValue_lettersOfFields fields),
      readFrom_fields (fun u hu => hread u (List.mem_cons_of_mem _ hu)) hsorted]
    rfl

/-- The reader makes of its text a value in canonical form. -/
theorem Canonical.readsBack {v : Json} (h : Canonical v) : ReadsBack v := by
  induction h with
  | null => exact readsBack_null
  | bool value => exact readsBack_bool value
  | number n => exact readsBack_number n
  | string text => exact readsBack_string text
  | array hitems ih => exact readsBack_array (fun v hv => startsValue_letters (hitems v hv)) ih
  | object hsorted hname _ ih => exact readsBack_object hsorted hname ih

end Reading

theorem parse_of_readAs {text : List Char} {v : Json} (h : ReadAs text v) :
    parse (String.ofList text) = .ok v := by
  have hread := h [] [] (fun c hc => by cases hc)
  rw [List.append_nil, readFrom_afterValue_nil] at hread
  have hall : readAll text = .ok v := by
    simp [readAll, hread, skipBlanks, bind, Except.bind, pure, Except.pure]
  simp only [parse, String.toList_ofList, hall]

/-- A value in canonical form is read again from its text. -/
theorem parse_compact {v : Json} (h : Canonical v) : parse v.compact = .ok v := by
  have hparse := parse_of_readAs h.readsBack
  rwa [← toList_compact, String.ofList_toList] at hparse

/-- Different values in canonical form have different texts. -/
theorem compact_injective {v w : Json} (hv : Canonical v) (hw : Canonical w)
    (h : v.compact = w.compact) : v = w := by
  have hparse := (parse_compact hv).symm.trans (h ▸ parse_compact hw)
  exact Except.ok.inj hparse

section Controls

/-- A text without control characters, so all on one line. -/
def Printable (text : List Char) : Prop := ∀ c ∈ text, 0x20 ≤ c.toNat

theorem Printable.append {text rest : List Char} (h : Printable text) (hrest : Printable rest) :
    Printable (text ++ rest) := by
  intro c hc
  rcases List.mem_append.mp hc with hc | hc
  · exact h c hc
  · exact hrest c hc

theorem Printable.cons {c : Char} {rest : List Char} (hc : 0x20 ≤ c.toNat)
    (hrest : Printable rest) : Printable (c :: rest) :=
  List.forall_mem_cons.mpr ⟨hc, hrest⟩

theorem printable_quote (text : String) : Printable (quote text).toList := by
  rw [toList_quote]
  have hescaped : Printable (escaped text.toList) := fun c hc => le_toNat_of_mem_escaped hc
  exact .cons (by decide) (hescaped.append (by simp [Printable]))

theorem printable_lettersOfItems {items : List Json} (h : ∀ v ∈ items, Printable (letters v))
    {mark : String} (hmark : Printable mark.toList) : Printable (lettersOfItems mark items) := by
  induction items generalizing mark with
  | nil => exact .cons (by decide) (List.forall_mem_nil _)
  | cons v items ih =>
    have hcomma : Printable ",".toList := by simp [Printable]
    have hrest := ih (fun u hu => h u (List.mem_cons_of_mem _ hu)) hcomma
    exact hmark.append ((h v List.mem_cons_self).append hrest)

theorem printable_lettersOfFields {fields : Fields} (h : ∀ f ∈ fields, Printable (letters f.2))
    {mark : String} (hmark : Printable mark.toList) : Printable (lettersOfFields mark fields) := by
  induction fields generalizing mark with
  | nil => exact .cons (by decide) (List.forall_mem_nil _)
  | cons f fields ih =>
    obtain ⟨name, v⟩ := f
    have hcomma : Printable ",".toList := by simp [Printable]
    have hrest := ih (fun u hu => h u (List.mem_cons_of_mem _ hu)) hcomma
    have hv : Printable (letters v) := h (name, v) List.mem_cons_self
    exact hmark.append ((printable_quote name).append (.cons (by decide) (hv.append hrest)))

theorem Canonical.printable_letters {v : Json} (h : Canonical v) : Printable (letters v) := by
  induction h with
  | null => simp [Printable, letters]
  | bool value => cases value <;> simp [Printable, letters]
  | number n => exact fun c hc => le_toNat_of_mem_ofInt hc
  | string text => exact printable_quote text
  | array _ ih => exact .cons (by decide) (printable_lettersOfItems ih (List.forall_mem_nil _))
  | object _ _ _ ih =>
    exact .cons (by decide) (printable_lettersOfFields ih (List.forall_mem_nil _))

/-- The text of a value in canonical form lies on one line. -/
theorem newline_not_mem_compact {v : Json} (h : Canonical v) : '\n' ∉ v.compact.toList := by
  rw [toList_compact]
  intro hmem
  have hle := h.printable_letters '\n' hmem
  exact absurd hle (by decide)

end Controls

end TreeScript.Json
