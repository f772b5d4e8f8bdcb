import TreeScript.Proofs.CommandLine.Outcome
import TreeScript.Proofs.Value.Display

/-!
Number literals from the text of a document to the output. Main statement: an integer literal of
any length is decoded to the integer that it denotes and printed as it is written, a minus zero as
zero; a number with a fraction or an exponent is refused.
-/
namespace TreeScript

open CommandLine (Options finish runText)
open Json (Fields Literal NumberText ReadAs Scaled)
open Decimal (SignedNumeral)

namespace Document
variable {fields : Fields} {l : Location} {value : Json} {text : String}

theorem decodeTerm_int (h : IsNode fields "Int" l)
    (hvalue : Fields.get? "value" fields = some value) (last : LastName) :
    (decodeTerm (.object fields) last).1 = (integer value).map fun n => .int n l := by
  obtain ⟨next, hbody⟩ := exists_body_eq .int h last
  have hyields : Plan.Yields body (body (.object fields) last)
      ((integer value).map fun n => .int n l) next := by
    rw [hbody]
    simp only [nodePlan, field_eq_ok_iff.mpr hvalue, bind, Except.bind]
    cases integer value <;> exact .answer _ _
  exact congrArg Prod.fst hyields.solve_eq

theorem decodeTerm_print (h : IsNode fields "Print" l)
    (hvalue : Fields.get? "value" fields = some value) (last : LastName) :
    (decodeTerm (.object fields) last).1 = (decodeTerm value none).1.map fun t => .print t l := by
  obtain ⟨next, hbody⟩ := exists_body_eq .print h last
  rw [decodeTerm_memory value none next]
  have hchild : Plan.Yields body (body value next) (decodeTerm value next).1
      (decodeTerm value next).2 := Plan.solve_yields total value next
  have hyields : Plan.Yields body (body (.object fields) last)
      ((decodeTerm value next).1.map fun t => .print t l) (decodeTerm value next).2 := by
    rw [hbody]
    simp only [nodePlan, child, field_eq_ok_iff.mpr hvalue, Plan.require]
    cases hresult : (decodeTerm value next).1 with
    | ok t =>
      rw [hresult] at hchild
      exact hchild.ask_ok (.answer _ _)
    | error e =>
      rw [hresult] at hchild
      exact hchild.ask_error
  exact congrArg Prod.fst hyields.solve_eq

/-- The document of a program that prints one number. -/
inductive PrintsNumber : Json → String → Prop where
  | file {fields print int : Fields} {name text : String} {l m : Location} :
    Fields.get? "name" fields = some (.string name) →
    Fields.get? "expression" fields = some (.object print) → IsNode print "Print" l →
    Fields.get? "value" print = some (.object int) → IsNode int "Int" m →
    Fields.get? "value" int = some (.number text) →
    (∀ place, Fields.get? "location" fields = some place → ∃ p, Locates (some place) p) →
    PrintsNumber (.object fields) text

theorem PrintsNumber.represents (h : PrintsNumber value text) {n : Int}
    (hn : SignedNumeral text.toList n) :
    ∃ name m l place, RepresentsProgram value ⟨name, .print (.int n m) l, place⟩ := by
  cases h with
  | @file fields _ _ name _ l m hname htree hprint hchild hint hvalue hplace =>
    have hterm := Represents.print hprint hchild (.int hint hvalue hn)
    cases hstated : Fields.get? "location" fields with
    | none => exact ⟨name, m, l, none, .unlocated hname htree hterm hstated⟩
    | some place =>
      obtain ⟨p, hp⟩ := hplace place hstated
      exact ⟨name, m, l, some p, .located hname htree hterm hstated hp⟩

theorem PrintsNumber.decodeProgram_eq (h : PrintsNumber value text)
    (hnone : Decimal.int? text.toList = none) :
    decodeProgram value = .error (.invalidInteger text) := by
  cases h with
  | file hname htree hprint hchild hint hvalue _ =>
    have hinteger : integer (.number text) = .error (.invalidInteger text) := by
      simp only [integer, hnone]
    have hterm := decodeTerm_print hprint hchild none
    rw [decodeTerm_int hint hvalue none, hinteger] at hterm
    simp only [decodeProgram, stringField_eq_ok_iff.mpr hname, field_eq_ok_iff.mpr htree, hterm,
      Except.map, bind, Except.bind]

end Document

section Running

/-- The text is run to the integer and prints the line, whatever the interpreter, and the command
line succeeds with this line as its output. A print of a literal takes four steps. -/
def PrintsLine (source : String) (n : Int) (line : String) : Prop :=
  ∀ fuel,
    (∀ i : Interpreter, ∃ j, i.runSource (fuel + 4) source = some (.ok (.int n), j) ∧
      j.state.printer = i.state.printer.println line) ∧
    ∀ (options : Options) (terminal : Bool),
      ∃ report, runText (fuel + 4) options terminal source = some report ∧
        report.exitCode = 0 ∧ report.stdout = line ++ "\n"

theorem Interpreter.evaluate_print_int (i : Interpreter) (fuel : Nat) (n : Int) (m l : Location)
    (f : FrameId) : i.evaluate (fuel + 4) (.print (.int n m) l) f =
      some (.ok (.int n), ⟨i.root, i.state.visit.visit.print (.int n)⟩) := rfl

theorem printsLine_of_parseProgram {source : String} {name : String} {n : Int} {m l : Location}
    {place : Option Location}
    (h : Document.parseProgram source = .ok ⟨name, .print (.int n m) l, place⟩) :
    PrintsLine source n (Decimal.ofInt n) := by
  have hdisplay : (Value.int n).display = Decimal.ofInt n := (Value.int n).display_eq_text
  have hrun (i : Interpreter) (fuel : Nat) : i.runSource (fuel + 4) source =
      some (.ok (.int n), ⟨i.root, i.state.visit.visit.print (.int n)⟩) := by
    simp only [Interpreter.runSource, Interpreter.runDecoded, h, i.evaluate_print_int]
    rfl
  intro fuel
  constructor
  · intro i
    refine ⟨_, hrun i fuel, ?_⟩
    rw [← hdisplay]
    rfl
  · intro options terminal
    unfold runText
    rw [hrun]
    refine ⟨_, rfl, rfl, ?_⟩
    show "" ++ (Value.int n).display ++ "\n" = Decimal.ofInt n ++ "\n"
    rw [hdisplay, String.empty_append]

end Running

section Sources

/-- The text of an object with two fields. -/
def pairText (name : String) (text : List Char) (next : String) (more : List Char) : List Char :=
  '\x7b' :: ((Json.quote name).toList ++ ':' ::
    (text ++ ',' :: ((Json.quote next).toList ++ ':' :: (more ++ ['\x7d']))))

theorem readAs_pair {text more : List Char} {v w : Json} {name : String} (next : String)
    (hname : name ≠ Json.numberName) (h : ReadAs text v) (hmore : ReadAs more w) :
    ReadAs (pairText name text next more) (.object (Fields.ofList [(name, v), (next, w)])) := by
  intro stack rest _
  have hcomma (rest : List Char) : Json.EndsValue (',' :: rest) := by
    rintro _ ⟨⟩
    exact .inl rfl
  have hbrace : Json.EndsValue ('\x7d' :: rest) := by
    rintro _ ⟨⟩
    exact .inr (.inr rfl)
  have htext : pairText name text next more ++ rest =
      '\x7b' :: '"' :: (Json.escaped name.toList ++ '"' :: ':' ::
        (text ++ ',' :: '"' :: (Json.escaped next.toList ++ '"' :: ':' ::
          (more ++ '\x7d' :: rest)))) := by
    simp [pairText, Json.toList_quote]
  rw [htext, Json.readFrom_of_next (Json.readStep_openObject hname), h _ _ (hcomma _),
    Json.readFrom_of_next (Json.readStep_nextField next), hmore _ _ hbrace]
  apply Json.readFrom_of_next
  simp [Json.readStep, Json.continueObject, Fields.ofList]

/-- The text of a program that prints a number. -/
def printing (number : List Char) : String :=
  String.ofList (pairText "name" (Json.quote "p").toList "expression"
    (pairText "kind" (Json.quote "Print").toList "value"
      (pairText "kind" (Json.quote "Int").toList "value" number)))

theorem parse_printing {written kept : List Char} (h : NumberText written kept) :
    ∃ value, Json.parse (printing written) = .ok value ∧
      Document.PrintsNumber value (String.ofList kept) := by
  have hstring (s : String) : ReadAs (Json.quote s).toList (.string s) := Json.readsBack_string s
  have hkind : "kind" ≠ Json.numberName := by simp [Json.numberName]
  have hint := readAs_pair "value" hkind (hstring "Int") (Json.readAs_number h)
  have hprint := readAs_pair "value" hkind (hstring "Print") hint
  have hname : "name" ≠ Json.numberName := by simp [Json.numberName]
  have hfile := readAs_pair "expression" hname (hstring "p") hprint
  have hnode (tag : String) (v : Json) :
      Document.IsNode (Fields.ofList [("kind", .string tag), ("value", v)]) tag .unstated := by
    have hplace : Fields.get? "location" (Fields.ofList [("kind", .string tag), ("value", v)]) =
        none := by simp [Fields.ofList, Fields.get?]
    refine ⟨by simp [Fields.ofList], ?_⟩
    rw [hplace]
    exact .unstated
  have hvalue (tag : String) (v : Json) :
      Fields.get? "value" (Fields.ofList [("kind", .string tag), ("value", v)]) = some v := by
    simp [Fields.ofList]
  have hstated (v : Json) : Fields.get? "name"
      (Fields.ofList [("name", .string "p"), ("expression", v)]) = some (.string "p") := by
    simp [Fields.ofList]
  refine ⟨_, Json.parse_of_readAs hfile, ?_⟩
  exact .file (hstated _) (by simp [Fields.ofList]) (hnode "Print" _) (hvalue "Print" _)
    (hnode "Int" _) (hvalue "Int" _) (by simp [Fields.ofList, Fields.get?])

example : printing "42".toList = "\x7b\"name\":\"p\",\"expression\":\x7b\"kind\":\"Print\"," ++
    "\"value\":\x7b\"kind\":\"Int\",\"value\":42\x7d\x7d\x7d" := by decide +kernel

end Sources

/-- An integer literal, which may have any number of digits, denotes an integer. A node of integers
with this literal is decoded to the integer, and every text of a program that prints it writes the
literal on a line, a minus zero as zero. The text of an integer is a literal, from which the integer
is read again. A number with a fraction or an exponent is refused where an integer is wanted, with
its text as it is kept, and nothing is run. The reader keeps every number, the digits of a literal
as they are, and every number stands in the text of a program that prints it. -/
theorem integer_literals_survive :
    (∀ text, Literal text → ∃ n, SignedNumeral text n ∧
      (∀ fields l last, Document.IsNode fields "Int" l →
        fields.get? "value" = some (.number (String.ofList text)) →
        (Document.decodeTerm (.object fields) last).1 = .ok (.int n l)) ∧
      ∀ source value, Json.parse source = .ok value →
        Document.PrintsNumber value (String.ofList text) →
        PrintsLine source n (if text = ['-', '0'] then "0" else String.ofList text)) ∧
    (∀ n : Int, Literal (Value.int n).display.toList ∧
      Document.integer (.number (Value.int n).display) = .ok n) ∧
    (∀ written kept, Scaled written kept →
      (∀ fields l last, Document.IsNode fields "Int" l →
        fields.get? "value" = some (.number (String.ofList kept)) →
        (Document.decodeTerm (.object fields) last).1 =
          .error (.invalidInteger (String.ofList kept))) ∧
      ∀ source value, Json.parse source = .ok value →
        Document.PrintsNumber value (String.ofList kept) → ∀ fuel (i : Interpreter),
        i.runSource fuel source =
          some (.error (.decode (.tree (.invalidInteger (String.ofList kept)))), i)) ∧
    ∀ written kept, NumberText written kept →
      ReadAs written (.number (String.ofList kept)) ∧
      ∃ value, Json.parse (printing written) = .ok value ∧
        Document.PrintsNumber value (String.ofList kept) := by
  refine ⟨?_, ?_, ?_, ?_⟩
  · intro text htext
    obtain ⟨n, hn⟩ := htext.exists_signedNumeral
    have hn' : SignedNumeral (String.ofList text).toList n := by rwa [String.toList_ofList]
    refine ⟨n, hn, ?_, ?_⟩
    · intro fields l last hnode hvalue
      exact Document.decodeTerm_eq_ok_iff.mpr (.int hnode hvalue hn')
    · intro source value hvalue hprints
      obtain ⟨name, m, l, place, hprogram⟩ := hprints.represents hn'
      rw [← Json.ofInt_of_literal htext hn]
      have hparse := (Document.parseProgram_of_reading hvalue).trans
        (Document.programOf_ok_of_represents hprogram)
      exact printsLine_of_parseProgram hparse
  · intro n
    have hdisplay : (Value.int n).display = Decimal.ofInt n := (Value.int n).display_eq_text
    rw [hdisplay]
    refine ⟨Json.literal_ofInt n, ?_⟩
    exact Document.integer_eq_ok_iff.mpr ⟨_, rfl, Decimal.signedNumeral_ofInt n⟩
  · intro written kept hscaled
    have hnone : Decimal.int? (String.ofList kept).toList = none := by
      rw [String.toList_ofList]
      exact hscaled.int?_eq_none
    constructor
    · intro fields l last hnode hvalue
      rw [Document.decodeTerm_int hnode hvalue]
      simp only [Document.integer, hnone]
      rfl
    · intro source value hvalue hprints fuel i
      apply Interpreter.perform_run_of_error
      rw [Document.parseProgram_of_reading hvalue]
      simp only [Document.programOf, hprints.decodeProgram_eq hnone]
      rfl
  · intro written kept hnumber
    exact ⟨Json.readAs_number hnumber, parse_printing hnumber⟩

theorem integer_literals_survive_long :
    PrintsLine (printing "98765432109876543210".toList) 98765432109876543210
      "98765432109876543210" ∧
    PrintsLine (printing "-0".toList) 0 "0" ∧
    (Interpreter.new none .buffer false).runSource 0 (printing "1E5".toList) =
      some (.error (.decode (.tree (.invalidInteger "1e+5"))), .new none .buffer false) := by
  obtain ⟨hliteral, -, hscaled, hnumber⟩ := integer_literals_survive
  have hprints {text : List Char} {n : Int} (htext : Literal text)
      (hread : Decimal.int? text = some n) : PrintsLine (printing text) n
        (if text = ['-', '0'] then "0" else String.ofList text) := by
    obtain ⟨m, hm, -, hprints⟩ := hliteral text htext
    cases (Decimal.int?_eq_some_iff.mpr hm).symm.trans hread
    obtain ⟨-, value, hvalue, hdocument⟩ := hnumber text text (.integer htext)
    exact hprints _ value hvalue hdocument
  refine ⟨?_, ?_, ?_⟩
  · have htext := Json.literal_ofInt 98765432109876543210
    have hlong : (Decimal.ofInt 98765432109876543210).toList = "98765432109876543210".toList := by
      decide +kernel
    rw [hlong] at htext
    exact hprints htext (by decide +kernel)
  · exact hprints (.minus .zero) (by decide +kernel)
  · have hdigits : Json.Digits ['5'] := ⟨by decide, List.forall_mem_singleton.mpr rfl⟩
    have hone : Literal ['1'] := .plain (.digits (by decide) (List.forall_mem_singleton.mpr rfl))
    have hfive : Scaled ['1', 'E', '5'] ['1', 'e', '+', '5'] :=
      .mk hone .none (.unsigned (.inr rfl) hdigits) (by simp)
    obtain ⟨-, value, hvalue, hdocument⟩ := hnumber _ _ (.scaled hfive)
    exact (hscaled _ _ hfive).2 _ value hvalue hdocument 0 _

end TreeScript
