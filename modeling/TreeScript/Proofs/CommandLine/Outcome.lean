import Mathlib
import TreeScript.CommandLine.Report
import TreeScript.Proofs.Document.Texts
import TreeScript.Proofs.Evaluation.Tasks

/-!
How the run of a text ends. A text that is no JSON, or JSON that is no program, changes nothing;
any other text is run as its tree is evaluated in the root. Main statement: the text alone decides
which of the three it is, and the code and the exit code tell them apart.
-/
namespace TreeScript

open CommandLine (Options finish)
open Document (RepresentsProgram)

/-- The last digit of the code of a cause. -/
def Failure.Cause.number : Cause → Nat
  | .undefinedVariable _ => 1
  | .invalidOperation _ _ _ => 2
  | .divisionByZero => 3
  | .typeMismatch _ _ => 4
  | .notCallable _ => 5
  | .arityMismatch _ _ => 6
  | .stackOverflow _ => 7

theorem Failure.Cause.text_code (cause : Cause) :
    cause.code.text = "E600" ++ Decimal.ofNat cause.number := by
  cases cause <;> simp only [code, number] <;> decide +kernel

theorem Code.isRuntime_eq_false_iff (c : Code) :
    c.isRuntime = false ↔ c = .invalidJson ∨ c = .invalidTree ∨ c = .unreadableInput := by
  cases c <;> decide +kernel

theorem Failure.Cause.isRuntime_code (cause : Cause) : cause.code.isRuntime = true := by
  rw [← Bool.not_eq_false, Code.isRuntime_eq_false_iff]
  cases cause <;> simp [code]

namespace RunFailure

/-- A program that started fails with a runtime code, one that never started with another. -/
theorem isRuntime_code_iff (e : RunFailure) : e.code.isRuntime = true ↔ e.exitCode = 1 := by
  cases e with
  | eval e =>
    have hruntime : (RunFailure.eval e).code.isRuntime = true := e.cause.isRuntime_code
    simp [hruntime, exitCode]
  | read source fault =>
    have hother : (RunFailure.read source fault).code.isRuntime = false :=
      (Code.isRuntime_eq_false_iff _).mpr (.inr (.inr rfl))
    simp [hother, exitCode]
  | decode error =>
    have hother : (RunFailure.decode error).code.isRuntime = false := by
      rw [Code.isRuntime_eq_false_iff]
      cases error <;> simp [code]
    simp [hother, exitCode]

end RunFailure

namespace Document
variable {source : String} {value : Json}

theorem programOf_ok_of_represents {p : Program} (hp : RepresentsProgram value p) :
    programOf (.ok value) = .ok p := by
  simp only [programOf, decodeProgram_eq_ok_iff.mpr hp]
  rfl

theorem exists_programOf_eq_error (hnone : ∀ p, ¬ RepresentsProgram value p) :
    ∃ fault, programOf (.ok value) = .error (.tree fault) := by
  cases hdecode : decodeProgram value with
  | ok p => exact absurd (decodeProgram_eq_ok_iff.mp hdecode) (hnone p)
  | error fault => exact ⟨fault, by simp only [programOf, hdecode]; rfl⟩

theorem parseProgram_of_reading {reading : Except Json.SyntaxError Json}
    (h : Json.parse source = reading) : parseProgram source = programOf reading :=
  congrArg programOf h

end Document

namespace Interpreter

/-- With any fuel, even none, the run of what a reader made of a text ends in a failure of the code.
The interpreter stays as it is. -/
def Declines (i : Interpreter) (reading : Except Json.SyntaxError Json) (code : String) : Prop :=
  ∃ e : RunFailure, e.code.text = code ∧ e.exitCode = 2 ∧
    ∀ fuel, i.runDecoded fuel (Document.programOf reading) = some (.error e, i)

/-- With any fuel the run of the text ends in a failure of the code. The interpreter stays as it
is, and no node is evaluated. -/
def Refuses (i : Interpreter) (source code : String) : Prop :=
  ∃ e : RunFailure, e.code.text = code ∧ e.exitCode = 2 ∧
    (∀ fuel, i.runSource fuel source = some (.error e, i)) ∧
    i.Performs (.run source) [] (.error e) i

theorem declines_of_programOf {reading : Except Json.SyntaxError Json} (i : Interpreter)
    {e : Document.Error} (he : Document.programOf reading = .error e) :
    i.Declines reading (RunFailure.decode e).code.text := by
  refine ⟨.decode e, rfl, rfl, fun fuel => ?_⟩
  rw [he]
  rfl

theorem refuses_of_parseProgram {source : String} {e : Document.Error} (i : Interpreter)
    (he : Document.parseProgram source = .error e) :
    i.Refuses source (RunFailure.decode e).code.text :=
  ⟨.decode e, rfl, rfl, fun _ => perform_run_of_error he, .undecoded he⟩

theorem runDecoded_ok (i : Interpreter) (fuel : Nat) (p : Program) :
    i.runDecoded fuel (.ok p) =
      (i.evaluate fuel p.expression i.root).map fun x => (x.1.mapError .eval, x.2) := by
  simp only [runDecoded]
  cases i.evaluate fuel p.expression i.root <;> rfl

end Interpreter

/-- Whatever reader of JSON reads the text: a text that it does not accept is refused under E1001, a
value that is no program under E1002, both before a node is evaluated and with exit code 2. Anything
else is run exactly as its tree is evaluated in the root: a value is reported with exit code 0, a
failure with exit code 1 and the runtime code of its cause. Only failures with runtime codes have
exit code 1. -/
theorem runs_classified :
    (∀ (i : Interpreter) (reading : Except Json.SyntaxError Json),
      (∀ e, reading = .error e → i.Declines reading "E1001") ∧
      (∀ value, reading = .ok value → (∀ p, ¬ RepresentsProgram value p) →
        i.Declines reading "E1002") ∧
      ∀ value p, reading = .ok value → RepresentsProgram value p → ∀ fuel,
        i.runDecoded fuel (Document.programOf reading) =
          (i.evaluate fuel p.expression i.root).map fun x => (x.1.mapError .eval, x.2)) ∧
    (∀ (i : Interpreter) (source : String),
      (∀ e, Json.parse source = .error e → i.Refuses source "E1001") ∧
      (∀ value, Json.parse source = .ok value → (∀ p, ¬ RepresentsProgram value p) →
        i.Refuses source "E1002") ∧
      ∀ value p, Json.parse source = .ok value → RepresentsProgram value p → ∀ fuel,
        i.runSource fuel source =
          (i.evaluate fuel p.expression i.root).map fun x => (x.1.mapError .eval, x.2)) ∧
    (∀ (options : Options) (terminal : Bool) (s : Evaluation.State),
      (∀ v, (finish options terminal (.ok v) s).exitCode = 0) ∧
      ∀ e, (finish options terminal (.error e) s).exitCode = e.exitCode) ∧
    (∀ e : Failure, (RunFailure.eval e).exitCode = 1 ∧
      (RunFailure.eval e).code.text = "E600" ++ Decimal.ofNat e.cause.number) ∧
    ∀ e : RunFailure, e.code.isRuntime = true ↔ e.exitCode = 1 := by
  refine ⟨?_, ?_, fun _ _ _ => ⟨fun _ => rfl, fun _ => rfl⟩, ?_, RunFailure.isRuntime_code_iff⟩
  · intro i reading
    refine ⟨?_, ?_, ?_⟩
    · rintro e rfl
      have hfault : Document.programOf (.error e) = .error (.text e) := rfl
      exact i.declines_of_programOf hfault
    · rintro value rfl hnone
      obtain ⟨fault, hfault⟩ := Document.exists_programOf_eq_error hnone
      exact i.declines_of_programOf hfault
    · rintro value p rfl hp fuel
      rw [Document.programOf_ok_of_represents hp]
      exact i.runDecoded_ok fuel p
  · intro i source
    refine ⟨?_, ?_, ?_⟩
    · intro e he
      exact i.refuses_of_parseProgram (Document.parseProgram_of_reading he)
    · intro value hvalue hnone
      obtain ⟨fault, hfault⟩ := Document.exists_programOf_eq_error hnone
      exact i.refuses_of_parseProgram ((Document.parseProgram_of_reading hvalue).trans hfault)
    · intro value p hvalue hp fuel
      have hparse := (Document.parseProgram_of_reading hvalue).trans
        (Document.programOf_ok_of_represents hp)
      exact Interpreter.perform_run_of_ok hparse
  · intro e
    exact ⟨rfl, e.cause.text_code⟩

/-- A document that lacks a node, after one that would print. -/
def halfDocument : Json :=
  .object (Json.Fields.ofList [("name", .string "p"),
    ("expression", NodeKind.tuple.toJson .unstated [
      ("first", (Term.print (.str "a" .unstated) .unstated).toJson), ("second", .null)])])

/-- A program that divides by zero. -/
def dividing : Program :=
  ⟨"p", .binary .div (.int 1 .unstated) (.int 0 .unstated) .unstated, none⟩

theorem canonical_halfDocument : Json.Canonical halfDocument := by
  have hprint := (Term.print (.str "a" .unstated) .unstated).canonical_toJson
  have hexpression : Json.Canonical (NodeKind.tuple.toJson .unstated [
      ("first", (Term.print (.str "a" .unstated) .unstated).toJson), ("second", .null)]) :=
    NodeKind.canonical_toJson _ _ (by simpa [Json.numberName] using ⟨hprint, .null⟩)
  exact Json.Canonical.ofList (by simpa [Json.numberName] using ⟨.string "p", hexpression⟩)

theorem runs_classified_dividing :
    (Interpreter.new none .buffer false).Refuses "" "E1001" ∧
    (Interpreter.new none .buffer false).Refuses halfDocument.compact "E1002" ∧
    ∃ e j, (Interpreter.new none .buffer false).runSource 10 dividing.toJson.compact =
        some (.error (.eval e), j) ∧
      (RunFailure.eval e).exitCode = 1 ∧ (RunFailure.eval e).code.text = "E6003" := by
  obtain ⟨-, hsource, -, heval, -⟩ := runs_classified
  refine ⟨?_, ?_, ?_⟩
  · obtain ⟨hrefused, -, -⟩ := hsource (.new none .buffer false) ""
    have hparse : (Json.parse "").toOption = none := by cbv
    cases h : Json.parse "" with
    | error e => exact hrefused e h
    | ok value => cases (congrArg Except.toOption h).symm.trans hparse
  · obtain ⟨-, hrefused, -⟩ := hsource (.new none .buffer false) halfDocument.compact
    refine hrefused halfDocument (Json.parse_compact canonical_halfDocument) ?_
    intro p hp
    have hdecode : (Document.decodeProgram halfDocument).toOption = none := by cbv
    rw [Document.decodeProgram_eq_ok_iff.mpr hp] at hdecode
    cases hdecode
  · obtain ⟨-, -, hrun⟩ := hsource (.new none .buffer false) dividing.toJson.compact
    have hevaluate : ((Interpreter.new none .buffer false).evaluate 10 dividing.expression
        (Interpreter.new none .buffer false).root).map Prod.fst =
        some (.error ⟨.divisionByZero, "division by zero", some .unstated, none, []⟩) := by
      cbv
    obtain ⟨⟨r, j⟩, hj, rfl⟩ := Option.map_eq_some_iff.mp hevaluate
    obtain ⟨hexit, hcode⟩ :=
      heval ⟨.divisionByZero, "division by zero", some .unstated, none, []⟩
    refine ⟨_, j, ?_, hexit, hcode⟩
    rw [hrun dividing.toJson dividing (Json.parse_compact dividing.canonical_toJson)
      (Document.representsProgram_toJson dividing), hj]
    rfl

end TreeScript
