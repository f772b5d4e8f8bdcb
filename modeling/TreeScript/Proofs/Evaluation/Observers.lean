import Mathlib
import TreeScript.CommandLine.Report
import TreeScript.Proofs.Evaluation.Coupling
import TreeScript.Proofs.Evaluation.Tasks

/-!
Observers of an evaluation: its printer, its counters, the way in which its end is reported.
Main statement: two interpreters that differ in nothing else do every task alike, and print the
same text.
-/
namespace TreeScript

open Checks (rel_imp)
open Evaluation (Coupling History)

/-- Interpreters that differ at most in their printers and counters. -/
structure Interpreter.Alike (i i' : Interpreter) : Prop where
  root : i'.root = i.root
  store : i'.state.store = i.state.store
  stack : i'.state.stack = i.state.stack

/-- The coupling of states that differ at most in their printers and counters. -/
def observerCoupling : Coupling where
  place := id
  permits _ := True
  closures := Eq
  same := Eq
  states s s' := s'.store = s.store ∧ s'.stack = s.stack
  child _ _ := trivial
  code := by
    rintro c _ rfl
    simp
  stack h := by simp [h.2]
  visit h := h
  print h _ := h
  lookup {s _ f _ name _} _ h hf := by
    subst hf
    rw [h.1, Value.related_eq]
    cases s.store.lookup f name with
    | some v => exact .some rfl
    | none => exact .none
  bind h hf hv name := by
    subst hf
    rw [Value.related_eq_iff] at hv
    simp [Evaluation.State.bind, h.1, h.2, hv]
  make _ h hf := by
    subst hf
    simp [Evaluation.State.newClosure, Store.newClosure, h.1, h.2]
  frames h := by rw [h.1]
  enter := by
    rintro s s' c _ vs vs' h rfl hvs call
    rw [Value.related_eq, List.forall₂_eq_eq_eq] at hvs
    simp [Evaluation.State.called, h.1, h.2, hvs]
  leave h := by simp [Evaluation.State.leave, h.1, h.2]

instance : Std.Refl observerCoupling.same := ⟨fun _ => rfl⟩

theorem eq_of_observed {r r' : Outcome} (h : observerCoupling.Answers r r') : r' = r := by
  cases h with
  | ok hv => rw [Value.related_eq_iff.mp hv]
  | error he => rw [he, show observerCoupling.place = id from rfl, Failure.mapLocations_id]

theorem eq_of_sameHistory {history history' : History}
    (h : observerCoupling.SameHistory history history') : history' = history := by
  induction h with
  | nil => rfl
  | @cons x x' _ _ hx _ ih =>
    obtain ⟨⟨-, hterm, hframe⟩, hanswer⟩ := hx
    have hid : x.1.term.mapLocations observerCoupling.place = x.1.term := x.1.term.mapLocations_id
    have hrequest : x'.1 = x.1 := by
      obtain ⟨⟨term, frame⟩, r⟩ := x
      obtain ⟨⟨term', frame'⟩, r'⟩ := x'
      exact congrArg₂ Evaluation.Request.mk (hterm.trans hid) hframe.symm
    rw [ih, Prod.ext hrequest (eq_of_observed hanswer)]

namespace Interpreter

/-- How a task ends in two interpreters: with one result, by way of the same answers, whose text
both printers take. -/
structure EndsAlike (i i' : Interpreter) (task : Task)
    (x x' : Except RunFailure Value × Interpreter) : Prop where
  result : x'.1 = x.1
  alike : x.2.Alike x'.2
  performed : ∃ history, i.Performs task history x.1 x.2 ∧ i'.Performs task history x'.1 x'.2 ∧
    x.2.state.printer = i.state.printer.receive history.text ∧
    x'.2.state.printer = i'.state.printer.receive history.text

namespace Alike
variable {i i' j j' : Interpreter} {t : Term} {f : FrameId} {task : Task}

theorem coupled (h : i.Alike i') : observerCoupling.states i.state i'.state :=
  ⟨h.store, h.stack⟩

/-- What an evaluation comes to in one interpreter is what it comes to in the other. -/
theorem of_returns (h : i.Alike i') {r r' : Outcome} (hends : observerCoupling.Ends (r, j) (r', j'))
    (hj : i.Returns t f r j) (hj' : i'.Returns t f r' j') : r' = r ∧ j.Alike j' := by
  obtain ⟨hanswer, hstore, hstack⟩ := hends
  obtain ⟨hroot, -⟩ := returns_iff_yields.mp hj
  obtain ⟨hroot', -⟩ := returns_iff_yields.mp hj'
  exact ⟨eq_of_observed hanswer, hroot'.trans (h.root.trans hroot.symm), hstore, hstack⟩

theorem rel_evaluate (h : i.Alike i') (fuel : Nat) (t : Term) (f : FrameId) :
    Option.Rel (fun x x' => x'.1 = x.1 ∧ x.2.Alike x'.2) (i.evaluate fuel t f)
      (i'.evaluate fuel t f) := by
  have hrel := Coupling.rel_evaluate (t := t) (f := f) trivial h.coupled fuel
  rw [show t.mapLocations observerCoupling.place = t from t.mapLocations_id] at hrel
  refine rel_imp hrel ?_
  intro x x' hx hx' hends
  exact h.of_returns hends ⟨fuel, hx⟩ ⟨fuel, hx'⟩

theorem recounts (h : i.Alike i') {history : History} {r : Outcome}
    (hrun : i.Recounts t f history r j) : ∃ j', i'.Recounts t f history r j' ∧ j.Alike j' := by
  obtain ⟨history', r', j', hrun', hsame, hends⟩ := Coupling.recounts trivial h.coupled hrun
  rw [show t.mapLocations observerCoupling.place = t from t.mapLocations_id] at hrun'
  obtain ⟨rfl, hj⟩ := h.of_returns hends hrun.returns hrun'.returns
  cases eq_of_sameHistory hsame
  exact ⟨j', hrun', hj⟩

theorem performs (h : i.Alike i') {history : History} {r : Except RunFailure Value}
    (hrun : i.Performs task history r j) : ∃ j', i'.Performs task history r j' ∧ j.Alike j' := by
  cases hrun with
  | evaluate hrun =>
    obtain ⟨j', hrun', hj⟩ := h.recounts hrun
    exact ⟨j', .evaluate hrun', hj⟩
  | run hp hrun =>
    obtain ⟨j', hrun', hj⟩ := h.recounts hrun
    exact ⟨j', .run hp (h.root ▸ hrun'), hj⟩
  | undecoded hp => exact ⟨i', .undecoded hp, h⟩

theorem rel_perform_evaluate (h : i.Alike i') (fuel : Nat) (t : Term) (f : FrameId) :
    Option.Rel (fun x x' => x'.1 = x.1 ∧ x.2.Alike x'.2) ((Task.evaluate t f).perform fuel i)
      ((Task.evaluate t f).perform fuel i') := by
  have hrel := h.rel_evaluate fuel t f
  dsimp only [Task.perform]
  generalize i.evaluate fuel t f = x at hrel ⊢
  generalize i'.evaluate fuel t f = x' at hrel ⊢
  cases hrel with
  | some hx => exact .some ⟨congrArg (Except.mapError RunFailure.eval) hx.1, hx.2⟩
  | none => exact .none

theorem rel_perform (h : i.Alike i') (task : Task) (fuel : Nat) :
    Option.Rel (fun x x' => x'.1 = x.1 ∧ x.2.Alike x'.2) (task.perform fuel i)
      (task.perform fuel i') := by
  cases task with
  | evaluate t f => exact h.rel_perform_evaluate fuel t f
  | run source =>
    cases hp : Document.parseProgram source with
    | ok p =>
      rw [perform_run_of_ok hp, perform_run_of_ok hp, h.root]
      exact h.rel_perform_evaluate fuel p.expression i.root
    | error e =>
      rw [perform_run_of_error hp, perform_run_of_error hp]
      exact .some ⟨rfl, h⟩

/-- With the same fuel a task ends in both interpreters or in neither. -/
theorem perform (h : i.Alike i') (task : Task) (fuel : Nat) :
    Option.Rel (i.EndsAlike i' task) (task.perform fuel i) (task.perform fuel i') := by
  refine rel_imp (h.rel_perform task fuel) ?_
  rintro ⟨r, j⟩ ⟨_, j'⟩ hx hx' ⟨rfl, hj⟩
  obtain ⟨history, hrun⟩ := exists_perform_iff.mp ⟨fuel, hx⟩
  obtain ⟨history', hrun'⟩ := exists_perform_iff.mp ⟨fuel, hx'⟩
  obtain ⟨k, hsame, -⟩ := h.performs hrun
  obtain ⟨-, rfl⟩ := hrun'.unique hsame
  exact ⟨rfl, hj, history, hrun, hsame, hrun.printer_eq, hsame.printer_eq⟩

end Alike

end Interpreter

namespace CommandLine
variable {options options' : Options}

/-- Reports that tell a script the same: they may differ in what they write for people. -/
def Report.Alike (report report' : Report) : Prop :=
  report'.exitCode = report.exitCode ∧ report'.stdout = report.stdout

theorem alike_interpreter (h : options'.maxDepth = options.maxDepth) (sink sink' : Sink) :
    (options.interpreter sink).Alike (options'.interpreter sink') := by
  refine ⟨rfl, rfl, ?_⟩
  exact congrArg CallStack.empty h

theorem alike_finish {terminal terminal' : Bool} {result : Except RunFailure Value}
    {s s' : Evaluation.State} (h : s'.printer = s.printer) :
    (finish options terminal result s).Alike (finish options' terminal' result s') := by
  have hheld : s'.printer.held = s.printer.held := congrArg Printer.held h
  cases result with
  | ok v => exact ⟨rfl, hheld⟩
  | error e => exact ⟨rfl, hheld⟩

theorem alike_runText (h : options'.maxDepth = options.maxDepth) (fuel : Nat)
    (terminal terminal' : Bool) (text : String) :
    Option.Rel Report.Alike (runText fuel options terminal text)
      (runText fuel options' terminal' text) := by
  have hrel := (alike_interpreter h .standard .standard).perform (.run text) fuel
  dsimp only [Task.perform] at hrel
  dsimp only [runText]
  generalize (options.interpreter .standard).runSource fuel text = x at hrel ⊢
  generalize (options'.interpreter .standard).runSource fuel text = x' at hrel ⊢
  cases hrel with
  | none => exact .none
  | @some x x' hends =>
    obtain ⟨history, -, -, hprinter, hprinter'⟩ := hends.performed
    refine .some ?_
    rw [hends.result]
    exact alike_finish (hprinter'.trans hprinter.symm)

/-- What the terminal shows of a run and whether it is profiled do not matter to its report. -/
theorem alike_report (h : options'.maxDepth = options.maxDepth) (fuel : Nat)
    (world : Surroundings) (terminal : Bool) (file : Option String) :
    Option.Rel Report.Alike ((Action.run options file).report fuel world)
      ((Action.run options' file).report fuel { world with stderrIsTerminal := terminal }) := by
  dsimp only [Action.report]
  cases world.read (Input.select file world.stdinIsTerminal) with
  | ok text => exact alike_runText h fuel world.stderrIsTerminal terminal text
  | error fault => exact .some ⟨rfl, rfl⟩

end CommandLine

open CommandLine (Options Surroundings Action Report)

/-- Two interpreters that differ at most in their printers and counters do every task alike: with
the same fuel it ends in both or in neither, with one result, equal frames and one history. Each
printer takes exactly the text of that history. Options that set the same limit give runs and
reports that are alike. -/
theorem observers_change_nothing :
    (∀ (i i' : Interpreter), i.Alike i' → ∀ (task : Task) (fuel : Nat),
      Option.Rel (i.EndsAlike i' task) (task.perform fuel i) (task.perform fuel i')) ∧
    (∀ (i j : Interpreter) (task : Task) (history : History) (r : Except RunFailure Value),
      i.Performs task history r j → i.state.printer.sink = .buffer →
        j.captured = i.captured ++ history.text) ∧
    ∀ (options options' : Options), options'.maxDepth = options.maxDepth →
      (∀ (sink sink' : Sink), (options.interpreter sink).Alike (options'.interpreter sink')) ∧
      ∀ (fuel : Nat) (world : Surroundings) (terminal : Bool) (file : Option String),
        Option.Rel Report.Alike ((Action.run options file).report fuel world)
          ((Action.run options' file).report fuel { world with stderrIsTerminal := terminal }) := by
  refine ⟨fun _ _ h => h.perform, ?_, ?_⟩
  · intro i j task history r hrun hsink
    rw [Interpreter.captured, hrun.printer_eq]
    exact Printer.captured_receive hsink history.text
  · intro options options' h
    exact ⟨CommandLine.alike_interpreter h, CommandLine.alike_report h⟩

/-- A program that prints a text and then fails. -/
def printingFailure : Term :=
  .binding ⟨"x", .unstated⟩ (.print (.str "a" .unstated) .unstated)
    (.first (.var "x" .unstated) .unstated) .unstated

/-- An interpreter with a buffer that holds a text already. -/
def bufferHost : Interpreter :=
  ⟨⟨0⟩, ⟨⟨#[⟨[], none⟩], 0⟩, ⟨.buffer, "seen"⟩, .empty (some 5), none⟩⟩

/-- An interpreter that prints nowhere and counts. -/
def silentHost : Interpreter :=
  ⟨⟨0⟩, ⟨⟨#[⟨[], none⟩], 0⟩, .new .silent, .empty (some 5), some .zero⟩⟩

theorem observers_change_nothing_printingFailure :
    (∃ history e j j', bufferHost.Performs (.evaluate printingFailure ⟨0⟩) history (.error e) j ∧
      silentHost.Performs (.evaluate printingFailure ⟨0⟩) history (.error e) j' ∧
      j.Alike j' ∧ j.captured = "seen" ++ history.text) ∧
    (Options.default.interpreter .standard).Alike
      (Options.interpreter ⟨Options.default.maxDepth, true, true, .never, .json⟩ .silent) := by
  obtain ⟨hperform, hprinted, hoptions⟩ := observers_change_nothing
  refine ⟨?_, (hoptions .default ⟨Options.default.maxDepth, true, true, .never, .json⟩ rfl).1 _ _⟩
  have hrun : ((Task.evaluate printingFailure ⟨0⟩).perform 20 bufferHost).map Prod.fst =
      some (.error (.eval
        ⟨.typeMismatch .tuple .str, "`str` is not a tuple", some .unstated, none, []⟩)) := by
    cbv
  obtain ⟨⟨r, j⟩, hj, rfl⟩ := Option.map_eq_some_iff.mp hrun
  have hrel := hperform bufferHost silentHost ⟨rfl, rfl, rfl⟩ (.evaluate printingFailure ⟨0⟩) 20
  rw [hj] at hrel
  generalize (Task.evaluate printingFailure ⟨0⟩).perform 20 silentHost = x' at hrel
  cases hrel with
  | @some _ x' hends =>
    obtain ⟨history, hbuffer, hsilent, -, -⟩ := hends.performed
    have hcaptured := hprinted _ _ _ _ _ hbuffer rfl
    rw [hends.result] at hsilent
    exact ⟨history, _, j, x'.2, hbuffer, hsilent, hends.alike, hcaptured⟩

end TreeScript
