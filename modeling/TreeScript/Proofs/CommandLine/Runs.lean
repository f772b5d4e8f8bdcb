import TreeScript.CommandLine.Report
import TreeScript.Proofs.Evaluation.Limit
import TreeScript.Proofs.Evaluation.Tasks

/-!
What a run answers, said of its options, of what it reads and of how its program ends. Main
statement: the reports of the runs that end are exactly these answers.
-/
namespace TreeScript

open Evaluation (History State)

namespace CommandLine

/-- A program is read from standard input. If that is a terminal, it is read from the file given,
or from the file at the default path if none is. -/
inductive ReadsFrom (file : Option String) (world : Surroundings) : Input → Prop where
  | piped : world.stdinIsTerminal = false → ReadsFrom file world .standard
  | given {path : String} : world.stdinIsTerminal = true → file = some path →
    ReadsFrom file world (.file path)
  | fallback : world.stdinIsTerminal = true → file = none →
    ReadsFrom file world (.file defaultPath)

namespace Options

/-- A run starts in one empty frame with no call in progress, under the limit of the options. It
prints to standard output, and counts from zero if a profile is wanted. -/
structure Starts (options : Options) (i : Interpreter) : Prop where
  root : i.root = ⟨0⟩
  store : i.state.store = ⟨#[⟨[], none⟩], 0⟩
  stack : i.state.stack = ⟨#[], options.maxDepth⟩
  printer : i.state.printer = ⟨.standard, ""⟩
  counted : options.profile = true → i.state.counters = some .zero
  uncounted : options.profile = false → i.state.counters = none

/-- Failures are shown in colours. -/
def Colors (options : Options) (world : Surroundings) : Prop :=
  options.color = .always ∨ options.color = .auto ∧ world.stderrIsTerminal = true

/-- How a failure is shown in the format of the options. -/
inductive Shows (options : Options) (world : Surroundings) (e : RunFailure) : String → Prop where
  | json : options.format = .json → Shows options world e e.toDiagnostic.jsonLine
  | colored : options.format = .human → options.Colors world →
    Shows options world e (e.toDiagnostic.terminal true)
  | plain : options.format = .human → ¬ options.Colors world →
    Shows options world e (e.toDiagnostic.terminal false)

/-- What is written about a failure. The calls it happened in follow if they are wanted and it
names any. -/
inductive Tells (options : Options) (world : Surroundings) : RunFailure → String → Prop where
  | traced {e : Failure} {b : Backtrace} {shown : String} : Shows options world (.eval e) shown →
    options.backtrace = true → e.backtrace = some b →
    Tells options world (.eval e) (shown ++ b.text)
  | untraced {e : RunFailure} {shown : String} : Shows options world e shown →
    (options.backtrace = true → ∀ failure, e = .eval failure → failure.backtrace = none) →
    Tells options world e shown

/-- What is written of the counters after a run. -/
inductive Profiles (options : Options) (j : Interpreter) : String → Prop where
  | counted {c : Counters} : options.profile = true → j.state.counters = some c →
    Profiles options j (c.report ++ "\n")
  | uncounted : options.profile = false → Profiles options j ""

end Options

/-- What a run that ends answers. Standard output has the lines that the program printed. A failure
is told after the counters. The exit code is one for a failure of the evaluation and two for a
program that was not read or not decoded. -/
inductive Answers (options : Options) (file : Option String) (world : Surroundings) :
    Report → Prop where
  | unread {source : Input} {fault : ReadFault} {message : String} :
      ReadsFrom file world source → world.read source = .error fault →
      options.Tells world (.read source fault) message →
      Answers options file world ⟨2, "", message⟩
  | undecoded {source : Input} {text : String} {i : Interpreter} {e : Document.Error}
      {profile message : String} :
      ReadsFrom file world source → world.read source = .ok text → options.Starts i →
      Document.parseProgram text = .error e → options.Profiles i profile →
      options.Tells world (.decode e) message →
      Answers options file world ⟨2, "", profile ++ message⟩
  | failed {source : Input} {text : String} {p : Program} {i j : Interpreter} {history : History}
      {e : Failure} {profile message : String} :
      ReadsFrom file world source → world.read source = .ok text → options.Starts i →
      Document.parseProgram text = .ok p →
      i.Recounts p.expression i.root history (.error e) j → options.Profiles j profile →
      options.Tells world (.eval e) message →
      Answers options file world ⟨1, history.text, profile ++ message⟩
  | completed {source : Input} {text : String} {p : Program} {i j : Interpreter}
      {history : History} {v : Value} {profile : String} :
      ReadsFrom file world source → world.read source = .ok text → options.Starts i →
      Document.parseProgram text = .ok p →
      i.Recounts p.expression i.root history (.ok v) j → options.Profiles j profile →
      Answers options file world ⟨0, history.text, profile⟩

theorem readsFrom_iff {file : Option String} {world : Surroundings} {source : Input} :
    ReadsFrom file world source ↔ source = Input.select file world.stdinIsTerminal := by
  constructor
  · intro h
    cases h with
    | piped hstdin => simp [Input.select, hstdin]
    | given hstdin hfile | fallback hstdin hfile => simp [Input.select, hstdin, hfile]
  · rintro rfl
    cases hstdin : world.stdinIsTerminal with
    | false => exact .piped hstdin
    | true =>
      cases file with
      | some path => exact .given hstdin rfl
      | none => exact .fallback hstdin rfl

namespace Options
variable {options : Options} {world : Surroundings} {i j : Interpreter} {e : RunFailure}
  {text : String}

theorem starts_iff : options.Starts i ↔ i = options.interpreter .standard := by
  constructor
  · intro h
    obtain ⟨root, ⟨store, printer, stack, counters⟩⟩ := i
    obtain ⟨rfl, rfl, rfl, rfl, hcounted, huncounted⟩ := h
    cases hprofile : options.profile with
    | false =>
      obtain rfl := huncounted hprofile
      simp only [interpreter, hprofile]
      rfl
    | true =>
      obtain rfl := hcounted hprofile
      simp only [interpreter, hprofile]
      rfl
  · rintro rfl
    refine ⟨rfl, rfl, rfl, rfl, ?_, ?_⟩ <;> intro hprofile <;>
      simp [interpreter, Interpreter.new, hprofile]

theorem colors_iff :
    options.Colors world ↔ options.color.enabled world.stderrIsTerminal = true := by
  unfold Colors
  cases options.color <;> simp [ColorChoice.enabled]

theorem shows_iff : options.Shows world e text ↔
    text = RunFailure.report options.format (options.color.enabled world.stderrIsTerminal) false
      e := by
  constructor
  · intro h
    cases h with
    | json hformat => rw [hformat]; rfl
    | colored hformat hcolors => rw [hformat, colors_iff.mp hcolors]; rfl
    | plain hformat hcolors =>
      rw [hformat, Bool.eq_false_iff.mpr (mt colors_iff.mpr hcolors)]
      rfl
  · rintro rfl
    cases hformat : options.format with
    | json => exact .json hformat
    | human =>
      cases hcolors : options.color.enabled world.stderrIsTerminal with
      | true => exact .colored hformat (colors_iff.mpr hcolors)
      | false => exact .plain hformat (mt colors_iff.mp (Bool.eq_false_iff.mp hcolors))

/-- The calls follow the text without them. -/
theorem errorText_eq (terminal : Bool) : options.errorText terminal e =
    RunFailure.report options.format (options.color.enabled terminal) false e ++
      if options.backtrace then e.backtrace?.elim "" Backtrace.text else "" := by
  unfold errorText RunFailure.report
  cases options.backtrace with
  | false => simp
  | true => cases e.backtrace? <;> simp

theorem tells_iff : options.Tells world e text ↔
    text = options.errorText world.stderrIsTerminal e := by
  rw [errorText_eq]
  constructor
  · intro h
    cases h with
    | traced hshown hwanted hcalls =>
      rw [shows_iff.mp hshown, hwanted, if_pos rfl, RunFailure.backtrace?, hcalls]
      rfl
    | untraced hshown hnone =>
      rw [shows_iff.mp hshown]
      cases hwanted : options.backtrace with
      | false => simp
      | true =>
        cases e with
        | eval failure => simp [RunFailure.backtrace?, hnone hwanted failure rfl]
        | _ => simp [RunFailure.backtrace?]
  · rintro rfl
    have hshown := shows_iff.mpr (Eq.refl (RunFailure.report options.format
      (options.color.enabled world.stderrIsTerminal) false e))
    cases hwanted : options.backtrace with
    | false => simpa using Tells.untraced hshown (by simp [hwanted])
    | true =>
      cases e with
      | eval failure =>
        cases hcalls : failure.backtrace with
        | some b => simpa [RunFailure.backtrace?, hcalls] using Tells.traced hshown hwanted hcalls
        | none =>
          simpa [RunFailure.backtrace?, hcalls] using Tells.untraced hshown (by simp [hcalls])
      | read => simpa [RunFailure.backtrace?] using Tells.untraced hshown (by simp)
      | decode => simpa [RunFailure.backtrace?] using Tells.untraced hshown (by simp)

/-- The profile that an end of a run is reported with. -/
theorem profiles_iff (h : j.state.counters.isSome = options.profile) :
    options.Profiles j text ↔
      text = j.state.counters.elim "" fun counters => counters.report ++ "\n" := by
  cases hcounters : j.state.counters with
  | none =>
    have hprofile : options.profile = false := by rw [← h, hcounters]; rfl
    constructor
    · intro hp
      cases hp with
      | counted hwanted => cases hprofile.symm.trans hwanted
      | uncounted => rfl
    · rintro rfl
      exact .uncounted hprofile
  | some counters =>
    have hprofile : options.profile = true := by rw [← h, hcounters]; rfl
    constructor
    · intro hp
      cases hp with
      | counted _ hc =>
        cases hcounters.symm.trans hc
        rfl
      | uncounted hunwanted => cases hprofile.symm.trans hunwanted
    · rintro rfl
      exact .counted hprofile hcounters

end Options

variable {options : Options} {file : Option String} {world : Surroundings} {report : Report}
  {text : String} {p : Program} {i j : Interpreter}

theorem finish_ok (options : Options) (terminal : Bool) (v : Value) (s : State) :
    finish options terminal (.ok v) s =
      ⟨0, s.printer.held, s.counters.elim "" fun counters => counters.report ++ "\n"⟩ := by
  unfold finish
  cases s.counters <;> rfl

theorem finish_error (options : Options) (terminal : Bool) (e : RunFailure) (s : State) :
    finish options terminal (.error e) s =
      ⟨e.exitCode, s.printer.held, (s.counters.elim "" fun counters => counters.report ++ "\n") ++
        options.errorText terminal e⟩ := by
  unfold finish
  cases s.counters <;> rfl

section Program
variable {source : Input} (hsource : ReadsFrom file world source)
  (hread : world.read source = .ok text) (hstarts : options.Starts i)
include hsource hread hstarts

theorem report_of_undecoded {e : Document.Error} (he : Document.parseProgram text = .error e)
    (fuel : Nat) : (Action.run options file).report fuel world =
      some (finish options world.stderrIsTerminal (.error (.decode e)) i.state) := by
  rw [readsFrom_iff.mp hsource] at hread
  simp only [Action.report, hread, runText, ← Options.starts_iff.mp hstarts, Interpreter.runSource,
    Interpreter.runDecoded, he]

/-- The run of a program ends as an evaluation of its tree does. -/
theorem exists_report_iff_recounts (hp : Document.parseProgram text = .ok p) :
    (∃ fuel, (Action.run options file).report fuel world = some report) ↔
      ∃ history r j, i.Recounts p.expression i.root history r j ∧
        report = finish options world.stderrIsTerminal (r.mapError .eval) j.state := by
  have hreport : ∀ fuel, (Action.run options file).report fuel world =
      (i.evaluate fuel p.expression i.root).map fun x =>
        finish options world.stderrIsTerminal (x.1.mapError .eval) x.2.state := by
    intro fuel
    rw [readsFrom_iff.mp hsource] at hread
    simp only [Action.report, hread, runText, ← Options.starts_iff.mp hstarts,
      Interpreter.runSource, Interpreter.runDecoded, hp]
    cases i.evaluate fuel p.expression i.root <;> rfl
  simp only [hreport]
  constructor
  · rintro ⟨fuel, h⟩
    obtain ⟨⟨r, j⟩, hj, rfl⟩ := Option.map_eq_some_iff.mp h
    obtain ⟨history, hrun⟩ := Interpreter.Returns.exists_recounts ⟨fuel, hj⟩
    exact ⟨history, r, j, hrun, rfl⟩
  · rintro ⟨history, r, j, hrun, rfl⟩
    obtain ⟨fuel, hj⟩ := hrun.returns
    exact ⟨fuel, Option.map_eq_some_iff.mpr ⟨(r, j), hj, rfl⟩⟩

end Program

namespace Options.Starts

theorem counted_eq (h : options.Starts i) : i.state.counters.isSome = options.profile := by
  cases hprofile : options.profile with
  | false => rw [h.uncounted hprofile]; rfl
  | true => rw [h.counted hprofile]; rfl

/-- After a run from the start standard output has what the program printed, and there are counters
if they are wanted. -/
theorem of_recounts {t : Term} {f : FrameId} {history : History} {r : Outcome}
    (h : options.Starts i) (hrun : i.Recounts t f history r j) :
    j.state.printer.held = history.text ∧ j.state.counters.isSome = options.profile := by
  constructor
  · rw [hrun.printer_eq, h.printer]
    exact String.empty_append
  · obtain ⟨-, hy⟩ := Interpreter.returns_iff_yields.mp hrun.returns
    exact (Evaluation.counted_of_steps (Evaluation.steps_of_yields hy)).trans h.counted_eq

end Options.Starts

theorem answers_of_report {fuel : Nat}
    (h : (Action.run options file).report fuel world = some report) :
    Answers options file world report := by
  have hsource := readsFrom_iff.mpr (Eq.refl (Input.select file world.stdinIsTerminal))
  have hstarts := Options.starts_iff.mpr (Eq.refl (options.interpreter .standard))
  cases hread : world.read (Input.select file world.stdinIsTerminal) with
  | error fault =>
    simp only [Action.report, hread] at h
    cases h
    exact .unread hsource hread (Options.tells_iff.mpr rfl)
  | ok text =>
    cases hp : Document.parseProgram text with
    | error e =>
      rw [report_of_undecoded hsource hread hstarts hp, finish_error] at h
      cases h
      have hprofile := (Options.profiles_iff hstarts.counted_eq).mpr rfl
      exact .undecoded hsource hread hstarts hp hprofile (Options.tells_iff.mpr rfl)
    | ok p =>
      obtain ⟨history, r, j, hrun, rfl⟩ :=
        (exists_report_iff_recounts hsource hread hstarts hp).mp ⟨fuel, h⟩
      obtain ⟨hheld, hcounted⟩ := hstarts.of_recounts hrun
      have hprofile := (Options.profiles_iff hcounted).mpr rfl
      cases r with
      | ok v =>
        dsimp only [Except.mapError]
        rw [finish_ok, hheld]
        exact .completed hsource hread hstarts hp hrun hprofile
      | error e =>
        dsimp only [Except.mapError]
        rw [finish_error, hheld]
        exact .failed hsource hread hstarts hp hrun hprofile (Options.tells_iff.mpr rfl)

theorem Answers.exists_report (h : Answers options file world report) :
    ∃ fuel, (Action.run options file).report fuel world = some report := by
  cases h with
  | unread hsource hread htells =>
    rw [readsFrom_iff.mp hsource] at hread htells
    refine ⟨0, ?_⟩
    simp only [Action.report, hread]
    rw [Options.tells_iff.mp htells]
    rfl
  | undecoded hsource hread hstarts hp hprofile htells =>
    refine ⟨0, ?_⟩
    rw [report_of_undecoded hsource hread hstarts hp, finish_error, hstarts.printer,
      Options.tells_iff.mp htells, (Options.profiles_iff hstarts.counted_eq).mp hprofile]
    rfl
  | failed hsource hread hstarts hp hrun hprofile htells =>
    obtain ⟨hheld, hcounted⟩ := hstarts.of_recounts hrun
    refine (exists_report_iff_recounts hsource hread hstarts hp).mpr ⟨_, _, _, hrun, ?_⟩
    dsimp only [Except.mapError]
    rw [finish_error, hheld, Options.tells_iff.mp htells,
      (Options.profiles_iff hcounted).mp hprofile]
    rfl
  | completed hsource hread hstarts hp hrun hprofile =>
    obtain ⟨hheld, hcounted⟩ := hstarts.of_recounts hrun
    refine (exists_report_iff_recounts hsource hread hstarts hp).mpr ⟨_, _, _, hrun, ?_⟩
    dsimp only [Except.mapError]
    rw [finish_ok, hheld, (Options.profiles_iff hcounted).mp hprofile]

/-- The reports of the runs that end are exactly the answers. -/
theorem exists_report_iff_answers :
    (∃ fuel, (Action.run options file).report fuel world = some report) ↔
      Answers options file world report := by
  constructor
  · rintro ⟨fuel, h⟩
    exact answers_of_report h
  · exact Answers.exists_report

end CommandLine

end TreeScript
