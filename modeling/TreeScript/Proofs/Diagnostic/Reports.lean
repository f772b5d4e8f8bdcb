import Mathlib
import TreeScript.Proofs.Diagnostic.JsonLines
import TreeScript.Proofs.Diagnostic.Terminal
import TreeScript.Proofs.Evaluation.Provenance
import TreeScript.Proofs.Evaluation.Tasks

/-!
The reports of one failure. An evaluation fails at a place, so its diagnostic is labelled there
first and at the related places after that. Main statement: the text of the failure, its headline,
the report for people and the report for programs tell the same places and messages.
-/
namespace TreeScript

open Json (Fields)

namespace Failure

/-- The place of the failure first, then the related places. -/
theorem toDiagnostic_of_location {e : Failure} {l : Location} (h : e.location = some l) :
    e.toDiagnostic = ⟨e.code, .error, e.message,
      ⟨l, e.message, true⟩ :: e.notes.map fun n => ⟨n.location, n.message, false⟩, []⟩ := by
  have hnotes (notes : List Note) (d : Diagnostic) :
      notes.foldl (fun d note => d.withSecondary note.location note.message) d =
        { d with
          labels := d.labels ++ notes.map fun note => ⟨note.location, note.message, false⟩ } := by
    induction notes generalizing d with
    | nil => simp
    | cons note notes ih =>
      rw [List.foldl_cons, ih]
      simp [Diagnostic.withSecondary]
  unfold toDiagnostic
  rw [h, hnotes]
  rfl

section Located
variable {e : Failure} {l : Location} (h : e.location = some l)
include h

theorem text_of_location : e.text = l.text ++ ": " ++ e.message := by
  rw [text, h]

/-- The labels but the first are secondary. -/
theorem secondary_toDiagnostic :
    e.toDiagnostic.secondary = e.notes.map fun note => ⟨note.location, note.message, false⟩ := by
  rw [toDiagnostic_of_location h]
  simp [Diagnostic.secondary]

theorem primary_toDiagnostic :
    e.toDiagnostic.labels.filter Label.isPrimary = [⟨l, e.message, true⟩] := by
  rw [toDiagnostic_of_location h]
  simp

theorem headline_toDiagnostic : e.toDiagnostic.headline = e.text := by
  rw [text_of_location h, toDiagnostic_of_location h]
  rfl

theorem terminal_toDiagnostic :
    e.toDiagnostic.terminal false = e.text ++ "\n" ++ String.join (e.notes.map fun note =>
      "  --> " ++ note.location.text ++ ": " ++ note.message ++ "\n") := by
  have hnone : e.toDiagnostic.notes = [] := by rw [toDiagnostic_of_location h]
  have hline (note : Note) :
      Diagnostic.terminalLabel false ⟨note.location, note.message, false⟩ =
        "  --> " ++ note.location.text ++ ": " ++ note.message ++ "\n" := rfl
  unfold Diagnostic.terminal
  rw [hnone, List.foldl_nil, secondary_toDiagnostic h, Diagnostic.terminalHeadline_plain,
    headline_toDiagnostic h, Diagnostic.foldl_eq_append_join, List.map_map]
  exact congrArg (e.text ++ "\n" ++ String.join ·) (List.map_congr_left fun note _ => hline note)

end Located

/-- What a report adds on the calls in progress, if they are wanted and known. -/
def callsText (wanted : Bool) (e : Failure) : String :=
  if wanted then (e.backtrace.map Backtrace.text).getD "" else ""

end Failure

/-- The calls are added after the diagnostic, in either format. -/
theorem RunFailure.report_eval (format : ReportFormat) (colors withBacktrace : Bool)
    (e : Failure) : (RunFailure.eval e).report format colors withBacktrace =
      (RunFailure.eval e).report format colors false ++ e.callsText withBacktrace := by
  unfold report
  cases withBacktrace with
  | false => exact (String.append_empty).symm
  | true =>
    cases hcalls : e.backtrace with
    | none => simp [backtrace?, Failure.callsText, hcalls]
    | some b => simp [backtrace?, Failure.callsText, hcalls]

/-- What the object of a diagnostic holds. -/
theorem Diagnostic.exists_fields (d : Diagnostic) :
    ∃ fields : Fields, d.toJson = .object fields ∧
      fields.get? "code" = some (.string d.code.text) ∧
      fields.get? "message" = some (.string d.message) ∧
      fields.get? "rendered" = some (.string d.headline) := by
  refine ⟨_, rfl, ?_⟩
  simp [Fields.ofList]

/-- The failure has a place, and the message of its cause. -/
def Failure.Placed (e : Failure) : Prop :=
  (∃ l, e.location = some l) ∧ e.message = e.cause.message

/-- Every failure of an evaluation has the place of the node that failed. -/
theorem Evaluation.Evaluates.placed {t : Term} {f : FrameId} {s u : State} {e : Failure}
    (h : Evaluates t f s (.error e) u) : e.Placed := by
  obtain ⟨calls, p, w, d, hfails⟩ := h.fails e rfl
  obtain ⟨hcause, hmessage, hlocation, -⟩ := hfails.same h
  refine ⟨⟨p.term.location, hlocation.trans hfails.2.location_eq⟩, ?_⟩
  rw [hmessage, hcause]
  exact hfails.2.message_eq

theorem Interpreter.Performs.placed {i j : Interpreter} {task : Task}
    {history : Evaluation.History} {e : Failure}
    (h : i.Performs task history (.error (.eval e)) j) : e.Placed := by
  have hreturns {t : Term} {f : FrameId} {o : Outcome} (hrun : i.Recounts t f history o j)
      (ho : o.mapError RunFailure.eval = .error (.eval e)) : e.Placed := by
    cases o with
    | ok v => cases ho
    | error d =>
      cases ho
      obtain ⟨-, hy⟩ := Interpreter.returns_iff_yields.mp hrun.returns
      exact (Evaluation.yields_iff_evaluates.mp hy).placed
  generalize hr : Except.error (RunFailure.eval e) = r at h
  cases h with
  | evaluate hrun => exact hreturns hrun hr.symm
  | run _ hrun => exact hreturns hrun hr.symm
  | undecoded => cases hr

/-- Whenever a term that is evaluated or a text that is run fails in evaluation, the failure has a
place and the message of its cause. Its diagnostic has one primary label, the first, at this place
and with the message, then a secondary label for each related place in order, and no notes. The text
of the failure is the headline, and the rendered text in the report for programs. Without colours,
the report for people is this text on a line, a line for each related place, and the calls if they
are wanted and known. The line for programs has the code of the cause, and this same diagnostic is
read from it. -/
theorem reports_agree (i j : Interpreter) (task : Task) (fuel : Nat) (e : Failure)
    (h : task.perform fuel i = some (.error (.eval e), j)) :
    ∃ l, e.location = some l ∧ e.message = e.cause.message ∧
      e.toDiagnostic = ⟨e.cause.code, .error, e.message,
        ⟨l, e.message, true⟩ :: e.notes.map fun n => ⟨n.location, n.message, false⟩, []⟩ ∧
      e.toDiagnostic.labels.filter Label.isPrimary = [⟨l, e.message, true⟩] ∧
      e.text = l.text ++ ": " ++ e.message ∧ e.text = e.toDiagnostic.headline ∧
      (∀ withBacktrace, (RunFailure.eval e).report .human false withBacktrace =
        e.text ++ "\n" ++ String.join (e.notes.map fun n =>
          "  --> " ++ n.location.text ++ ": " ++ n.message ++ "\n") ++ e.callsText withBacktrace) ∧
      ∃ fields : Fields,
        (∀ colors withBacktrace, (RunFailure.eval e).report .json colors withBacktrace =
          (Json.object fields).compact ++ "\n" ++ e.callsText withBacktrace) ∧
        Json.parse (Json.object fields).compact = .ok (.object fields) ∧
        fields.get? "code" = some (.string e.cause.code.text) ∧
        fields.get? "message" = some (.string e.message) ∧
        fields.get? "rendered" = some (.string e.text) ∧
        Diagnostic.ofJson? (.object fields) = some e.toDiagnostic := by
  obtain ⟨history, hperforms⟩ := Interpreter.exists_perform_iff.mp ⟨fuel, h⟩
  obtain ⟨⟨l, hl⟩, hcauseMessage⟩ := hperforms.placed
  have hdiagnostic := Failure.toDiagnostic_of_location hl
  obtain ⟨fields, hfields, hcode, hmessage, hrendered⟩ := e.toDiagnostic.exists_fields
  rw [Failure.headline_toDiagnostic hl] at hrendered
  rw [hdiagnostic] at hcode hmessage
  refine ⟨l, hl, hcauseMessage, hdiagnostic, Failure.primary_toDiagnostic hl,
    Failure.text_of_location hl, (Failure.headline_toDiagnostic hl).symm, ?_, fields, ?_, ?_,
    hcode, hmessage, hrendered, ?_⟩
  · intro withBacktrace
    rw [← Failure.terminal_toDiagnostic hl]
    exact RunFailure.report_eval .human false withBacktrace e
  · intro colors withBacktrace
    rw [← hfields]
    exact RunFailure.report_eval .json colors withBacktrace e
  · rw [← hfields]
    exact Json.parse_compact e.toDiagnostic.canonical_toJson
  · rw [← hfields]
    exact e.toDiagnostic.ofJson?_toJson

theorem reports_agree_shortCall :
    ∃ e j, (Task.evaluate shortCall ⟨0⟩).perform 60 (.new none .silent false) =
        some (.error (.eval e), j) ∧
      (RunFailure.eval e).report .human false true =
        "short:50:54: expected 2 arguments, got 1\n  --> short:8:24: function defined here\n" ++
          "stack backtrace:\n  0: g at short:70:74\n" := by
  have hrun : ((Task.evaluate shortCall ⟨0⟩).perform 60 (.new none .silent false)).map Prod.fst =
      some (.error (.eval ⟨.arityMismatch 2 1, "expected 2 arguments, got 1",
        some ⟨"short", 50, 54⟩, some ⟨[⟨"g", ⟨"short", 70, 74⟩⟩]⟩,
        [⟨"function defined here", ⟨"short", 8, 24⟩⟩]⟩)) := by
    cbv
  obtain ⟨⟨r, j⟩, hj, rfl⟩ := Option.map_eq_some_iff.mp hrun
  obtain ⟨-, -, -, -, -, -, -, hhuman, -⟩ := reports_agree _ j _ 60 _ hj
  exact ⟨_, j, hj, (hhuman true).trans (by decide +kernel)⟩

end TreeScript
