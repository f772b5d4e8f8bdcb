import Mathlib
import TreeScript.Proofs.Evaluation.Coupling
import TreeScript.Proofs.Store.Locations

/-!
Locations in an evaluation. Main statement: two evaluations that are the same but for locations
end together, and what they end with, print, count and leave bound is the same but for locations.
-/
namespace TreeScript

open Checks (Agree rel_imp rel_join)
open Evaluation (Coupling History)

/-- The coupling of states of which the second has the locations of the first changed. -/
def relocation (φ : Location → Location) : Coupling where
  place := φ
  permits _ := True
  closures c c' := c' = c.mapLocations φ
  same := Eq
  states s s' := s'.store = s.store.mapLocations φ ∧ s'.stack = s.stack.mapLocations φ ∧
    s'.counters = s.counters
  child _ _ := trivial
  code := by
    rintro c _ rfl
    simp [Closure.mapLocations, Closure.arity]
  stack h := h.2.1
  visit h := by simp [Evaluation.State.visit, h]
  print h _ := h
  lookup {s _ f _ name _} _ h hf := by
    subst hf
    rw [h.1, Store.lookup_mapLocations]
    cases s.store.lookup f name with
    | some v => exact .some ((Value.related_mapLocations_iff φ).mpr rfl)
    | none => exact .none
  bind h hf hv name := by
    subst hf
    rw [Value.related_mapLocations_iff] at hv
    simp [Evaluation.State.bind, h, hv, Store.bind_mapLocations]
  make _ h hf := by
    subst hf
    simp [Evaluation.State.newClosure, Store.newClosure, h, Closure.mapLocations,
      Store.mapLocations]
  frames h := by simp [h.1]
  enter := by
    rintro s s' c _ vs vs' h rfl hvs call
    rw [Value.eq_map_of_related φ hvs]
    simp [Evaluation.State.called, Closure.mapLocations, Store.newChild_mapLocations, h]
  leave h := by simp [Evaluation.State.leave, h]

instance (φ : Location → Location) : Std.Refl (relocation φ).same := ⟨fun _ => rfl⟩

/-- Failures with the same cause and message, the same notes and the same calls, but for where these
are. -/
structure Failure.SameButLocations (e e' : Failure) : Prop where
  cause : e'.cause = e.cause
  message : e'.message = e.message
  located : e'.location.isSome = e.location.isSome
  notes : e'.notes.map Failure.Note.message = e.notes.map Failure.Note.message
  calls : e'.backtrace.map (fun b => b.calls.map Call.name) =
    e.backtrace.map fun b => b.calls.map Call.name

/-- Values that are the same but for the locations in closures. -/
def Value.SameButLocations (v v' : Value) : Prop :=
  v'.mapLocations .forget = v.mapLocations .forget

/-- Interpreters that are the same but for locations, and but for what they have printed. -/
structure Interpreter.SameButLocations (i i' : Interpreter) : Prop where
  store : i'.state.store.mapLocations .forget = i.state.store.mapLocations .forget
  stack : i'.state.stack.mapLocations .forget = i.state.stack.mapLocations .forget
  counters : i'.state.counters = i.state.counters

theorem Failure.sameButLocations_of_eq {e e' : Failure}
    (h : e'.mapLocations .forget = e.mapLocations .forget) : e.SameButLocations e' where
  cause := by
    have hcause := congrArg Failure.cause h
    exact hcause
  message := by
    have hmessage := congrArg Failure.message h
    exact hmessage
  located := by
    have hlocation := congrArg (fun e => e.location.isSome) h
    simpa [mapLocations] using hlocation
  notes := by
    have hnotes := congrArg (fun e => e.notes.map Failure.Note.message) h
    simpa [mapLocations, Function.comp_def, Note.mapLocations] using hnotes
  calls := by
    have hcalls := congrArg (fun e => e.backtrace.map fun b => b.calls.map Call.name) h
    simpa [mapLocations, Function.comp_def, Backtrace.mapLocations, Call.mapLocations] using hcalls

/-- Answers that are the same without their locations. -/
theorem agree_of_answers {r r' q : Outcome} (h : (relocation .forget).Answers r q)
    (h' : (relocation .forget).Answers r' q) :
    Agree Failure.SameButLocations Value.SameButLocations r r' := by
  cases h with
  | ok hv =>
    cases h' with
    | ok hv' =>
      rw [show (relocation .forget).closures = fun c c' => c' = c.mapLocations .forget from rfl,
        Value.related_mapLocations_iff] at hv hv'
      exact .ok (hv'.symm.trans hv)
  | error he =>
    cases h' with
    | error he' => exact .error (Failure.sameButLocations_of_eq (he'.symm.trans he))

namespace Interpreter
variable {i i' j j' : Interpreter} {t t' : Term} {f : FrameId} {r r' : Outcome}

def withoutLocations (i : Interpreter) : Interpreter :=
  ⟨i.root, ⟨i.state.store.mapLocations .forget, i.state.printer,
    i.state.stack.mapLocations .forget, i.state.counters⟩⟩

theorem coupled_withoutLocations (i : Interpreter) :
    (relocation .forget).states i.state i.withoutLocations.state := ⟨rfl, rfl, rfl⟩

theorem SameButLocations.coupled (h : i.SameButLocations i') :
    (relocation .forget).states i'.state i.withoutLocations.state :=
  ⟨h.store.symm, h.stack.symm, h.counters.symm⟩

/-- How evaluations end that are the same but for locations: with the same answer but for
locations, having printed the same text. -/
structure EndsSameButLocations (i i' : Interpreter) (t t' : Term) (f : FrameId)
    (x x' : Outcome × Interpreter) : Prop where
  answer : Agree Failure.SameButLocations Value.SameButLocations x.1 x'.1
  interpreter : x.2.SameButLocations x'.2
  printed : ∃ history history', i.Recounts t f history x.1 x.2 ∧
    i'.Recounts t' f history' x'.1 x'.2 ∧ history'.text = history.text

/-- The text that an evaluation prints is printed without locations too. -/
theorem exists_recounts_forget (hi : (relocation .forget).states i.state i'.state)
    {history : History} (h : i.Recounts t f history r j) :
    ∃ history' r' j', i'.Recounts (t.mapLocations .forget) f history' r' j' ∧
      history'.text = history.text := by
  obtain ⟨history', r', j', h', hsame, -⟩ := Coupling.recounts trivial hi h
  exact ⟨history', r', j', h', Coupling.text_eq hsame⟩

theorem text_eq_of_recounts (hi : i.SameButLocations i')
    (ht : t'.mapLocations .forget = t.mapLocations .forget) {history history' : History}
    (h : i.Recounts t f history r j) (h' : i'.Recounts t' f history' r' j') :
    history'.text = history.text := by
  obtain ⟨plain, _, _, hplain, htext⟩ := exists_recounts_forget i.coupled_withoutLocations h
  obtain ⟨plain', _, _, hplain', htext'⟩ := exists_recounts_forget hi.coupled h'
  rw [ht] at hplain'
  have heq : plain = plain' := hplain.2.history_unique hplain'.2
  rw [← htext', ← heq, htext]

end Interpreter

/-- Two evaluations that are the same but for locations end with the same fuel or both not. Then
both give the same value but for locations in closures, or failures that are the same but for
locations; they print the same text, and leave the same frames but for locations and the same
counters. -/
theorem locations_irrelevant {i i' : Interpreter} (hi : i.SameButLocations i') {t t' : Term}
    (ht : t'.mapLocations .forget = t.mapLocations .forget) (f : FrameId) (fuel : Nat) :
    Option.Rel (i.EndsSameButLocations i' t t' f) (i.evaluate fuel t f)
      (i'.evaluate fuel t' f) := by
  have hrel := Coupling.rel_evaluate (t := t) (f := f) trivial i.coupled_withoutLocations fuel
  have hrel' := Coupling.rel_evaluate (t := t') (f := f) trivial hi.coupled fuel
  rw [show t'.mapLocations (relocation .forget).place = t.mapLocations .forget from ht] at hrel'
  refine rel_imp (rel_join hrel hrel') ?_
  rintro ⟨r, j⟩ ⟨r', j'⟩ hx hx' ⟨⟨q, k⟩, hends, hends'⟩
  obtain ⟨hr, hstore, hstack, hcounters⟩ := hends
  obtain ⟨hr', hstore', hstack', hcounters'⟩ := hends'
  have hreturns : i.Returns t f r j := ⟨fuel, hx⟩
  have hreturns' : i'.Returns t' f r' j' := ⟨fuel, hx'⟩
  obtain ⟨history, hrun⟩ := hreturns.exists_recounts
  obtain ⟨history', hrun'⟩ := hreturns'.exists_recounts
  have htext := Interpreter.text_eq_of_recounts hi ht hrun hrun'
  constructor
  · exact agree_of_answers hr hr'
  · exact ⟨hstore'.symm.trans hstore, hstack'.symm.trans hstack, hcounters'.symm.trans hcounters⟩
  · exact ⟨history, history', hrun, hrun', htext⟩

/-- A program, all at one place, that prints inside a call and then fails there. -/
def placedCall (l : Location) : Term :=
  .call
    (.function [⟨"x", l⟩] (.binding ⟨"y", l⟩ (.print (.var "x" l) l) (.first (.var "y" l) l) l) l)
    [.int 3 l] l

/-- An interpreter whose root binds a function that was written at the place. -/
def placedHost (l : Location) : Interpreter :=
  ⟨⟨0⟩, ⟨⟨#[⟨[("g", .closure ⟨0, [⟨"x", l⟩], .var "x" l, ⟨0⟩, l⟩)], none⟩], 1⟩, .new .buffer,
    .empty (some 5), some .zero⟩⟩

theorem locations_irrelevant_placedCall :
    ∃ e e' j j',
      (placedHost ⟨"a", 1, 2⟩).Returns (placedCall ⟨"a", 1, 2⟩) ⟨0⟩ (.error e) j ∧
      (placedHost ⟨"b", 3, 4⟩).Returns (placedCall ⟨"b", 3, 4⟩) ⟨0⟩ (.error e') j' ∧
      e.backtrace = some ⟨[⟨"<anonymous>", ⟨"a", 1, 2⟩⟩]⟩ ∧ e.SameButLocations e' ∧
      j.SameButLocations j' := by
  have hrun : ((placedHost ⟨"a", 1, 2⟩).evaluate 30 (placedCall ⟨"a", 1, 2⟩) ⟨0⟩).map Prod.fst =
      some (.error ⟨.typeMismatch .tuple .int, "`int` is not a tuple", some ⟨"a", 1, 2⟩,
        some ⟨[⟨"<anonymous>", ⟨"a", 1, 2⟩⟩]⟩, []⟩) := by
    cbv
  obtain ⟨⟨r, j⟩, hj, rfl⟩ := Option.map_eq_some_iff.mp hrun
  have hstores : (placedHost ⟨"b", 3, 4⟩).state.store.mapLocations .forget =
      (placedHost ⟨"a", 1, 2⟩).state.store.mapLocations .forget := by
    simp [placedHost, Store.mapLocations, Frame.mapLocations, Bindings.mapLocations,
      Value.mapLocations, Closure.mapLocations, Parameter.mapLocations, Term.mapLocations,
      Location.forget]
  have hhosts : (placedHost ⟨"a", 1, 2⟩).SameButLocations (placedHost ⟨"b", 3, 4⟩) :=
    ⟨hstores, rfl, rfl⟩
  have hterms : (placedCall ⟨"b", 3, 4⟩).mapLocations .forget =
      (placedCall ⟨"a", 1, 2⟩).mapLocations .forget := rfl
  have hrel := locations_irrelevant hhosts hterms ⟨0⟩ 30
  rw [hj] at hrel
  generalize hx' : (placedHost ⟨"b", 3, 4⟩).evaluate 30 (placedCall ⟨"b", 3, 4⟩) ⟨0⟩ = x' at hrel
  cases hrel with
  | @some _ x' hends =>
    obtain ⟨r', j'⟩ := x'
    obtain ⟨hanswer, hinterpreter, -⟩ := hends
    cases hanswer with
    | @error _ e' he => exact ⟨_, e', j, j', ⟨30, hj⟩, ⟨30, hx'⟩, rfl, he, hinterpreter⟩

end TreeScript
