import Mathlib
import TreeScript.Proofs.Evaluation.Coupling
import TreeScript.Proofs.Store.Agreement

/-!
Names that nobody mentions. Main statement: two evaluations of a term in stores that differ only
in the bindings of names that neither the term nor a closure reads end together, with the same
answer, text, calls and counters, in stores that again differ only there.
-/
namespace TreeScript

open Checks (Agree rel_imp)
open Evaluation (Coupling History)

/-- The coupling of states whose stores agree outside the hidden names. -/
def hidingCoupling (hidden : String → Prop) (m : Correspondence) : Coupling where
  place := id
  permits t := t.Avoids hidden
  closures := Closure.AgreeOutside hidden m
  same f f' := m.frames f.index f'.index
  states s s' := s.store.AgreeOutside hidden m s'.store ∧ s'.stack = s.stack ∧
    s'.counters = s.counters
  child h hc := h.child hc
  code {c c'} h := by
    have hnode := h.node
    simp only [Closure.node, FunctionNode.mk.injEq] at hnode
    obtain ⟨hparameters, hbody, hlocation⟩ := hnode
    simp [h.avoids, hbody, hlocation, Closure.arity, hparameters]
  stack h := by simp [h.2.1]
  visit h := by simp [Evaluation.State.visit, h]
  print h _ := h
  lookup {_ _ _ _ name l} ht h hf := h.1.lookup hf (ht name l .self)
  bind h hf hv name := ⟨h.1.bind hf hv name, h.2⟩
  make {s s' f f' parameters body l} ht h hf := by
    have hbody : body.Avoids hidden := ht.child (by simp [Term.children])
    obtain ⟨hclosure, hstore⟩ := h.1.newClosure hf parameters hbody l
    simpa using ⟨hclosure, hstore, h.2⟩
  frames h := h.1.framesInStep.next
  enter h hc hvs call := by
    refine ⟨h.1.newChild hc hvs, ?_⟩
    simp [Evaluation.State.called, h.2]
  leave h := ⟨h.1, by simp [Evaluation.State.leave, h.2]⟩

/-- The same answer: values that are the same but for closures that stand for each other, or one
failure. -/
abbrev Outcome.AgreeOutside (hidden : String → Prop) (m : Correspondence) :
    Outcome → Outcome → Prop :=
  Agree Eq (Value.AgreeOutside hidden m)

namespace Interpreter

/-- Interpreters whose stores agree outside the hidden names. They may differ in what they have
printed. -/
structure AgreeOutside (hidden : String → Prop) (m : Correspondence) (i i' : Interpreter) :
    Prop where
  store : i.state.store.AgreeOutside hidden m i'.state.store
  stack : i'.state.stack = i.state.stack
  counters : i'.state.counters = i.state.counters

/-- How evaluations in two interpreters end: with the same answer, having printed the same text, in
stores that agree outside the hidden names. -/
structure EndsAgreeing (hidden : String → Prop) (m : Correspondence) (i i' : Interpreter)
    (x x' : Outcome × Interpreter) : Prop where
  answer : x.1.AgreeOutside hidden m x'.1
  interpreter : x.2.AgreeOutside hidden m x'.2
  printed : ∃ text, x.2.state.printer = i.state.printer.receive text ∧
    x'.2.state.printer = i'.state.printer.receive text

variable {hidden : String → Prop} {m : Correspondence} {i i' j j' : Interpreter} {t : Term}
  {f f' : FrameId}

theorem AgreeOutside.coupled (h : i.AgreeOutside hidden m i') :
    (hidingCoupling hidden m).states i.state i'.state :=
  ⟨h.store, h.stack, h.counters⟩

theorem agree_of_coupled {r r' : Outcome} (h : (hidingCoupling hidden m).Answers r r') :
    r.AgreeOutside hidden m r' := by
  cases h with
  | ok hv => exact .ok hv
  | error he =>
    rw [show (hidingCoupling hidden m).place = id from rfl, Failure.mapLocations_id] at he
    exact .error he.symm

/-- With the same fuel both evaluations come to an end, or neither does. -/
theorem AgreeOutside.rel_evaluate (h : i.AgreeOutside hidden m i') (ht : t.Avoids hidden)
    (hf : m.frames f.index f'.index) (fuel : Nat) :
    Option.Rel (i.EndsAgreeing hidden m i') (i.evaluate fuel t f) (i'.evaluate fuel t f') := by
  have hrel := Coupling.rel_evaluate_of_same (C := hidingCoupling hidden m) ht h.coupled hf fuel
  rw [show t.mapLocations (hidingCoupling hidden m).place = t from t.mapLocations_id] at hrel
  refine rel_imp hrel ?_
  rintro ⟨r, j⟩ ⟨r', j'⟩ hx hx' ⟨hanswer, hstore, hstack, hcounters⟩
  have hreturns : i.Returns t f r j := ⟨fuel, hx⟩
  have hreturns' : i'.Returns t f' r' j' := ⟨fuel, hx'⟩
  obtain ⟨history, hrun⟩ := hreturns.exists_recounts
  obtain ⟨history', hrun'⟩ := hreturns'.exists_recounts
  obtain ⟨history'', _, _, hsame, htexts, -⟩ := Coupling.recounts_of_same ht h.coupled hf hrun
  rw [show t.mapLocations (hidingCoupling hidden m).place = t from t.mapLocations_id] at hsame
  obtain rfl := hrun'.2.history_unique hsame.2
  have htext := Coupling.text_eq htexts
  exact ⟨agree_of_coupled hanswer, ⟨hstore, hstack, hcounters⟩, history.text, hrun.printer_eq,
    htext ▸ hrun'.printer_eq⟩

end Interpreter

section Seeding

/-- Binds these names in these frames, before an evaluation. -/
def Interpreter.seed (seeds : List (FrameId × String × Value)) (i : Interpreter) : Interpreter :=
  ⟨i.root, seeds.foldl (fun s b => s.bind b.1 b.2.1 b.2.2) i.state⟩

/-- Binding hidden names keeps interpreters in agreement. -/
theorem Interpreter.AgreeOutside.seed {hidden : String → Prop} {m : Correspondence}
    {i i' : Interpreter} (h : i.AgreeOutside hidden m i')
    {seeds : List (FrameId × String × Value)} (hseeds : ∀ b ∈ seeds, hidden b.2.1) :
    i.AgreeOutside hidden m (i'.seed seeds) := by
  induction seeds generalizing i' with
  | nil => exact h
  | cons b seeds ih =>
    have hb : hidden b.2.1 := hseeds b List.mem_cons_self
    have hbound : i.AgreeOutside hidden m ⟨i'.root, i'.state.bind b.1 b.2.1 b.2.2⟩ :=
      ⟨h.store.bind_hidden hb b.1 b.2.2, h.stack, h.counters⟩
    exact ih hbound fun c hc => hseeds c (List.mem_cons_of_mem b hc)

/-- The interpreter is as new but for the hidden names, which its root may bind. There may be other
frames. -/
structure Interpreter.Seeded (hidden : String → Prop) (limit : Option Nat) (profile : Bool)
    (i : Interpreter) : Prop where
  root : ∃ bindings, i.state.store.frame? i.root = some ⟨bindings, none⟩ ∧
    ∀ name, bindings.contains name = true → hidden name
  stack : i.state.stack = .empty limit
  counters : i.state.counters = if profile then some .zero else none

/-- The root of a new interpreter stands for the root of another. -/
def Correspondence.ofRoot (i : Interpreter) : Correspondence where
  frames k k' := (k = 0 ∧ k' = i.root.index) ∨
    ∃ j, k = 1 + j ∧ k' = i.state.store.frames.size + j
  closures n n' := n' = i.state.store.closures + n

variable {hidden : String → Prop} {limit : Option Nat} {profile : Bool} {i : Interpreter}

theorem Interpreter.Seeded.agreeOutside (h : i.Seeded hidden limit profile) (sink : Sink) :
    (Interpreter.new limit sink profile).AgreeOutside hidden (.ofRoot i) i := by
  obtain ⟨bindings, hroot, hnames⟩ := h.root
  have hlt := Store.index_lt_of_frame? hroot
  refine ⟨⟨⟨?_, ?_⟩, ⟨?_, ?_⟩, ?_⟩, h.stack, h.counters⟩
  · rintro k k' l l' (⟨rfl, rfl⟩ | ⟨j, rfl, rfl⟩) (⟨rfl, rfl⟩ | ⟨j', rfl, rfl⟩) <;> omega
  · intro j
    exact .inr ⟨j, rfl, rfl⟩
  · rintro k k' l l' rfl rfl
    omega
  · intro j
    simp [Correspondence.ofRoot, Interpreter.new, Store.newRoot, Store.empty]
  · rintro ⟨_⟩ ⟨_⟩ (⟨rfl, rfl⟩ | ⟨j, rfl, rfl⟩)
    · rw [hroot]
      refine .some ⟨?_, .none⟩
      intro name hname
      have hunbound : bindings.get? name = none := by
        cases hv : bindings.get? name with
        | none => rfl
        | some v => exact absurd (hnames name (Bindings.contains_iff.mpr ⟨v, hv⟩)) hname
      rw [hunbound]
      exact .none
    · have hnone : (Interpreter.new limit sink profile).state.store.frame? ⟨1 + j⟩ = none := by
        simp [Interpreter.new, Store.newRoot, Store.empty, Store.frame?]
      have hnone' : i.state.store.frame? ⟨i.state.store.frames.size + j⟩ = none := by
        simp [Store.frame?]
      rw [hnone, hnone']
      exact .none

end Seeding

/-- A term that reads no hidden name evaluates alike in stores that agree outside these names: with
the same fuel both evaluations end or neither does, and then they give the same answer, print the
same text and leave stores that agree again, with equal calls and counters. So binding hidden names
beforehand changes nothing where no closure reads them, and a root that binds no others evaluates
the term as the root of a new interpreter does. -/
theorem unmentioned_irrelevant {hidden : String → Prop} {t : Term} (ht : t.Avoids hidden) :
    (∀ (m : Correspondence) (i i' : Interpreter) (f f' : FrameId),
      i.AgreeOutside hidden m i' → m.frames f.index f'.index → ∀ fuel,
      Option.Rel (i.EndsAgreeing hidden m i') (i.evaluate fuel t f) (i'.evaluate fuel t f')) ∧
    (∀ (i : Interpreter), (∀ c, i.state.store.Holds c → c.body.Avoids hidden) →
      ∀ (seeds : List (FrameId × String × Value)), (∀ b ∈ seeds, hidden b.2.1) → ∀ f fuel,
      Option.Rel (i.EndsAgreeing hidden .same (i.seed seeds)) (i.evaluate fuel t f)
        ((i.seed seeds).evaluate fuel t f)) ∧
    ∀ (limit : Option Nat) (sink : Sink) (profile : Bool) (i' : Interpreter),
      i'.Seeded hidden limit profile → ∀ fuel,
      Option.Rel ((Interpreter.new limit sink profile).EndsAgreeing hidden (.ofRoot i') i')
        ((Interpreter.new limit sink profile).evaluate fuel t ⟨0⟩)
        (i'.evaluate fuel t i'.root) := by
  refine ⟨fun _ _ _ _ _ h hf => h.rel_evaluate ht hf, ?_, ?_⟩
  · intro i hclosures seeds hseeds f fuel
    have hself : i.AgreeOutside hidden .same i :=
      ⟨Store.agreeOutside_self hclosures, rfl, rfl⟩
    exact (hself.seed hseeds).rel_evaluate ht rfl fuel
  · intro limit sink profile i' hseeded
    exact (hseeded.agreeOutside sink).rel_evaluate ht (.inl ⟨rfl, rfl⟩)

/-- A program that binds a name and takes a parameter of that name, and reads neither. -/
def shadowing : Term :=
  .binding ⟨"x", .unstated⟩
    (.call (.function [⟨"x", .unstated⟩] (.print (.str "a" .unstated) .unstated) .unstated)
      [.int 1 .unstated] .unstated)
    (.function [] (.var "y" .unstated) .unstated) .unstated

/-- An interpreter whose root binds the name to a function of another frame. -/
def seededHost : Interpreter :=
  ⟨⟨1⟩, ⟨⟨#[⟨[("y", .int 2)], none⟩,
    ⟨[("x", .closure ⟨0, [], .var "x" .unstated, ⟨0⟩, .unstated⟩)], none⟩], 1⟩, .new .buffer,
    .empty (some 5), some .zero⟩⟩

theorem avoids_shadowing : shadowing.Avoids (· = "x") := by
  have hleaf {t : Term} (hvar : ∀ name l, t = .var name l → name ≠ "x")
      (hchildren : t.children = []) : t.Avoids (· = "x") :=
    Term.avoids_of_children hvar (by simp [hchildren])
  have hprint : (Term.print (.str "a" .unstated) .unstated).Avoids (· = "x") :=
    Term.avoids_of_children (by simp)
      (by simpa [Term.children] using hleaf (t := .str "a" .unstated) (by simp) rfl)
  have hfunction : (Term.function [⟨"x", .unstated⟩] (.print (.str "a" .unstated) .unstated)
      .unstated).Avoids (· = "x") :=
    Term.avoids_of_children (by simp) (by simpa [Term.children] using hprint)
  have hcall : (Term.call (.function [⟨"x", .unstated⟩] (.print (.str "a" .unstated) .unstated)
      .unstated) [.int 1 .unstated] .unstated).Avoids (· = "x") :=
    Term.avoids_of_children (by simp)
      (by simpa [Term.children] using
        ⟨hfunction, hleaf (t := .int 1 .unstated) (by simp) rfl⟩)
  have hnext : (Term.function [] (.var "y" .unstated) .unstated).Avoids (· = "x") :=
    Term.avoids_of_children (by simp)
      (by simpa [Term.children] using hleaf (t := .var "y" .unstated) (by simp) rfl)
  unfold shadowing
  exact Term.avoids_of_children (by simp) (by simpa [Term.children] using ⟨hcall, hnext⟩)

theorem unmentioned_irrelevant_shadowing :
    shadowing.Avoids (· = "x") ∧ seededHost.Seeded (· = "x") (some 5) true ∧
    ∃ v v' j j', (Interpreter.new (some 5) .silent true).Returns shadowing ⟨0⟩ (.ok v) j ∧
      seededHost.Returns shadowing ⟨1⟩ (.ok v') j' ∧
      v.AgreeOutside (· = "x") (.ofRoot seededHost) v' ∧ j'.captured = "a\n" := by
  have hseeded : seededHost.Seeded (· = "x") (some 5) true := by
    refine ⟨⟨_, rfl, ?_⟩, rfl, rfl⟩
    simp [Bindings.contains, Bindings.get?]
  obtain ⟨-, -, hseeding⟩ := unmentioned_irrelevant avoids_shadowing
  refine ⟨avoids_shadowing, hseeded, ?_⟩
  have hrun : ((seededHost.evaluate 30 shadowing ⟨1⟩).map fun x => (x.1.isOk, x.2.captured)) =
      some (true, "a\n") := by
    cbv
  obtain ⟨⟨r', j'⟩, hj', hprinted⟩ := Option.map_eq_some_iff.mp hrun
  have hrel := hseeding (some 5) .silent true seededHost hseeded 30
  rw [show seededHost.root = ⟨1⟩ from rfl, hj'] at hrel
  generalize hx : (Interpreter.new (some 5) .silent true).evaluate 30 shadowing ⟨0⟩ = x at hrel
  cases hrel with
  | @some x _ hends =>
    obtain ⟨r, j⟩ := x
    obtain ⟨hanswer, -, -⟩ := hends
    simp only [Prod.mk.injEq] at hprinted
    cases hanswer with
    | ok hv => exact ⟨_, _, j, j', ⟨30, hx⟩, ⟨30, hj'⟩, hv, hprinted.2⟩
    | error he => cases hprinted.1

end TreeScript
