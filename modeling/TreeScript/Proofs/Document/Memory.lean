import TreeScript.Document.Decode
import TreeScript.Proofs.Plan.Parallel

/-!
The name that the decoder remembers. Decoders that remember different names make the same
requests and come to the same terms or faults.
-/
namespace TreeScript

namespace Document

open Json (Fields)
open Checks (Agree agree_refl agree_eq_iff)

variable {fields : Fields} {holder : Holder} {last last' : LastName}

/-- Two outcomes that differ at most in the name they remember. -/
abbrev SameButName {β : Type} (r r' : Except Fault (β × LastName)) : Prop :=
  Agree Eq (fun b b' => b.1 = b'.1) r r'

theorem sameButName_bind {β γ : Type} (e : Except Fault β)
    {f f' : β → Except Fault (γ × LastName)} (hf : ∀ b, SameButName (f b) (f' b)) :
    SameButName (e >>= f) (e >>= f') := by
  cases e with
  | ok b => exact hf b
  | error x => exact .error rfl

theorem location_eq (value : Json) : location value holder last = location value holder last' := by
  simp only [location, shared_eq]

theorem sameButName_ownLocation :
    SameButName (ownLocation fields holder last) (ownLocation fields holder last') := by
  unfold ownLocation
  cases Fields.get? "location" fields with
  | some value =>
    have heq : location value holder last = location value holder last' := location_eq value
    dsimp only
    rw [heq]
    cases location value holder last' with
    | ok p => exact .ok rfl
    | error e => exact .error rfl
  | none => exact .ok rfl

theorem sameButName_parameter (value : Json) :
    SameButName (parameter value last) (parameter value last') := by
  unfold parameter
  split
  · refine sameButName_bind _ fun text => ?_
    refine sameButName_ownLocation.bind fun p p' hp => .ok ?_
    dsimp only
    rw [hp]
  · exact .error rfl

theorem sameButName_parameters (before : List Parameter) (values : List Json) :
    SameButName (parameters before values last) (parameters before values last') := by
  induction values generalizing before last last' with
  | nil => exact .ok rfl
  | cons value values ih =>
    refine (sameButName_parameter value).bind fun p p' hp => ?_
    dsimp only
    rw [hp]
    exact ih _

theorem sameButName_header (value : Json) :
    SameButName (header value last) (header value last') := by
  unfold header
  split
  · refine sameButName_bind _ fun tag => ?_
    refine sameButName_ownLocation.bind fun p p' hp => .ok ?_
    dsimp only
    rw [hp]
  · exact .error rfl

/-- Plans that make the same requests and come to the same terms, whatever they remember. -/
abbrev InStep : NodePlan → NodePlan → Prop :=
  Plan.Parallel Eq (fun _ _ => True) (Agree Eq Eq)

theorem inStep_made (t : Term) : InStep (made t last) (made t last') :=
  .answer (.ok rfl) trivial

theorem inStep_require {β : Type} (e : Except Fault β) {k k' : β → NodePlan}
    (hk : ∀ b, InStep (k b) (k' b)) : InStep (.require e last k) (.require e last' k') := by
  refine Plan.parallel_require trivial (agree_refl (fun _ => rfl) e) ?_
  rintro b _ rfl
  exact hk b

theorem inStep_child {kind : NodeKind} {name : String} {k k' : Term → LastName → NodePlan}
    (hk : ∀ t next next', InStep (k t next) (k' t next')) :
    InStep (child fields kind name last k) (child fields kind name last' k') := by
  refine inStep_require _ fun value => Plan.parallel_ask rfl trivial ?_
  rintro t _ next next' rfl _
  exact hk t next next'

theorem inStep_askAll {values : List Json} {k k' : List Term → LastName → NodePlan}
    (hk : ∀ ts next next', InStep (k ts next) (k' ts next')) :
    InStep (.askAll values last [] k) (.askAll values last' [] k') := by
  refine Plan.parallel_askAll (List.forall₂_same.mpr fun _ _ => rfl) trivial .nil ?_
  intro ts ts' next next' hts _
  rw [List.forall₂_eq_eq_eq] at hts
  subst hts
  exact hk ts next next'

theorem inStep_nodePlan (kind : NodeKind) (l : Location) :
    InStep (nodePlan kind fields l last) (nodePlan kind fields l last') := by
  cases kind with
  | int | str | bool | var => exact inStep_require _ fun _ => inStep_made _
  | print | first | second => exact inStep_child fun _ _ _ => inStep_made _
  | tuple => exact inStep_child fun _ _ _ => inStep_child fun _ _ _ => inStep_made _
  | binary =>
    refine inStep_require _ fun op => ?_
    exact inStep_child fun _ _ _ => inStep_child fun _ _ _ => inStep_made _
  | conditional =>
    refine inStep_child fun _ _ _ => inStep_child fun _ _ _ => ?_
    exact inStep_child fun _ _ _ => inStep_made _
  | binding =>
    refine Plan.parallel_require trivial (sameButName_bind _ sameButName_parameter) ?_
    rintro ⟨name, next⟩ ⟨_, next'⟩ rfl
    exact inStep_child fun _ _ _ => inStep_child fun _ _ _ => inStep_made _
  | function =>
    refine Plan.parallel_require trivial (sameButName_bind _ (sameButName_parameters [])) ?_
    rintro ⟨ps, next⟩ ⟨_, next'⟩ rfl
    exact inStep_child fun _ _ _ => inStep_made _
  | call =>
    refine inStep_child fun callee _ _ => inStep_require _ fun values => ?_
    exact inStep_askAll fun arguments _ _ => inStep_made _

theorem inStep_body (value : Json) : InStep (body value last) (body value last') := by
  refine Plan.parallel_require trivial (sameButName_header value) ?_
  rintro ⟨h, next⟩ ⟨_, next'⟩ rfl
  dsimp only
  split
  · exact inStep_nodePlan _ _
  · exact .answer (.error rfl) trivial

/-- What is decoded does not depend on the remembered name. -/
theorem decodeTerm_memory (value : Json) (last last' : LastName) :
    (decodeTerm value last).1 = (decodeTerm value last').1 := by
  have hbody : ∀ value value' next next', value = value' → True →
      InStep (body value next) (body value' next') := by
    rintro value _ next next' rfl -
    exact inStep_body value
  obtain ⟨r, next, hr, hsame, -⟩ :=
    (Plan.solve_yields total value last).parallel hbody (inStep_body value)
  rw [agree_eq_iff] at hsame
  exact hsame.trans (congrArg Prod.fst hr.solve_eq).symm

/-- What documents decode to one after another, each with the name that the one before left
remembered. -/
def decodeEach : List Json → LastName → List (Except Fault Term)
  | [], _ => []
  | value :: values, last =>
    (decodeTerm value last).1 :: decodeEach values (decodeTerm value last).2

/-- One after another, documents decode to what each decodes to alone. -/
theorem decodeEach_eq_map (values : List Json) (last : LastName) :
    decodeEach values last = values.map fun value => (decodeTerm value none).1 := by
  induction values generalizing last with
  | nil => rfl
  | cons value values ih =>
    rw [decodeEach, List.map_cons, ih]
    exact congrArg (· :: _) (decodeTerm_memory value last none)

end Document

end TreeScript
