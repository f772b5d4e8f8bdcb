import TreeScript.Proofs.Document.Layout
import TreeScript.Proofs.Plan.Logic

/-!
What the decoder says about a document that it refuses. Main statement: it names the first of the
faults that the document has, in the order of the layout, and refuses no document without one.
-/
namespace TreeScript

namespace Document

open Json (Fields)

/-- What a chain of checks comes to on a document with these faults: it fails with the first,
and succeeds if there is none. -/
def Tells {β : Type} (l : List Fault) : Except Fault β → Prop
  | .ok _ => l = []
  | .error e => l.head? = some e

section Checks
variable {β γ : Type} {l m : List Fault} {fields : Fields} {holder : Holder} {name : String}
  {last : LastName}

theorem tells_error_iff {r : Except Fault β} (h : Tells l r) (e : Fault) :
    r = .error e ↔ l.head? = some e := by
  cases r with
  | ok b =>
    have hl : l = [] := h
    simp [hl]
  | error d =>
    have hl : l.head? = some d := h
    simp [hl]

/-- One chain after another: the faults of the second count where the first has none. -/
theorem tells_append {r : Except Fault β} {f : β → Except Fault γ} (hr : Tells l r)
    (hf : ∀ b, r = .ok b → Tells m (f b)) : Tells (l ++ m) (r >>= f) := by
  cases r with
  | ok b =>
    have hl : l = [] := hr
    rw [hl]
    exact hf b rfl
  | error e =>
    have hl : l.head? = some e := hr
    show (l ++ m).head? = some e
    rw [List.head?_append, hl]
    rfl

/-- Nothing can go wrong after the chain. -/
theorem tells_map {r : Except Fault β} {f : β → γ} (hr : Tells l r) :
    Tells l (r >>= fun b => .ok (f b)) := by
  have h : Tells (l ++ []) (r >>= fun b => .ok (f b)) := tells_append hr fun b _ => rfl
  rwa [List.append_nil] at h

/-- A required field, read by a check that tells the faults of its slot. -/
theorem tells_field {slot : Slot} {check : Json → Except Fault β}
    (hcheck : ∀ value, Tells (slotFaults holder name slot value) (check value)) :
    Tells (entryFaults holder fields ⟨name, slot, true⟩) (field fields holder name >>= check) := by
  unfold field
  cases h : Fields.get? name fields with
  | some value =>
    rw [entryFaults_of_some h]
    exact hcheck value
  | none =>
    rw [entryFaults_of_none h]
    rfl

theorem tells_stringField :
    Tells (entryFaults holder fields (.leaf name .string)) (stringField fields holder name) := by
  apply tells_field
  intro value
  rw [slotFaults]
  cases value <;> rfl

theorem tells_boolField :
    Tells (entryFaults holder fields (.leaf name .boolean)) (boolField fields holder name) := by
  apply tells_field
  intro value
  rw [slotFaults]
  cases value <;> rfl

theorem tells_integer :
    Tells (entryFaults holder fields (.leaf name .integer))
      (do integer (← field fields holder name)) := by
  apply tells_field
  intro value
  rw [slotFaults]
  cases value with
  | number text => cases h : Decimal.int? text.toList <;> simp [Leaf.fault?, integer, Tells, h]
  | _ => rfl

theorem tells_offsetField :
    Tells (entryFaults .location fields (.leaf name .offset)) (offsetField fields name) := by
  apply tells_field
  intro value
  rw [slotFaults]
  cases h : offset? value with
  | some n => simp [Leaf.fault?, h, Tells, pure, Except.pure]
  | none => simp [Leaf.fault?, h, Tells, throw, throwThe, MonadExceptOf.throw]

theorem tells_operatorField :
    Tells (entryFaults (.node .binary) fields (.leaf "op" .operator)) (operatorField fields) := by
  unfold operatorField stringField
  rw [bind_assoc]
  apply tells_field
  intro value
  rw [slotFaults]
  cases value with
  | string tag =>
    cases htag : Operator.ofTag? tag <;>
      simp [Leaf.fault?, Tells, htag, bind, Except.bind, pure, Except.pure, throw, throwThe,
        MonadExceptOf.throw]
  | _ => rfl

theorem tells_arrayField {p : Part} {k : List Json → Except Fault β}
    (hk : ∀ values, Tells (faultsAll p values) (k values)) :
    Tells (entryFaults holder fields (.parts name p)) (arrayField fields holder name >>= k) := by
  unfold arrayField
  rw [bind_assoc]
  apply tells_field
  intro value
  cases value with
  | array values =>
    rw [slotFaults]
    exact hk values
  | _ =>
    rw [slotFaults]
    · rfl
    · rintro _ ⟨⟩

theorem tells_location (value : Json) :
    Tells (faults (.location holder) value) (location value holder last) := by
  cases value with
  | object fields =>
    rw [faults_object_of_ne_node (by rintro ⟨⟩)]
    simp only [Part.holder, Holder.layout, fieldFaults, location]
    refine tells_append tells_stringField fun filename _ => ?_
    refine tells_append tells_offsetField fun start _ => ?_
    exact tells_append tells_offsetField fun stop _ => rfl
  | _ =>
    rw [faults_of_notObject (by rintro _ ⟨⟩)]
    rfl

theorem tells_ownLocation :
    Tells (entryFaults holder fields (.location holder)) (ownLocation fields holder last) := by
  unfold ownLocation
  cases h : Fields.get? "location" fields with
  | some value =>
    rw [entryFaults_of_some h]
    change Tells (slotFaults _ _ (.part (.location holder)) value) _
    rw [slotFaults]
    exact tells_location value
  | none =>
    rw [entryFaults_of_none h]
    rfl

theorem tells_parameter (value : Json) :
    Tells (faults .parameter value) (parameter value last) := by
  cases value with
  | object fields =>
    rw [faults_object_of_ne_node (by rintro ⟨⟩)]
    simp only [Part.holder, Holder.layout, fieldFaults, parameter]
    refine tells_append tells_stringField fun text _ => ?_
    exact tells_append tells_ownLocation fun place _ => rfl
  | _ =>
    rw [faults_of_notObject (by rintro _ ⟨⟩)]
    rfl

theorem tells_parameters (before : List Parameter) (values : List Json) :
    Tells (faultsAll .parameter values) (parameters before values last) := by
  induction values generalizing before last with
  | nil =>
    rw [faultsAll]
    rfl
  | cons value rest ih =>
    rw [faultsAll]
    exact tells_append (tells_parameter value) fun p _ => ih (p.1 :: before)

theorem tells_header (fields : Fields) :
    Tells (fieldFaults .term fields Holder.term.layout) (header (.object fields) last) := by
  simp only [Holder.layout, fieldFaults, header]
  refine tells_append tells_stringField fun tag _ => ?_
  exact tells_append tells_ownLocation fun place _ => rfl

end Checks

section Nodes
variable {l m : List Fault} {fields : Fields} {last : LastName}

/-- What a decoded value is told to be. -/
def Reports (value : Json) (_ : LastName) (r : Except Fault Term) (_ : LastName) : Prop :=
  Tells (faults .node value) r

/-- A plan that tells these faults, if its requests tell theirs. -/
abbrev Spells (l : List Fault) (plan : NodePlan) : Prop :=
  plan.Ensures (Plan.Met body Reports) fun r _ => Tells l r

theorem spells_made (t : Term) : Spells [] (made t last) := rfl

theorem require_bind {β γ : Type} {e : Except Fault β} {f : β → Except Fault γ} {k : γ → NodePlan} :
    Plan.require (e >>= f) last k = .require e last fun b => .require (f b) last k := by
  cases e <;> rfl

theorem spells_require {β : Type} {e : Except Fault β} {k : β → NodePlan} (he : Tells l e)
    (hk : ∀ b, e = .ok b → Spells m (k b)) : Spells (l ++ m) (.require e last k) := by
  cases e with
  | ok b =>
    have hl : l = [] := he
    rw [hl]
    exact hk b rfl
  | error x => exact tells_append (f := fun b : β => (.error x : Except Fault Term)) he (by simp)

theorem spells_ask {value : Json} {k : Term → LastName → NodePlan}
    (hk : ∀ t next, Spells m (k t next)) :
    Spells (faults .node value ++ m) (.ask value last k) := by
  apply Plan.ensures_ask
  · intro t next ht _
    have hnone : faults .node value = [] := ht
    rw [hnone]
    exact hk t next
  · intro e next he _
    exact tells_append (f := fun t : Term => (.ok t : Except Fault Term)) he (by simp)

theorem spells_askAll {values : List Json} {answers : List Term}
    {k : List Term → LastName → NodePlan} (hk : ∀ ts next, Spells m (k ts next)) :
    Spells (faultsAll .node values ++ m) (.askAll values last answers k) := by
  induction values generalizing last answers with
  | nil =>
    rw [faultsAll]
    exact hk answers.reverse last
  | cons value values ih =>
    rw [faultsAll, List.append_assoc]
    exact spells_ask fun t next => ih

/-- A required field, and what comes after it. -/
theorem spells_field {holder : Holder} {name : String} {slot : Slot} {k : Json → NodePlan}
    (hk : ∀ value, Spells (slotFaults holder name slot value ++ m) (k value)) :
    Spells (entryFaults holder fields ⟨name, slot, true⟩ ++ m)
      (.require (field fields holder name) last k) := by
  unfold field
  cases h : Fields.get? name fields with
  | none =>
    rw [entryFaults_of_none h]
    rfl
  | some value =>
    rw [entryFaults_of_some h]
    exact hk value

theorem spells_child {kind : NodeKind} {name : String} {k : Term → LastName → NodePlan}
    (hk : ∀ t next, Spells m (k t next)) :
    Spells (entryFaults (.node kind) fields (.part name .node) ++ m)
      (child fields kind name last k) := by
  apply spells_field
  intro value
  rw [slotFaults]
  exact spells_ask hk

/-- The arguments of a call, and what comes after them. -/
theorem spells_arguments {k : List Term → LastName → NodePlan}
    (hk : ∀ ts next, Spells m (k ts next)) :
    Spells (entryFaults (.node .call) fields (.parts "arguments" .node) ++ m)
      (.require (arrayField fields (.node .call) "arguments") last fun values =>
        .askAll values last [] k) := by
  unfold arrayField
  rw [require_bind]
  apply spells_field
  intro value
  cases value with
  | array values =>
    rw [slotFaults]
    exact spells_askAll hk
  | _ =>
    rw [slotFaults]
    · rfl
    · rintro _ ⟨⟩

theorem spells_nodePlan (kind : NodeKind) (place : Location) :
    Spells (fieldFaults (.node kind) fields (Holder.node kind).layout)
      (nodePlan kind fields place last) := by
  cases kind <;> simp only [Holder.layout, fieldFaults, nodePlan]
  case int => exact spells_require tells_integer fun n _ => spells_made _
  case str | var => exact spells_require tells_stringField fun s _ => spells_made _
  case bool => exact spells_require tells_boolField fun b _ => spells_made _
  case print | first | second => exact spells_child fun t _ => spells_made _
  case tuple => exact spells_child fun a _ => spells_child fun b _ => spells_made _
  case binary =>
    refine spells_require tells_operatorField fun op _ => ?_
    exact spells_child fun a _ => spells_child fun b _ => spells_made _
  case conditional =>
    refine spells_child fun c _ => ?_
    exact spells_child fun a _ => spells_child fun b _ => spells_made _
  case binding =>
    refine spells_require (tells_field fun site => ?_) fun p _ => ?_
    · rw [slotFaults]
      exact tells_parameter site
    · exact spells_child fun a _ => spells_child fun b _ => spells_made _
  case function =>
    refine spells_require (tells_arrayField (tells_parameters [])) fun ps _ => ?_
    exact spells_child fun t _ => spells_made _
  case call =>
    exact spells_child fun callee _ => spells_arguments fun ts _ => spells_made _

theorem kindFaults_of_tag {kind : NodeKind}
    (h : Fields.get? "kind" fields = some (.string kind.tag)) :
    kindFaults .node fields = fieldFaults (.node kind) fields (Holder.node kind).layout := by
  unfold kindFaults
  simp only [h, NodeKind.ofTag?_tag]

theorem reports_body (value : Json) (last : LastName) :
    (body value last).Ensures (Plan.Met body Reports) (Reports value last) := by
  cases value with
  | object fields =>
    change Spells (faults .node (.object fields)) _
    rw [faults]
    refine spells_require (tells_header fields) ?_
    rintro ⟨h, next⟩ hh
    -- The kind is read once more from the header, which has it from the same field.
    obtain ⟨hfields, hnode⟩ := header_eq_ok_iff.mp ⟨_, hh⟩
    cases hfields
    have htag : Fields.get? "kind" h.fields = some (.string h.tag) := hnode.1
    cases hkind : NodeKind.ofTag? h.tag with
    | some kind =>
      rw [← NodeKind.tag_of_ofTag? hkind] at htag
      rw [kindFaults_of_tag htag]
      simpa only [hkind] using spells_nodePlan kind h.location
    | none =>
      rw [kindFaults_of_unknown htag (ofTag?_eq_none_iff.mp hkind)]
      simp only [hkind]
      rfl
  | _ =>
    change Spells (faults .node _) _
    rw [faults_of_notObject (by rintro _ ⟨⟩)]
    rfl

end Nodes

section Documents

theorem tells_decodeTerm (value : Json) (last : LastName) :
    Tells (faults .node value) (decodeTerm value last).1 :=
  (Plan.solve_yields total value last).keeps reports_body

/-- The location that a file may state comes last. -/
theorem tells_fileLocation {fields : Fields} {last : LastName} {β : Type}
    (make : Option Location → β) :
    Tells (entryFaults .file fields (.location .file))
      (match Fields.get? "location" fields with
        | some value => do
          let placed ← location value .file last
          return make (some placed.1)
        | none => return make none) := by
  cases h : Fields.get? "location" fields with
  | some value =>
    rw [entryFaults_of_some h]
    change Tells (slotFaults _ _ (.part (.location .file)) value) _
    rw [slotFaults]
    exact tells_map (tells_location value)
  | none =>
    rw [entryFaults_of_none h]
    rfl

theorem tells_decodeProgram (value : Json) : Tells (faults .file value) (decodeProgram value) := by
  cases value with
  | object fields =>
    rw [faults_object_of_ne_node (by rintro ⟨⟩)]
    simp only [Part.holder, Holder.layout, fieldFaults, List.append_nil, decodeProgram]
    refine tells_append tells_stringField fun name _ => ?_
    unfold field
    cases h : Fields.get? "expression" fields with
    | none =>
      rw [entryFaults_of_none h]
      rfl
    | some tree =>
      rw [entryFaults_of_some h]
      change Tells (slotFaults _ _ (.part .node) tree ++ _) _
      rw [slotFaults]
      change Tells _ ((decodeTerm tree none).1 >>= _)
      refine tells_append (tells_decodeTerm tree none) fun t _ => ?_
      exact tells_fileLocation fun l => (⟨name, t, l⟩ : Program)
  | _ =>
    rw [faults_of_notObject (by rintro _ ⟨⟩)]
    rfl

/-- The decoder refuses exactly the documents that have a fault, and names the first in the order
of the layout. The faults listed there are those that the parts of the document have. -/
theorem decoder_names_first_fault :
    (∀ value last e,
      (decodeTerm value last).1 = .error e ↔ (faults .node value).head? = some e) ∧
    (∀ value e, decodeProgram value = .error e ↔ (faults .file value).head? = some e) ∧
    ∀ p value e, e ∈ faults p value ↔
      ∃ q other, Reaches p value q other ∧ Exhibits q other e := by
  refine ⟨fun value last => ?_, fun value => ?_, fun p value e => ?_⟩
  · exact tells_error_iff (tells_decodeTerm value last)
  · exact tells_error_iff (tells_decodeProgram value)
  · exact mem_faults_iff

end Documents

end Document

end TreeScript
