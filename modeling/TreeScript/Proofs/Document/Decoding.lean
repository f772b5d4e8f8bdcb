import TreeScript.Proofs.Document.Fields
import TreeScript.Proofs.Document.Memory
import TreeScript.Proofs.Plan.Logic

/-!
Decoding against the format of documents. Main statement: a JSON value decodes to a tree exactly
when it stands for it, whatever the decoder remembers.
-/
namespace TreeScript

namespace Document

open Json (Fields)

section Sound
variable {fields : Fields} {last : LastName} {P : Term → Prop}

/-- What a decoded value stands for is the term it decodes to. -/
def Reads (value : Json) (_ : LastName) (r : Except Fault Term) (_ : LastName) : Prop :=
  ∀ t, r = .ok t → Represents value t

/-- A term that the plan comes to is as wanted, if its requests are read as they should be. -/
abbrev Gives (P : Term → Prop) (plan : NodePlan) : Prop :=
  plan.Ensures (Plan.Met body Reads) fun r _ => ∀ t, r = .ok t → P t

theorem gives_made {t : Term} (ht : P t) : Gives P (made t last) := by
  rintro _ ⟨⟩
  exact ht

theorem gives_require {β : Type} {e : Except Fault β} {k : β → NodePlan}
    (hk : ∀ b, e = .ok b → Gives P (k b)) : Gives P (.require e last k) := by
  cases e with
  | ok b => exact hk b rfl
  | error x => rintro _ ⟨⟩

theorem gives_child {kind : NodeKind} {name : String} {k : Term → LastName → NodePlan}
    (hk : ∀ value t next, Fields.get? name fields = some value → Represents value t →
      Gives P (k t next)) : Gives P (child fields kind name last k) := by
  refine gives_require fun value hvalue => Plan.ensures_ask ?_ ?_
  · intro t next ht _
    exact hk value t next (field_eq_ok_iff.mp hvalue) (ht t rfl)
  · rintro e next _ _ _ ⟨⟩

theorem gives_askAll {values : List Json} {k : List Term → LastName → NodePlan}
    (hk : ∀ ts next, RepresentsAll values ts → Gives P (k ts next)) :
    Gives P (.askAll values last [] k) := by
  have h : Gives P (.askAll (values.map id) last [] k) := by
    -- The terms read so far stand before those that the values left stand for.
    refine Plan.ensures_askAll (I := fun rest ts _ => ∀ us, RepresentsAll rest us →
      RepresentsAll values (ts.reverse ++ us)) (fun us hus => hus) ?_ ?_ ?_
    · intro value rest ts last t next hI ht _ us hus
      simpa using hI (t :: us) (.cons (ht t rfl) hus)
    · rintro value rest ts last e next _ _ _ _ ⟨⟩
    · intro ts next hI
      exact hk _ next (by simpa using hI [] .nil)
  rwa [List.map_id] at h

theorem gives_nodePlan {kind : NodeKind} {l : Location} (h : IsNode fields kind.tag l) :
    Gives (Represents (.object fields)) (nodePlan kind fields l last) := by
  cases kind with
  | int =>
    refine gives_require fun n hn => gives_made ?_
    obtain ⟨value, hvalue, hn⟩ := Checks.bind_eq_ok.mp hn
    obtain ⟨text, rfl, htext⟩ := integer_eq_ok_iff.mp hn
    exact .int h (field_eq_ok_iff.mp hvalue) htext
  | str => exact gives_require fun s hs => gives_made (.str h (stringField_eq_ok_iff.mp hs))
  | bool => exact gives_require fun b hb => gives_made (.bool h (boolField_eq_ok_iff.mp hb))
  | binary =>
    refine gives_require fun op hop => ?_
    refine gives_child fun left lhs _ hleft hlhs => gives_child fun right rhs _ hright hrhs => ?_
    exact gives_made (.binary h (operatorField_eq_ok_iff.mp hop) hleft hlhs hright hrhs)
  | print => exact gives_child fun value t _ hvalue ht => gives_made (.print h hvalue ht)
  | first => exact gives_child fun value t _ hvalue ht => gives_made (.first h hvalue ht)
  | second => exact gives_child fun value t _ hvalue ht => gives_made (.second h hvalue ht)
  | conditional =>
    refine gives_child fun first condition _ hfirst hcondition => ?_
    refine gives_child fun second consequent _ hsecond hconsequent => ?_
    refine gives_child fun third alternative _ hthird halternative => ?_
    exact gives_made
      (.conditional h hfirst hcondition hsecond hconsequent hthird halternative)
  | tuple =>
    refine gives_child fun first left _ hfirst hleft => ?_
    refine gives_child fun second right _ hsecond hright => ?_
    exact gives_made (.tuple h hfirst hleft hsecond hright)
  | var => exact gives_require fun s hs => gives_made (.var h (stringField_eq_ok_iff.mp hs))
  | binding =>
    refine gives_require fun p hp => ?_
    obtain ⟨name, last'⟩ := p
    obtain ⟨site, hsite, hname⟩ := Checks.bind_eq_ok.mp hp
    refine gives_child fun value bound _ hvalue hbound => ?_
    refine gives_child fun rest next _ hrest hnext => ?_
    exact gives_made (.binding h (field_eq_ok_iff.mp hsite) (parameter_eq_ok_iff.mp ⟨_, hname⟩)
      hvalue hbound hrest hnext)
  | function =>
    refine gives_require fun p hp => ?_
    obtain ⟨params, last'⟩ := p
    obtain ⟨sites, hsites, hparams⟩ := Checks.bind_eq_ok.mp hp
    obtain ⟨qs, hqs, hparams⟩ := parameters_eq_ok_iff.mp ⟨_, hparams⟩
    rw [List.reverse_nil, List.nil_append] at hparams
    subst hparams
    refine gives_child fun value functionBody _ hvalue hbody => ?_
    exact gives_made (.function h (arrayField_eq_ok_iff.mp hsites) hqs hvalue hbody)
  | call =>
    refine gives_child fun value callee _ hvalue hcallee => ?_
    refine gives_require fun values hvalues => gives_askAll fun arguments _ harguments => ?_
    exact gives_made (.call h hvalue hcallee (arrayField_eq_ok_iff.mp hvalues) harguments)

theorem reads_body (value : Json) (last : LastName) :
    (body value last).Ensures (Plan.Met body Reads) (Reads value last) := by
  refine gives_require fun p hp => ?_
  obtain ⟨h, last'⟩ := p
  obtain ⟨rfl, hnode⟩ := header_eq_ok_iff.mp ⟨_, hp⟩
  dsimp only
  split
  · rename_i kind hkind
    rw [← NodeKind.tag_of_ofTag? hkind] at hnode
    exact gives_nodePlan hnode
  · rintro _ ⟨⟩

end Sound

section Complete
variable {fields : Fields} {last : LastName} {t : Term}

/-- The plan comes to a term. -/
def ComesTo (plan : NodePlan) (t : Term) : Prop :=
  ∃ next, Plan.Yields body plan (.ok t) next

theorem comesTo_made : ComesTo (made t last) t := ⟨last, .answer _ _⟩

theorem comesTo_require {β : Type} {e : Except Fault β} {k : β → NodePlan} {b : β}
    (he : e = .ok b) (hk : ComesTo (k b) t) : ComesTo (.require e last k) t := by
  rw [he]
  exact hk

theorem comesTo_child {kind : NodeKind} {name : String} {value : Json} {u : Term}
    {k : Term → LastName → NodePlan} (hvalue : Fields.get? name fields = some value)
    (hu : ∀ last, ComesTo (body value last) u) (hk : ∀ next, ComesTo (k u next) t) :
    ComesTo (child fields kind name last k) t := by
  obtain ⟨next, hu⟩ := hu last
  obtain ⟨after, ht⟩ := hk next
  exact comesTo_require (field_eq_ok_iff.mpr hvalue) ⟨after, .ask_ok hu ht⟩

/-- After its header a node of a kind is decoded as this kind. -/
theorem exists_body_eq (kind : NodeKind) {l : Location} (h : IsNode fields kind.tag l)
    (last : LastName) : ∃ next, body (.object fields) last = nodePlan kind fields l next := by
  have hheader : ∃ next, header (.object fields) last = .ok (⟨fields, kind.tag, l⟩, next) :=
    header_eq_ok_iff.mpr ⟨rfl, h⟩
  obtain ⟨next, hheader⟩ := hheader
  refine ⟨next, ?_⟩
  simp only [body, hheader, Plan.require, NodeKind.ofTag?_tag]

theorem comesTo_body (kind : NodeKind) {l : Location} (h : IsNode fields kind.tag l)
    (hk : ∀ last, ComesTo (nodePlan kind fields l last) t) :
    ComesTo (body (.object fields) last) t := by
  obtain ⟨next, hbody⟩ := exists_body_eq kind h last
  rw [hbody]
  exact hk next

/-- The children of a call come to terms from left to right. -/
def ComeTo (values : List Json) (ts : List Term) : Prop :=
  ∀ last, ∃ next, Plan.YieldsAll body values last (.ok ts) next

theorem comesTo_askAll {values : List Json} {ts : List Term} {k : List Term → LastName → NodePlan}
    (hts : ComeTo values ts) (hk : ∀ next, ComesTo (k ts next) t) :
    ComesTo (.askAll values last [] k) t := by
  obtain ⟨next, hts⟩ := hts last
  obtain ⟨after, ht⟩ := hk next
  exact ⟨after, hts.askAll_ok ht⟩

theorem Represents.comesTo {value : Json} (h : Represents value t) (last : LastName) :
    ComesTo (body value last) t := by
  induction h using @Represents.rec _ (fun values ts _ => ComeTo values ts) generalizing last with
  | int hnode hvalue hn =>
    refine comesTo_body .int hnode fun last => comesTo_require ?_ comesTo_made
    exact Checks.bind_eq_ok.mpr
      ⟨_, field_eq_ok_iff.mpr hvalue, integer_eq_ok_iff.mpr ⟨_, rfl, hn⟩⟩
  | str hnode hvalue =>
    refine comesTo_body .str hnode fun last => ?_
    exact comesTo_require (stringField_eq_ok_iff.mpr hvalue) comesTo_made
  | bool hnode hvalue =>
    refine comesTo_body .bool hnode fun last => ?_
    exact comesTo_require (boolField_eq_ok_iff.mpr hvalue) comesTo_made
  | binary hnode hop hleft _ hright _ ihl ihr =>
    refine comesTo_body .binary hnode fun last => ?_
    refine comesTo_require (operatorField_eq_ok_iff.mpr hop) ?_
    exact comesTo_child hleft ihl fun _ => comesTo_child hright ihr fun _ => comesTo_made
  | print hnode hvalue _ ih =>
    refine comesTo_body .print hnode fun last => ?_
    exact comesTo_child hvalue ih fun _ => comesTo_made
  | conditional hnode hfirst _ hsecond _ hthird _ ihc iht ihe =>
    refine comesTo_body .conditional hnode fun last => ?_
    refine comesTo_child hfirst ihc fun _ => comesTo_child hsecond iht fun _ => ?_
    exact comesTo_child hthird ihe fun _ => comesTo_made
  | first hnode hvalue _ ih =>
    refine comesTo_body .first hnode fun last => ?_
    exact comesTo_child hvalue ih fun _ => comesTo_made
  | second hnode hvalue _ ih =>
    refine comesTo_body .second hnode fun last => ?_
    exact comesTo_child hvalue ih fun _ => comesTo_made
  | tuple hnode hfirst _ hsecond _ ihl ihr =>
    refine comesTo_body .tuple hnode fun last => ?_
    exact comesTo_child hfirst ihl fun _ => comesTo_child hsecond ihr fun _ => comesTo_made
  | var hnode hname =>
    refine comesTo_body .var hnode fun last => ?_
    exact comesTo_require (stringField_eq_ok_iff.mpr hname) comesTo_made
  | @binding _ _ site _ _ name _ _ hnode hsite hname hvalue _ hrest _ ihv ihr =>
    refine comesTo_body .binding hnode fun last => ?_
    have hparameter : ∃ next, parameter site last = .ok (name, next) :=
      parameter_eq_ok_iff.mpr hname
    obtain ⟨next, hparameter⟩ := hparameter
    refine comesTo_require (Checks.bind_eq_ok.mpr ⟨_, field_eq_ok_iff.mpr hsite, hparameter⟩) ?_
    exact comesTo_child hvalue ihv fun _ => comesTo_child hrest ihr fun _ => comesTo_made
  | @function _ _ sites _ ps _ hnode hsites hps hvalue _ ih =>
    refine comesTo_body .function hnode fun last => ?_
    have hparameters : ∃ next, parameters [] sites last = .ok (ps, next) :=
      parameters_eq_ok_iff.mpr ⟨ps, hps, rfl⟩
    obtain ⟨next, hparameters⟩ := hparameters
    refine comesTo_require
      (Checks.bind_eq_ok.mpr ⟨_, arrayField_eq_ok_iff.mpr hsites, hparameters⟩) ?_
    exact comesTo_child hvalue ih fun _ => comesTo_made
  | call hnode hvalue _ hvalues _ ihc ihs =>
    refine comesTo_body .call hnode fun last => ?_
    refine comesTo_child hvalue ihc fun _ => ?_
    refine comesTo_require (arrayField_eq_ok_iff.mpr hvalues) ?_
    exact comesTo_askAll ihs fun _ => comesTo_made
  | nil => exact fun last => ⟨last, .nil⟩
  | cons _ _ ih ihs =>
    intro last
    obtain ⟨next, ht⟩ := ih last
    obtain ⟨after, hts⟩ := ihs next
    exact ⟨after, .cons ht hts⟩

end Complete

theorem decodeTerm_eq_ok_iff {value : Json} {t : Term} {last : LastName} :
    (decodeTerm value last).1 = .ok t ↔ Represents value t := by
  constructor
  · intro h
    exact (Plan.solve_yields total value last).keeps reads_body t h
  · intro h
    obtain ⟨next, ht⟩ := h.comesTo last
    exact congrArg Prod.fst ht.solve_eq

/-- A JSON value stands for one term at most. -/
theorem Represents.unique {value : Json} {t u : Term} (ht : Represents value t)
    (hu : Represents value u) : t = u := by
  have ht' : (decodeTerm value none).1 = .ok t := decodeTerm_eq_ok_iff.mpr ht
  have hu' : (decodeTerm value none).1 = .ok u := decodeTerm_eq_ok_iff.mpr hu
  exact Except.ok.inj (ht'.symm.trans hu')

theorem decodeProgram_eq_ok_iff {value : Json} {p : Program} :
    decodeProgram value = .ok p ↔ RepresentsProgram value p := by
  constructor
  · intro h
    unfold decodeProgram at h
    split at h
    · simp only [Checks.bind_eq_ok, stringField_eq_ok_iff, field_eq_ok_iff,
        decodeTerm_eq_ok_iff] at h
      obtain ⟨name, hname, tree, htree, t, ht, h⟩ := h
      split at h
      · rename_i place hplace
        obtain ⟨⟨l, next⟩, hl, h⟩ := Checks.bind_eq_ok.mp h
        cases h
        exact .located hname htree ht hplace (location_eq_ok_iff.mp hl).1
      · rename_i hplace
        cases h
        exact .unlocated hname htree ht hplace
    · cases h
  · intro h
    cases h with
    | unlocated hname htree ht hplace =>
      simp only [decodeProgram, Checks.bind_eq_ok, stringField_eq_ok_iff, field_eq_ok_iff,
        decodeTerm_eq_ok_iff]
      exact ⟨_, hname, _, htree, _, ht, by rw [hplace]; rfl⟩
    | located hname htree ht hplace hl =>
      simp only [decodeProgram, Checks.bind_eq_ok, stringField_eq_ok_iff, field_eq_ok_iff,
        decodeTerm_eq_ok_iff]
      refine ⟨_, hname, _, htree, _, ht, ?_⟩
      rw [hplace]
      exact Checks.bind_eq_ok.mpr ⟨_, location_eq_ok_iff.mpr ⟨hl, rfl⟩, rfl⟩

section Irrelevant
variable {fields fields' : Fields} {t : Term}

/-- The fields that nodes have. -/
def nodeFields : List String :=
  ["kind", "location", "value", "op", "lhs", "rhs", "condition", "then", "otherwise", "first",
    "second", "text", "name", "next", "parameters", "callee", "arguments"]

/-- Only the fields that nodes have matter. -/
theorem Represents.congr
    (hsame : ∀ name ∈ nodeFields, Fields.get? name fields' = Fields.get? name fields)
    (h : Represents (.object fields) t) : Represents (.object fields') t := by
  have hnode : ∀ {tag : String} {l : Location}, IsNode fields tag l → IsNode fields' tag l := by
    intro tag l h
    exact ⟨(hsame "kind" (by decide)).trans h.kind, hsame "location" (by decide) ▸ h.location⟩
  have hfield : ∀ {name : String} {value : Json}, Fields.get? name fields = some value →
      name ∈ nodeFields → Fields.get? name fields' = some value :=
    fun hvalue hname => (hsame _ hname).trans hvalue
  cases h with
  | int h hvalue hn => exact .int (hnode h) (hfield hvalue (by decide)) hn
  | str h hvalue => exact .str (hnode h) (hfield hvalue (by decide))
  | bool h hvalue => exact .bool (hnode h) (hfield hvalue (by decide))
  | binary h hop hleft hl hright hr =>
    exact .binary (hnode h) (hfield hop (by decide)) (hfield hleft (by decide)) hl
      (hfield hright (by decide)) hr
  | print h hvalue ht => exact .print (hnode h) (hfield hvalue (by decide)) ht
  | conditional h hfirst hc hsecond ht hthird he =>
    exact .conditional (hnode h) (hfield hfirst (by decide)) hc (hfield hsecond (by decide)) ht
      (hfield hthird (by decide)) he
  | first h hvalue ht => exact .first (hnode h) (hfield hvalue (by decide)) ht
  | second h hvalue ht => exact .second (hnode h) (hfield hvalue (by decide)) ht
  | tuple h hfirst hl hsecond hr =>
    exact .tuple (hnode h) (hfield hfirst (by decide)) hl (hfield hsecond (by decide)) hr
  | var h hname => exact .var (hnode h) (hfield hname (by decide))
  | binding h hsite hp hvalue hv hrest hr =>
    exact .binding (hnode h) (hfield hsite (by decide)) hp (hfield hvalue (by decide)) hv
      (hfield hrest (by decide)) hr
  | function h hsites hps hvalue ht =>
    exact .function (hnode h) (hfield hsites (by decide)) hps (hfield hvalue (by decide)) ht
  | call h hvalue hc hvalues hts =>
    exact .call (hnode h) (hfield hvalue (by decide)) hc (hfield hvalues (by decide)) hts

end Irrelevant

/-- The decoder accepts exactly the format of documents, and gives the tree that a document
stands for; every tree has a document. What it remembers changes nothing, neither in one
document nor from one to the next, nor do other fields or the order of fields. -/
theorem decoding_exact :
    (∀ (value : Json) (t : Term) (last : LastName),
      (decodeTerm value last).1 = .ok t ↔ Represents value t) ∧
    (∀ (value : Json) (last last' : LastName),
      (decodeTerm value last).1 = (decodeTerm value last').1) ∧
    (∀ (values : List Json) (last : LastName),
      decodeEach values last = values.map fun value => (decodeTerm value none).1) ∧
    (∀ (t : Term) (last : LastName),
      Represents t.toJson t ∧ (decodeTerm t.toJson last).1 = .ok t) ∧
    (∀ (value : Json) (p : Program), decodeProgram value = .ok p ↔ RepresentsProgram value p) ∧
    ∀ (fields fields' : Fields) (t : Term),
      (∀ name ∈ nodeFields, Fields.get? name fields' = Fields.get? name fields) →
      (Represents (.object fields) t ↔ Represents (.object fields') t) := by
  refine ⟨fun _ _ _ => decodeTerm_eq_ok_iff, decodeTerm_memory, decodeEach_eq_map, ?_,
    fun _ _ => decodeProgram_eq_ok_iff, ?_⟩
  · intro t last
    exact ⟨represents_toJson t, decodeTerm_eq_ok_iff.mpr (represents_toJson t)⟩
  · intro fields fields' t hsame
    exact ⟨.congr hsame, .congr fun name hname => (hsame name hname).symm⟩

theorem decoding_exact_otherOrder :
    (∀ name ∈ nodeFields,
      Fields.get? name [("text", .string "x"), ("colour", .null), ("kind", .string "Var")] =
        Fields.get? name [("kind", .string "Var"), ("text", .string "x")]) ∧
    Represents (.object [("text", .string "x"), ("colour", .null), ("kind", .string "Var")])
      (.var "x" .unstated) := by
  have hsame : ∀ name ∈ nodeFields,
      Fields.get? name [("text", .string "x"), ("colour", .null), ("kind", .string "Var")] =
        Fields.get? name [("kind", .string "Var"), ("text", .string "x")] := by
    simp [nodeFields, Fields.get?]
  refine ⟨hsame, ?_⟩
  exact (decoding_exact.2.2.2.2.2 _ _ _ hsame).mp (.var ⟨rfl, .unstated⟩ rfl)

end Document

end TreeScript
