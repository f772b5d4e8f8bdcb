import Mathlib.Data.Set.Insert
import TreeScript.Term.Basic

/-!
Scoped terms: every variable stands where its name is bound. More names in scope leave a
term scoped.
-/
namespace TreeScript

/-- The names of the parameters of a function. -/
def parameterNames (parameters : List Parameter) : Set String :=
  { name | ∃ p ∈ parameters, p.text = name }

/-- Every variable of the term is in scope if the names in `G` are. A function that a
binding binds directly may use the name of the binding. -/
inductive Scoped : Set String → Term → Prop where
  | int {G : Set String} {n : Int} {l : Location} : Scoped G (.int n l)
  | str {G : Set String} {text : String} {l : Location} : Scoped G (.str text l)
  | bool {G : Set String} {b : Bool} {l : Location} : Scoped G (.bool b l)
  | var {G : Set String} {name : String} {l : Location} : name ∈ G → Scoped G (.var name l)
  | binding {G : Set String} {name : Parameter} {bound next : Term} {l : Location} :
      Scoped G bound → Scoped (insert name.text G) next → Scoped G (.binding name bound next l)
  | recursive {G : Set String} {name : Parameter} {parameters : List Parameter}
      {body next : Term} {l m : Location} :
      Scoped (insert name.text G) (.function parameters body m) →
      Scoped (insert name.text G) next →
      Scoped G (.binding name (.function parameters body m) next l)
  | conditional {G : Set String} {condition consequent alternative : Term} {l : Location} :
      Scoped G condition → Scoped G consequent → Scoped G alternative →
      Scoped G (.conditional condition consequent alternative l)
  | binary {G : Set String} {op : Operator} {lhs rhs : Term} {l : Location} :
      Scoped G lhs → Scoped G rhs → Scoped G (.binary op lhs rhs l)
  | print {G : Set String} {printed : Term} {l : Location} :
      Scoped G printed → Scoped G (.print printed l)
  | tuple {G : Set String} {left right : Term} {l : Location} :
      Scoped G left → Scoped G right → Scoped G (.tuple left right l)
  | first {G : Set String} {pair : Term} {l : Location} :
      Scoped G pair → Scoped G (.first pair l)
  | second {G : Set String} {pair : Term} {l : Location} :
      Scoped G pair → Scoped G (.second pair l)
  | function {G : Set String} {parameters : List Parameter} {body : Term} {l : Location} :
      Scoped (G ∪ parameterNames parameters) body → Scoped G (.function parameters body l)
  | call {G : Set String} {callee : Term} {arguments : List Term} {l : Location} :
      Scoped G callee → (∀ t ∈ arguments, Scoped G t) → Scoped G (.call callee arguments l)

theorem Scoped.mono {G H : Set String} {t : Term} (h : Scoped G t) (hGH : G ⊆ H) :
    Scoped H t := by
  induction h generalizing H with
  | int => exact .int
  | str => exact .str
  | bool => exact .bool
  | var hname => exact .var (hGH hname)
  | binding _ _ ihbound ihnext =>
    exact .binding (ihbound hGH) (ihnext (Set.insert_subset_insert hGH))
  | recursive _ _ ihfunction ihnext =>
    exact .recursive (ihfunction (Set.insert_subset_insert hGH))
      (ihnext (Set.insert_subset_insert hGH))
  | conditional _ _ _ ihc iha ihb => exact .conditional (ihc hGH) (iha hGH) (ihb hGH)
  | binary _ _ ihlhs ihrhs => exact .binary (ihlhs hGH) (ihrhs hGH)
  | print _ ih => exact .print (ih hGH)
  | tuple _ _ ihleft ihright => exact .tuple (ihleft hGH) (ihright hGH)
  | first _ ih => exact .first (ih hGH)
  | second _ ih => exact .second (ih hGH)
  | function _ ih => exact .function (ih (Set.union_subset_union_left _ hGH))
  | call _ _ ihcallee iharguments =>
    exact .call (ihcallee hGH) fun t ht => iharguments t ht hGH

end TreeScript
