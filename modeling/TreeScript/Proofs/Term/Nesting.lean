import TreeScript.Value.Basic

/-!
Functions inside terms. A function of a program stands in the body of the function around
it, or in no function at all; what a program nests most deeply bounds how many functions can
stand around a term.
-/
namespace TreeScript

/-- A function as it is written. -/
structure FunctionNode where
  parameters : List Parameter
  body : Term
  location : Location

def FunctionNode.term (n : FunctionNode) : Term := .function n.parameters n.body n.location

/-- The function that a closure is made from. -/
def Closure.node (c : Closure) : FunctionNode := ⟨c.parameters, c.body, c.location⟩

namespace Term

/-- The second term stands in the first, or is it. -/
inductive Contains (t : Term) : Term → Prop where
  | self : Contains t t
  | child {u c : Term} : Contains t u → c ∈ u.children → Contains t c

/-- The second term stands in the first outside its functions, or is it. -/
inductive Shows (t : Term) : Term → Prop where
  | self : Shows t t
  | child {u c : Term} : Shows t u → u.kind ≠ .function → c ∈ u.children → Shows t c

mutual

/-- How many functions stand one inside the other at most. -/
def nesting : Term → Nat
  | .int .. | .str .. | .bool .. | .var .. => 0
  | .print value _ | .first value _ | .second value _ => nesting value
  | .binary _ lhs rhs _ => max (nesting lhs) (nesting rhs)
  | .tuple left right _ => max (nesting left) (nesting right)
  | .conditional condition consequent alternative _ =>
    max (nesting condition) (max (nesting consequent) (nesting alternative))
  | .binding _ value next _ => max (nesting value) (nesting next)
  | .function _ body _ => nesting body + 1
  | .call callee arguments _ => max (nesting callee) (nestingAll arguments)

def nestingAll : List Term → Nat
  | [] => 0
  | t :: ts => max (nesting t) (nestingAll ts)

end

theorem nesting_le_nestingAll {t : Term} {ts : List Term} (h : t ∈ ts) :
    t.nesting ≤ nestingAll ts := by
  induction ts with
  | nil => cases h
  | cons u us ih =>
    rw [nestingAll]
    rcases List.mem_cons.mp h with rfl | h
    · exact Nat.le_max_left _ _
    · exact Nat.le_trans (ih h) (Nat.le_max_right _ _)

theorem nesting_child_le {t c : Term} (h : c ∈ t.children) : c.nesting ≤ t.nesting := by
  cases t with
  | int | str | bool | var => cases h
  | call callee arguments l =>
    rw [nesting]
    rcases List.mem_cons.mp h with rfl | h
    · exact Nat.le_max_left _ _
    · exact Nat.le_trans (nesting_le_nestingAll h) (Nat.le_max_right _ _)
  | _ =>
    simp only [children, List.mem_cons, List.not_mem_nil, or_false] at h
    simp only [nesting]
    rcases h with rfl | rfl | rfl <;> omega

theorem Shows.nesting_le {t u : Term} (h : t.Shows u) : u.nesting ≤ t.nesting := by
  induction h with
  | self => exact Nat.le_refl _
  | child _ _ hc ih => exact Nat.le_trans (nesting_child_le hc) ih

end Term

/-- The body of the innermost of the functions, the program itself if there are none. -/
def innermostBody (program : Term) : List FunctionNode → Term
  | [] => program
  | n :: _ => n.body

/-- The parameters of the innermost of the functions. -/
def innermostParameters : List FunctionNode → List Parameter
  | [] => []
  | n :: _ => n.parameters

/-- Functions of the program, innermost first, each immediately inside the next and the last
in no function. -/
inductive Nested (program : Term) : List FunctionNode → Prop where
  | nil : Nested program []
  | cons {n : FunctionNode} {outer : List FunctionNode} :
      Nested program outer → (innermostBody program outer).Shows n.term →
      Nested program (n :: outer)

theorem Nested.length_add_nesting_le {program : Term} {chain : List FunctionNode}
    (h : Nested program chain) :
    chain.length + (innermostBody program chain).nesting ≤ program.nesting := by
  induction h with
  | nil => exact Nat.le_of_eq (Nat.zero_add _)
  | @cons n outer _ hn ih =>
    have hbody : n.body.nesting + 1 ≤ (innermostBody program outer).nesting := hn.nesting_le
    simp only [List.length_cons, innermostBody]
    omega

theorem Nested.length_le {program : Term} {chain : List FunctionNode} (h : Nested program chain) :
    chain.length ≤ program.nesting :=
  Nat.le_trans (Nat.le_add_right _ _) h.length_add_nesting_le

end TreeScript
