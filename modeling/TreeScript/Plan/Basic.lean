/-!
Recursive definitions whose pending work is a list.

A plan says what one activation of a recursive definition does next: it answers,
hands over to another request, or asks for the answer to a request and continues
with it. A body maps each request to its plan. The machine below runs a body and
keeps the continuations that wait in a list, so the depth of the recursion is
bounded by memory alone.
-/
namespace TreeScript

/-- Plans over a state `σ`, requests `ρ` and answers `α`. The state is handed on at
every request and every answer. -/
inductive Plan (σ ρ α : Type) where
  | answer (a : α) (s : σ)
  | jump (q : ρ) (s : σ)
  | call (q : ρ) (s : σ) (resume : α → σ → Plan σ ρ α)

namespace Plan

variable {σ ρ α : Type}

/-- The state that a plan hands on. -/
def state : Plan σ ρ α → σ
  | .answer _ s | .jump _ s | .call _ s _ => s

def withState (s : σ) : Plan σ ρ α → Plan σ ρ α
  | .answer a _ => .answer a s
  | .jump q _ => .jump q s
  | .call q _ k => .call q s k

/-- The plan in hand and the continuations that wait for its answer, innermost first. -/
structure Config (σ ρ α : Type) where
  plan : Plan σ ρ α
  waiting : List (α → σ → Plan σ ρ α)

inductive Progress (σ ρ α : Type) where
  | finished (a : α) (s : σ)
  | unfinished (c : Config σ ρ α)

def step (body : ρ → σ → Plan σ ρ α) (c : Config σ ρ α) : Progress σ ρ α :=
  match c with
  | ⟨.answer a s, []⟩ => .finished a s
  | ⟨.answer a s, k :: ks⟩ => .unfinished ⟨k a s, ks⟩
  | ⟨.jump q s, ks⟩ => .unfinished ⟨body q s, ks⟩
  | ⟨.call q s k, ks⟩ => .unfinished ⟨body q s, k :: ks⟩

/-- At most `fuel` steps. Running out is no answer. -/
def advance (body : ρ → σ → Plan σ ρ α) (fuel : Nat) (c : Config σ ρ α) : Progress σ ρ α :=
  match fuel with
  | 0 => .unfinished c
  | fuel + 1 =>
    match step body c with
    | .finished a s => .finished a s
    | .unfinished d => advance body fuel d

def start (q : ρ) (s : σ) : Config σ ρ α := ⟨.jump q s, []⟩

/-- The answer to a request and the state it leaves, if `fuel` steps reach them. -/
def run (body : ρ → σ → Plan σ ρ α) (fuel : Nat) (q : ρ) (s : σ) : Option (α × σ) :=
  match advance body fuel (start q s) with
  | .finished a s => some (a, s)
  | .unfinished _ => none

/-- The plain recursive meaning of a plan: each request is answered by its own body. -/
inductive Yields (body : ρ → σ → Plan σ ρ α) : Plan σ ρ α → α → σ → Prop where
  | answer (a : α) (s : σ) : Yields body (.answer a s) a s
  | jump {q : ρ} {s t : σ} {a : α} :
      Yields body (body q s) a t → Yields body (.jump q s) a t
  | call {q : ρ} {s t u : σ} {k : α → σ → Plan σ ρ α} {a b : α} :
      Yields body (body q s) a t → Yields body (k a t) b u → Yields body (.call q s k) b u

/-- Every request the plan can make satisfies `ok`. -/
def CallsOnly (ok : ρ → Prop) : Plan σ ρ α → Prop
  | .answer _ _ => True
  | .jump q _ => ok q
  | .call q _ k => ok q ∧ ∀ a s, (k a s).CallsOnly ok

section Attempts
variable {ε β : Type}

/-- Continue with the value of a check, or answer with its failure. -/
@[inline] def require (e : Except ε β) (s : σ) (k : β → Plan σ ρ (Except ε α)) :
    Plan σ ρ (Except ε α) :=
  match e with
  | .ok b => k b
  | .error x => .answer (.error x) s

/-- Continue with the value a request answers; its failure is the answer. -/
@[inline] def ask (q : ρ) (s : σ) (k : α → σ → Plan σ ρ (Except ε α)) :
    Plan σ ρ (Except ε α) :=
  .call q s fun r s =>
    match r with
    | .ok a => k a s
    | .error x => .answer (.error x) s

/-- Ask the requests from left to right; the first failure is the answer. -/
def askAll (qs : List ρ) (s : σ) (answers : List α)
    (k : List α → σ → Plan σ ρ (Except ε α)) : Plan σ ρ (Except ε α) :=
  match qs with
  | [] => k answers.reverse s
  | q :: qs => ask q s fun a s => askAll qs s (a :: answers) k

end Attempts

end Plan

end TreeScript
