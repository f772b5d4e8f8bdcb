import TreeScript.Proofs.Evaluation.Calls
import TreeScript.Proofs.Plan.History

/-!
What an evaluation prints. Each print that comes to a value adds a line, in the order in which
they do, and nothing else adds to the text. Main statement: what a printer holds after an
evaluation is what it held before and the text of the evaluation's history.
-/
namespace TreeScript

namespace Printer

/-- Takes a text. -/
def receive (p : Printer) (text : String) : Printer :=
  match p.sink with
  | .silent => p
  | _ => { p with held := p.held ++ text }

@[simp] theorem receive_empty (p : Printer) : p.receive "" = p := by
  unfold receive
  split <;> simp

@[simp] theorem receive_receive (p : Printer) (text more : String) :
    (p.receive text).receive more = p.receive (text ++ more) := by
  obtain ⟨sink, held⟩ := p
  cases sink <;> simp [receive, String.append_assoc]

theorem println_eq_receive (p : Printer) (line : String) :
    p.println line = p.receive (line ++ "\n") := by
  obtain ⟨sink, held⟩ := p
  cases sink <;> simp [println, receive, String.append_assoc]

/-- A buffer gives back all that it takes. -/
theorem captured_receive {p : Printer} (h : p.sink = .buffer) (text : String) :
    (p.receive text).captured = p.captured ++ text := by
  obtain ⟨sink, held⟩ := p
  cases h
  rfl

end Printer

namespace Evaluation

/-- The nodes that an evaluation answers, each with its answer, in the order of the answers. -/
abbrev History := List (Request × Outcome)

/-- What a node itself prints: a line if it is a print that came to a value. -/
def Request.line (q : Request) (r : Outcome) : String :=
  match q.term, r with
  | .print _ _, .ok v => v.display ++ "\n"
  | _, _ => ""

def History.text : History → String
  | [] => ""
  | (q, r) :: history => q.line r ++ text history

theorem foldl_receive (history : History) (p : Printer) :
    history.foldl (fun p x => p.receive (x.1.line x.2)) p = p.receive history.text := by
  induction history generalizing p with
  | nil => simp [History.text]
  | cons x history ih => rw [List.foldl_cons, ih, Printer.receive_receive, History.text]

theorem tallies_enterCall (c : Closure) (arguments : List Value) (call : Call) (s : State) :
    (enterCall c arguments call s).Tallies State.printer (fun _ p => p) s.printer := by
  apply enterCall_cases
  · intro _
    rfl
  · intro _ _ _
    rfl
  · intro _ _
    refine ⟨rfl, ?_⟩
    intro r t
    rw [leaveCall_eq]
    rfl

/-- A node that is no print prints nothing itself. -/
theorem tallies_quiet {term : Term} (hterm : term.kind ≠ .print) (f : FrameId) (s : State) :
    (body ⟨term, f⟩ s).Tallies State.printer (fun _ p => p) s.printer := by
  cases term with
  | print => exact absurd rfl hterm
  | int | str | bool | function => rfl
  | var name l =>
    cases h : s.store.lookup f name <;> simp only [body, State.visit, h] <;> rfl
  | binding name bound next l =>
    exact Plan.tallies_ask rfl (fun _ _ => rfl) fun v t => ⟨rfl, fun _ _ => rfl⟩
  | conditional condition consequent alternative l =>
    exact Plan.tallies_ask rfl (fun _ _ => rfl) fun v t => ⟨rfl, fun _ _ => rfl⟩
  | binary op lhs rhs l =>
    refine Plan.tallies_ask rfl (fun _ _ => rfl) fun a t => ?_
    refine Plan.tallies_ask rfl (fun _ _ => rfl) fun b u => ?_
    cases op.apply a b <;> rfl
  | tuple left right l =>
    refine Plan.tallies_ask rfl (fun _ _ => rfl) fun a t => ?_
    exact Plan.tallies_ask rfl (fun _ _ => rfl) fun b u => rfl
  | first pair l | second pair l =>
    refine Plan.tallies_ask rfl (fun _ _ => rfl) fun v t => ?_
    cases v <;> rfl
  | call callee arguments l =>
    refine Plan.tallies_ask rfl (fun _ _ => rfl) fun v t => ?_
    cases v with
    | closure c =>
      refine Plan.tallies_askAll rfl (fun _ _ => rfl) fun vs u => ?_
      exact tallies_enterCall c vs _ u
    | _ => rfl

/-- A node prints its own line, after all that its children print. -/
theorem tallies_body (q : Request) (s : State) :
    (body q s).Tallies State.printer (fun r p => p.receive (q.line r)) s.printer := by
  obtain ⟨term, f⟩ := q
  by_cases hterm : term.kind = .print
  · cases term with
    | print printed l =>
      refine Plan.tallies_ask rfl (fun _ p => p.receive_empty) fun v t => ?_
      exact t.printer.println_eq_receive v.display
    | _ => cases hterm
  · have hquiet : (fun (r : Outcome) (p : Printer) => p.receive (Request.line ⟨term, f⟩ r)) =
        fun _ p => p := by
      funext r p
      cases term with
      | print => exact absurd rfl hterm
      | _ => exact p.receive_empty
    rw [hquiet]
    exact tallies_quiet hterm f s

/-- A printer takes exactly the text of the history. -/
theorem printer_of_recounts {q : Request} {s u : State} {history : History} {r : Outcome}
    (h : Plan.Recounts body (.jump q s) history r u) :
    u.printer = s.printer.receive history.text := by
  have hview := h.view_eq tallies_body (⟨rfl, fun _ _ => rfl⟩ :
    (Plan.jump q s).Tallies State.printer (fun _ p => p) s.printer)
  exact hview.trans (foldl_receive history s.printer)

end Evaluation

namespace Interpreter
variable {i j : Interpreter} {t : Term} {f : FrameId} {r : Outcome}

/-- The evaluation of the term in the frame comes to its end by way of these answers. -/
def Recounts (i : Interpreter) (t : Term) (f : FrameId) (history : Evaluation.History) (r : Outcome)
    (j : Interpreter) : Prop :=
  j.root = i.root ∧ Plan.Recounts Evaluation.body (.jump ⟨t, f⟩ i.state) history r j.state

theorem Recounts.returns {history : Evaluation.History} (h : i.Recounts t f history r j) :
    i.Returns t f r j := by
  obtain ⟨hroot, hrun⟩ := h
  cases hrun.yields with
  | jump hy => exact returns_iff_yields.mpr ⟨hroot, hy⟩

theorem Returns.exists_recounts (h : i.Returns t f r j) :
    ∃ history, i.Recounts t f history r j := by
  obtain ⟨hroot, hy⟩ := returns_iff_yields.mp h
  obtain ⟨history, hrun⟩ := hy.exists_recounts
  exact ⟨_, hroot, .jump hrun⟩

theorem Recounts.printer_eq {history : Evaluation.History} (h : i.Recounts t f history r j) :
    j.state.printer = i.state.printer.receive history.text :=
  Evaluation.printer_of_recounts h.2

end Interpreter

end TreeScript
