import Mathlib
import TreeScript.Proofs.Evaluation.DepthLimit
import TreeScript.Proofs.Evaluation.Visited

/-!
The counts of an evaluation. Each node visited counts as a term, and each that enters a call as a
call. Main statement: the counts are the numbers of these nodes, and the deepest nesting is that
of the bodies entered.
-/
namespace TreeScript

namespace Counters
variable {c : Counters} {n m : Nat} {ds es : List Nat}

/-- So many nodes more, and bodies entered at these depths. -/
def grow (c : Counters) (n : Nat) (ds : List Nat) : Counters :=
  ⟨c.terms + .ofNat n, c.calls + .ofNat ds.length, ds.foldl max c.maxDepth⟩

@[simp] theorem grow_nothing : c.grow 0 [] = c := by
  simp [grow]

theorem grow_grow : (c.grow n ds).grow m es = c.grow (n + m) (ds ++ es) := by
  simp [grow, UInt64.ofNat_add, add_assoc]

theorem grow_perm (h : ds.Perm es) : c.grow n ds = c.grow n es := by
  simp [grow, h.length_eq, h.foldl_eq c.maxDepth]

theorem countTerm_eq : c.countTerm = c.grow 1 [] := by
  simp [countTerm, grow]

theorem countCall_eq {depth : Nat} : c.countCall depth = c.grow 0 [depth] := by
  simp [countCall, grow]

/-- The deepest nesting is the greatest of the depths and the one before. -/
theorem max?_maxDepth : (c.maxDepth :: ds).max? = some (c.grow n ds).maxDepth := rfl

end Counters

namespace Evaluation

/-- The depths at which the node opens bodies: one if it enters a call, else none. -/
inductive Opens (x : Request × State) : List Nat → Prop where
  | none : ¬ EntersCall x → Opens x []
  | body : EntersCall x → Opens x [x.2.stack.depth + 1]

/-- The depths at which the nodes open bodies. -/
inductive OpensAll : List (Request × State) → List Nat → Prop where
  | nil : OpensAll [] []
  | cons {x : Request × State} {log : List (Request × State)} {own ds : List Nat} :
      Opens x own → OpensAll log ds → OpensAll (x :: log) (own ++ ds)

namespace OpensAll
variable {log more : List (Request × State)} {ds es : List Nat}

theorem append (h : OpensAll log ds) (h' : OpensAll more es) :
    OpensAll (log ++ more) (ds ++ es) := by
  induction h with
  | nil => exact h'
  | cons hx _ ih =>
    rw [List.append_assoc]
    exact .cons hx ih

theorem mem_iff (h : OpensAll log ds) {n : Nat} :
    n ∈ ds ↔ ∃ x ∈ log, EntersCall x ∧ x.2.stack.depth + 1 = n := by
  induction h with
  | nil => simp
  | cons hx _ ih =>
    cases hx with
    | none hx => simp [ih, hx]
    | body hx => simp [ih, hx, eq_comm]

theorem length_eq [DecidablePred EntersCall] (h : OpensAll log ds) :
    ds.length = (log.filter fun x => EntersCall x).length := by
  induction h with
  | nil => rfl
  | cons hx _ ih =>
    cases hx with
    | none hx => simp [ih, hx]
    | body hx => simp [ih, hx, Nat.add_comm]

end OpensAll

/-- The count of nodes where the visit starts. -/
def stamp (x : Request × State) : Option UInt64 := x.2.counters.map Counters.terms

/-- From `s` to `t` these nodes are visited, as what `k` requests come to. The bodies that they
open are at the depths `ds`, and the node that makes the requests opens `own`. -/
structure Tally (s t : State) (log : List (Request × State)) (ds own : List Nat) (k : Nat) :
    Prop where
  opens : OpensAll log ds
  counters : t.counters = s.counters.map fun c => c.grow log.length (ds ++ own)
  stamps : log.map stamp =
    (List.range log.length).map fun n => s.counters.map fun c => c.terms + .ofNat n
  wide : 2 * ds.length + k ≤ log.length
  deep : ∀ d ∈ ds ++ own, d ≤ s.stack.depth + (ds ++ own).length
  stack : t.stack = s.stack

section Tallies
variable {s s' t u : State} {log more : List (Request × State)} {ds es own : List Nat} {k m : Nat}

namespace Tally

theorem nil (hcounters : t.counters = s.counters) (hstack : t.stack = s.stack) :
    Tally s t [] [] [] 0 where
  opens := .nil
  counters := by simp [hcounters]
  stamps := rfl
  wide := le_rfl
  deep := by simp
  stack := hstack

/-- The visits for one request, then those for the others. -/
theorem append (h : Tally s t log ds [] k) (hcounters : s'.counters = t.counters)
    (hstack : s'.stack = t.stack) (h' : Tally s' u more es own m) :
    Tally s u (log ++ more) (ds ++ es) own (k + m) where
  opens := h.opens.append h'.opens
  counters := by
    rw [h'.counters, hcounters, h.counters, Option.map_map]
    congr 1
    funext c
    simp [Counters.grow_grow]
  stamps := by
    rw [List.map_append, h.stamps, h'.stamps, hcounters, h.counters, List.length_append,
      List.range_add, List.map_append, List.map_map]
    congr 1
    refine List.map_congr_left fun n _ => ?_
    simp [Counters.grow, UInt64.ofNat_add, add_assoc, Function.comp_def]
  wide := by
    have hlog := h.wide
    have hmore := h'.wide
    simp only [List.length_append]
    omega
  deep := by
    have hlog := h.deep
    have hmore := h'.deep
    rw [hstack, h.stack] at hmore
    simp only [List.append_nil, List.length_append] at hlog hmore ⊢
    intro d hd
    rw [List.append_assoc, List.mem_append] at hd
    rcases hd with hd | hd
    · have hle := hlog d hd
      omega
    · have hle := hmore d hd
      omega
  stack := by rw [h'.stack, hstack, h.stack]

/-- The visit of a node: the node itself and the visits for its requests. A node that enters a
call makes two requests at least, for its callee and for the body. -/
theorem node {q : Request} (h : Tally s.visit t log ds own k) (hown : Opens (q, s) own)
    (hk : 2 * own.length ≤ k) : Tally s t ((q, s) :: log) (own ++ ds) [] 1 where
  opens := .cons hown h.opens
  counters := by
    rw [h.counters, State.visit, Option.map_map]
    congr 1
    funext c
    rw [Function.comp_apply, Counters.countTerm_eq, Counters.grow_grow, List.append_nil,
      List.nil_append, List.length_cons, Nat.add_comm 1]
    exact Counters.grow_perm List.perm_append_comm
  stamps := by
    rw [List.map_cons, h.stamps, List.length_cons, List.range_succ_eq_map, List.map_cons,
      List.map_map]
    congr 1
    · simp [stamp]
    · refine List.map_congr_left fun n _ => ?_
      simp only [State.visit, Option.map_map]
      congr 1
      funext c
      simp [Counters.countTerm, UInt64.ofNat_add, add_assoc, add_comm]
  wide := by
    have hwide := h.wide
    simp only [List.length_append, List.length_cons]
    omega
  deep := by
    have hdeep := h.deep
    simp only [List.append_nil, List.mem_append, List.length_append] at hdeep ⊢
    intro d hd
    rw [Nat.add_comm own.length]
    exact hdeep d hd.symm
  stack := h.stack

/-- The visits for the body of a call, from before the call is entered until it is left. -/
theorem body {c : Closure} {vs : List Value} {call : Call}
    (h : Tally (s.called c vs call) t log ds [] 1) :
    Tally s t.leave log ds [s.stack.depth + 1] 1 where
  opens := h.opens
  counters := by
    have hcounters : t.leave.counters = t.counters := rfl
    rw [hcounters, h.counters, State.called, Option.map_map]
    congr 1
    funext c
    rw [Function.comp_apply, Counters.countCall_eq, Counters.grow_grow, List.append_nil,
      Nat.zero_add]
    exact Counters.grow_perm List.perm_append_comm
  stamps := by
    rw [h.stamps]
    refine List.map_congr_left fun n _ => ?_
    simp only [State.called, Option.map_map]
    rfl
  wide := h.wide
  deep := by
    have hdeep := h.deep
    simp only [List.append_nil, State.stack_called, CallStack.depth_enter] at hdeep
    simp only [List.mem_append, List.mem_singleton, List.length_append, List.length_singleton]
    intro d hd
    rcases hd with hd | rfl
    · have hle := hdeep d hd
      omega
    · omega
  stack := by simp [h.stack]

end Tally

end Tallies

/-- What is visited for a request, with the request itself, adds up. -/
def AddsUp (q : Request) (s : State) (log : List (Request × State)) (_ : Outcome) (t : State) :
    Prop :=
  ∃ ds, Tally s t ((q, s) :: log) ds [] 1

/-- What the node visits from `s'` on, after `n` requests, adds up with the body that it opens
itself. -/
def Leads (x : Request × State) (n : Nat) (s' : State) (log : List (Request × State))
    (_ : Outcome) (t : State) : Prop :=
  ∃ ds own k, Opens x own ∧ 2 * own.length ≤ n + k ∧ Tally s' t log ds own k

/-- What is left of the node's plan after `n` requests adds up if the requests left do. -/
abbrev Proceeds (x : Request × State) (n : Nat) (s' : State) (plan : EvalPlan) : Prop :=
  plan.Accounts body AddsUp (Leads x n s')

section Plans
variable {x : Request × State} {p : Request} {s s' t u : State} {n : Nat}

theorem Leads.prepend {log more : List (Request × State)} {ds : List Nat} {r : Outcome}
    (h : Tally s' t log ds [] 1) (hmore : Leads x (n + 1) t more r u) :
    Leads x n s' (log ++ more) r u := by
  obtain ⟨es, own, k, hown, hk, htally⟩ := hmore
  exact ⟨ds ++ es, own, 1 + k, hown, by omega, h.append rfl rfl htally⟩

theorem proceeds_answer {r : Outcome} (hx : ¬ EntersCall x) (hcounters : t.counters = s'.counters)
    (hstack : t.stack = s'.stack) : Proceeds x n s' (.answer r t) :=
  ⟨[], [], 0, .none hx, Nat.zero_le _, .nil hcounters hstack⟩

theorem proceeds_jump (hx : ¬ EntersCall x) (hcounters : t.counters = s'.counters)
    (hstack : t.stack = s'.stack) : Proceeds x n s' (.jump p t) := by
  intro log r u _ hp
  obtain ⟨ds, htally⟩ := hp
  have hstart : Tally s' t [] [] [] 0 := .nil hcounters hstack
  exact ⟨ds, [], 1, .none hx, Nat.zero_le _, hstart.append rfl rfl htally⟩

theorem proceeds_ask {k : Value → State → EvalPlan}
    (herror : ∀ e t, Evaluates p.term p.frame s' (.error e) t → ¬ EntersCall x)
    (hk : ∀ v t, Evaluates p.term p.frame s' (.ok v) t → Proceeds x (n + 1) t (k v t)) :
    Proceeds x n s' (.ask p s' k) := by
  intro log r t hy hp
  obtain ⟨ds, htally⟩ := hp
  cases r with
  | ok v => exact (hk v t (yields_iff_evaluates.mp hy)).imp fun more b w => Leads.prepend htally
  | error e =>
    have hx := herror e t (yields_iff_evaluates.mp hy)
    exact Leads.prepend htally (proceeds_answer (r := .error e) hx rfl rfl)

section Call
variable {callee : Term} {arguments : List Term} {l : Location} {f : FrameId} {c : Closure}

/-- The callee at least has been asked for when the call is entered. -/
theorem proceeds_enterCall {vs : List Value} (hn : 0 < n)
    (hc : Evaluates callee f s.visit (.ok (.closure c)) t)
    (hvs : EvaluatesAll arguments f t (.ok vs) u) :
    Proceeds (⟨.call callee arguments l, f⟩, s) n u
      (enterCall c vs ⟨calleeName callee, l⟩ u) := by
  apply enterCall_cases
  · intro h
    exact proceeds_answer (Raises.wrongArity hc hvs h).not_entersCall rfl rfl
  · intro limit h hs
    obtain ⟨hlimit, hdepth⟩ := CallStack.exhausted?_eq_some_iff.mp hs
    exact proceeds_answer (Raises.refused hc hvs h hlimit hdepth).not_entersCall rfl rfl
  · intro h hs
    have henters := Enters.call (l := l) hc hvs h (CallStack.exhausted?_eq_none_iff.mp hs)
    intro log r w _ hbody
    obtain ⟨ds, htally⟩ := hbody
    rw [leaveCall_eq]
    refine ⟨ds, [u.stack.depth + 1], 1, ?_, by simp; omega, ?_⟩
    · rw [henters.stack_eq]
      exact .body ⟨_, _, _, _, henters⟩
    · simpa using htally.body

/-- The arguments evaluated so far stand before whatever becomes of the others. -/
theorem proceeds_arguments {rest : List Term} {vs : List Value} (hn : 0 < n)
    (hc : Evaluates callee f s.visit (.ok (.closure c)) t)
    (hrest : ∀ rs w, EvaluatesAll rest f u rs w →
      EvaluatesAll arguments f t (rs.map fun ws => vs.reverse ++ ws) w) :
    Proceeds (⟨.call callee arguments l, f⟩, s) n u
      (.askAll (rest.map fun t => ⟨t, f⟩) u vs fun vs s =>
        enterCall c vs ⟨calleeName callee, l⟩ s) := by
  induction rest generalizing u vs n with
  | nil =>
    have hvs := hrest _ _ .nil
    simp only [Except.map, List.append_nil] at hvs
    exact proceeds_enterCall hn hc hvs
  | cons head rest ih =>
    apply proceeds_ask
    · intro e w he henters
      obtain ⟨⟨ws, hws, -⟩, -⟩ := henters.fits hc (hrest _ _ (.headFails he))
      cases hws
    · intro v w hv
      refine ih (Nat.succ_pos n) fun rs z hrs => ?_
      have h := hrest _ _ (hrs.append hv)
      cases rs with
      | ok ws => simpa [Except.map] using h
      | error e => exact h

theorem proceeds_call (callee : Term) (arguments : List Term) (l : Location) (f : FrameId)
    (s : State) : Proceeds (⟨.call callee arguments l, f⟩, s) 0 s.visit
      (body ⟨.call callee arguments l, f⟩ s) := by
  apply proceeds_ask
  · intro e t he henters
    obtain ⟨c, hc⟩ := henters.closure he
    cases hc
  · intro v t hv
    cases v with
    | closure c =>
      refine proceeds_arguments Nat.one_pos hv fun rs w hrs => ?_
      cases rs with
      | ok ws => exact hrs
      | error e => exact hrs
    | _ =>
      refine proceeds_answer (fun henters => ?_) rfl rfl
      obtain ⟨c, hc⟩ := henters.closure hv
      cases hc

end Call

/-- A node that is no call opens no body, and adds only what it asks for. -/
theorem proceeds_other {q : Request} (hcall : q.term.kind ≠ .call) :
    Proceeds (q, s) 0 s.visit (body q s) := by
  have hx : ¬ EntersCall (q, s) := fun h => hcall h.kind_eq
  obtain ⟨term, f⟩ := q
  cases term with
  | int | str | bool | function => exact proceeds_answer hx rfl rfl
  | var name l =>
    cases h : s.store.lookup f name with
    | some v =>
      simp only [body, State.visit, h]
      exact proceeds_answer hx rfl rfl
    | none =>
      simp only [body, State.visit, h]
      exact proceeds_answer hx rfl rfl
  | binding | conditional =>
    exact proceeds_ask (fun _ _ _ => hx) fun v t _ => proceeds_jump hx rfl rfl
  | binary op lhs rhs l =>
    refine proceeds_ask (fun _ _ _ => hx) fun a t _ => ?_
    refine proceeds_ask (fun _ _ _ => hx) fun b u _ => ?_
    cases op.apply a b <;> exact proceeds_answer hx rfl rfl
  | print => exact proceeds_ask (fun _ _ _ => hx) fun v t _ => proceeds_answer hx rfl rfl
  | tuple =>
    refine proceeds_ask (fun _ _ _ => hx) fun a t _ => ?_
    exact proceeds_ask (fun _ _ _ => hx) fun b u _ => proceeds_answer hx rfl rfl
  | first | second =>
    refine proceeds_ask (fun _ _ _ => hx) fun v t _ => ?_
    cases v <;> exact proceeds_answer hx rfl rfl
  | call => exact absurd rfl hcall

theorem accounts_body (q : Request) (s : State) :
    (body q s).Accounts body AddsUp (AddsUp q s) := by
  have hbody : Proceeds (q, s) 0 s.visit (body q s) := by
    by_cases hcall : q.term.kind = .call
    · obtain ⟨term, f⟩ := q
      cases term with
      | call callee arguments l => exact proceeds_call callee arguments l f s
      | _ => cases hcall
    · exact proceeds_other hcall
  refine hbody.imp fun log r t hleads => ?_
  obtain ⟨ds, own, k, hown, hk, htally⟩ := hleads
  exact ⟨own ++ ds, htally.node hown (by omega)⟩

end Plans

theorem exists_tally {q : Request} {s t : State} {log : List (Request × State)} {r : Outcome}
    (h : Plan.Visits body (.jump q s) log r t) : ∃ ds, Tally s t log ds [] 1 := by
  cases h with
  | jump h => exact h.accounted accounts_body (accounts_body q s)

section Numbers
variable {q p : Request} {s t w : State} {log : List (Request × State)} {ds : List Nat}
  {r : Outcome} {c : Counters}

theorem ncard_of_nodup {α : Type} {l : List α} (h : l.Nodup) : {x | x ∈ l}.ncard = l.length := by
  classical
  have hset : {x | x ∈ l} = (l.toFinset : Set α) := by
    ext x
    simp
  rw [hset, Set.ncard_coe_finset, List.toFinset_card_of_nodup h]

/-- Until the count of terms comes back to where it began, each visit has a stamp of its own. -/
theorem Tally.nodup_take (h : Tally s t log ds [] 1) (hc : s.counters = some c) :
    (log.take UInt64.size).Nodup := by
  have hstamps : (log.take UInt64.size).map stamp =
      (List.range (min UInt64.size log.length)).map fun n => some (c.terms + .ofNat n) := by
    rw [List.map_take, h.stamps, ← List.map_take, List.take_range, hc]
    rfl
  refine List.Nodup.of_map stamp ?_
  rw [hstamps]
  refine List.nodup_range.map_on ?_
  intro n hn m hm heq
  have hn' : n < UInt64.size := (List.mem_range.mp hn).trans_le (min_le_left ..)
  have hm' : m < UInt64.size := (List.mem_range.mp hm).trans_le (min_le_left ..)
  have hsame := add_left_cancel (Option.some.inj heq)
  have hnat := congrArg UInt64.toNat hsame
  rwa [UInt64.toNat_ofNat_of_lt' hn', UInt64.toNat_ofNat_of_lt' hm'] at hnat

/-- As long as the nodes can be counted, none is visited twice. -/
theorem Tally.nodup (h : Tally s t log ds [] 1) (hc : s.counters = some c)
    (hmem : ∀ x, x ∈ log ↔ x ∈ visited q s) (hfew : (visited q s).ncard < UInt64.size) :
    log.Nodup := by
  have htake := h.nodup_take hc
  have hlength : log.length < UInt64.size := by
    by_contra hmany
    have hfinite : (visited q s).Finite :=
      (List.finite_toSet log).subset fun x hx => (hmem x).mpr hx
    have hsub : {x | x ∈ log.take UInt64.size} ⊆ visited q s :=
      fun x hx => (hmem x).mp (List.mem_of_mem_take hx)
    have hle := Set.ncard_le_ncard hsub hfinite
    rw [ncard_of_nodup htake, List.length_take] at hle
    omega
  rwa [List.take_of_length_le hlength.le] at htake

theorem OpensAll.length_eq_ncard (h : OpensAll log ds) (hnodup : log.Nodup)
    (hmem : ∀ x, x ∈ log ↔ x ∈ visited q s) : ds.length = (entering q s).ncard := by
  classical
  have hset : entering q s = {x | x ∈ log.filter fun x => EntersCall x} := by
    ext x
    simp [entering, hmem]
  rw [hset, ncard_of_nodup (hnodup.filter _), h.length_eq]

theorem OpensAll.mem_iff_nestings (h : OpensAll log ds)
    (hmem : ∀ x, x ∈ log ↔ x ∈ visited q s) {n : Nat} : n ∈ ds ↔ n ∈ nestings q s := by
  rw [h.mem_iff]
  constructor
  · rintro ⟨x, hx, ⟨call, c, vs, u, henters⟩, rfl⟩
    exact ⟨x, (hmem x).mp hx, call, c, vs, u, henters, henters.depth_called⟩
  · rintro ⟨x, hx, call, c, vs, u, henters, rfl⟩
    exact ⟨x, (hmem x).mpr hx, ⟨call, c, vs, u, henters⟩, henters.depth_called.symm⟩

theorem limit_of_reaches {calls : List Call} (h : Reaches calls q s p w) :
    w.stack.limit = s.stack.limit := by
  induction h with
  | here => rfl
  | child hask _ ih => rw [ih, hask.stack_eq]
  | body henters _ ih => rw [ih, ← henters.stack_eq]; rfl

/-- No body starts deeper than the limit. -/
theorem le_of_mem_nestings {m n : Nat} (hn : n ∈ nestings q s) (hlimit : s.stack.limit = some m) :
    n ≤ m := by
  obtain ⟨⟨p, w⟩, ⟨calls, hx⟩, call, c, vs, u, henters, rfl⟩ := hn
  have hlimit' : u.stack.limit = some m := by rw [henters.stack_eq, limit_of_reaches hx, hlimit]
  rw [State.stack_called, CallStack.depth_enter]
  cases henters with
  | call _ _ _ hroom => exact hroom m hlimit'

end Numbers

/-- The counts `d` after an evaluation are those before it and the numbers of what it does. -/
structure ExactCounts (q : Request) (s : State) (c d : Counters) : Prop where
  finite : (visited q s).Finite
  terms : d.terms.toNat = c.terms.toNat + (visited q s).ncard
  calls : d.calls.toNat = c.calls.toNat + (entering q s).ncard
  /-- The deepest body entered counts if it is deeper than all before. -/
  deepest : IsGreatest (insert c.maxDepth (nestings q s)) d.maxDepth
  /-- A call that is entered visits its callee and its body. -/
  twice : 2 * (d.calls.toNat - c.calls.toNat) + 1 ≤ d.terms.toNat - c.terms.toNat
  /-- Calls nest no deeper than there are calls. -/
  nested : ∀ n ∈ nestings q s, n ≤ s.stack.depth + (d.calls.toNat - c.calls.toNat)
  limited : ∀ m, c = .zero → s.stack.limit = some m → d.maxDepth ≤ m
  /-- A node whose own step fails, such as a call that is refused, is counted as a term only. -/
  refused : ∀ x ∈ visited q s, ∀ e, Raises x.1 x.2 e → x ∉ entering q s

theorem Tally.exactCounts {q : Request} {s t : State} {log : List (Request × State)}
    {ds : List Nat} {c d : Counters} (h : Tally s t log ds [] 1) (hc : s.counters = some c)
    (hd : t.counters = some d) (hmem : ∀ x, x ∈ log ↔ x ∈ visited q s) (hnodup : log.Nodup)
    (hterms : c.terms.toNat + (visited q s).ncard < 2 ^ 64)
    (hcalls : c.calls.toNat + (entering q s).ncard < 2 ^ 64) : ExactCounts q s c d := by
  have hset : visited q s = {x | x ∈ log} := Set.ext fun x => (hmem x).symm
  have hlength : log.length = (visited q s).ncard := by rw [hset, ncard_of_nodup hnodup]
  have hentering : ds.length = (entering q s).ncard := h.opens.length_eq_ncard hnodup hmem
  have hd' : d = c.grow log.length ds := by
    have hcounters := h.counters
    rw [hc, hd, List.append_nil] at hcounters
    exact Option.some.inj hcounters
  have hterms' : d.terms.toNat = c.terms.toNat + (visited q s).ncard := by
    rw [← hlength] at hterms ⊢
    rw [hd', Counters.grow, UInt64.toNat_add, UInt64.toNat_ofNat']
    omega
  have hcalls' : d.calls.toNat = c.calls.toNat + (entering q s).ncard := by
    rw [← hentering] at hcalls ⊢
    rw [hd', Counters.grow, UInt64.toNat_add, UInt64.toNat_ofNat']
    omega
  have hdepths : ∀ n, n ∈ c.maxDepth :: ds ↔ n ∈ insert c.maxDepth (nestings q s) := by
    intro n
    rw [List.mem_cons, Set.mem_insert_iff, h.opens.mem_iff_nestings hmem]
  have hmax : d.maxDepth ∈ c.maxDepth :: ds ∧ ∀ n ∈ c.maxDepth :: ds, n ≤ d.maxDepth :=
    List.max?_eq_some_iff.mp (hd' ▸ Counters.max?_maxDepth)
  have hdeepest : d.maxDepth ∈ insert c.maxDepth (nestings q s) := (hdepths _).mp hmax.1
  have hwide := h.wide
  have hdeep := h.deep
  rw [List.append_nil] at hdeep
  constructor
  case finite =>
    rw [hset]
    exact List.finite_toSet log
  case terms => exact hterms'
  case calls => exact hcalls'
  case deepest => exact ⟨hdeepest, fun n hn => hmax.2 n ((hdepths n).mpr hn)⟩
  case twice => omega
  case nested =>
    intro n hn
    have hle := hdeep n ((h.opens.mem_iff_nestings hmem).mpr hn)
    omega
  case limited =>
    rintro m rfl hlimit
    rcases hdeepest with hfresh | hnesting
    · exact hfresh.trans_le (Nat.zero_le m)
    · exact le_of_mem_nestings hnesting hlimit
  case refused =>
    rintro x - e hraises ⟨-, henters⟩
    exact hraises.not_entersCall henters

end Evaluation

namespace Interpreter

open Evaluation

/-- An evaluation visits no more nodes than it takes steps. -/
theorem visited_le_fuel {i j : Interpreter} {t : Term} {f : FrameId} {r : Outcome} {fuel : Nat}
    (h : i.evaluate fuel t f = some (r, j)) :
    (visited ⟨t, f⟩ i.state).Finite ∧ (visited ⟨t, f⟩ i.state).ncard ≤ fuel := by
  classical
  obtain ⟨root, s⟩ := i
  simp only [evaluate] at h
  split at h
  · rename_i r u hrun
    obtain ⟨log, hlog⟩ := (Plan.Yields.jump (Plan.run_eq_some_iff.mp ⟨fuel, hrun⟩)).exists_visits
    have hset : visited ⟨t, f⟩ s = (log.toFinset : Set (Request × State)) := by
      ext x
      simp [mem_visited_iff hlog]
    rw [hset, Set.ncard_coe_finset]
    exact ⟨log.toFinset.finite_toSet,
      (List.toFinset_card_le log).trans (hlog.length_le_of_run hrun)⟩
  · cases h

/-- An evaluation that is counted visits each node that it comes to once, and counts what it
does, whatever it comes to. -/
theorem counters_exact {i j : Interpreter} {t : Term} {f : FrameId} {r : Outcome}
    {c : Counters} (h : i.Returns t f r j) (hc : i.state.counters = some c)
    (hterms : c.terms.toNat + (visited ⟨t, f⟩ i.state).ncard < 2 ^ 64)
    (hcalls : c.calls.toNat + (entering ⟨t, f⟩ i.state).ncard < 2 ^ 64) :
    ∃ log d, Plan.Visits body (.jump ⟨t, f⟩ i.state) log r j.state ∧ log.Nodup ∧
      (∀ x, x ∈ log ↔ x ∈ visited ⟨t, f⟩ i.state) ∧ j.state.counters = some d ∧
      ExactCounts ⟨t, f⟩ i.state c d := by
  obtain ⟨-, hy⟩ := returns_iff_yields.mp h
  obtain ⟨log, hlog⟩ := (Plan.Yields.jump hy).exists_visits
  obtain ⟨ds, htally⟩ := exists_tally hlog
  have hmem : ∀ x, x ∈ log ↔ x ∈ visited ⟨t, f⟩ i.state := fun x => mem_visited_iff hlog
  have hnodup : log.Nodup := htally.nodup hc hmem (lt_of_le_of_lt (Nat.le_add_left ..) hterms)
  have hd := htally.counters
  rw [hc, Option.map_some] at hd
  exact ⟨log, _, hlog, hnodup, hmem, hd, htally.exactCounts hc hd hmem hnodup hterms hcalls⟩

/-- An interpreter that counts and allows a single call. -/
def singleCall : Interpreter := profiled ⟨0⟩ ⟨#[⟨[], none⟩], 0⟩ (.new .buffer) (some 1)

/-- Two of the nodes visited are calls, and the second is refused. -/
theorem counters_exact_printdown :
    ∃ e j log, singleCall.Returns printdown ⟨0⟩ (.error e) j ∧
      Plan.Visits body (.jump ⟨printdown, ⟨0⟩⟩ singleCall.state) log (.error e) j.state ∧
      log.Nodup ∧ (visited ⟨printdown, ⟨0⟩⟩ singleCall.state).ncard = 13 ∧
      (entering ⟨printdown, ⟨0⟩⟩ singleCall.state).ncard = 1 ∧
      1 ∈ nestings ⟨printdown, ⟨0⟩⟩ singleCall.state := by
  have hrun : (singleCall.evaluate 90 printdown ⟨0⟩).map
      (fun x => (x.1, x.2.state.counters)) =
      some (.error ⟨.stackOverflow 1, "maximum call depth of 1 exceeded", some .unstated,
        some ⟨[⟨"f", .unstated⟩]⟩, []⟩, some ⟨13, 1, 1⟩) := by
    cbv
  obtain ⟨⟨r, j⟩, hj, hrj⟩ := Option.map_eq_some_iff.mp hrun
  simp only [Prod.mk.injEq] at hrj
  obtain ⟨rfl, hcounters⟩ := hrj
  obtain ⟨hfinite, hfew⟩ := visited_le_fuel hj
  have hentering : (entering ⟨printdown, ⟨0⟩⟩ singleCall.state).ncard ≤
      (visited ⟨printdown, ⟨0⟩⟩ singleCall.state).ncard :=
    Set.ncard_le_ncard (Set.sep_subset _ EntersCall) hfinite
  have hzero : Counters.zero.terms.toNat = 0 ∧ Counters.zero.calls.toNat = 0 := ⟨rfl, rfl⟩
  obtain ⟨log, d, hlog, hnodup, -, hd, hexact⟩ := counters_exact ⟨90, hj⟩ rfl
    (by omega) (by omega)
  cases hd.symm.trans hcounters
  have hterms := hexact.terms
  have hcalls := hexact.calls
  rw [hzero.1, Nat.zero_add] at hterms
  rw [hzero.2, Nat.zero_add] at hcalls
  refine ⟨_, j, log, ⟨90, hj⟩, hlog, hnodup, hterms.symm, hcalls.symm, ?_⟩
  rcases hexact.deepest.1 with hfresh | hnesting
  · cases hfresh
  · exact hnesting

end Interpreter

end TreeScript
