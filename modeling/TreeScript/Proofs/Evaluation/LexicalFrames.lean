import Mathlib
import TreeScript.Proofs.Evaluation.Discipline
import TreeScript.Proofs.Evaluation.Isolation
import TreeScript.Proofs.Store.Ancestry
import TreeScript.Proofs.Store.Holding
import TreeScript.Proofs.Term.Nesting

/-!
Frames follow how the functions of a program nest. Main statement: at every moment of a run,
the frames above a frame belong to the functions written around what is evaluated in it, one
frame for each, whatever calls are in progress.
-/
namespace TreeScript

theorem Term.Shows.mem_boundNames {t u : Term} {name : String} (h : t.Shows u)
    (hname : name ∈ u.boundNames) : name ∈ t.boundNames := by
  induction h with
  | self => exact hname
  | child _ hkind hc ih => exact ih (mem_boundNames_of_child hkind hc hname)

/-- For each frame, the functions around what is evaluated in it, innermost first. -/
abbrev Layout := List (List FunctionNode)

namespace Layout

def around? (φ : Layout) (f : FrameId) : Option (List FunctionNode) := φ[f.index]?

theorem around?_of_prefix {φ ψ : Layout} {f : FrameId} {chain : List FunctionNode}
    (hle : φ <+: ψ) (h : φ.around? f = some chain) : ψ.around? f = some chain := by
  obtain ⟨more, rfl⟩ := hle
  obtain ⟨hlt, -⟩ := List.getElem?_eq_some_iff.mp h
  exact (List.getElem?_append_left hlt).trans h

/-- The term of the request is written immediately in the innermost function of its frame. -/
def Places (φ : Layout) (program : Term) (p : Evaluation.Request) : Prop :=
  ∃ chain, φ.around? p.frame = some chain ∧ Nested program chain ∧
    (innermostBody program chain).Shows p.term

end Layout

namespace Evaluation

/-- The evaluation makes the closure from its function, in the frame where it comes to it. -/
def Made (q : Request) (s : State) (c : Closure) : Prop :=
  ∃ calls w, Reaches calls q s ⟨c.node.term, c.frame⟩ w ∧ c.identity = w.store.closures

/-- The evaluation makes the frame for a call of the closure. -/
def Opened (q : Request) (s : State) (c : Closure) (f : FrameId) : Prop :=
  ∃ calls p w call vs u, Reaches calls q s p w ∧ Enters p w call c vs u ∧
    f = ⟨u.store.frames.size⟩

/-- Where a frame comes from, by its parent and the functions around it: it is the root, or it
was made for a call and stands below the frame where the called closure was made. -/
inductive Origin (q : Request) (s : State) (φ : Layout) (f : FrameId) :
    Option FrameId → List FunctionNode → Prop where
  | root : f = q.frame → Origin q s φ f none []
  | call {c : Closure} {outer : List FunctionNode} :
      Made q s c → Opened q s c f → c.frame.index < f.index → φ.around? c.frame = some outer →
      Origin q s φ f (some c.frame) (c.node :: outer)

/-- The functions around a frame nest in the program, and the frame binds the parameters of the
innermost of them. What else it binds are names bound immediately in its body. -/
structure Placed (q : Request) (s : State) (φ : Layout) (f : FrameId) (frame : Frame)
    (chain : List FunctionNode) : Prop where
  nested : Nested q.term chain
  parameters : ∀ p ∈ innermostParameters chain, frame.bindings.contains p.text = true
  names : ∀ name, frame.bindings.contains name = true →
    name ∈ (innermostParameters chain).map Parameter.text ∨
      name ∈ (innermostBody q.term chain).boundNames
  origin : Origin q s φ f frame.parent chain

/-- A closure that the evaluation made, from a function written immediately in the innermost
function of its frame. -/
structure Anchored (q : Request) (s : State) (φ : Layout) (c : Closure) : Prop where
  made : Made q s c
  nested : ∃ outer, φ.around? c.frame = some outer ∧ Nested q.term (c.node :: outer)

/-- The frames and the closures of the store follow how the functions of the program nest. -/
structure Mirrors (q : Request) (s : State) (φ : Layout) (u : Store) : Prop where
  root : φ.around? q.frame = some []
  size : φ.length = u.frames.size
  frames : ∀ f frame, u.frame? f = some frame →
    ∃ chain, φ.around? f = some chain ∧ Placed q s φ f frame chain
  closures : ∀ c, u.Holds c → Anchored q s φ c

section Mirrors
variable {q : Request} {s : State} {φ ψ : Layout} {f : FrameId} {u v : Store}

theorem Origin.mono {parent : Option FrameId} {chain : List FunctionNode} (hle : φ <+: ψ)
    (h : Origin q s φ f parent chain) : Origin q s ψ f parent chain := by
  cases h with
  | root hf => exact .root hf
  | call hmade hopened hlt houter =>
    exact .call hmade hopened hlt (Layout.around?_of_prefix hle houter)

theorem Placed.mono {frame : Frame} {chain : List FunctionNode} (hle : φ <+: ψ)
    (h : Placed q s φ f frame chain) : Placed q s ψ f frame chain :=
  { h with origin := h.origin.mono hle }

theorem Anchored.mono {c : Closure} (hle : φ <+: ψ) (h : Anchored q s φ c) :
    Anchored q s ψ c := by
  obtain ⟨outer, houter, hnested⟩ := h.nested
  exact ⟨h.made, outer, Layout.around?_of_prefix hle houter, hnested⟩

theorem Mirrors.of_frames (h : Mirrors q s φ u) (hframes : v.frames = u.frames) :
    Mirrors q s φ v where
  root := h.root
  size := hframes ▸ h.size
  frames f frame hframe := by
    rw [Store.frame?, hframes] at hframe
    exact h.frames f frame hframe
  closures c hc := h.closures c (hc.of_frames hframes)

/-- A name bound immediately in the innermost function of a frame may be bound there. -/
theorem Mirrors.bind {chain : List FunctionNode} {name : String} {value : Value}
    (h : Mirrors q s φ u) (hchain : φ.around? f = some chain)
    (hname : name ∈ (innermostBody q.term chain).boundNames)
    (hvalue : ∀ c ∈ value.closures, Anchored q s φ c) :
    Mirrors q s φ (u.bind f name value) where
  root := h.root
  size := by simpa [Store.bind] using h.size
  frames g frame hframe := by
    rw [Store.frame?_bind] at hframe
    split at hframe
    · rename_i hgf
      subst hgf
      obtain ⟨old, hold, rfl⟩ := Option.map_eq_some_iff.mp hframe
      obtain ⟨chain', hchain', hplaced⟩ := h.frames g old hold
      obtain rfl : chain' = chain := Option.some.inj (hchain'.symm.trans hchain)
      refine ⟨chain', hchain', hplaced.nested, ?_, ?_, hplaced.origin⟩
      · intro p hp
        exact Bindings.contains_bind.mpr (.inr (hplaced.parameters p hp))
      · intro other hother
        rcases Bindings.contains_bind.mp hother with rfl | hother
        · exact .inr hname
        · exact hplaced.names other hother
    · exact h.frames g frame hframe
  closures c hc := by
    rcases hc.of_bind with hc | hc
    · exact hvalue c hc
    · exact h.closures c hc

/-- The frame of a call binds the parameters of the closure and nothing else. -/
theorem Placed.of_call {c : Closure} {outer : List FunctionNode} {vs : List Value}
    (hmade : Made q s c) (hopened : Opened q s c f) (hparent : c.frame.index < f.index)
    (houter : φ.around? c.frame = some outer) (hnested : Nested q.term (c.node :: outer))
    (hlength : vs.length = c.parameters.length) :
    Placed q s φ f ⟨Bindings.bindAll c.parameters vs [], some c.frame⟩ (c.node :: outer) where
  nested := hnested
  parameters p hp := Bindings.contains_bindAll hlength hp
  names name hname := by
    rcases Bindings.mem_of_contains_bindAll hname with hmem | hnil
    · exact .inl hmem
    · cases hnil
  origin := .call hmade hopened hparent houter

/-- The frame of a call has the closure's function around it, and those around its parent. -/
theorem Mirrors.newChild {c : Closure} {outer : List FunctionNode} {vs : List Value}
    (h : Mirrors q s φ u) (hmade : Made q s c) (hopened : Opened q s c ⟨u.frames.size⟩)
    (houter : φ.around? c.frame = some outer) (hnested : Nested q.term (c.node :: outer))
    (hlength : vs.length = c.parameters.length)
    (hvs : ∀ v ∈ vs, ∀ c ∈ v.closures, Anchored q s φ c) :
    Mirrors q s (φ ++ [c.node :: outer]) (u.newChild c.frame c.parameters vs).2 := by
  have hle : φ <+: φ ++ [c.node :: outer] := List.prefix_append φ _
  have hnew : (φ ++ [c.node :: outer]).around? ⟨u.frames.size⟩ = some (c.node :: outer) := by
    simp [Layout.around?, ← h.size]
  have hparent : c.frame.index < u.frames.size := by
    obtain ⟨hlt, -⟩ := List.getElem?_eq_some_iff.mp houter
    exact h.size ▸ hlt
  refine ⟨Layout.around?_of_prefix hle h.root, by simp [Store.newChild, h.size], ?_, ?_⟩
  · rintro ⟨index⟩ frame hframe
    rw [Store.frame?_newChild] at hframe
    split at hframe
    · rename_i hindex
      subst hindex
      cases hframe
      exact ⟨_, hnew, .of_call hmade hopened hparent (Layout.around?_of_prefix hle houter) hnested
        hlength⟩
    · obtain ⟨chain, hchain, hplaced⟩ := h.frames ⟨index⟩ frame hframe
      exact ⟨chain, Layout.around?_of_prefix hle hchain, hplaced.mono hle⟩
  · intro d hd
    rcases hd.of_newChild with ⟨v, hv, hd⟩ | hd
    · exact (hvs v hv d hd).mono hle
    · exact (h.closures d hd).mono hle

theorem Mirrors.parentsFirst (h : Mirrors q s φ u) : u.ParentsFirst := by
  intro f frame parent hframe hparent
  obtain ⟨chain, -, hplaced⟩ := h.frames f frame hframe
  have horigin := hplaced.origin
  rw [hparent] at horigin
  cases horigin with
  | call _ _ hlt _ => exact hlt

theorem Mirrors.exists_placed (h : Mirrors q s φ u) {chain : List FunctionNode}
    (hchain : φ.around? f = some chain) :
    ∃ frame, u.frame? f = some frame ∧ Placed q s φ f frame chain := by
  obtain ⟨hlt, -⟩ := List.getElem?_eq_some_iff.mp hchain
  rw [h.size] at hlt
  have hframe : u.frame? f = some u.frames[f.index] := Array.getElem?_eq_getElem hlt
  obtain ⟨chain', hchain', hplaced⟩ := h.frames f _ hframe
  obtain rfl : chain' = chain := Option.some.inj (hchain'.symm.trans hchain)
  exact ⟨_, hframe, hplaced⟩

/-- The frames from one up to the root have around them what is left of the functions around it
when they are taken away one by one. -/
theorem Mirrors.exists_ancestry (h : Mirrors q s φ u) {chain : List FunctionNode}
    (hchain : φ.around? f = some chain) :
    ∃ frames, u.Ancestry f frames ∧ frames.map φ.around? = chain.tails.map some := by
  -- Around the parent of a frame are all of its functions but the innermost.
  induction chain generalizing f with
  | nil =>
    obtain ⟨⟨bindings, parent⟩, hframe, hplaced⟩ := h.exists_placed hchain
    cases hplaced.origin with
    | root _ => exact ⟨[f], .root hframe rfl, by simp [hchain]⟩
  | cons n outer ih =>
    obtain ⟨⟨bindings, parent⟩, hframe, hplaced⟩ := h.exists_placed hchain
    cases hplaced.origin with
    | call _ _ _ houter =>
      obtain ⟨above, habove, hmap⟩ := ih houter
      exact ⟨f :: above, .child hframe rfl habove, by simp [hchain, hmap]⟩

/-- A lookup stays within the frames above and the functions around where it starts. -/
theorem Mirrors.exists_of_lookup (h : Mirrors q s φ u) {chain : List FunctionNode}
    (hchain : φ.around? f = some chain) {name : String} {v : Value}
    (hv : u.lookup f name = some v) :
    ∃ frames g around, u.Ancestry f frames ∧ g ∈ frames ∧ φ.around? g = some around ∧
      around <:+ chain ∧ u.own? name g = some v := by
  obtain ⟨frames, hancestry, hmap⟩ := h.exists_ancestry hchain
  rw [hancestry.lookup_eq h.parentsFirst] at hv
  obtain ⟨g, hg, hown⟩ := List.exists_of_findSome?_eq_some hv
  have haround : φ.around? g ∈ chain.tails.map some := hmap ▸ List.mem_map_of_mem hg
  obtain ⟨around, hmem, heq⟩ := List.mem_map.mp haround
  exact ⟨frames, g, around, hancestry, hg, heq.symm, (List.mem_tails _ _).mp hmem, hown⟩

end Mirrors

/-- Every node is evaluated in a frame of the function it is written in, and a closure is
called in a frame below the one it was made in. -/
def lexicalDiscipline (q : Request) (s : State) : Discipline Layout where
  le φ ψ := φ <+: ψ
  allows φ p w := (∃ calls, Reaches calls q s p w) ∧ φ.Places q.term p
  owns φ c := Anchored q s φ c
  fits φ u := Mirrors q s φ u
  refl φ := List.prefix_refl φ
  trans h h' := h.trans h'
  allows_mono hle h := by
    obtain ⟨hreaches, chain, hchain, hnested, hshows⟩ := h
    exact ⟨hreaches, chain, Layout.around?_of_prefix hle hchain, hnested, hshows⟩
  owns_mono hle h := h.mono hle
  ask h hask := by
    obtain ⟨⟨calls, hreaches⟩, chain, hchain, hnested, hshows⟩ := h
    refine ⟨⟨calls, hreaches.ask hask⟩, chain, ?_, hnested, ?_⟩
    · rw [hask.frame_eq, hchain]
    · exact hshows.child hask.kind_ne_function hask.mem_children
  make h := by
    obtain ⟨⟨calls, hreaches⟩, chain, hchain, hnested, hshows⟩ := h
    exact ⟨⟨calls, _, hreaches, rfl⟩, chain, hchain, .cons hnested hshows⟩
  lookup hfits h c hc := hfits.closures c (Store.holds_of_lookup h hc)
  bind h hfits hv := by
    obtain ⟨-, chain, hchain, -, hshows⟩ := h
    exact hfits.bind hchain (hshows.mem_boundNames (.head _)) hv
  frames hfits h := hfits.of_frames h
  enter h henter hfits hc hvs := by
    obtain ⟨⟨calls, hreaches⟩, -⟩ := h
    obtain ⟨outer, houter, hnested⟩ := hc.nested
    have hreaches' := hreaches.enter henter
    refine ⟨_, List.prefix_append _ _, ⟨⟨_, hreaches'⟩, _, ?_, hnested, .self⟩,
      hfits.newChild hc.made ⟨calls, _, _, _, _, _, hreaches, henter, rfl⟩ houter hnested ?_ hvs⟩
    · simp [bodyRequest, Layout.around?, ← hfits.size]
    · cases henter with
      | call _ _ hlength _ => exact hlength

/-- Before a run there is one frame. It binds nothing and no function is around it. -/
theorem mirrors_root {q : Request} {s : State} {u : Store} (hroot : q.frame = ⟨0⟩)
    (hframes : u.frames = #[⟨[], none⟩]) : Mirrors q s [[]] u := by
  have hempty : ∀ f frame, u.frame? f = some frame → f = q.frame ∧ frame = ⟨[], none⟩ := by
    rintro ⟨index⟩ frame hframe
    have hlt := Store.index_lt_of_frame? hframe
    obtain rfl : index = 0 := by simpa [hframes] using hlt
    simp only [Store.frame?, hframes] at hframe
    exact ⟨hroot.symm, (Option.some.inj hframe).symm⟩
  refine ⟨by rw [hroot]; rfl, by rw [hframes]; rfl, ?_, ?_⟩
  · intro f frame hframe
    obtain ⟨rfl, rfl⟩ := hempty f frame hframe
    refine ⟨[], by rw [hroot]; rfl, .nil, ?_, ?_, .root rfl⟩
    · rintro p ⟨⟩
    · rintro name ⟨⟩
  · rintro c ⟨f, frame, name, v, hframe, hv, -⟩
    obtain ⟨-, rfl⟩ := hempty f frame hframe
    cases hv

end Evaluation

open Evaluation

/-- At every moment of a run from a new interpreter the frames mirror how the functions of the
program nest. The frames from one up to the root belong to the functions around it, one by one,
so their number and the reach of a lookup are bounded by the nesting of the program. What is
evaluated next is written in the innermost function of its frame, and every name it looks up
is found in a frame of a function around it, if at all. -/
theorem frames_mirror_nesting (i : Interpreter) (limit : Option Nat) (sink : Sink)
    (profile : Bool) (program : Term) (fuel : Nat) (c : Plan.Config State Request Outcome)
    (hi : i = .new limit sink profile)
    (hc : Plan.advance body fuel (Plan.start ⟨program, i.root⟩ i.state) = .unfinished c) :
    ∃ φ : Layout, Mirrors ⟨program, i.root⟩ i.state φ c.plan.state.store ∧
      (∀ f chain, φ.around? f = some chain → ∃ frames,
        c.plan.state.store.Ancestry f frames ∧
        frames.map φ.around? = chain.tails.map some ∧
        c.plan.state.store.depth f = 1 + chain.length ∧
        frames.length ≤ 1 + program.nesting ∧
        ∀ name, c.plan.state.store.lookup f name =
          frames.findSome? (c.plan.state.store.own? name)) ∧
      ∀ p, c.plan.request? = some p → ∃ chain, φ.around? p.frame = some chain ∧
        (innermostBody program chain).Shows p.term ∧
        ∀ name v, c.plan.state.store.lookup p.frame name = some v → ∃ frames g around,
          c.plan.state.store.Ancestry p.frame frames ∧ g ∈ frames ∧
          φ.around? g = some around ∧ around <:+ chain ∧
          c.plan.state.store.own? name g = some v := by
  subst hi
  have hstart : Mirrors ⟨program, (Interpreter.new limit sink profile).root⟩
      (Interpreter.new limit sink profile).state [[]]
      (Interpreter.new limit sink profile).state.store := mirrors_root rfl rfl
  obtain ⟨φ, -, hφ, hp⟩ := Discipline.fits_of_advance (D := lexicalDiscipline _ _) (w := [[]]) hc
    ⟨⟨[], .here⟩, [], rfl, .nil, .self⟩ hstart
  refine ⟨φ, hφ, ?_, ?_⟩
  · intro f chain hchain
    obtain ⟨frames, hancestry, hmap⟩ := Mirrors.exists_ancestry hφ hchain
    obtain ⟨_, -, hplaced⟩ := Mirrors.exists_placed hφ hchain
    have hlength : frames.length = chain.length + 1 := by
      simpa using congrArg List.length hmap
    have hnesting : chain.length ≤ program.nesting := hplaced.nested.length_le
    refine ⟨frames, hancestry, hmap, ?_, ?_, hancestry.lookup_eq hφ.parentsFirst⟩
    · rw [hancestry.depth_eq hφ.parentsFirst, hlength, Nat.add_comm]
    · omega
  · intro p hrequest
    obtain ⟨-, chain, hchain, -, hshows⟩ := hp p hrequest
    exact ⟨chain, hchain, hshows, fun name v => hφ.exists_of_lookup hchain⟩

/-- A function that calls itself in the body of another function, which it makes and calls. -/
def nestedCountdown : Term :=
  .binding ⟨"f", .unstated⟩
    (.function [⟨"n", .unstated⟩]
      (.conditional (.var "n" .unstated)
        (.call
          (.function [⟨"m", .unstated⟩]
            (.call (.var "f" .unstated)
              [.binary .sub (.var "m" .unstated) (.int 1 .unstated) .unstated] .unstated)
            .unstated)
          [.var "n" .unstated] .unstated)
        (.var "n" .unstated) .unstated) .unstated)
    (.call (.var "f" .unstated) [.int 2 .unstated] .unstated) .unstated

/-- It opens six frames, but no more than three stand one above the other. -/
theorem frames_mirror_nesting_nestedCountdown : ∃ (fuel : Nat)
    (c : Plan.Config State Request Outcome) (φ : Layout),
    Plan.advance body fuel (Plan.start ⟨nestedCountdown, (Interpreter.new none .silent false).root⟩
      (Interpreter.new none .silent false).state) = .unfinished c ∧
      c.plan.state.store.frames.size = 6 ∧
      Mirrors ⟨nestedCountdown, (Interpreter.new none .silent false).root⟩
        (Interpreter.new none .silent false).state φ c.plan.state.store ∧
      ∀ f chain, φ.around? f = some chain → ∃ frames,
        c.plan.state.store.Ancestry f frames ∧ frames.length ≤ 3 := by
  have hrun : ((Interpreter.new none .silent false).evaluate 200 nestedCountdown ⟨0⟩).map
      (fun x => x.2.state.store.frames.size) = some 6 := by
    cbv
  obtain ⟨⟨r, j⟩, hj, hsize⟩ := Option.map_eq_some_iff.mp hrun
  obtain ⟨-, hy⟩ := Interpreter.returns_iff_yields.mp ⟨200, hj⟩
  obtain ⟨fuel, hc⟩ := (Plan.Yields.jump hy).advance_eq []
  obtain ⟨φ, hφ, hframes, -⟩ :=
    frames_mirror_nesting _ none .silent false nestedCountdown fuel _ rfl hc
  refine ⟨fuel, _, φ, hc, hsize, hφ, ?_⟩
  intro f chain hchain
  obtain ⟨frames, hancestry, -, -, hlength, -⟩ := hframes f chain hchain
  exact ⟨frames, hancestry, hlength⟩

end TreeScript
