import Mathlib.Data.List.Dedup
import Mathlib.Data.List.Induction
import TreeScript.Proofs.Store.Ancestry
import TreeScript.Proofs.Store.Holding

/-!
Journals of a store: which frames were opened, and what was bound in them, one event after the
other. Main statements: as long as a journal is kept, a lookup finds what was bound last in the
nearest frame that ever bound the name, a depth counts the frames up to the root, and a size the
names that were ever bound.
-/
namespace TreeScript

inductive Event where
  | opened (f : FrameId) (parent : Option FrameId)
  | bound (f : FrameId) (name : String) (v : Value)

/-- What happened to a store, the last event first. -/
abbrev Journal := List Event

namespace Journal

/-- What the name was last bound to in the frame. -/
def latest? (f : FrameId) (name : String) : Journal → Option Value
  | [] => none
  | .opened _ _ :: J => latest? f name J
  | .bound g other v :: J => if g = f ∧ other = name then some v else latest? f name J

/-- The names bound in the frame, once for each time. -/
def names (f : FrameId) : Journal → List String
  | [] => []
  | .opened _ _ :: J => names f J
  | .bound g name _ :: J => if g = f then name :: names f J else names f J

/-- Names bound in the frame one after the other. -/
def bindAll (f : FrameId) (bs : List (Parameter × Value)) (J : Journal) : Journal :=
  bs.foldl (fun J b => .bound f b.1.text b.2 :: J) J

/-- A frame opened below another, and its parameters bound there. -/
def openChild (f parent : FrameId) (parameters : List Parameter) (arguments : List Value)
    (J : Journal) : Journal :=
  bindAll f (parameters.zip arguments) (.opened f (some parent) :: J)

/-- The frames from one up to the root, as they were opened. -/
inductive Chain (J : Journal) : FrameId → List FrameId → Prop where
  | root {f : FrameId} : .opened f none ∈ J → Chain J f [f]
  | child {f parent : FrameId} {above : List FrameId} :
      .opened f (some parent) ∈ J → Chain J parent above → Chain J f (f :: above)

/-- What the name means along a chain of frames. -/
def resolve? (J : Journal) (chain : List FrameId) (name : String) : Option Value :=
  chain.findSome? fun f => J.latest? f name

/-- The frame is on the chain, and no frame before it binds the name. -/
def Sees (J : Journal) (chain : List FrameId) (f : FrameId) (name : String) : Prop :=
  ∃ before after, chain = before ++ f :: after ∧ ∀ g ∈ before, name ∉ J.names g

variable {J K : Journal} {f g : FrameId} {name : String} {chain : List FrameId}

theorem latest?_eq_none_iff : J.latest? f name = none ↔ name ∉ J.names f := by
  induction J with
  | nil => simp [latest?, names]
  | cons event J ih =>
    cases event with
    | opened _ _ => exact ih
    | bound g other v =>
      by_cases hg : g = f
      · by_cases hother : other = name
        · simp [latest?, names, hg, hother]
        · simp [latest?, names, hg, hother, Ne.symm hother, ih]
      · simp [latest?, names, hg, ih]

theorem latest?_bound_self {v : Value} : latest? f name (.bound f name v :: J) = some v := by
  simp [latest?]

theorem latest?_bound_of_ne {other : String} {v : Value} (h : ¬ (f = g ∧ other = name)) :
    latest? g name (.bound f other v :: J) = latest? g name J :=
  if_neg h

theorem resolve?_cons : J.resolve? (f :: chain) name =
    (J.latest? f name).or (J.resolve? chain name) := by
  rw [resolve?, List.findSome?_cons]
  cases J.latest? f name <;> rfl

/-- A name has no meaning exactly if no frame of the chain ever bound it. -/
theorem resolve?_eq_none_iff :
    J.resolve? chain name = none ↔ ∀ g ∈ chain, name ∉ J.names g := by
  simp only [resolve?, List.findSome?_eq_none_iff, latest?_eq_none_iff]

theorem Chain.mono (hJ : J <:+ K) (h : J.Chain f chain) : K.Chain f chain := by
  induction h with
  | root hopened => exact .root (hJ.subset hopened)
  | child hopened _ ih => exact .child (hJ.subset hopened) ih

theorem Chain.eq_cons (h : J.Chain f chain) : ∃ above, chain = f :: above := by
  cases h with
  | root _ => exact ⟨[], rfl⟩
  | child _ _ => exact ⟨_, rfl⟩

theorem suffix_bindAll (f : FrameId) (bs : List (Parameter × Value)) (J : Journal) :
    J <:+ bindAll f bs J := by
  induction bs generalizing J with
  | nil => exact List.suffix_refl J
  | cons b bs ih => exact (List.suffix_cons _ J).trans (ih _)

theorem suffix_openChild (f parent : FrameId) (ps : List Parameter) (vs : List Value)
    (J : Journal) : J <:+ J.openChild f parent ps vs :=
  (List.suffix_cons _ J).trans (suffix_bindAll f _ _)

theorem opened_mem_bindAll {bs : List (Parameter × Value)} {parent : Option FrameId} :
    .opened g parent ∈ bindAll f bs J ↔ .opened g parent ∈ J := by
  induction bs generalizing J with
  | nil => rfl
  | cons b bs ih =>
    have hcons : bindAll f (b :: bs) J = bindAll f bs (.bound f b.1.text b.2 :: J) := rfl
    rw [hcons, ih, List.mem_cons]
    simp

theorem opened_mem_openChild {parent : FrameId} {ps : List Parameter} {vs : List Value} :
    .opened f (some parent) ∈ J.openChild f parent ps vs :=
  opened_mem_bindAll.mpr List.mem_cons_self

/-- Of parameters of one name, the last has its argument bound. -/
theorem latest?_bindAll (bs : List (Parameter × Value)) :
    (bindAll f bs J).latest? f name =
      ((bs.reverse.find? fun b => b.1.text = name).map Prod.snd).or (J.latest? f name) := by
  induction bs using List.reverseRecOn with
  | nil => simp [bindAll]
  | append_singleton bs b ih =>
    have hlast : bindAll f (bs ++ [b]) J = .bound f b.1.text b.2 :: bindAll f bs J := by
      simp [bindAll]
    rw [hlast, List.reverse_append, List.reverse_singleton, List.singleton_append, List.find?_cons]
    by_cases hb : b.1.text = name
    · simp [latest?, hb]
    · simp [latest?, hb, ih]

theorem latest?_bindAll_of_ne (h : g ≠ f) (bs : List (Parameter × Value)) :
    (bindAll f bs J).latest? g name = J.latest? g name := by
  induction bs generalizing J with
  | nil => rfl
  | cons b bs ih =>
    have hcons : bindAll f (b :: bs) J = bindAll f bs (.bound f b.1.text b.2 :: J) := rfl
    rw [hcons, ih]
    simp [latest?, Ne.symm h]

/-- A frame that is not on the chain may be opened and have names bound. -/
theorem resolve?_openChild_of_notMem {parent : FrameId} {ps : List Parameter} {vs : List Value}
    (h : f ∉ chain) : (J.openChild f parent ps vs).resolve? chain name = J.resolve? chain name := by
  induction chain with
  | nil => rfl
  | cons g chain ih =>
    rw [List.mem_cons, not_or] at h
    obtain ⟨hne, hrest⟩ := h
    rw [resolve?_cons, resolve?_cons, ih hrest, openChild, latest?_bindAll_of_ne (Ne.symm hne)]
    rfl

section Bound
variable {v : Value}

theorem not_sees_nil : ¬ J.Sees [] f name := by
  rintro ⟨before, after, hchain, -⟩
  simp at hchain

theorem sees_cons :
    J.Sees (g :: chain) f name ↔ g = f ∨ (name ∉ J.names g ∧ J.Sees chain f name) := by
  constructor
  · rintro ⟨before, after, hchain, hbefore⟩
    cases before with
    | nil => exact .inl (List.cons.inj hchain).1
    | cons b before =>
      obtain ⟨rfl, rfl⟩ := List.cons.inj hchain
      obtain ⟨hb, hbefore⟩ := List.forall_mem_cons.mp hbefore
      exact .inr ⟨hb, before, after, rfl, hbefore⟩
  · rintro (rfl | ⟨hg, before, after, rfl, hbefore⟩)
    · exact ⟨[], chain, rfl, List.forall_mem_nil _⟩
    · exact ⟨g :: before, after, rfl, List.forall_mem_cons.mpr ⟨hg, hbefore⟩⟩

theorem Chain.sees (h : J.Chain f chain) : J.Sees chain f name := by
  obtain ⟨above, rfl⟩ := h.eq_cons
  exact sees_cons.mpr (.inl rfl)

/-- Where a binding is seen, the name means its value. -/
theorem resolve?_bound_of_sees (h : J.Sees chain f name) :
    resolve? (.bound f name v :: J) chain name = some v := by
  induction chain with
  | nil => exact absurd h not_sees_nil
  | cons g chain ih =>
    rw [resolve?_cons]
    by_cases hgf : g = f
    · rw [hgf, latest?_bound_self, Option.some_or]
    · obtain ⟨hg, hrest⟩ := (sees_cons.mp h).resolve_left hgf
      rw [latest?_bound_of_ne fun heq => hgf heq.1.symm, latest?_eq_none_iff.mpr hg,
        Option.none_or, ih hrest]

/-- Where it is not seen, every name means what it did. -/
theorem resolve?_bound_of_not_sees {other : String} (h : name = other → ¬ J.Sees chain f other) :
    resolve? (.bound f name v :: J) chain other = J.resolve? chain other := by
  induction chain with
  | nil => rfl
  | cons g chain ih =>
    simp only [sees_cons, not_or] at h
    rw [resolve?_cons, resolve?_cons, latest?_bound_of_ne fun heq => (h heq.2).1 heq.1.symm]
    cases hg : J.latest? g other with
    | some w => rfl
    | none =>
      -- The frame does not bind the name, so what the frames above see, it sees too.
      rw [ih fun hname hrest => (h hname).2 ⟨latest?_eq_none_iff.mp hg, hrest⟩]

end Bound

end Journal

namespace Bindings
variable {name : String} {v : Value} {b : Bindings}

theorem mem_names_iff : name ∈ b.map Prod.fst ↔ b.contains name = true := by
  induction b with
  | nil => simp [contains, get?]
  | cons entry rest ih =>
    obtain ⟨key, w⟩ := entry
    by_cases hkey : key = name
    · simp [contains, get?, hkey]
    · simpa [contains, get?, hkey, Ne.symm hkey] using ih

theorem names_replace : (b.replace name v).map Prod.fst = b.map Prod.fst := by
  induction b with
  | nil => rfl
  | cons entry rest ih =>
    obtain ⟨key, w⟩ := entry
    by_cases hkey : key = name
    · simp [replace, hkey]
    · simp [replace, hkey, ih]

theorem nodup_bind (h : (b.map Prod.fst).Nodup) : ((b.bind name v).map Prod.fst).Nodup := by
  unfold bind
  split
  · rw [names_replace]
    exact h
  · rename_i hfresh
    exact List.nodup_cons.mpr ⟨mt mem_names_iff.mp hfresh, h⟩

theorem nodup_bindAll {ps : List Parameter} {vs : List Value} (h : (b.map Prod.fst).Nodup) :
    ((bindAll ps vs b).map Prod.fst).Nodup := by
  induction ps generalizing vs b with
  | nil => exact h
  | cons p ps ih =>
    cases vs with
    | nil => exact h
    | cons v vs => exact ih (nodup_bind h)

/-- Bindings and the events of one frame go on to tell the same. -/
theorem get?_bindAll_eq {J : Journal} {f : FrameId} (ps : List Parameter) (vs : List Value)
    (h : ∀ name, b.get? name = J.latest? f name) (name : String) :
    (bindAll ps vs b).get? name = (J.bindAll f (ps.zip vs)).latest? f name := by
  induction ps generalizing vs b J with
  | nil => exact h name
  | cons p ps ih =>
    cases vs with
    | nil => exact h name
    | cons v vs =>
      refine ih vs ?_
      intro other
      rw [get?_bind, Journal.latest?]
      simp [h]

end Bindings

namespace Store

/-- A frame more. -/
def push (s : Store) (frame : Frame) : Store := { s with frames := s.frames.push frame }

theorem frame?_push (s : Store) (frame : Frame) (g : FrameId) :
    (s.push frame).frame? g = if g = ⟨s.frames.size⟩ then some frame else s.frame? g := by
  obtain ⟨k⟩ := g
  simp only [frame?, push, Array.getElem?_push, FrameId.mk.injEq]

/-- Every closure that the value is or has among its parts was made in a frame of the store. -/
def Knows (s : Store) (v : Value) : Prop := ∀ c ∈ v.closures, s.Has c.frame

theorem knows_of_closures {s : Store} {v : Value} (h : v.closures = []) : s.Knows v := by
  simp [Knows, h]

theorem knows_tuple {s : Store} {a b : Value} :
    s.Knows (.tuple a b) ↔ s.Knows a ∧ s.Knows b := by
  simp only [Knows, Value.closures, List.forall_mem_append]

theorem knows_closure {s : Store} {c : Closure} : s.Knows (.closure c) ↔ s.Has c.frame := by
  simp only [Knows, Value.closures, List.forall_mem_singleton]

/-- The journal tells all that the store has come to: which frames there are and where they were
opened, and for each name in a frame what it was bound to last. -/
structure Records (s : Store) (J : Journal) : Prop where
  opened : ∀ f parent, .opened f parent ∈ J ↔ ∃ frame, s.frame? f = some frame ∧
    frame.parent = parent
  own : ∀ f name, s.own? name f = J.latest? f name
  distinct : ∀ f frame, s.frame? f = some frame → (frame.bindings.map Prod.fst).Nodup
  parentsFirst : s.ParentsFirst
  held : ∀ c, s.Holds c → s.Has c.frame

namespace Records
variable {s : Store} {J : Journal} {f g : FrameId} {name : String} {v : Value}

theorem empty : Store.empty.Records [] := by
  have hnone : ∀ f, Store.empty.frame? f = none := by simp [Store.empty, frame?]
  constructor
  · simp [hnone]
  · simp [own?, hnone, Journal.latest?]
  · simp [hnone]
  · simp [ParentsFirst, hnone]
  · rintro c ⟨f, frame, name, v, hframe, -⟩
    simp [hnone] at hframe

theorem has_iff (h : s.Records J) : s.Has f ↔ ∃ parent, .opened f parent ∈ J := by
  simp only [h.opened, Has]
  constructor
  · rintro ⟨frame, hframe⟩
    exact ⟨frame.parent, frame, hframe, rfl⟩
  · rintro ⟨parent, frame, hframe, -⟩
    exact ⟨frame, hframe⟩

/-- What a journal goes on to, it does not lose. -/
theorem has_mono {u : Store} {K : Journal} (h : s.Records J) (hu : u.Records K) (hJ : J <:+ K)
    (hf : s.Has f) : u.Has f := by
  obtain ⟨parent, hopened⟩ := h.has_iff.mp hf
  exact hu.has_iff.mpr ⟨parent, hJ.subset hopened⟩

theorem knows_of_lookup (h : s.Records J) (hv : s.lookup f name = some v) : s.Knows v :=
  fun c hc => h.held c (holds_of_lookup hv hc)

theorem frames_eq {u : Store} (h : s.Records J) (hu : u.frames = s.frames) : u.Records J := by
  have hframe? : u.frame? = s.frame? := by
    funext f
    rw [frame?, frame?, hu]
  refine ⟨?_, ?_, ?_, ?_, ?_⟩
  · simpa only [hframe?] using h.opened
  · simpa only [own?, hframe?] using h.own
  · simpa only [hframe?] using h.distinct
  · simpa only [ParentsFirst, hframe?] using h.parentsFirst
  · intro c hc
    simpa only [Has, hframe?] using h.held c (hc.of_frames hu)

theorem frame?_next (s : Store) : s.frame? ⟨s.frames.size⟩ = none := by
  simp [frame?]

theorem has_push {frame : Frame} (hf : s.Has f) : (s.push frame).Has f := by
  obtain ⟨old, hold⟩ := hf
  have hne : f ≠ ⟨s.frames.size⟩ := by
    rintro rfl
    simp [frame?_next] at hold
  exact ⟨old, by rw [frame?_push, if_neg hne, hold]⟩

/-- A frame is opened below one that is there, with values that are known. -/
theorem push (h : s.Records J) (frame : Frame) {K : Journal}
    (hopened : ∀ f parent, .opened f parent ∈ K ↔
      (f = ⟨s.frames.size⟩ ∧ frame.parent = parent) ∨ .opened f parent ∈ J)
    (hnew : ∀ name, frame.bindings.get? name = K.latest? ⟨s.frames.size⟩ name)
    (hold : ∀ f name, f ≠ ⟨s.frames.size⟩ → K.latest? f name = J.latest? f name)
    (hdistinct : (frame.bindings.map Prod.fst).Nodup)
    (hparent : ∀ parent, frame.parent = some parent → s.Has parent)
    (hknown : ∀ name v, frame.bindings.get? name = some v → s.Knows v) :
    (s.push frame).Records K := by
  have hframe? := s.frame?_push frame
  have hnext := frame?_next s
  refine ⟨?_, ?_, ?_, ?_, ?_⟩
  · intro f parent
    rw [hopened, hframe?]
    by_cases hf : f = ⟨s.frames.size⟩
    · subst hf
      simp [h.opened, hnext]
    · simp [hf, h.opened]
  · intro f name
    rw [own?, hframe?]
    by_cases hf : f = ⟨s.frames.size⟩
    · subst hf
      simpa using hnew name
    · rw [if_neg hf, hold f name hf]
      exact h.own f name
  · intro f later hlater
    rw [hframe?] at hlater
    split at hlater
    · cases hlater
      exact hdistinct
    · exact h.distinct f later hlater
  · intro f later parent hlater hsome
    rw [hframe?] at hlater
    split at hlater
    · rename_i hf
      cases hlater
      obtain ⟨above, habove⟩ := hparent parent hsome
      rw [hf]
      exact index_lt_of_frame? habove
    · exact h.parentsFirst f later parent hlater hsome
  · rintro c ⟨f, later, name, v, hlater, hv, hc⟩
    rw [hframe?] at hlater
    split at hlater
    · cases hlater
      exact has_push (hknown name v hv c hc)
    · exact has_push (h.held c ⟨f, later, name, v, hlater, hv, hc⟩)

theorem latest?_next (h : s.Records J) (name : String) : J.latest? ⟨s.frames.size⟩ name = none := by
  rw [← h.own, own?, frame?_next]
  rfl

theorem newRoot (h : s.Records J) : s.newRoot.2.Records (.opened ⟨s.frames.size⟩ none :: J) := by
  refine h.push ⟨[], none⟩ ?_ ?_ (fun _ _ _ => rfl) List.nodup_nil (by simp) ?_
  · intro f parent
    rw [List.mem_cons, Event.opened.injEq, eq_comm (a := parent)]
  · intro name
    exact (h.latest?_next name).symm
  · rintro name v ⟨⟩

theorem newChild (h : s.Records J) {parent : FrameId} (hparent : s.Has parent)
    (ps : List Parameter) {vs : List Value} (hvs : ∀ v ∈ vs, s.Knows v) :
    (s.newChild parent ps vs).2.Records (J.openChild ⟨s.frames.size⟩ parent ps vs) := by
  refine h.push ⟨Bindings.bindAll ps vs [], some parent⟩ ?_ ?_ ?_ ?_ ?_ ?_
  · intro f above
    rw [Journal.openChild, Journal.opened_mem_bindAll, List.mem_cons, Event.opened.injEq,
      eq_comm (a := above)]
  · intro name
    refine Bindings.get?_bindAll_eq ps vs ?_ name
    intro other
    exact (h.latest?_next other).symm
  · intro f name hf
    rw [Journal.openChild, Journal.latest?_bindAll_of_ne hf]
    rfl
  · exact Bindings.nodup_bindAll List.nodup_nil
  · rintro above ⟨⟩
    exact hparent
  · intro name v hv
    rcases Bindings.mem_of_get?_bindAll hv with hmem | hnil
    · exact hvs v hmem
    · cases hnil

theorem bind (h : s.Records J) (hf : s.Has f) (hv : s.Knows v) (name : String) :
    (s.bind f name v).Records (.bound f name v :: J) := by
  have hframe? := fun g => s.frame?_bind f g name v
  have hhas : ∀ {g}, s.Has g → (s.bind f name v).Has g := (grows_bind s f name v).has
  obtain ⟨frame, hframe⟩ := hf
  refine ⟨?_, ?_, ?_, ?_, ?_⟩
  · intro g parent
    rw [List.mem_cons, hframe?]
    by_cases hg : g = f
    · subst hg
      simp [h.opened, hframe]
    · simp [hg, h.opened]
  · intro g other
    rw [own?, hframe?]
    by_cases hg : g = f
    · subst hg
      have hown := h.own g other
      rw [own?, hframe] at hown
      simp [hframe, Bindings.get?_bind, Journal.latest?, ← hown]
    · rw [if_neg hg, Journal.latest?_bound_of_ne fun heq => hg heq.1.symm]
      exact h.own g other
  · intro g later hlater
    rw [hframe?] at hlater
    split at hlater
    · obtain ⟨old, hold, rfl⟩ := Option.map_eq_some_iff.mp hlater
      exact Bindings.nodup_bind (h.distinct g old hold)
    · exact h.distinct g later hlater
  · intro g later parent hlater hsome
    rw [hframe?] at hlater
    split at hlater
    · obtain ⟨old, hold, rfl⟩ := Option.map_eq_some_iff.mp hlater
      exact h.parentsFirst g old parent hold hsome
    · exact h.parentsFirst g later parent hlater hsome
  · intro c hc
    rcases hc.of_bind with hc | hc
    · exact hhas (hv c hc)
    · exact hhas (h.held c hc)

section Meaning
variable {chain : List FrameId}

theorem has_parent (h : s.Records J) {parent : FrameId} (hopened : .opened f (some parent) ∈ J) :
    parent.index < f.index ∧ s.Has parent := by
  obtain ⟨frame, hframe, hparent⟩ := (h.opened _ _).mp hopened
  have hlt := h.parentsFirst f frame parent hframe hparent
  exact ⟨hlt, _, Array.getElem?_eq_getElem (Nat.lt_trans hlt (index_lt_of_frame? hframe))⟩

/-- From every frame a chain leads up to a root. -/
theorem exists_chain (h : s.Records J) (hf : s.Has f) : ∃ chain, J.Chain f chain := by
  -- A parent is older than its child, so the ascent ends.
  induction hindex : f.index using Nat.strongRecOn generalizing f with
  | ind index ih =>
    obtain ⟨parent?, hopened⟩ := h.has_iff.mp hf
    cases parent? with
    | none => exact ⟨[f], .root hopened⟩
    | some parent =>
      obtain ⟨hlt, hparent⟩ := h.has_parent hopened
      obtain ⟨above, habove⟩ := ih parent.index (hindex ▸ hlt) hparent rfl
      exact ⟨f :: above, .child hopened habove⟩

theorem has_of_mem_chain (h : s.Records J) (hchain : J.Chain f chain) (hg : g ∈ chain) :
    s.Has g := by
  induction hchain with
  | root hopened => exact List.mem_singleton.mp hg ▸ h.has_iff.mpr ⟨_, hopened⟩
  | child hopened _ ih =>
    rcases List.mem_cons.mp hg with rfl | hg
    · exact h.has_iff.mpr ⟨_, hopened⟩
    · exact ih hg

theorem ancestry (h : s.Records J) (hchain : J.Chain f chain) : s.Ancestry f chain := by
  induction hchain with
  | root hopened =>
    obtain ⟨frame, hframe, hparent⟩ := (h.opened _ _).mp hopened
    exact .root hframe hparent
  | child hopened _ ih =>
    obtain ⟨frame, hframe, hparent⟩ := (h.opened _ _).mp hopened
    exact .child hframe hparent ih

theorem lookup_eq (h : s.Records J) (hchain : J.Chain f chain) (name : String) :
    s.lookup f name = J.resolve? chain name := by
  have hown : s.own? name = fun g => J.latest? g name := funext fun g => h.own g name
  rw [(h.ancestry hchain).lookup_eq h.parentsFirst, hown, Journal.resolve?]

theorem depth_eq (h : s.Records J) (hchain : J.Chain f chain) : s.depth f = chain.length :=
  (h.ancestry hchain).depth_eq h.parentsFirst

theorem depth_root (h : s.Records J) (hopened : .opened f none ∈ J) : s.depth f = 1 :=
  h.depth_eq (.root hopened)

theorem depth_child (h : s.Records J) {parent : FrameId}
    (hopened : .opened f (some parent) ∈ J) : s.depth f = s.depth parent + 1 := by
  obtain ⟨above, habove⟩ := h.exists_chain (h.has_parent hopened).2
  rw [h.depth_eq habove, h.depth_eq (.child hopened habove), List.length_cons]

/-- What happens later does not change a depth. -/
theorem depth_later {u : Store} {K : Journal} (h : s.Records J) (hu : u.Records K)
    (hJ : J <:+ K) (hf : s.Has f) : u.depth f = s.depth f := by
  obtain ⟨chain, hchain⟩ := h.exists_chain hf
  rw [h.depth_eq hchain, hu.depth_eq (hchain.mono hJ)]

theorem lookup_bind_of_sees (h : s.Records J) (hchain : J.Chain g chain) (hf : s.Has f)
    (hv : s.Knows v) (hsees : J.Sees chain f name) :
    (s.bind f name v).lookup g name = some v := by
  rw [(h.bind hf hv name).lookup_eq (hchain.mono (List.suffix_cons _ J))]
  exact Journal.resolve?_bound_of_sees hsees

theorem lookup_bind_self (h : s.Records J) (hf : s.Has f) (hv : s.Knows v) (name : String) :
    (s.bind f name v).lookup f name = some v := by
  obtain ⟨chain, hchain⟩ := h.exists_chain hf
  exact h.lookup_bind_of_sees hchain hf hv hchain.sees

theorem lookup_bind_of_not_sees (h : s.Records J) (hchain : J.Chain g chain) (hf : s.Has f)
    (hv : s.Knows v) {other : String} (hsees : name = other → ¬ J.Sees chain f other) :
    (s.bind f name v).lookup g other = s.lookup g other := by
  rw [(h.bind hf hv name).lookup_eq (hchain.mono (List.suffix_cons _ J)), h.lookup_eq hchain]
  exact Journal.resolve?_bound_of_not_sees hsees

/-- A child sees its parameters, the last of each name, and beyond them what its parent sees. -/
theorem lookup_newChild (h : s.Records J) (hf : s.Has f) (ps : List Parameter) {vs : List Value}
    (hvs : ∀ v ∈ vs, s.Knows v) (name : String) :
    (s.newChild f ps vs).2.lookup (s.newChild f ps vs).1 name =
      (((ps.zip vs).reverse.find? fun b => b.1.text = name).map Prod.snd).or (s.lookup f name) := by
  obtain ⟨chain, hchain⟩ := h.exists_chain hf
  have hchild := Journal.Chain.child Journal.opened_mem_openChild
    (hchain.mono (Journal.suffix_openChild ⟨s.frames.size⟩ f ps vs J))
  have hnew : (⟨s.frames.size⟩ : FrameId) ∉ chain := by
    intro hmem
    obtain ⟨frame, hframe⟩ := h.has_of_mem_chain hchain hmem
    rw [frame?_next] at hframe
    cases hframe
  have hfresh : Journal.latest? ⟨s.frames.size⟩ name (.opened ⟨s.frames.size⟩ (some f) :: J) =
      none := h.latest?_next name
  have hhandle : (s.newChild f ps vs).1 = ⟨s.frames.size⟩ := rfl
  rw [hhandle, (h.newChild hf ps hvs).lookup_eq hchild, Journal.resolve?_cons,
    Journal.resolve?_openChild_of_notMem hnew, ← h.lookup_eq hchain, Journal.openChild,
    Journal.latest?_bindAll, hfresh, Option.or_none]

theorem size_eq (h : s.Records J) (hchain : J.Chain f chain) :
    s.size f = (J.names f).dedup.length := by
  obtain ⟨above, rfl⟩ := hchain.eq_cons
  obtain ⟨frame, hframe⟩ := h.has_of_mem_chain hchain List.mem_cons_self
  have hsame : (frame.bindings.map Prod.fst).Perm (J.names f).dedup := by
    rw [List.perm_ext_iff_of_nodup (h.distinct f frame hframe) (List.nodup_dedup _)]
    intro name
    have hown := h.own f name
    rw [own?, hframe, Option.bind_some] at hown
    rw [List.mem_dedup, Bindings.mem_names_iff, Bindings.contains, hown, Option.isSome_iff_ne_none,
      ne_eq, Journal.latest?_eq_none_iff, not_not]
  have hlength := hsame.length_eq
  rw [List.length_map] at hlength
  rw [size, hframe]
  exact hlength

end Meaning

end Records

end Store

end TreeScript
