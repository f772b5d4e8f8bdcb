import Mathlib
import TreeScript.Proofs.Evaluation.Journaled

/-!
Hosts that hold environments. A host makes environments, clones and children of them, binds names
in them and has terms evaluated in them, in any order. Main statement: at all times its
environments are what the history of all this makes them.
-/
namespace TreeScript

/-- The environments of a host, each a handle to a frame, in the order in which the host came by
them. A pair in `clones` has the place of an environment and that of a clone of it. -/
structure Host where
  store : Store
  journal : Journal
  handles : List FrameId
  clones : List (Nat × Nat)

namespace Host

section Aliasing

/-- Cloning leads from the one environment to the other, there or back. -/
def Aliased (clones : List (Nat × Nat)) : Nat → Nat → Prop :=
  Relation.EqvGen fun e n => (e, n) ∈ clones

variable {handles : List FrameId} {clones : List (Nat × Nat)} {a b e : Nat} {f g : FrameId}

theorem Aliased.mono {more : List (Nat × Nat)} (hmore : clones ⊆ more) (h : Aliased clones a b) :
    Aliased more a b :=
  Relation.EqvGen.mono (fun _ _ hclone => hmore hclone) a b h

theorem getElem?_concat_eq_some_iff :
    (handles ++ [f])[a]? = some g ↔ handles[a]? = some g ∨ (a = handles.length ∧ f = g) := by
  rcases Nat.lt_trichotomy a handles.length with hlt | rfl | hlt
  · simp [List.getElem?_append_left hlt, Nat.ne_of_lt hlt]
  · simp
  · simp [List.getElem?_append_right (Nat.le_of_lt hlt), Nat.le_of_lt hlt, Nat.ne_of_gt hlt,
      Nat.sub_ne_zero_of_lt hlt]

/-- Cloning relates exactly the handles of one frame. -/
structure Shares (handles : List FrameId) (clones : List (Nat × Nat)) : Prop where
  cloned : ∀ e n, (e, n) ∈ clones → ∃ f, handles[e]? = some f ∧ handles[n]? = some f
  aliased : ∀ a b f, handles[a]? = some f → handles[b]? = some f → Aliased clones a b

namespace Shares

theorem empty : Shares [] [] where
  cloned := by rintro e n ⟨⟩
  aliased := by rintro a b f ⟨⟩

theorem eq_iff_aliased (h : Shares handles clones) (ha : handles[a]? = some f)
    (hb : handles[b]? = some g) : f = g ↔ Aliased clones a b := by
  constructor
  · rintro rfl
    exact h.aliased a b f ha hb
  · intro hab
    have hclones : ∀ e n, (e, n) ∈ clones → handles[e]? = handles[n]? := by
      intro e n hclone
      obtain ⟨f, he, hn⟩ := h.cloned e n hclone
      exact he.trans hn.symm
    have hsame : handles[a]? = handles[b]? :=
      (eq_equivalence.comap fun n => handles[n]?).eqvGen_iff.mp
        (Relation.EqvGen.mono hclones a b hab)
    rw [ha, hb] at hsame
    exact Option.some.inj hsame

theorem cloned_concat (h : Shares handles clones) {e n : Nat} (hclone : (e, n) ∈ clones) :
    ∃ g, (handles ++ [f])[e]? = some g ∧ (handles ++ [f])[n]? = some g := by
  obtain ⟨g, he, hn⟩ := h.cloned e n hclone
  exact ⟨g, getElem?_concat_eq_some_iff.mpr (.inl he), getElem?_concat_eq_some_iff.mpr (.inl hn)⟩

/-- A handle to a frame that had none is related to no other. -/
theorem fresh (h : Shares handles clones) (hf : f ∉ handles) : Shares (handles ++ [f]) clones where
  cloned _ _ hclone := h.cloned_concat hclone
  aliased a b g ha hb := by
    rcases getElem?_concat_eq_some_iff.mp ha with ha | ⟨rfl, rfl⟩
    · rcases getElem?_concat_eq_some_iff.mp hb with hb | ⟨rfl, rfl⟩
      · exact h.aliased a b g ha hb
      · exact absurd (List.mem_of_getElem? ha) hf
    · rcases getElem?_concat_eq_some_iff.mp hb with hb | ⟨rfl, -⟩
      · exact absurd (List.mem_of_getElem? hb) hf
      · exact .refl _

theorem clone (h : Shares handles clones) (he : handles[e]? = some f) :
    Shares (handles ++ [f]) ((e, handles.length) :: clones) where
  cloned m n hclone := by
    rcases List.mem_cons.mp hclone with heq | hclone
    · obtain ⟨rfl, rfl⟩ := Prod.mk.inj heq
      exact ⟨f, getElem?_concat_eq_some_iff.mpr (.inl he), List.getElem?_concat_length⟩
    · exact h.cloned_concat hclone
  aliased a b g ha hb := by
    have hmore : clones ⊆ (e, handles.length) :: clones := List.subset_cons_self _ _
    have hnew : Aliased ((e, handles.length) :: clones) e handles.length :=
      .rel _ _ List.mem_cons_self
    rcases getElem?_concat_eq_some_iff.mp ha with ha | ⟨rfl, rfl⟩
    · rcases getElem?_concat_eq_some_iff.mp hb with hb | ⟨rfl, rfl⟩
      · exact (h.aliased a b g ha hb).mono hmore
      · exact .trans _ _ _ ((h.aliased a e f ha he).mono hmore) hnew
    · rcases getElem?_concat_eq_some_iff.mp hb with hb | ⟨rfl, -⟩
      · exact .trans _ _ _ (.symm _ _ hnew) ((h.aliased e b f he hb).mono hmore)
      · exact .refl _

end Shares

end Aliasing

def empty : Host := ⟨.empty, [], [], []⟩

/-- What a host can do with its environments. The closures among the values that it passes were
made in frames that there are. A term is evaluated by any interpreter on the frames, and its
evaluation may end in a failure. -/
inductive Step (H : Host) : Host → Prop where
  | new : Step H
      { H with
        store := H.store.newRoot.2
        journal := .opened H.store.newRoot.1 none :: H.journal
        handles := H.handles ++ [H.store.newRoot.1] }
  | clone {e : Nat} {f : FrameId} : H.handles[e]? = some f → Step H
      { H with
        handles := H.handles ++ [f]
        clones := (e, H.handles.length) :: H.clones }
  | child {e : Nat} {f : FrameId} (ps : List Parameter) (vs : List Value) :
      H.handles[e]? = some f → (∀ v ∈ vs, H.store.Knows v) → Step H
      { H with
        store := (H.store.newChild f ps vs).2
        journal := H.journal.openChild (H.store.newChild f ps vs).1 f ps vs
        handles := H.handles ++ [(H.store.newChild f ps vs).1] }
  | bind {e : Nat} {f : FrameId} (name : String) (v : Value) :
      H.handles[e]? = some f → H.store.Knows v → Step H
      { H with
        store := H.store.bind f name v
        journal := .bound f name v :: H.journal }
  | evaluate {e : Nat} {f : FrameId} {i j : Interpreter} {t : Term} {r : Outcome} {K : Journal} :
      H.handles[e]? = some f → i.state.store = H.store → i.Journals t f H.journal r j K → Step H
      { H with
        store := j.state.store
        journal := K }

/-- What a host comes to that had no environment at first. -/
def Reached : Host → Prop := Relation.ReflTransGen Step empty

/-- The journal tells what the frames have come to, and the handles are as cloning relates them. -/
structure Faithful (H : Host) : Prop where
  records : H.store.Records H.journal
  handles : ∀ f ∈ H.handles, H.store.Has f
  shares : Shares H.handles H.clones

namespace Faithful
variable {H K : Host}

theorem empty : Host.empty.Faithful :=
  ⟨.empty, List.forall_mem_nil _, .empty⟩

theorem has (h : H.Faithful) {e : Nat} {f : FrameId} (he : H.handles[e]? = some f) :
    H.store.Has f :=
  h.handles f (List.mem_of_getElem? he)

/-- The frames may come to more, as long as the journal goes on. -/
theorem go_on (h : H.Faithful) {u : Store} {J : Journal} (hu : u.Records J)
    (hJ : H.journal <:+ J) : Faithful ⟨u, J, H.handles, H.clones⟩ :=
  ⟨hu, fun f hf => h.records.has_mono hu hJ (h.handles f hf), h.shares⟩

/-- A frame is opened, and the host has a handle to it. -/
theorem opened (h : H.Faithful) {u : Store} {J : Journal} {parent : Option FrameId}
    (hu : u.Records J) (hJ : H.journal <:+ J) (hparent : .opened ⟨H.store.frames.size⟩ parent ∈ J) :
    Faithful ⟨u, J, H.handles ++ [⟨H.store.frames.size⟩], H.clones⟩ where
  records := hu
  handles := List.forall_mem_append.mpr
    ⟨(h.go_on hu hJ).handles, List.forall_mem_singleton.mpr (hu.has_iff.mpr ⟨parent, hparent⟩)⟩
  shares := by
    refine h.shares.fresh fun hmem => ?_
    obtain ⟨frame, hframe⟩ := h.handles _ hmem
    rw [Store.Records.frame?_next] at hframe
    cases hframe

theorem step (h : H.Faithful) (hstep : H.Step K) : K.Faithful ∧ H.journal <:+ K.journal := by
  cases hstep with
  | new =>
    have hjournal := List.suffix_cons (.opened ⟨H.store.frames.size⟩ none) H.journal
    exact ⟨h.opened h.records.newRoot hjournal List.mem_cons_self, hjournal⟩
  | clone he =>
    have hclone := List.forall_mem_singleton.mpr (h.has he)
    have hhandles := List.forall_mem_append.mpr ⟨h.handles, hclone⟩
    exact ⟨⟨h.records, hhandles, h.shares.clone he⟩, List.suffix_refl _⟩
  | @child e f ps vs he hvs =>
    have hjournal := Journal.suffix_openChild ⟨H.store.frames.size⟩ f ps vs H.journal
    have hrecords := h.records.newChild (h.has he) ps hvs
    exact ⟨h.opened hrecords hjournal Journal.opened_mem_openChild, hjournal⟩
  | @bind e f name v he hv =>
    have hjournal := List.suffix_cons (.bound f name v) H.journal
    exact ⟨h.go_on (h.records.bind (h.has he) hv name) hjournal, hjournal⟩
  | evaluate he hi hrun =>
    obtain ⟨hrecords, hjournal⟩ := hrun.records (hi ▸ h.records) (hi ▸ h.has he)
    exact ⟨h.go_on hrecords hjournal, hjournal⟩

theorem steps (h : H.Faithful) (hsteps : Relation.ReflTransGen Step H K) :
    K.Faithful ∧ H.journal <:+ K.journal := by
  induction hsteps with
  | refl => exact ⟨h, List.suffix_refl _⟩
  | tail _ hstep ih =>
    obtain ⟨hfaithful, hjournal⟩ := ih
    obtain ⟨hnext, hmore⟩ := hfaithful.step hstep
    exact ⟨hnext, hjournal.trans hmore⟩

theorem of_reached (h : H.Reached) : H.Faithful := (empty.steps h).1

end Faithful

/-- What a host reads in a frame is what the history says of the frames from it up to the root. -/
structure Reads (H : Host) (f : FrameId) (chain : List FrameId) : Prop where
  ancestry : H.store.Ancestry f chain
  lookup : ∀ name, H.store.lookup f name = H.journal.resolve? chain name
  unbound : ∀ name, H.store.lookup f name = none ↔ ∀ g ∈ chain, name ∉ H.journal.names g
  depth : H.store.depth f = chain.length
  size : H.store.size f = (H.journal.names f).dedup.length

theorem Faithful.reads {H : Host} (h : H.Faithful) {f : FrameId} {chain : List FrameId}
    (hchain : H.journal.Chain f chain) : H.Reads f chain where
  ancestry := h.records.ancestry hchain
  lookup := h.records.lookup_eq hchain
  unbound name := by rw [h.records.lookup_eq hchain, Journal.resolve?_eq_none_iff]
  depth := h.records.depth_eq hchain
  size := h.records.size_eq hchain

end Host

/-- Whatever a host did, each frame has a chain of frames up to a root. A lookup finds what was
bound last in the first frame of the chain that ever bound the name. A binding is seen in its own
frame, so through all its handles, and along the chains where no earlier frame binds the name; it
changes no other lookup. A child sees its parameters, the last of each name, before what its parent
sees. The depth of a frame is one more than that of the frame it was opened below and never
changes, and two handles are to one frame exactly if cloning relates them. An evaluation ends with
a journal exactly if it ends. -/
theorem environments_follow_history {H : Host} (h : H.Reached) :
    (∀ f ∈ H.handles, H.store.Has f) ∧
    (∀ f, H.store.Has f → ∃ chain, H.journal.Chain f chain) ∧
    (∀ f chain, H.journal.Chain f chain → H.Reads f chain) ∧
    (∀ f name v, H.store.Has f → H.store.Knows v →
      (H.store.bind f name v).lookup f name = some v ∧
      ∀ g chain, H.journal.Chain g chain →
        (H.journal.Sees chain f name → (H.store.bind f name v).lookup g name = some v) ∧
        ∀ other, (name = other → ¬ H.journal.Sees chain f other) →
          (H.store.bind f name v).lookup g other = H.store.lookup g other) ∧
    (∀ f ps vs name, H.store.Has f → (∀ v ∈ vs, H.store.Knows v) →
      (H.store.newChild f ps vs).2.lookup (H.store.newChild f ps vs).1 name =
        (((ps.zip vs).reverse.find? fun b => b.1.text = name).map Prod.snd).or
          (H.store.lookup f name)) ∧
    (∀ f, .opened f none ∈ H.journal → H.store.depth f = 1) ∧
    (∀ f parent, .opened f (some parent) ∈ H.journal →
      H.store.depth f = H.store.depth parent + 1) ∧
    (∀ K f, Relation.ReflTransGen Host.Step H K → H.store.Has f →
      K.store.depth f = H.store.depth f) ∧
    (∀ a b f g, H.handles[a]? = some f → H.handles[b]? = some g →
      (f = g ↔ Host.Aliased H.clones a b)) ∧
    ∀ (i j : Interpreter) (t : Term) (f : FrameId) (r : Outcome),
      i.Returns t f r j ↔ ∃ K, i.Journals t f H.journal r j K := by
  have hfaithful := Host.Faithful.of_reached h
  have hrecords := hfaithful.records
  refine ⟨hfaithful.handles, ?_, ?_, ?_, ?_, ?_, ?_, ?_, ?_, ?_⟩
  · intro f hf
    exact hrecords.exists_chain hf
  · intro f chain hchain
    exact hfaithful.reads hchain
  · intro f name v hf hv
    refine ⟨hrecords.lookup_bind_self hf hv name, ?_⟩
    intro g chain hchain
    exact ⟨hrecords.lookup_bind_of_sees hchain hf hv,
      fun other => hrecords.lookup_bind_of_not_sees hchain hf hv⟩
  · intro f ps vs name hf hvs
    exact hrecords.lookup_newChild hf ps hvs name
  · intro f hopened
    exact hrecords.depth_root hopened
  · intro f parent hopened
    exact hrecords.depth_child hopened
  · intro K f hsteps hf
    obtain ⟨hlater, hjournal⟩ := hfaithful.steps hsteps
    exact hrecords.depth_later hlater.records hjournal hf
  · intro a b f g ha hb
    exact hfaithful.shares.eq_iff_aliased ha hb
  · intro i j t f r
    exact Interpreter.returns_iff_exists_journals H.journal

/-- A program that binds a name to what a call gives. -/
def boundCall : Term :=
  .binding ⟨"y", .unstated⟩
    (.call (.function [⟨"n", .unstated⟩] (.var "n" .unstated) .unstated) [.int 5 .unstated]
      .unstated)
    (.var "y" .unstated) .unstated

/-- A host with an environment, a clone of it and a child of it. Two parameters of the child had
one name, and one argument was surplus. -/
def familyHost : Host where
  store := ⟨#[⟨[("x", .int 1)], none⟩, ⟨[("x", .int 20)], some ⟨0⟩⟩], 0⟩
  journal := [.bound ⟨1⟩ "x" (.int 20), .bound ⟨1⟩ "x" (.int 10), .opened ⟨1⟩ (some ⟨0⟩),
    .bound ⟨0⟩ "x" (.int 1), .opened ⟨0⟩ none]
  handles := [⟨0⟩, ⟨0⟩, ⟨1⟩]
  clones := [(0, 1)]

/-- The same host after the program was run in the child. -/
def familyHostLater : Host where
  store := ⟨#[⟨[("x", .int 1)], none⟩, ⟨[("y", .int 5), ("x", .int 20)], some ⟨0⟩⟩,
    ⟨[("n", .int 5)], some ⟨1⟩⟩], 1⟩
  journal := .bound ⟨1⟩ "y" (.int 5) :: .bound ⟨2⟩ "n" (.int 5) :: .opened ⟨2⟩ (some ⟨1⟩) ::
    familyHost.journal
  handles := familyHost.handles
  clones := familyHost.clones

theorem reached_familyHost : familyHost.Reached := by
  have hnew : Host.Reached ⟨⟨#[⟨[], none⟩], 0⟩, [.opened ⟨0⟩ none], [⟨0⟩], []⟩ :=
    .tail .refl .new
  have hclone : Host.Reached ⟨⟨#[⟨[], none⟩], 0⟩, [.opened ⟨0⟩ none], [⟨0⟩, ⟨0⟩], [(0, 1)]⟩ :=
    hnew.tail (.clone (e := 0) rfl)
  have hbind : Host.Reached ⟨⟨#[⟨[("x", .int 1)], none⟩], 0⟩,
      [.bound ⟨0⟩ "x" (.int 1), .opened ⟨0⟩ none], [⟨0⟩, ⟨0⟩], [(0, 1)]⟩ :=
    hclone.tail (.bind (e := 1) (f := ⟨0⟩) "x" (.int 1) rfl (Store.knows_of_closures rfl))
  have hvalues : ∀ v ∈ [.int 10, .int 20, .int 30],
      Store.Knows ⟨#[⟨[("x", .int 1)], none⟩], 0⟩ v := by
    simp [Store.Knows, Value.closures]
  exact hbind.tail (.child (e := 0) (f := ⟨0⟩) [⟨"x", .unstated⟩, ⟨"x", .unstated⟩]
    [.int 10, .int 20, .int 30] rfl hvalues)

/-- An interpreter on the frames. -/
def interpreterOn (s : Store) : Interpreter :=
  ⟨⟨0⟩, ⟨s, .new .buffer, .empty (some 5), none⟩⟩

theorem reached_familyHostLater : familyHostLater.Reached := by
  have hrun : Plan.run Evaluation.journaledBody 20 ⟨boundCall, ⟨1⟩⟩
      ⟨(interpreterOn familyHost.store).state, familyHost.journal⟩ =
      some (.ok (.int 5), ⟨(interpreterOn familyHostLater.store).state,
        familyHostLater.journal⟩) := by
    cbv
  have hjournals : (interpreterOn familyHost.store).Journals boundCall ⟨1⟩ familyHost.journal
      (.ok (.int 5)) (interpreterOn familyHostLater.store) familyHostLater.journal :=
    ⟨rfl, Plan.run_eq_some_iff.mp ⟨20, hrun⟩⟩
  have hstep := Host.Step.evaluate (H := familyHost) (e := 2) rfl rfl hjournals
  exact reached_familyHost.tail hstep

theorem environments_follow_history_familyHost :
    familyHostLater.Reached ∧
      familyHostLater.Reads ⟨2⟩ [⟨2⟩, ⟨1⟩, ⟨0⟩] ∧
      familyHostLater.store.lookup ⟨2⟩ "x" = some (.int 20) ∧
      familyHostLater.store.depth ⟨2⟩ = familyHostLater.store.depth ⟨1⟩ + 1 ∧
      (familyHostLater.store.bind ⟨0⟩ "z" (.str "late")).lookup ⟨2⟩ "z" = some (.str "late") ∧
      (familyHostLater.store.bind ⟨0⟩ "x" (.str "late")).lookup ⟨2⟩ "x" = some (.int 20) ∧
      Host.Aliased familyHostLater.clones 0 1 ∧ ¬ Host.Aliased familyHostLater.clones 1 2 := by
  obtain ⟨-, -, hreads, hbind, -, -, hdepth, -, haliased, -⟩ :=
    environments_follow_history reached_familyHostLater
  have hchain : familyHostLater.journal.Chain ⟨2⟩ [⟨2⟩, ⟨1⟩, ⟨0⟩] := by
    refine .child ?_ (.child ?_ (.root ?_))
    all_goals simp [familyHostLater, familyHost]
  have hread := hreads ⟨2⟩ _ hchain
  have hroot : familyHostLater.store.Has ⟨0⟩ := ⟨_, rfl⟩
  have hlate : familyHostLater.store.Knows (.str "late") := Store.knows_of_closures rfl
  have hlookup : familyHostLater.store.lookup ⟨2⟩ "x" = some (.int 20) := by
    rw [hread.lookup]
    rfl
  refine ⟨reached_familyHostLater, hread, hlookup, ?_, ?_, ?_, ?_, ?_⟩
  · exact hdepth ⟨2⟩ ⟨1⟩ (by simp [familyHostLater])
  · refine ((hbind ⟨0⟩ "z" _ hroot hlate).2 ⟨2⟩ _ hchain).1 ?_
    simp [Journal.sees_cons, Journal.names, familyHostLater, familyHost]
  · rw [← hlookup]
    refine ((hbind ⟨0⟩ "x" _ hroot hlate).2 ⟨2⟩ _ hchain).2 "x" fun _ => ?_
    simp [Journal.sees_cons, Journal.names, familyHostLater, familyHost]
  · exact (haliased 0 1 ⟨0⟩ ⟨0⟩ rfl rfl).mp rfl
  · intro h
    cases (haliased 1 2 ⟨0⟩ ⟨1⟩ rfl rfl).mpr h

end TreeScript
