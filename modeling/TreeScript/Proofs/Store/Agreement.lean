import TreeScript.Proofs.Store.Holding
import TreeScript.Proofs.Term.Nesting
import TreeScript.Proofs.Value.Related

/-!
Stores that agree outside some names. Frames and closures of one stand for those of the other, and
frames that stand for each other may differ in the hidden names: in which of them they bind, and
to what. Main statements: lookups of other names agree, and every operation keeps the agreement.
-/
namespace TreeScript

/-- The term reads none of the hidden names. It may bind them. -/
def Term.Avoids (hidden : String → Prop) (t : Term) : Prop :=
  ∀ name l, t.Contains (.var name l) → ¬ hidden name

theorem Term.Contains.trans {t u w : Term} (h : t.Contains u) (hw : u.Contains w) :
    t.Contains w := by
  induction hw with
  | self => exact h
  | child _ hc ih => exact .child ih hc

/-- What stands in a term is the term or stands in one of its children. -/
theorem Term.Contains.eq_or_exists_child {t u : Term} (h : t.Contains u) :
    u = t ∨ ∃ c ∈ t.children, c.Contains u := by
  induction h with
  | self => exact .inl rfl
  | child _ hc ih =>
    rcases ih with rfl | ⟨d, hd, hcontains⟩
    · exact .inr ⟨_, hc, .self⟩
    · exact .inr ⟨d, hd, .child hcontains hc⟩

theorem Term.avoids_of_children {hidden : String → Prop} {t : Term}
    (hvar : ∀ name l, t = .var name l → ¬ hidden name)
    (h : ∀ c ∈ t.children, c.Avoids hidden) : t.Avoids hidden := by
  intro name l hcontains
  rcases hcontains.eq_or_exists_child with heq | ⟨c, hc, hcontains⟩
  · exact hvar name l heq.symm
  · exact h c hc name l hcontains

theorem Term.Avoids.child {hidden : String → Prop} {t c : Term} (h : t.Avoids hidden)
    (hc : c ∈ t.children) : c.Avoids hidden :=
  fun name l hvar => h name l ((Contains.child .self hc).trans hvar)

/-- One number stands for another. -/
abbrev Pairing := Nat → Nat → Prop

/-- One to one. Of what is numbered from `n` and `n'` on, the first stands for the first, and so on
in order. -/
structure Pairing.InStep (p : Pairing) (n n' : Nat) : Prop where
  unique : ∀ {k k' m m'}, p k k' → p m m' → (k = m ↔ k' = m')
  ahead : ∀ j, p (n + j) (n' + j)

theorem Pairing.inStep_eq (n : Nat) : Pairing.InStep Eq n n := by
  refine ⟨?_, fun _ => rfl⟩
  rintro k _ m _ rfl rfl
  rfl

namespace Pairing.InStep
variable {p : Pairing} {n n' k k' m m' : Nat}

theorem next (h : p.InStep n n') : p n n' := h.ahead 0

theorem succ (h : p.InStep n n') : p.InStep (n + 1) (n' + 1) where
  unique := h.unique
  ahead j := by
    have hj := h.ahead (j + 1)
    rwa [Nat.add_comm j 1, ← Nat.add_assoc, ← Nat.add_assoc] at hj

/-- What stands for each other was there in both or in neither. -/
theorem lt_iff (h : p.InStep n n') (hk : p k k') : k < n ↔ k' < n' := by
  constructor
  · intro hlt
    by_contra hge
    have hback := (h.unique (h.ahead (k' - n')) hk).mpr (by omega)
    omega
  · intro hlt
    by_contra hge
    have hback := (h.unique (h.ahead (k - n)) hk).mp (by omega)
    omega

theorem eq_next_iff (h : p.InStep n n') (hk : p k k') : k = n ↔ k' = n' := h.unique hk h.next

end Pairing.InStep

/-- Which frames and which closures of one store stand for which of another. -/
structure Correspondence where
  frames : Pairing
  closures : Pairing

/-- Each stands for itself. -/
def Correspondence.same : Correspondence := ⟨Eq, Eq⟩

/-- Closures of one function that reads no hidden name, made in frames that stand for each other. -/
structure Closure.AgreeOutside (hidden : String → Prop) (m : Correspondence) (c c' : Closure) :
    Prop where
  frame : m.frames c.frame.index c'.frame.index
  identity : m.closures c.identity c'.identity
  node : c'.node = c.node
  avoids : c.body.Avoids hidden

/-- Values that are the same but for closures that stand for each other. -/
abbrev Value.AgreeOutside (hidden : String → Prop) (m : Correspondence) : Value → Value → Prop :=
  Value.Related (Closure.AgreeOutside hidden m)

def Bindings.AgreeOutside (hidden : String → Prop) (m : Correspondence) (b b' : Bindings) : Prop :=
  ∀ name, ¬ hidden name → Option.Rel (Value.AgreeOutside hidden m) (b.get? name) (b'.get? name)

/-- The frames bind the same outside the hidden names, and their parents stand for each other. A
search goes on to both parents or to neither. -/
structure Frame.AgreeOutside (hidden : String → Prop) (m : Correspondence) (f f' : FrameId)
    (frame frame' : Frame) : Prop where
  bindings : frame.bindings.AgreeOutside hidden m frame'.bindings
  parent : Option.Rel
    (fun g g' => m.frames g.index g'.index ∧ (g.index < f.index ↔ g'.index < f'.index))
    frame.parent frame'.parent

/-- Frames that stand for each other agree. What is made next in one store stands for what is made
next in the other. -/
structure Store.AgreeOutside (hidden : String → Prop) (m : Correspondence) (s s' : Store) :
    Prop where
  framesInStep : m.frames.InStep s.frames.size s'.frames.size
  closuresInStep : m.closures.InStep s.closures s'.closures
  frames : ∀ {f f' : FrameId}, m.frames f.index f'.index →
    Option.Rel (Frame.AgreeOutside hidden m f f') (s.frame? f) (s'.frame? f')

variable {hidden : String → Prop} {m : Correspondence}

namespace Bindings.AgreeOutside
variable {b b' : Bindings}

theorem nil : AgreeOutside hidden m [] [] := fun _ _ => .none

theorem bind (h : b.AgreeOutside hidden m b') {v v' : Value} (hv : v.AgreeOutside hidden m v')
    (name : String) : (b.bind name v).AgreeOutside hidden m (b'.bind name v') := by
  intro other hother
  rw [get?_bind, get?_bind]
  split
  · exact .some hv
  · exact h other hother

theorem bindAll (h : b.AgreeOutside hidden m b') {vs vs' : List Value}
    (hvs : List.Forall₂ (Value.AgreeOutside hidden m) vs vs') (ps : List Parameter) :
    (bindAll ps vs b).AgreeOutside hidden m (bindAll ps vs' b') := by
  induction hvs generalizing ps b b' with
  | nil =>
    cases ps with
    | nil => exact h
    | cons p ps => exact h
  | cons hv _ ih =>
    cases ps with
    | nil => exact h
    | cons p ps =>
      rw [bindAll_cons, bindAll_cons]
      exact ih (h.bind hv p.text) ps

end Bindings.AgreeOutside

namespace Store.AgreeOutside
variable {s s' : Store} {f f' : FrameId} {v v' : Value}

theorem frame?_eq_none (h : s.AgreeOutside hidden m s') (hf : m.frames f.index f'.index)
    (hnone : s.frame? f = none) : s'.frame? f' = none := by
  have hframe := h.frames hf
  rw [hnone] at hframe
  generalize s'.frame? f' = o at hframe ⊢
  cases hframe
  rfl

theorem exists_frame (h : s.AgreeOutside hidden m s') (hf : m.frames f.index f'.index)
    {frame : Frame} (hsome : s.frame? f = some frame) :
    ∃ frame', s'.frame? f' = some frame' ∧ frame.AgreeOutside hidden m f f' frame' := by
  have hframe := h.frames hf
  rw [hsome] at hframe
  generalize s'.frame? f' = o at hframe ⊢
  cases hframe with
  | some hagree => exact ⟨_, rfl, hagree⟩

/-- A name that is not hidden is found in both or in neither, and bound to the same. -/
theorem lookup (h : s.AgreeOutside hidden m s') (hf : m.frames f.index f'.index) {name : String}
    (hname : ¬ hidden name) :
    Option.Rel (Value.AgreeOutside hidden m) (s.lookup f name) (s'.lookup f' name) := by
  -- The induction follows the search in the first store; the second search takes the same turns.
  induction hindex : f.index using Nat.strongRecOn generalizing f f' with
  | ind index ih =>
    rw [Store.lookup, Store.lookup]
    cases hframe : s.frame? f with
    | none =>
      rw [h.frame?_eq_none hf hframe]
      exact .none
    | some frame =>
      obtain ⟨frame', hframe', hbindings, hparents⟩ := h.exists_frame hf hframe
      rw [hframe']
      have hown := hbindings name hname
      dsimp only
      generalize frame.bindings.get? name = o at hown ⊢
      generalize frame'.bindings.get? name = o' at hown ⊢
      cases hown with
      | some hv => exact .some hv
      | none =>
        generalize frame.parent = g at hparents ⊢
        generalize frame'.parent = g' at hparents ⊢
        cases hparents with
        | none => exact .none
        | @some g g' hg =>
          obtain ⟨hpair, holder⟩ := hg
          by_cases hlt : g.index < f.index
          · simp only [hlt, holder.mp hlt, if_true]
            exact ih g.index (hindex ▸ hlt) hpair rfl
          · simp only [hlt, mt holder.mpr hlt, if_false]
            exact .none

theorem bind (h : s.AgreeOutside hidden m s') (hf : m.frames f.index f'.index)
    (hv : v.AgreeOutside hidden m v') (name : String) :
    (s.bind f name v).AgreeOutside hidden m (s'.bind f' name v') where
  framesInStep := by
    simpa [Store.bind] using h.framesInStep
  closuresInStep := h.closuresInStep
  frames {g g'} hg := by
    have hframe := h.frames hg
    have hindex := h.framesInStep.unique hg hf
    have hsame : g = f ↔ g' = f' := by
      obtain ⟨_⟩ := g
      obtain ⟨_⟩ := f
      obtain ⟨_⟩ := g'
      obtain ⟨_⟩ := f'
      simpa using hindex
    rw [frame?_bind, frame?_bind]
    by_cases hgf : g = f
    · subst hgf
      obtain rfl := hsame.mp rfl
      rw [if_pos rfl, if_pos rfl]
      generalize s.frame? g = o at hframe ⊢
      generalize s'.frame? g' = o' at hframe ⊢
      cases hframe with
      | none => exact .none
      | some hagree => exact .some ⟨hagree.bindings.bind hv name, hagree.parent⟩
    · rw [if_neg hgf, if_neg (mt hsame.mpr hgf)]
      exact hframe

theorem newClosure (h : s.AgreeOutside hidden m s') (hf : m.frames f.index f'.index)
    (parameters : List Parameter) {body : Term} (hbody : body.Avoids hidden) (l : Location) :
    Closure.AgreeOutside hidden m ⟨s.closures, parameters, body, f, l⟩
        ⟨s'.closures, parameters, body, f', l⟩ ∧
      (s.newClosure parameters body f l).2.AgreeOutside hidden m
        (s'.newClosure parameters body f' l).2 :=
  ⟨⟨hf, h.closuresInStep.next, rfl, hbody⟩, h.framesInStep, h.closuresInStep.succ, h.frames⟩

theorem newChild (h : s.AgreeOutside hidden m s') {c c' : Closure}
    (hc : c.AgreeOutside hidden m c') {vs vs' : List Value}
    (hvs : List.Forall₂ (Value.AgreeOutside hidden m) vs vs') :
    (s.newChild c.frame c.parameters vs).2.AgreeOutside hidden m
      (s'.newChild c'.frame c'.parameters vs').2 where
  framesInStep := by
    simpa [Store.newChild] using h.framesInStep.succ
  closuresInStep := h.closuresInStep
  frames {g g'} hg := by
    have hparameters : c'.parameters = c.parameters := congrArg FunctionNode.parameters hc.node
    have hnext := h.framesInStep.eq_next_iff hg
    rw [frame?_newChild, frame?_newChild, hparameters]
    by_cases hnew : g.index = s.frames.size
    · have hnew' := hnext.mp hnew
      have holder := h.framesInStep.lt_iff hc.frame
      rw [← hnew, ← hnew'] at holder
      rw [if_pos hnew, if_pos hnew']
      have hbindings := Bindings.AgreeOutside.nil.bindAll hvs c.parameters
      exact .some ⟨hbindings, .some ⟨hc.frame, holder⟩⟩
    · rw [if_neg hnew, if_neg (mt hnext.mpr hnew)]
      exact h.frames hg

/-- Binding a hidden name keeps the agreement, wherever it is bound and to what. -/
theorem bind_hidden (h : s.AgreeOutside hidden m s') {name : String} (hname : hidden name)
    (f : FrameId) (v : Value) : s.AgreeOutside hidden m (s'.bind f name v) where
  framesInStep := by
    simpa [Store.bind] using h.framesInStep
  closuresInStep := h.closuresInStep
  frames {g g'} hg := by
    have hframe := h.frames hg
    rw [frame?_bind]
    split
    · generalize s.frame? g = o at hframe ⊢
      generalize s'.frame? g' = o' at hframe ⊢
      cases hframe with
      | none => exact .none
      | some hagree =>
        refine .some ⟨?_, hagree.parent⟩
        intro other hother
        have hne : name ≠ other := fun heq => hother (heq ▸ hname)
        simpa [Bindings.get?_bind, hne] using hagree.bindings other hother
    · exact hframe

end Store.AgreeOutside

/-- A value agrees with itself if its closures do. -/
theorem Value.related_self {K : Closure → Closure → Prop} {v : Value}
    (h : ∀ c ∈ v.closures, K c c) : v.Related K v := by
  induction v with
  | int n => exact .int n
  | str s => exact .str s
  | bool b => exact .bool b
  | tuple a b iha ihb =>
    rw [closures, List.forall_mem_append] at h
    exact .tuple (iha h.1) (ihb h.2)
  | closure c => exact .closure (h c (List.mem_singleton_self c))

/-- A store agrees with itself if it holds no closure that reads a hidden name. -/
theorem Store.agreeOutside_self {s : Store} (h : ∀ c, s.Holds c → c.body.Avoids hidden) :
    s.AgreeOutside hidden .same s where
  framesInStep := Pairing.inStep_eq _
  closuresInStep := Pairing.inStep_eq _
  frames {f f'} hf := by
    obtain ⟨_⟩ := f
    obtain ⟨_⟩ := f'
    obtain rfl : _ = _ := hf
    cases hframe : s.frame? _ with
    | none => exact .none
    | some frame =>
      refine .some ⟨?_, ?_⟩
      · intro name _
        cases hv : frame.bindings.get? name with
        | none => exact .none
        | some v =>
          refine .some (Value.related_self fun c hc => ⟨rfl, rfl, rfl, ?_⟩)
          exact h c ⟨_, frame, name, v, hframe, hv, hc⟩
      · cases frame.parent with
        | none => exact .none
        | some g => exact .some ⟨rfl, Iff.rfl⟩

end TreeScript
