import TreeScript.Proofs.Store.Frames

/-!
What it means to find a name, to bind it and to open a frame, said of the frames and their
bindings alone. Each is what the store does.
-/
namespace TreeScript

namespace Bindings

/-- The second bindings are the first with the name set to the value. A new name stands first; a
name bound before keeps its place. -/
inductive Sets (name : String) (v : Value) : Bindings → Bindings → Prop where
  | fresh {b : Bindings} : (∀ entry ∈ b, entry.1 ≠ name) → Sets name v b ((name, v) :: b)
  | again {before after : Bindings} {old : Value} : (∀ entry ∈ before, entry.1 ≠ name) →
    Sets name v (before ++ (name, old) :: after) (before ++ (name, v) :: after)

/-- The parameters are set to the arguments, one after the other. -/
inductive SetsAll : List Parameter → List Value → Bindings → Bindings → Prop where
  | nil {b : Bindings} : SetsAll [] [] b b
  | cons {p : Parameter} {ps : List Parameter} {v : Value} {vs : List Value} {b c d : Bindings} :
    Sets p.text v b c → SetsAll ps vs c d → SetsAll (p :: ps) (v :: vs) b d

variable {name : String} {v : Value} {b c : Bindings}

theorem get?_eq_lookup : b.get? name = b.lookup name := by
  induction b with
  | nil => rfl
  | cons entry b ih =>
    obtain ⟨key, w⟩ := entry
    by_cases h : key = name
    · subst h
      simp [get?]
    · have hbeq : (name == key) = false := beq_false_of_ne (Ne.symm h)
      simp [get?, h, ih, List.lookup_cons, hbeq]

theorem contains_eq_false_iff : b.contains name = false ↔ ∀ entry ∈ b, entry.1 ≠ name := by
  induction b with
  | nil => simp [contains, get?]
  | cons entry b ih =>
    obtain ⟨key, w⟩ := entry
    by_cases h : key = name
    · simp [contains, get?, h]
    · simpa [contains, get?, h] using ih

theorem exists_split_of_contains (h : b.contains name = true) :
    ∃ before old after, b = before ++ (name, old) :: after ∧ ∀ entry ∈ before, entry.1 ≠ name := by
  induction b with
  | nil => cases h
  | cons entry b ih =>
    obtain ⟨key, w⟩ := entry
    by_cases hkey : key = name
    · subst hkey
      exact ⟨[], w, b, rfl, List.forall_mem_nil _⟩
    · have hrest : contains name b = true := by simpa [contains, get?, hkey] using h
      obtain ⟨before, old, after, rfl, hbefore⟩ := ih hrest
      exact ⟨(key, w) :: before, old, after, rfl, List.forall_mem_cons.mpr ⟨hkey, hbefore⟩⟩

theorem replace_append {before after : Bindings} {old : Value}
    (h : ∀ entry ∈ before, entry.1 ≠ name) :
    replace name v (before ++ (name, old) :: after) = before ++ (name, v) :: after := by
  induction before with
  | nil => simp [replace]
  | cons entry before ih =>
    obtain ⟨key, w⟩ := entry
    obtain ⟨hkey, hbefore⟩ := List.forall_mem_cons.mp h
    simp only [List.cons_append, replace, if_neg hkey, ih hbefore]

theorem sets_iff : Sets name v b c ↔ c = b.bind name v := by
  constructor
  · intro h
    cases h with
    | fresh hb => simp [bind, contains_eq_false_iff.mpr hb]
    | @again before after old hbefore =>
      have hcontains : contains name (before ++ (name, old) :: after) = true := by
        rw [← Bool.not_eq_false, contains_eq_false_iff]
        exact fun hb => hb (name, old) (by simp) rfl
      rw [bind, if_pos hcontains, replace_append hbefore]
  · rintro rfl
    unfold bind
    split
    · rename_i h
      obtain ⟨before, old, after, rfl, hbefore⟩ := exists_split_of_contains h
      rw [replace_append hbefore]
      exact .again hbefore
    · rename_i h
      exact .fresh (contains_eq_false_iff.mp (Bool.eq_false_iff.mpr h))

theorem setsAll_iff {ps : List Parameter} {vs : List Value} (h : vs.length = ps.length) :
    SetsAll ps vs b c ↔ c = bindAll ps vs b := by
  induction ps generalizing vs b with
  | nil =>
    obtain rfl := List.eq_nil_of_length_eq_zero h
    constructor
    · rintro ⟨⟩
      rfl
    · rintro rfl
      exact .nil
  | cons p ps ih =>
    cases vs with
    | nil => cases h
    | cons v vs =>
      rw [bindAll_cons]
      constructor
      · rintro (_ | ⟨hset, hsets⟩)
        rw [sets_iff.mp hset] at hsets
        exact (ih (Nat.succ.inj h)).mp hsets
      · intro hc
        exact .cons (sets_iff.mpr rfl) ((ih (Nat.succ.inj h)).mpr hc)

end Bindings

namespace Store

/-- The nearest frame that binds the name, from the frame upwards, binds it to the value. A parent
is older than its child. -/
inductive Finds (s : Store) (name : String) : FrameId → Value → Prop where
  | here {f : FrameId} {frame : Frame} {v : Value} : s.frames[f.index]? = some frame →
    frame.bindings.lookup name = some v → Finds s name f v
  | above {f parent : FrameId} {frame : Frame} {v : Value} : s.frames[f.index]? = some frame →
    frame.bindings.lookup name = none → frame.parent = some parent → parent.index < f.index →
    Finds s name parent v → Finds s name f v

/-- The second store is the first with the name bound in this one frame. -/
structure Binds (f : FrameId) (name : String) (v : Value) (s u : Store) : Prop where
  closures : u.closures = s.closures
  size : u.frames.size = s.frames.size
  own : ∀ frame, s.frames[f.index]? = some frame → ∃ b, Bindings.Sets name v frame.bindings b ∧
    u.frames[f.index]? = some ⟨b, frame.parent⟩
  other : ∀ i, i ≠ f.index → u.frames[i]? = s.frames[i]?

/-- The second store is the first with one frame more, below the parent. It binds the parameters to
the arguments and nothing else. -/
structure Opens (parent : FrameId) (ps : List Parameter) (vs : List Value) (s u : Store) :
    Prop where
  closures : u.closures = s.closures
  frames : ∃ b, Bindings.SetsAll ps vs [] b ∧ u.frames = s.frames.push ⟨b, some parent⟩

variable {s u : Store} {f parent : FrameId} {name : String} {v : Value}

theorem lookup_eq_some_iff : s.lookup f name = some v ↔ s.Finds name f v := by
  constructor
  · intro h
    fun_induction lookup s f name with
    | case1 f hframe => cases h
    | case2 f frame hframe w hw =>
      cases h
      exact .here hframe (Bindings.get?_eq_lookup.symm.trans hw)
    | case3 f frame hframe hnone hroot => cases h
    | case4 f frame hframe hnone parent hparent hlt ih =>
      exact .above hframe (Bindings.get?_eq_lookup.symm.trans hnone) hparent hlt (ih h)
    | case5 f frame hframe hnone parent hparent hge => cases h
  · intro h
    induction h with
    | here hframe hv =>
      rw [lookup, frame?, hframe]
      simp [Bindings.get?_eq_lookup, hv]
    | above hframe hnone hparent hlt _ ih =>
      rw [lookup, frame?, hframe]
      simp [Bindings.get?_eq_lookup, hnone, hparent, hlt, ih]

theorem lookup_eq_none_iff : s.lookup f name = none ↔ ∀ v, ¬ s.Finds name f v := by
  simp only [← lookup_eq_some_iff, Option.eq_none_iff_forall_ne_some]

theorem binds_bind (s : Store) (f : FrameId) (name : String) (v : Value) :
    s.Binds f name v (s.bind f name v) where
  closures := rfl
  size := Array.size_modify
  own frame hframe := by
    refine ⟨frame.bindings.bind name v, Bindings.sets_iff.mpr rfl, ?_⟩
    simp [bind, Array.getElem?_modify, hframe]
  other i hi := by simp [bind, Array.getElem?_modify, Ne.symm hi]

/-- There is one such store. -/
theorem Binds.unique {w : Store} (h : s.Binds f name v u) (h' : s.Binds f name v w) : u = w := by
  have hframes : u.frames = w.frames := by
    apply Array.ext_getElem?
    intro i
    by_cases hi : i = f.index
    · subst hi
      cases hframe : s.frames[f.index]? with
      | none =>
        have hsize := Array.getElem?_eq_none_iff.mp hframe
        rw [Array.getElem?_eq_none (h.size ▸ hsize), Array.getElem?_eq_none (h'.size ▸ hsize)]
      | some frame =>
        obtain ⟨b, hb, hu⟩ := h.own frame hframe
        obtain ⟨c, hc, hw⟩ := h'.own frame hframe
        rw [hu, hw, Bindings.sets_iff.mp hb, Bindings.sets_iff.mp hc]
    · rw [h.other i hi, h'.other i hi]
  have hclosures : u.closures = w.closures := h.closures.trans h'.closures.symm
  cases u
  cases w
  simp_all

theorem binds_iff : s.Binds f name v u ↔ u = s.bind f name v := by
  constructor
  · exact fun h => h.unique (binds_bind s f name v)
  · rintro rfl
    exact binds_bind s f name v

theorem opens_iff {ps : List Parameter} {vs : List Value} (h : vs.length = ps.length) :
    s.Opens parent ps vs u ↔ u = (s.newChild parent ps vs).2 := by
  constructor
  · rintro ⟨hclosures, b, hb, hframes⟩
    rw [(Bindings.setsAll_iff h).mp hb] at hframes
    cases u
    simp_all [newChild]
  · rintro rfl
    exact ⟨rfl, _, (Bindings.setsAll_iff h).mpr rfl, rfl⟩

end Store

end TreeScript
