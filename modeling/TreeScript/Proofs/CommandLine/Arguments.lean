import Mathlib
import TreeScript.Proofs.CommandLine.Runs
import TreeScript.Proofs.CommandLine.Words

/-!
What a whole list of arguments asks for. Main statement: the first argument that asks for
something other than a run decides alone; if there is none, a run takes the last value of each
option, so it depends only on the order among the arguments of the same option.
-/
namespace TreeScript.CommandLine

/-- With these arguments before it, the argument asks for something other than a run. -/
inductive Decisive (before : List String) (arg : String) : Prop where
  | help : Reads arg .help → Decisive before arg
  | version : Reads arg .version → Decisive before arg
  | explain : Reads arg .explain → Decisive before arg
  | malformed {option : ValueOption} {text : String} :
      Reads arg (.malformed option text) → Decisive before arg
  | unknown : Reads arg .unknown → Decisive before arg
  | surplus {p : String} :
      p ∈ before → Reads p .positional → Reads arg .positional → Decisive before arg

/-- No argument is decisive where it stands. -/
def Undecided (args : List String) : Prop :=
  ∀ before arg after, args = before ++ arg :: after → ¬ Decisive before arg

/-- What a decisive argument asks for, with the argument after it if there is one, and the exit
code of the answer. -/
inductive Decides (arg : String) (next : Option String) : Nat → Action → Prop where
  | help : Reads arg .help → Decides arg next 0 .help
  | version : Reads arg .version → Decides arg next 0 .version
  | explain {code : String} : Reads arg .explain → next = some code →
      Decides arg next (if (Code.ofText? code).isSome then 0 else 1) (.explain code)
  | unexplained : Reads arg .explain → next = none →
      Decides arg next 2 (.usageError "--explain requires an error code")
  | malformed {option : ValueOption} {text : String} : Reads arg (.malformed option text) →
      Decides arg next 2
        (.usageError ("invalid " ++ option.name ++ " value '" ++ text ++ "'"))
  | unknown : Reads arg .unknown →
      Decides arg next 2 (.usageError ("unknown option '" ++ arg ++ "'"))
  | surplus : Reads arg .positional →
      Decides arg next 2 (.usageError ("unexpected argument '" ++ arg ++ "'"))

section LastSet
variable {α : Type}

/-- The last of the arguments that set the field sets it to the value. It has its default if no
argument sets it. -/
inductive LastSet (field : α → Setting) (default : α) (args : List String) : α → Prop where
  | last {before after : List String} {arg : String} {v : α} :
      args = before ++ arg :: after → Reads arg (.setting (field v)) →
      (∀ a ∈ after, ∀ w, ¬ Reads a (.setting (field w))) → LastSet field default args v
  | unset : (∀ a ∈ args, ∀ w, ¬ Reads a (.setting (field w))) → LastSet field default args default

end LastSet

/-- What the arguments make of the options of a run and of the file to run. -/
structure Gathers (args : List String) (options : Options) (file : Option String) : Prop where
  maxDepth : LastSet .maxDepth (some Interpreter.defaultMaxDepth) args options.maxDepth
  color : LastSet .color .auto args options.color
  format : LastSet .format .human args options.format
  profile : options.profile = true ↔ "--profile" ∈ args
  backtrace : options.backtrace = true ↔ "--backtrace" ∈ args
  file : ∀ p, file = some p ↔ p ∈ args ∧ Reads p .positional

theorem concat_eq_append_cons {args before after : List String} {a arg : String}
    (h : args ++ [a] = before ++ arg :: after) :
    (args = before ∧ a = arg ∧ after = []) ∨
      ∃ rest, after = rest ++ [a] ∧ args = before ++ arg :: rest := by
  rcases List.eq_nil_or_concat' after with rfl | ⟨rest, b, rfl⟩
  · obtain ⟨hargs, ha⟩ := List.append_inj' h rfl
    exact .inl ⟨hargs, List.singleton_inj.mp ha, rfl⟩
  · rw [← List.cons_append, ← List.append_assoc] at h
    obtain ⟨hargs, ha⟩ := List.append_inj' h rfl
    exact .inr ⟨rest, by rw [List.singleton_inj.mp ha], hargs⟩

theorem undecided_nil : Undecided [] := by
  intro before arg after h
  simp at h

theorem undecided_concat_iff {args : List String} {a : String} :
    Undecided (args ++ [a]) ↔ Undecided args ∧ ¬ Decisive args a := by
  constructor
  · intro h
    refine ⟨?_, h args a [] rfl⟩
    rintro before arg after rfl
    exact h before arg (after ++ [a]) (by simp)
  · rintro ⟨hargs, ha⟩ before arg after h
    rcases concat_eq_append_cons h with ⟨rfl, rfl, -⟩ | ⟨rest, -, hrest⟩
    · exact ha
    · exact hargs before arg rest hrest

theorem exists_decisive {args : List String} (h : ¬ Undecided args) :
    ∃ before arg after, args = before ++ arg :: after ∧ Undecided before ∧
      Decisive before arg := by
  induction args using List.reverseRecOn with
  | nil => exact absurd undecided_nil h
  | append_singleton args a ih =>
    by_cases hargs : Undecided args
    · have ha : Decisive args a := by
        by_contra ha
        exact h (undecided_concat_iff.mpr ⟨hargs, ha⟩)
      exact ⟨args, a, [], rfl, hargs, ha⟩
    · obtain ⟨before, arg, after, rfl, hbefore, harg⟩ := ih hargs
      exact ⟨before, arg, after ++ [a], by simp, hbefore, harg⟩

/-- An argument that is not decisive sets something or is the first that gives a file. -/
theorem reads_of_not_decisive {before : List String} {a : String} (h : ¬ Decisive before a) :
    (∃ s, Reads a (.setting s)) ∨
      (Reads a .positional ∧ ∀ p ∈ before, ¬ Reads p .positional) := by
  obtain ⟨w, hw⟩ := Reads.exists_word a
  cases w with
  | help => exact absurd (.help hw) h
  | version => exact absurd (.version hw) h
  | explain => exact absurd (.explain hw) h
  | setting s => exact .inl ⟨s, hw⟩
  | malformed option text => exact absurd (.malformed hw) h
  | unknown => exact absurd (.unknown hw) h
  | positional => exact .inr ⟨hw, fun p hp hread => h (.surplus hp hread hw)⟩

theorem Undecided.setting {args : List String} {a : String} {s : Setting} (h : Undecided args)
    (ha : Reads a (.setting s)) : Undecided (args ++ [a]) := by
  refine undecided_concat_iff.mpr ⟨h, fun hdecisive => ?_⟩
  cases hdecisive with
  | help hw | version hw | explain hw | malformed hw | unknown hw => cases ha.unique hw
  | surplus _ _ hw => cases ha.unique hw

theorem Undecided.positional {args : List String} {a : String} (h : Undecided args)
    (ha : Reads a .positional) (hfirst : ∀ p ∈ args, ¬ Reads p .positional) :
    Undecided (args ++ [a]) := by
  refine undecided_concat_iff.mpr ⟨h, fun hdecisive => ?_⟩
  cases hdecisive with
  | help hw | version hw | explain hw | malformed hw | unknown hw => cases ha.unique hw
  | surplus hp hread _ => exact hfirst _ hp hread

/-- What stands before an argument matters only for a file, and then only another file does. -/
theorem decisive_iff {before : List String} {a : String} :
    Decisive before a ↔
      Decisive [] a ∨ ∃ p ∈ before, Reads p .positional ∧ Reads a .positional := by
  constructor
  · intro h
    cases h with
    | help hw => exact .inl (.help hw)
    | version hw => exact .inl (.version hw)
    | explain hw => exact .inl (.explain hw)
    | malformed hw => exact .inl (.malformed hw)
    | unknown hw => exact .inl (.unknown hw)
    | surplus hp hread hw => exact .inr ⟨_, hp, hread, hw⟩
  · rintro (h | ⟨p, hp, hread, hw⟩)
    · cases h with
      | help hw => exact .help hw
      | version hw => exact .version hw
      | explain hw => exact .explain hw
      | malformed hw => exact .malformed hw
      | unknown hw => exact .unknown hw
      | surplus hp => cases hp
    · exact .surplus hp hread hw

theorem undecided_iff {args : List String} :
    Undecided args ↔ (∀ a ∈ args, ¬ Decisive [] a) ∧
      args.Pairwise fun a b => ¬ (Reads a .positional ∧ Reads b .positional) := by
  induction args using List.reverseRecOn with
  | nil => simp [undecided_nil]
  | append_singleton args a ih =>
    have ha : ¬ Decisive args a ↔
        ¬ Decisive [] a ∧ ∀ p ∈ args, ¬ (Reads p .positional ∧ Reads a .positional) := by
      rw [decisive_iff]
      simp only [not_or, not_exists, not_and]
    simp only [undecided_concat_iff, ih, ha, List.pairwise_append, List.forall_mem_append,
      List.forall_mem_singleton, List.pairwise_singleton, true_and]
    tauto

theorem Undecided.perm {args args' : List String} (h : Undecided args)
    (hperm : args.Perm args') : Undecided args' := by
  rw [undecided_iff] at h ⊢
  obtain ⟨hall, hfiles⟩ := h
  refine ⟨fun a ha => hall a (hperm.mem_iff.mpr ha), ?_⟩
  exact (hperm.pairwise_iff fun hab hba => hab hba.symm).mp hfiles

namespace LastSet
variable {α : Type} {field : α → Setting} {default v w : α} {args : List String} {a : String}

theorem nil_iff : LastSet field default [] v ↔ v = default := by
  constructor
  · intro h
    cases h with
    | last hargs => simp at hargs
    | unset => rfl
  · rintro rfl
    exact .unset (List.forall_mem_nil _)

theorem concat_iff_of_set (hinj : Function.Injective field) (h : Reads a (.setting (field w))) :
    LastSet field default (args ++ [a]) v ↔ v = w := by
  constructor
  · intro hlast
    cases hlast with
    | last hargs hv hafter =>
      rcases concat_eq_append_cons hargs with ⟨-, rfl, -⟩ | ⟨rest, rfl, -⟩
      · exact hinj (Word.setting.inj (h.unique hv))
      · exact absurd h (hafter a (by simp) w)
    | unset hnone => exact absurd h (hnone a (by simp) w)
  · rintro rfl
    exact .last rfl h (List.forall_mem_nil _)

theorem concat_iff_of_not (h : ∀ w, ¬ Reads a (.setting (field w))) :
    LastSet field default (args ++ [a]) v ↔ LastSet field default args v := by
  constructor
  · intro hlast
    cases hlast with
    | last hargs hv hafter =>
      rcases concat_eq_append_cons hargs with ⟨-, rfl, -⟩ | ⟨rest, rfl, hrest⟩
      · exact absurd hv (h v)
      · exact .last hrest hv fun b hb => hafter b (List.mem_append_left _ hb)
    | unset hnone => exact .unset fun b hb => hnone b (List.mem_append_left _ hb)
  · intro hlast
    cases hlast with
    | last hargs hv hafter =>
      refine .last (by rw [hargs, List.append_assoc, List.cons_append]) hv ?_
      exact List.forall_mem_append.mpr ⟨hafter, List.forall_mem_singleton.mpr h⟩
    | unset hnone =>
      exact .unset (List.forall_mem_append.mpr ⟨hnone, List.forall_mem_singleton.mpr h⟩)

theorem concat_of_other {s : Setting} (h : LastSet field default args v)
    (ha : Reads a (.setting s)) (hs : ∀ w, field w ≠ s) :
    LastSet field default (args ++ [a]) v := by
  refine (concat_iff_of_not fun w hw => ?_).mpr h
  exact hs w (Word.setting.inj (ha.unique hw))

theorem unique (hinj : Function.Injective field) (hv : LastSet field default args v)
    (hw : LastSet field default args w) : w = v := by
  induction args using List.reverseRecOn with
  | nil => exact (nil_iff.mp hw).trans (nil_iff.mp hv).symm
  | append_singleton args a ih =>
    by_cases ha : ∃ u, Reads a (.setting (field u))
    · obtain ⟨u, hu⟩ := ha
      exact ((concat_iff_of_set hinj hu).mp hw).trans ((concat_iff_of_set hinj hu).mp hv).symm
    · have hnot := not_exists.mp ha
      exact ih ((concat_iff_of_not hnot).mp hv) ((concat_iff_of_not hnot).mp hw)

/-- Arguments that do not set the field do not matter. -/
theorem filter_iff (hinj : Function.Injective field) {p : String → Bool}
    (hp : ∀ a w, Reads a (.setting (field w)) → p a = true) :
    LastSet field default (args.filter p) v ↔ LastSet field default args v := by
  induction args using List.reverseRecOn with
  | nil => rfl
  | append_singleton args a ih =>
    by_cases ha : ∃ u, Reads a (.setting (field u))
    · obtain ⟨u, hu⟩ := ha
      rw [List.filter_append, List.filter_singleton, hp a u hu, cond_true,
        concat_iff_of_set hinj hu, concat_iff_of_set hinj hu]
    · have hnot := not_exists.mp ha
      rw [concat_iff_of_not hnot, ← ih, List.filter_append, List.filter_singleton]
      cases p a with
      | true => exact concat_iff_of_not hnot
      | false => rw [cond_false, List.append_nil]

theorem eq_of_filter {args' : List String} {option : ValueOption}
    (hv : LastSet field default args v) (hw : LastSet field default args' w)
    (hinj : Function.Injective field) (hoption : ∀ u, (field u).option? = some option)
    (hfilter : args.filter (Marked option.mark ·) = args'.filter (Marked option.mark ·)) :
    w = v := by
  have hmarked : ∀ a u, Reads a (.setting (field u)) → decide (Marked option.mark a) = true :=
    fun a u hread => decide_eq_true (hread.marked (hoption u))
  refine hv.unique hinj ((filter_iff hinj hmarked).mp ?_)
  rw [hfilter]
  exact (filter_iff hinj hmarked).mpr hw

end LastSet

namespace Gathers
variable {args : List String} {a : String} {o : Options} {file : Option String}

theorem nil : Gathers [] .default none where
  maxDepth := LastSet.nil_iff.mpr rfl
  color := LastSet.nil_iff.mpr rfl
  format := LastSet.nil_iff.mpr rfl
  profile := by simp [Options.default]
  backtrace := by simp [Options.default]
  file p := by simp

theorem setting {s : Setting} (h : Gathers args o file) (hs : Reads a (.setting s)) :
    Gathers (args ++ [a]) (o.set s) file where
  maxDepth := by
    cases s with
    | maxDepth limit => exact (LastSet.concat_iff_of_set (by simp [Function.Injective]) hs).mpr rfl
    | _ => exact h.maxDepth.concat_of_other hs (by simp)
  color := by
    cases s with
    | color choice => exact (LastSet.concat_iff_of_set (by simp [Function.Injective]) hs).mpr rfl
    | _ => exact h.color.concat_of_other hs (by simp)
  format := by
    cases s with
    | format format => exact (LastSet.concat_iff_of_set (by simp [Function.Injective]) hs).mpr rfl
    | _ => exact h.format.concat_of_other hs (by simp)
  profile := by
    have hflag : "--profile" = a ↔ .profile = s :=
      eq_comm.trans (Reads.profile_iff.symm.trans hs.setting_iff)
    rw [List.mem_append, List.mem_singleton, ← h.profile, hflag]
    cases s <;> simp [Options.set]
  backtrace := by
    have hflag : "--backtrace" = a ↔ .backtrace = s :=
      eq_comm.trans (Reads.backtrace_iff.symm.trans hs.setting_iff)
    rw [List.mem_append, List.mem_singleton, ← h.backtrace, hflag]
    cases s <;> simp [Options.set]
  file p := by
    have hp : ¬ (p = a ∧ Reads p .positional) := by
      rintro ⟨rfl, hread⟩
      cases hs.unique hread
    rw [h.file p, List.mem_append, List.mem_singleton]
    tauto

theorem positional (h : Gathers args o none) (ha : Reads a .positional) :
    Gathers (args ++ [a]) o (some a) where
  maxDepth := (LastSet.concat_iff_of_not fun w hw => by cases ha.unique hw).mpr h.maxDepth
  color := (LastSet.concat_iff_of_not fun w hw => by cases ha.unique hw).mpr h.color
  format := (LastSet.concat_iff_of_not fun w hw => by cases ha.unique hw).mpr h.format
  profile := by
    have hne : "--profile" ≠ a := by
      intro heq
      cases ha.unique (Reads.profile_iff.mpr heq.symm)
    simpa [hne] using h.profile
  backtrace := by
    have hne : "--backtrace" ≠ a := by
      intro heq
      cases ha.unique (Reads.backtrace_iff.mpr heq.symm)
    simpa [hne] using h.backtrace
  file p := by
    have hp := h.file p
    rw [List.mem_append, List.mem_singleton]
    constructor
    · rintro ⟨⟩
      exact ⟨.inr rfl, ha⟩
    · rintro ⟨hmem | rfl, hread⟩
      · exact absurd (hp.mpr ⟨hmem, hread⟩) (by simp)
      · rfl

end Gathers

theorem scan_undecided {args : List String} (h : Undecided args) :
    ∃ options file, Gathers args options file ∧
      ∀ rest, scan .default none (args ++ rest) = scan options file rest := by
  induction args using List.reverseRecOn with
  | nil => exact ⟨.default, none, .nil, fun _ => rfl⟩
  | append_singleton args a ih =>
    obtain ⟨hargs, ha⟩ := undecided_concat_iff.mp h
    obtain ⟨options, file, hgathers, hscan⟩ := ih hargs
    rcases reads_of_not_decisive ha with ⟨s, hs⟩ | ⟨hpositional, hfirst⟩
    · refine ⟨options.set s, file, hgathers.setting hs, fun rest => ?_⟩
      rw [List.append_assoc, List.singleton_append, hscan, scan_of_setting _ _ _ hs]
    · have hnone : file = none := by
        rw [Option.eq_none_iff_forall_ne_some]
        intro p hp
        obtain ⟨hmem, hread⟩ := (hgathers.file p).mp hp
        exact hfirst p hmem hread
      subst hnone
      refine ⟨options, some a, hgathers.positional hpositional, fun rest => ?_⟩
      rw [List.append_assoc, List.singleton_append, hscan, scan_of_positional _ _ _ hpositional,
        Option.elim_none]

/-- Arguments in another order set the same if those of each option are in the same order. -/
theorem Gathers.eq_of_perm {args args' : List String} {o o' : Options} {file file' : Option String}
    (h : Gathers args o file) (h' : Gathers args' o' file') (hperm : args.Perm args')
    (horder : ∀ option : ValueOption,
      args.filter (Marked option.mark ·) = args'.filter (Marked option.mark ·)) :
    o' = o ∧ file' = file := by
  have hmaxDepth : o'.maxDepth = o.maxDepth :=
    h.maxDepth.eq_of_filter h'.maxDepth (by simp [Function.Injective]) (fun _ => rfl)
      (horder .maxDepth)
  have hcolor : o'.color = o.color :=
    h.color.eq_of_filter h'.color (by simp [Function.Injective]) (fun _ => rfl) (horder .color)
  have hformat : o'.format = o.format :=
    h.format.eq_of_filter h'.format (by simp [Function.Injective]) (fun _ => rfl)
      (horder .errorFormat)
  have hprofile : o'.profile = o.profile := by
    rw [Bool.eq_iff_iff, h.profile, h'.profile, hperm.mem_iff]
  have hbacktrace : o'.backtrace = o.backtrace := by
    rw [Bool.eq_iff_iff, h.backtrace, h'.backtrace, hperm.mem_iff]
  refine ⟨?_, Option.ext fun p => ?_⟩
  · cases o
    cases o'
    simp_all
  · rw [h.file, h'.file, hperm.mem_iff]

theorem Undecided.exists_gathers {args : List String} (h : Undecided args) :
    ∃ options file, Gathers args options file ∧ Action.ofArguments args = .run options file := by
  obtain ⟨options, file, hgathers, hscan⟩ := scan_undecided h
  refine ⟨options, file, hgathers, ?_⟩
  rw [Action.ofArguments, ← List.append_nil args, hscan, scan]

theorem exists_decides {before : List String} {arg : String} (h : Decisive before arg)
    (next : Option String) : ∃ status action, Decides arg next status action := by
  cases h with
  | help hw => exact ⟨_, _, .help hw⟩
  | version hw => exact ⟨_, _, .version hw⟩
  | explain hw =>
    cases next with
    | none => exact ⟨_, _, .unexplained hw rfl⟩
    | some code => exact ⟨_, _, .explain hw rfl⟩
  | malformed hw => exact ⟨_, _, .malformed hw⟩
  | unknown hw => exact ⟨_, _, .unknown hw⟩
  | surplus _ _ hw => exact ⟨_, _, .surplus hw⟩

namespace Decides
variable {arg : String} {next : Option String} {status : Nat} {action : Action}

theorem exists_report (h : Decides arg next status action) :
    ∃ report, action.direct? = some report ∧ report.exitCode = status := by
  cases h with
  | @explain code =>
    refine ⟨explanationReport code, rfl, ?_⟩
    unfold explanationReport
    cases Code.ofText? code <;> rfl
  | _ => exact ⟨_, rfl, rfl⟩

theorem ofArguments_eq (h : Decides arg next status action) {before after : List String}
    (hbefore : Undecided before) (harg : Decisive before arg)
    (hnext : Reads arg .explain → after.head? = next) :
    Action.ofArguments (before ++ arg :: after) = action := by
  obtain ⟨options, file, hgathers, hscan⟩ := scan_undecided hbefore
  rw [Action.ofArguments, hscan]
  cases h with
  | help hw => exact scan_of_help _ _ _ hw
  | version hw => exact scan_of_version _ _ _ hw
  | explain hw hcode | unexplained hw hcode => rw [scan_of_explain _ _ _ hw, hnext hw, hcode]; rfl
  | malformed hw => exact scan_of_malformed _ _ _ hw
  | unknown hw => exact scan_of_unknown _ _ _ hw
  | surplus hw =>
    obtain ⟨p, hp, hread⟩ : ∃ p ∈ before, Reads p .positional := by
      cases harg with
      | surplus hp hread => exact ⟨_, hp, hread⟩
      | help h | version h | explain h | malformed h | unknown h => cases hw.unique h
    rw [scan_of_positional _ _ _ hw, (hgathers.file p).mpr ⟨hp, hread⟩,
      Option.elim_some]

end Decides

theorem execute_of_direct {fuel : Nat} {world : Surroundings} {args : List String} {report : Report}
    (h : (Action.ofArguments args).direct? = some report) :
    execute fuel world args = some report := by
  unfold execute Action.report
  cases haction : Action.ofArguments args with
  | run options file => simp [haction, Action.direct?] at h
  | _ => rw [haction] at h; exact h

/-- If an argument is decisive, the first that is decides alone. It asks for help, the version, the
explanation of the argument after it, or reports a mistake, with exit code 0, 0, that of the
explanation, or 2. What else stands before or after it changes nothing as long as it is the first,
and nothing is read or run. If no argument is decisive, a run takes the last value given to each
option or its default, a profile and calls if they are wanted at least once, and the one file. Its
reports are the answers that follow from these; they stay the same in any order that keeps the
arguments of each option in order. -/
theorem arguments_decided :
    (∀ args, ¬ Undecided args → ∃ before arg after, args = before ++ arg :: after ∧
      Undecided before ∧ Decisive before arg) ∧
    (∀ (before after : List String) (arg : String), Undecided before → Decisive before arg →
      ∃ status action report, Decides arg after.head? status action ∧
        action.direct? = some report ∧ report.exitCode = status ∧
        ∀ before' after' : List String, Undecided before' → Decisive before' arg →
          (Reads arg .explain → after'.head? = after.head?) →
          Action.ofArguments (before' ++ arg :: after') = action ∧
          ∀ fuel world, execute fuel world (before' ++ arg :: after') = some report) ∧
    (∀ args, Undecided args → ∃ options file, Gathers args options file ∧
      Action.ofArguments args = .run options file ∧
      (∀ fuel world, execute fuel world args = (Action.run options file).report fuel world) ∧
      ∀ world report, (∃ fuel, execute fuel world args = some report) ↔
        Answers options file world report) ∧
    ∀ args args', Undecided args → args.Perm args' →
      (∀ option : ValueOption,
        args.filter (Marked option.mark ·) = args'.filter (Marked option.mark ·)) →
      Action.ofArguments args' = Action.ofArguments args := by
  refine ⟨fun _ => exists_decisive, ?_, ?_, ?_⟩
  · intro before after arg _ harg
    obtain ⟨status, action, hdecides⟩ := exists_decides harg after.head?
    obtain ⟨report, hreport, hstatus⟩ := hdecides.exists_report
    refine ⟨status, action, report, hdecides, hreport, hstatus, ?_⟩
    intro before' after' hbefore' harg' hnext
    have haction := hdecides.ofArguments_eq hbefore' harg' hnext
    exact ⟨haction, fun fuel world => execute_of_direct (haction ▸ hreport)⟩
  · intro args hargs
    obtain ⟨options, file, hgathers, haction⟩ := hargs.exists_gathers
    have hexecute : ∀ fuel world,
        execute fuel world args = (Action.run options file).report fuel world := by
      intro fuel world
      rw [execute, haction]
    refine ⟨options, file, hgathers, haction, hexecute, fun world report => ?_⟩
    simp only [hexecute]
    exact exists_report_iff_answers
  · intro args args' hargs hperm horder
    obtain ⟨options, file, hgathers, haction⟩ := hargs.exists_gathers
    obtain ⟨options', file', hgathers', haction'⟩ := (hargs.perm hperm).exists_gathers
    obtain ⟨rfl, rfl⟩ := hgathers.eq_of_perm hgathers' hperm horder
    rw [haction, haction']

theorem arguments_decided_mixed :
    (∃ report, report.exitCode = 1 ∧
      execute 0 ⟨false, false, fun _ => .error .notFound⟩
        ["--profile", "--explain", "--help", "--color=red"] = some report) ∧
    Gathers ["--max-depth=5", "a.json", "--profile", "--max-depth=+0"]
      ⟨none, true, false, .auto, .human⟩ (some "a.json") ∧
    Action.ofArguments ["--profile", "--max-depth=5", "--max-depth=+0", "a.json"] =
      Action.ofArguments ["--max-depth=5", "a.json", "--profile", "--max-depth=+0"] := by
  obtain ⟨-, hdecisive, hrun, horder⟩ := arguments_decided
  have hprofile : Reads "--profile" (.setting .profile) := .flag (by simp [flags])
  have hexplain : Reads "--explain" .explain := .flag (by simp [flags])
  have hfile : Reads "a.json" .positional := .positional (by decide)
  have hfive : Reads "--max-depth=5" (.setting (.maxDepth (some 5))) :=
    .of_depthLimit? (show depthLimit? "5" = some (some 5) by decide)
  have hzero : Reads "--max-depth=+0" (.setting (.maxDepth none)) :=
    .of_depthLimit? (show depthLimit? "+0" = some none by decide)
  have hundecided : Undecided ["--max-depth=5", "a.json", "--profile", "--max-depth=+0"] := by
    have hfirst : ∀ p ∈ ["--max-depth=5"], ¬ Reads p .positional := by
      intro p hp hread
      rw [List.mem_singleton.mp hp] at hread
      cases hfive.unique hread
    exact (((undecided_nil.setting hfive).positional hfile hfirst).setting hprofile).setting hzero
  refine ⟨?_, ?_, ?_⟩
  · have hbefore : Undecided ["--profile"] := undecided_nil.setting hprofile
    obtain ⟨status, action, report, hdecides, -, hstatus, hall⟩ :=
      hdecisive ["--profile"] ["--help", "--color=red"] "--explain" hbefore (.explain hexplain)
    obtain ⟨haction, hexecute⟩ := hall _ _ hbefore (.explain hexplain) fun _ => rfl
    refine ⟨report, hstatus.trans ?_, hexecute _ _⟩
    cases hdecides with
    | explain _ hcode =>
      cases hcode
      decide +kernel
    | unexplained _ hcode => cases hcode
    | help hw | version hw | malformed hw | unknown hw | surplus hw => cases hexplain.unique hw
  · obtain ⟨options, file, hgathers, haction, -⟩ := hrun _ hundecided
    have hscan : Action.ofArguments ["--max-depth=5", "a.json", "--profile", "--max-depth=+0"] =
        .run ⟨none, true, false, .auto, .human⟩ (some "a.json") := by
      decide
    cases hscan.symm.trans haction
    exact hgathers
  · refine horder _ _ hundecided (by decide) fun option => ?_
    cases option <;> decide

end TreeScript.CommandLine
