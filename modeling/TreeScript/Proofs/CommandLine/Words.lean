import Mathlib
import TreeScript.CommandLine.Report
import TreeScript.Proofs.Text.Numeral

/-!
What an argument is by itself, said without regard to the order in which a scan tries things: a
flag, an option with a value, or neither. Main statements: an argument is exactly one of these,
and what one step of the scan makes of each.
-/
namespace TreeScript.CommandLine

open Decimal (Numeral)

/-- What one argument can set for a run. -/
inductive Setting where
  | maxDepth (limit : Option Nat)
  | color (choice : ColorChoice)
  | format (format : ReportFormat)
  | profile
  | backtrace
  deriving DecidableEq

def Options.set (o : Options) : Setting → Options
  | .maxDepth limit => { o with maxDepth := limit }
  | .color choice => { o with color := choice }
  | .format format => { o with format := format }
  | .profile => { o with profile := true }
  | .backtrace => { o with backtrace := true }

/-- The options that are given with a value. -/
inductive ValueOption where
  | maxDepth | color | errorFormat
  deriving DecidableEq

/-- The option that sets this, if it is not set by a flag. -/
def Setting.option? : Setting → Option ValueOption
  | .maxDepth _ => some .maxDepth
  | .color _ => some .color
  | .format _ => some .errorFormat
  | .profile | .backtrace => none

namespace ValueOption

def name : ValueOption → String
  | .maxDepth => "--max-depth"
  | .color => "--color"
  | .errorFormat => "--error-format"

/-- What the argument begins with that gives the option a value. -/
def mark (option : ValueOption) : String := option.name ++ "="

/-- What the texts set that an option takes as its value. A limit is a numeral below 2^64, with a
plus before it or not, and zero stands for no limit. -/
inductive Means : ValueOption → String → Setting → Prop where
  | limit {text : String} {digits : List Char} {n : Nat} :
      text.toList = digits ∨ text.toList = '+' :: digits → Numeral digits n → n < UInt64.size →
      Means .maxDepth text (.maxDepth (if n = 0 then none else some n))
  | auto : Means .color "auto" (.color .auto)
  | always : Means .color "always" (.color .always)
  | never : Means .color "never" (.color .never)
  | human : Means .errorFormat "human" (.format .human)
  | json : Means .errorFormat "json" (.format .json)

def meaning? (text : String) : ValueOption → Option Setting
  | .maxDepth => (depthLimit? text).map .maxDepth
  | .color => (ColorChoice.ofText? text).map .color
  | .errorFormat => (ReportFormat.ofText? text).map .format

end ValueOption

/-- What an argument is by itself. -/
inductive Word where
  | help | version | explain
  | setting (s : Setting)
  | malformed (option : ValueOption) (text : String)
  | unknown
  | positional
  deriving DecidableEq

def flags : List (String × Word) :=
  [("-h", .help), ("--help", .help), ("-V", .version), ("--version", .version),
    ("--explain", .explain), ("--profile", .setting .profile), ("--backtrace", .setting .backtrace)]

def Marked (mark arg : String) : Prop := ∃ text, arg = mark ++ text

/-- The argument is a flag or gives an option a value, be it a right one or not. -/
def Known (arg : String) : Prop :=
  (∃ w, (arg, w) ∈ flags) ∨ ∃ option : ValueOption, Marked option.mark arg

inductive Reads (arg : String) : Word → Prop where
  | flag {w : Word} : (arg, w) ∈ flags → Reads arg w
  | value {option : ValueOption} {text : String} {s : Setting} :
      arg = option.mark ++ text → option.Means text s → Reads arg (.setting s)
  | malformed {option : ValueOption} {text : String} :
      arg = option.mark ++ text → (∀ s, ¬ option.Means text s) → Reads arg (.malformed option text)
  | unknown : Marked "-" arg → ¬ Known arg → Reads arg .unknown
  | positional : ¬ Marked "-" arg → Reads arg .positional

theorem after?_eq_some_iff {mark arg text : String} :
    after? mark arg = some text ↔ arg = mark ++ text := by
  simp only [after?, Option.map_eq_some_iff, List.isPrefixOf?_eq_some_iff_append_eq]
  constructor
  · rintro ⟨rest, hrest, rfl⟩
    exact String.ext (by simp [← hrest])
  · rintro rfl
    exact ⟨text.toList, by simp, by simp⟩

theorem isSome_after?_iff {mark arg : String} : (after? mark arg).isSome ↔ Marked mark arg := by
  simp only [Option.isSome_iff_exists, after?_eq_some_iff, Marked]

theorem after?_eq_none_iff {mark arg : String} : after? mark arg = none ↔ ¬ Marked mark arg := by
  rw [← isSome_after?_iff, Bool.not_eq_true, Option.isSome_eq_false_iff, Option.isNone_iff_eq_none]

instance (mark arg : String) : Decidable (Marked mark arg) :=
  decidable_of_iff _ isSome_after?_iff

section DepthLimit
variable {text : String}

theorem exists_numeral_of_depthLimit? {limit : Option Nat} (h : depthLimit? text = some limit) :
    ∃ digits n, (text.toList = digits ∨ text.toList = '+' :: digits) ∧ Numeral digits n := by
  simp only [depthLimit?] at h
  split at h
  · rename_i n hn
    refine ⟨_, n, ?_, Decimal.nat?_eq_some_iff.mp hn⟩
    split
    · rename_i digits htext
      exact .inr htext
    · exact .inl rfl
  · cases h

theorem depthLimit?_of_numeral {digits : List Char} {n : Nat}
    (htext : text.toList = digits ∨ text.toList = '+' :: digits) (hdigits : Numeral digits n) :
    depthLimit? text =
      if n = 0 then some none else if n < UInt64.size then some (some n) else none := by
  have hnat : Decimal.nat? digits = some n := Decimal.nat?_eq_some_iff.mpr hdigits
  have hplus (rest : List Char) : digits ≠ '+' :: rest := by
    rintro rfl
    have hdigit := hdigits.reads.2.1 '+' List.mem_cons_self
    cases hdigit
  rcases htext with htext | htext
  · simp [depthLimit?, htext, hnat]
  · simp only [depthLimit?, htext, hnat]

theorem depthLimit?_eq_some_iff {limit : Option Nat} :
    depthLimit? text = some limit ↔ ValueOption.Means .maxDepth text (.maxDepth limit) := by
  constructor
  · intro h
    obtain ⟨digits, n, htext, hdigits⟩ := exists_numeral_of_depthLimit? h
    rw [depthLimit?_of_numeral htext hdigits] at h
    split at h
    · rename_i hzero
      cases h
      simpa [hzero] using ValueOption.Means.limit htext hdigits (by rw [hzero]; decide)
    · rename_i hpos
      split at h
      · rename_i hn
        cases h
        simpa [hpos] using ValueOption.Means.limit htext hdigits hn
      · cases h
  · intro h
    generalize hs : Setting.maxDepth limit = s at h
    cases h with
    | limit htext hdigits hn =>
      cases hs
      rw [depthLimit?_of_numeral htext hdigits]
      split <;> simp_all

end DepthLimit

theorem ValueOption.meaning?_eq_some_iff {option : ValueOption} {text : String} {s : Setting} :
    option.meaning? text = some s ↔ option.Means text s := by
  cases option with
  | maxDepth =>
    simp only [meaning?, Option.map_eq_some_iff, depthLimit?_eq_some_iff]
    constructor
    · rintro ⟨limit, h, rfl⟩
      exact h
    · intro h
      cases h with
      | limit htext hdigits hn => exact ⟨_, .limit htext hdigits hn, rfl⟩
  | color =>
    simp only [meaning?, Option.map_eq_some_iff]
    constructor
    · rintro ⟨choice, h, rfl⟩
      unfold ColorChoice.ofText? at h
      split at h <;> cases h
      · exact .auto
      · exact .always
      · exact .never
    · intro h
      cases h <;> exact ⟨_, rfl, rfl⟩
  | errorFormat =>
    simp only [meaning?, Option.map_eq_some_iff]
    constructor
    · rintro ⟨format, h, rfl⟩
      unfold ReportFormat.ofText? at h
      split at h <;> cases h
      · exact .human
      · exact .json
    · intro h
      cases h <;> exact ⟨_, rfl, rfl⟩

theorem ValueOption.Means.unique {option : ValueOption} {text : String} {s s' : Setting}
    (h : option.Means text s) (h' : option.Means text s') : s' = s :=
  Option.some.inj
    ((meaning?_eq_some_iff.mpr h').symm.trans (meaning?_eq_some_iff.mpr h))

theorem marked_of_flag {arg : String} {w : Word} (h : (arg, w) ∈ flags) : Marked "-" arg := by
  have hall : ∀ x ∈ flags, (after? "-" x.1).isSome := by decide
  exact isSome_after?_iff.mp (hall _ h)

namespace ValueOption

theorem marked_append (option : ValueOption) (text : String) :
    Marked "-" (option.mark ++ text) := by
  rw [← isSome_after?_iff]
  cases option <;> simp [after?, mark, name, List.isPrefixOf?]

/-- No mark is the beginning of another. -/
theorem eq_of_marked {option other : ValueOption} {text : String}
    (h : Marked other.mark (option.mark ++ text)) : other = option := by
  rw [← isSome_after?_iff] at h
  cases option <;> cases other <;> simp_all [after?, mark, name, List.isPrefixOf?]

theorem mark_append_inj {option other : ValueOption} {text rest : String}
    (h : option.mark ++ text = other.mark ++ rest) : option = other ∧ text = rest := by
  obtain rfl : other = option := eq_of_marked ⟨rest, h⟩
  exact ⟨rfl, (String.append_right_inj _).mp h⟩

theorem not_marked_of_flag {arg : String} {w : Word} (h : (arg, w) ∈ flags)
    (option : ValueOption) : ¬ Marked option.mark arg := by
  have hall : ∀ x ∈ flags, after? option.mark x.1 = none := by cases option <;> decide
  exact after?_eq_none_iff.mp (hall _ h)

end ValueOption

theorem Known.marked {arg : String} (h : Known arg) : Marked "-" arg := by
  rcases h with ⟨w, hw⟩ | ⟨option, text, rfl⟩
  · exact marked_of_flag hw
  · exact option.marked_append text

namespace Reads
variable {arg : String} {w w' : Word}

theorem exists_word (arg : String) : ∃ w, Reads arg w := by
  by_cases hknown : Known arg
  · rcases hknown with ⟨w, hw⟩ | ⟨option, text, htext⟩
    · exact ⟨w, .flag hw⟩
    · by_cases hmeans : ∃ s, option.Means text s
      · obtain ⟨s, hs⟩ := hmeans
        exact ⟨.setting s, .value htext hs⟩
      · exact ⟨.malformed option text, .malformed htext (not_exists.mp hmeans)⟩
  · by_cases hdash : Marked "-" arg
    · exact ⟨.unknown, .unknown hdash hknown⟩
    · exact ⟨.positional, .positional hdash⟩

theorem of_depthLimit? {text : String} {limit : Option Nat} (h : depthLimit? text = some limit) :
    Reads ("--max-depth=" ++ text) (.setting (.maxDepth limit)) :=
  .value rfl (depthLimit?_eq_some_iff.mp h)

/-- Only a flag is read from an argument that is one. -/
theorem eq_of_flag (h : (arg, w) ∈ flags) (h' : Reads arg w') : w' = w := by
  have hall : ∀ x ∈ flags, ∀ y ∈ flags, x.1 = y.1 → x.2 = y.2 := by decide
  cases h' with
  | flag hw => exact hall _ hw _ h rfl
  | value htext | malformed htext => exact absurd ⟨_, htext⟩ (ValueOption.not_marked_of_flag h _)
  | unknown _ hknown => exact absurd (.inl ⟨w, h⟩) hknown
  | positional hdash => exact absurd (marked_of_flag h) hdash

/-- From an argument with the mark of an option, it is read what the option makes of the rest. -/
theorem of_mark {option : ValueOption} {text : String} (htext : arg = option.mark ++ text)
    (h : Reads arg w) :
    (∃ s, w = .setting s ∧ option.Means text s) ∨
      (w = .malformed option text ∧ ∀ s, ¬ option.Means text s) := by
  cases h with
  | flag hw => exact absurd ⟨text, htext⟩ (ValueOption.not_marked_of_flag hw option)
  | value htext' hs =>
    obtain ⟨rfl, rfl⟩ := ValueOption.mark_append_inj (htext.symm.trans htext')
    exact .inl ⟨_, rfl, hs⟩
  | malformed htext' hnone =>
    obtain ⟨rfl, rfl⟩ := ValueOption.mark_append_inj (htext.symm.trans htext')
    exact .inr ⟨rfl, hnone⟩
  | unknown _ hknown => exact absurd (.inr ⟨option, text, htext⟩) hknown
  | positional hdash => exact absurd (htext ▸ option.marked_append text) hdash

theorem of_not_known (hknown : ¬ Known arg) (h : Reads arg w) :
    w = if Marked "-" arg then .unknown else .positional := by
  cases h with
  | flag hw => exact absurd (.inl ⟨_, hw⟩) hknown
  | value htext _ | malformed htext _ => exact absurd (.inr ⟨_, _, htext⟩) hknown
  | unknown hdash _ => rw [if_pos hdash]
  | positional hplain => rw [if_neg hplain]

theorem unique (h : Reads arg w) (h' : Reads arg w') : w' = w := by
  cases h with
  | flag hw => exact eq_of_flag hw h'
  | value htext hs =>
    rcases of_mark htext h' with ⟨s, rfl, hs'⟩ | ⟨-, hnone⟩
    · exact congrArg Word.setting (hs.unique hs')
    · exact absurd hs (hnone _)
  | malformed htext hnone =>
    rcases of_mark htext h' with ⟨s, -, hs⟩ | ⟨rfl, -⟩
    · exact absurd hs (hnone s)
    · rfl
  | unknown hdash hknown => exact (of_not_known hknown h').trans (if_pos hdash)
  | positional hplain =>
    have hknown : ¬ Known arg := fun hknown => hplain hknown.marked
    exact (of_not_known hknown h').trans (if_neg hplain)

theorem setting_iff {s s' : Setting} (h : Reads arg (.setting s)) :
    Reads arg (.setting s') ↔ s' = s := by
  constructor
  · intro h'
    exact Word.setting.inj (h.unique h')
  · rintro rfl
    exact h

/-- What no option sets is set by its flag only. -/
theorem setting_iff_flag {s : Setting} (hs : s.option? = none) :
    Reads arg (.setting s) ↔ (arg, .setting s) ∈ flags := by
  constructor
  · intro h
    cases h with
    | flag hw => exact hw
    | value _ hmeans => cases hmeans <;> cases hs
  · exact .flag

theorem profile_iff : Reads arg (.setting .profile) ↔ arg = "--profile" := by
  rw [setting_iff_flag rfl]
  simp [flags]

theorem backtrace_iff : Reads arg (.setting .backtrace) ↔ arg = "--backtrace" := by
  rw [setting_iff_flag rfl]
  simp [flags]

/-- What an option sets is set by arguments with its mark only. -/
theorem marked {s : Setting} {option : ValueOption} (h : Reads arg (.setting s))
    (hs : s.option? = some option) : Marked option.mark arg := by
  cases h with
  | flag hw => cases s <;> simp_all [flags, Setting.option?]
  | value htext hmeans => cases hmeans <;> cases hs <;> exact ⟨_, htext⟩

end Reads

theorem ne_of_not_flag {arg : String} (h : ∀ w, (arg, w) ∉ flags) : ∀ x ∈ flags, arg ≠ x.1 := by
  rintro ⟨flag, w⟩ hw rfl
  exact h w hw

section Scan
variable {arg : String} (o : Options) (file : Option String) (rest : List String)

theorem scan_of_help (h : Reads arg .help) : scan o file (arg :: rest) = .help := by
  cases h with
  | flag hw =>
    have harg : arg = "-h" ∨ arg = "--help" := by simpa [flags] using hw
    simp [scan, harg]

theorem scan_of_version (h : Reads arg .version) : scan o file (arg :: rest) = .version := by
  cases h with
  | flag hw =>
    have harg : arg = "-V" ∨ arg = "--version" := by simpa [flags] using hw
    rcases harg with rfl | rfl <;> simp [scan]

theorem scan_of_explain (h : Reads arg .explain) :
    scan o file (arg :: rest) =
      (rest.head?.map Action.explain).getD (.usageError "--explain requires an error code") := by
  cases h with
  | flag hw =>
    obtain rfl : arg = "--explain" := by simpa [flags] using hw
    cases rest <;> simp [scan]

theorem scan_value (option : ValueOption) (text : String) :
    scan o file ((option.mark ++ text) :: rest) =
      (option.meaning? text).elim (invalidValue option.name text)
        fun s => scan (o.set s) file rest := by
  have hflags := ne_of_not_flag fun w hw => option.not_marked_of_flag hw ⟨text, rfl⟩
  have hself : after? option.mark (option.mark ++ text) = some text := after?_eq_some_iff.mpr rfl
  have hothers (other : ValueOption) (h : other ≠ option) :
      after? other.mark (option.mark ++ text) = none :=
    after?_eq_none_iff.mpr fun hmarked => h (ValueOption.eq_of_marked hmarked)
  simp only [flags, List.forall_mem_cons] at hflags
  cases option with
  | maxDepth =>
    simp only [ValueOption.mark, ValueOption.name, String.reduceAppend] at hflags hself ⊢
    simp only [scan, hflags, hself, ValueOption.meaning?]
    cases depthLimit? text <;> simp [Options.set]
  | color =>
    have hmax := hothers .maxDepth (by decide)
    simp only [ValueOption.mark, ValueOption.name, String.reduceAppend] at hflags hself hmax ⊢
    simp only [scan, hflags, hself, hmax, ValueOption.meaning?]
    cases ColorChoice.ofText? text <;> simp [Options.set]
  | errorFormat =>
    have hmax := hothers .maxDepth (by decide)
    have hcolor := hothers .color (by decide)
    simp only [ValueOption.mark, ValueOption.name, String.reduceAppend]
      at hflags hself hmax hcolor ⊢
    simp only [scan, hflags, hself, hmax, hcolor, ValueOption.meaning?]
    cases ReportFormat.ofText? text <;> simp [Options.set]

theorem scan_of_setting {s : Setting} (h : Reads arg (.setting s)) :
    scan o file (arg :: rest) = scan (o.set s) file rest := by
  cases h with
  | flag hw =>
    have harg : arg = "--profile" ∧ s = .profile ∨ arg = "--backtrace" ∧ s = .backtrace := by
      simpa [flags] using hw
    rcases harg with ⟨rfl, rfl⟩ | ⟨rfl, rfl⟩
    · have hafter : after? "--max-depth=" "--profile" = none := by decide
      simp [scan, hafter, Options.set]
    · have hafter : after? "--max-depth=" "--backtrace" = none := by decide
      simp [scan, hafter, Options.set]
  | value htext hs =>
    rw [htext, scan_value, ValueOption.meaning?_eq_some_iff.mpr hs, Option.elim_some]

theorem scan_of_malformed {option : ValueOption} {text : String}
    (h : Reads arg (.malformed option text)) :
    scan o file (arg :: rest) = invalidValue option.name text := by
  cases h with
  | flag hw => simp [flags] at hw
  | malformed htext hnone =>
    have hmeaning : option.meaning? text = none := by
      rw [Option.eq_none_iff_forall_ne_some]
      intro s hs
      exact hnone s (ValueOption.meaning?_eq_some_iff.mp hs)
    rw [htext, scan_value, hmeaning, Option.elim_none]

/-- An argument that is no option is a file, or wrong if it begins with a dash. -/
theorem scan_of_not_known (h : ¬ Known arg) :
    scan o file (arg :: rest) =
      if (after? "-" arg).isSome then .usageError ("unknown option '" ++ arg ++ "'")
      else file.elim (scan o (some arg) rest)
        fun _ => .usageError ("unexpected argument '" ++ arg ++ "'") := by
  have hflags := ne_of_not_flag fun w hw => h (.inl ⟨w, hw⟩)
  have hvalue (option : ValueOption) : after? option.mark arg = none :=
    after?_eq_none_iff.mpr fun hmarked => h (.inr ⟨option, hmarked⟩)
  have hmax := hvalue .maxDepth
  have hcolor := hvalue .color
  have hformat := hvalue .errorFormat
  simp only [flags, List.forall_mem_cons] at hflags
  simp only [ValueOption.mark, ValueOption.name, String.reduceAppend] at hmax hcolor hformat
  simp only [scan, hflags, hmax, hcolor, hformat, or_self, ↓reduceIte]
  cases file <;> rfl

theorem scan_of_unknown (h : Reads arg .unknown) :
    scan o file (arg :: rest) = .usageError ("unknown option '" ++ arg ++ "'") := by
  cases h with
  | flag hw => simp [flags] at hw
  | unknown hdash hknown =>
    rw [scan_of_not_known o file rest hknown, if_pos (isSome_after?_iff.mpr hdash)]

theorem scan_of_positional (h : Reads arg .positional) :
    scan o file (arg :: rest) =
      file.elim (scan o (some arg) rest)
        fun _ => .usageError ("unexpected argument '" ++ arg ++ "'") := by
  cases h with
  | flag hw => simp [flags] at hw
  | positional hplain =>
    have hnone : ¬ (after? "-" arg).isSome := fun h => hplain (isSome_after?_iff.mp h)
    rw [scan_of_not_known o file rest fun h => hplain h.marked, if_neg hnone]

end Scan

end TreeScript.CommandLine
