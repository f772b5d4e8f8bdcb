import Mathlib
import TreeScript.Diagnostic.Terminal

/-!
Diagnostics as a terminal shows them. A text is cut into the characters to show and the colour
sequences between them. Main statement: without colours a diagnostic is its text on lines of its
own; with colours the same characters are shown, and each colour is reset before the next.
-/
namespace TreeScript

/-- What a terminal tells apart in a text: a character to show, or a colour sequence, which is
known by the parameters in it. -/
inductive Glyph where
  | shown (c : Char)
  | color (parameters : List Char)

namespace Glyph

mutual

/-- The glyphs of a text. A colour sequence reaches from an escape and a bracket to the next `m`;
one that does not end is shown as it is. -/
def glyphs : List Char → List Glyph
  | '\x1b' :: '[' :: rest => glyphsInside [] rest
  | c :: rest => .shown c :: glyphs rest
  | [] => []

def glyphsInside (parameters : List Char) : List Char → List Glyph
  | 'm' :: rest => .color parameters :: glyphs rest
  | c :: rest => glyphsInside (parameters ++ [c]) rest
  | [] => ('\x1b' :: '[' :: parameters).map .shown

end

def char? : Glyph → Option Char
  | .shown c => some c
  | .color _ => none

def parameters? : Glyph → Option (List Char)
  | .shown _ => none
  | .color parameters => some parameters

def shownText (gs : List Glyph) : List Char := gs.filterMap char?

def colors (gs : List Glyph) : List (List Char) := gs.filterMap parameters?

theorem glyphs_shown {c : Char} (hc : c ≠ '\x1b') (rest : List Char) :
    glyphs (c :: rest) = .shown c :: glyphs rest := by
  rw [glyphs]
  intro rest' h
  exact absurd h hc

theorem shownText_append (gs gs' : List Glyph) :
    shownText (gs ++ gs') = shownText gs ++ shownText gs' := List.filterMap_append

theorem colors_append (gs gs' : List Glyph) : colors (gs ++ gs') = colors gs ++ colors gs' :=
  List.filterMap_append

/-- The parameters of the sequence that ends a colour. -/
def resetParameters : List Char := ['0']

/-- Each colour is followed by one reset, and no reset stands elsewhere. -/
inductive Closed : List (List Char) → Prop where
  | nil : Closed []
  | cons {color : List Char} {rest : List (List Char)} :
      color ≠ resetParameters → Closed rest → Closed (color :: resetParameters :: rest)

theorem Closed.append {colors rest : List (List Char)} (h : Closed colors) (hrest : Closed rest) :
    Closed (colors ++ rest) := by
  induction h with
  | nil => exact hrest
  | cons hcolor _ ih => exact .cons hcolor ih

end Glyph

open Glyph (glyphs)

/-- A text without its colour sequences. -/
def withoutColors (text : String) : String := String.ofList (Glyph.shownText (glyphs text.toList))

/-- The parameters of the colour sequences of a text. -/
def colorsOf (text : String) : List (List Char) := Glyph.colors (glyphs text.toList)

/-- No escape in it, so no colour sequence. -/
def Colorless (text : String) : Prop := '\x1b' ∉ text.toList

instance (text : String) : Decidable (Colorless text) := inferInstanceAs (Decidable (¬ _))

namespace Colorless

/-- Every character is shown, and no colour begins. -/
theorem exists_glyphs {text : String} (h : Colorless text) :
    ∃ gs : List Glyph, (∀ rest, glyphs (text.toList ++ rest) = gs ++ glyphs rest) ∧
      Glyph.shownText gs = text.toList ∧ Glyph.colors gs = [] := by
  refine ⟨text.toList.map .shown, ?_, ?_, ?_⟩
  · intro rest
    unfold Colorless at h
    generalize text.toList = cs at h
    induction cs with
    | nil => rfl
    | cons c cs ih =>
      rw [List.mem_cons, not_or] at h
      rw [List.cons_append, Glyph.glyphs_shown (Ne.symm h.1), ih h.2]
      rfl
  · simp [Glyph.shownText, Glyph.char?, Function.comp_def]
  · simp [Glyph.colors, Glyph.parameters?]

theorem append {a b : String} (ha : Colorless a) (hb : Colorless b) : Colorless (a ++ b) := by
  unfold Colorless at *
  rw [String.toList_append, List.mem_append]
  exact not_or.mpr ⟨ha, hb⟩

theorem ofNat (n : Nat) : Colorless (Decimal.ofNat n) := by
  intro h
  rw [Decimal.toList_ofNat] at h
  have hdigit := Nat.isDigit_of_mem_toDigits (by decide) (by decide) h
  exact absurd hdigit (by decide)

theorem location {l : Location} (h : Colorless l.filename) : Colorless l.text := by
  have hcolon : Colorless ":" := by decide
  exact (((h.append hcolon).append (ofNat _)).append hcolon).append (ofNat _)

theorem caption (d : Diagnostic) : Colorless d.caption := by
  unfold Diagnostic.caption
  cases d.severity <;> cases d.code <;> decide

end Colorless

theorem Style.glyphs_reset (rest : List Char) :
    glyphs (Style.reset.toList ++ rest) = .color Glyph.resetParameters :: glyphs rest := by
  simp [Style.reset, Glyph.glyphs, Glyph.glyphsInside, Glyph.resetParameters]

/-- The code of a style is one sequence, and no reset. -/
theorem Style.exists_color (style : Style) :
    ∃ color, color ≠ Glyph.resetParameters ∧
      ∀ rest, glyphs (style.code.toList ++ rest) = .color color :: glyphs rest := by
  cases style with
  | error =>
    refine ⟨['1', ';', '3', '1'], by decide, fun rest => ?_⟩
    simp [Style.code, Glyph.glyphs, Glyph.glyphsInside]
  | note =>
    refine ⟨['1', ';', '3', '6'], by decide, fun rest => ?_⟩
    simp [Style.code, Glyph.glyphs, Glyph.glyphsInside]
  | bold =>
    refine ⟨['1'], by decide, fun rest => ?_⟩
    simp [Style.code, Glyph.glyphs, Glyph.glyphsInside]
  | secondary =>
    refine ⟨['1', ';', '3', '4'], by decide, fun rest => ?_⟩
    simp [Style.code, Glyph.glyphs, Glyph.glyphsInside]

/-- The first text shows the second when its colours are left out, wherever it stands, and each
colour in it is closed. -/
def Paints (colored plain : String) : Prop :=
  ∃ gs : List Glyph, (∀ rest, glyphs (colored.toList ++ rest) = gs ++ glyphs rest) ∧
    Glyph.shownText gs = plain.toList ∧ Glyph.Closed (Glyph.colors gs)

namespace Paints

theorem of_colorless {text : String} (h : Colorless text) : Paints text text := by
  obtain ⟨gs, hgs, hshown, hcolors⟩ := h.exists_glyphs
  exact ⟨gs, hgs, hshown, hcolors ▸ .nil⟩

theorem append {a b c d : String} (h : Paints a b) (h' : Paints c d) :
    Paints (a ++ c) (b ++ d) := by
  obtain ⟨gs, hgs, hshown, hclosed⟩ := h
  obtain ⟨gs', hgs', hshown', hclosed'⟩ := h'
  refine ⟨gs ++ gs', ?_, ?_, ?_⟩
  · intro rest
    rw [String.toList_append, List.append_assoc, hgs, hgs', List.append_assoc]
  · rw [Glyph.shownText_append, hshown, hshown', String.toList_append]
  · rw [Glyph.colors_append]
    exact hclosed.append hclosed'

theorem styled (style : Style) {text : String} (h : Colorless text) :
    Paints (Diagnostic.styled true style text) (Diagnostic.styled false style text) := by
  obtain ⟨gs, hgs, hshown, hcolors⟩ := h.exists_glyphs
  obtain ⟨color, hcolor, hcode⟩ := style.exists_color
  have hcolored : Diagnostic.styled true style text = style.code ++ text ++ Style.reset :=
    if_pos rfl
  have hplain : Diagnostic.styled false style text = text := if_neg Bool.false_ne_true
  rw [hcolored, hplain]
  refine ⟨[.color color] ++ gs ++ [.color Glyph.resetParameters], ?_, ?_, ?_⟩
  · intro rest
    rw [String.toList_append, String.toList_append, List.append_assoc, List.append_assoc, hcode,
      hgs, Style.glyphs_reset, List.append_assoc, List.append_assoc]
    rfl
  · rw [Glyph.shownText_append, Glyph.shownText_append, hshown]
    exact List.append_nil _
  · rw [Glyph.colors_append, Glyph.colors_append, hcolors]
    exact .cons hcolor .nil

theorem foldl {α : Type} {f g : α → String} {as : List α} (h : ∀ a ∈ as, Paints (f a) (g a))
    {colored plain : String} (hstart : Paints colored plain) :
    Paints (as.foldl (fun out a => out ++ f a) colored)
      (as.foldl (fun out a => out ++ g a) plain) := by
  induction as generalizing colored plain with
  | nil => exact hstart
  | cons a as ih =>
    exact ih (fun b hb => h b (List.mem_cons_of_mem _ hb)) (hstart.append (h a List.mem_cons_self))

theorem withoutColors_eq {colored plain : String} (h : Paints colored plain) :
    withoutColors colored = plain := by
  obtain ⟨gs, hgs, hshown, -⟩ := h
  have hall := hgs []
  rw [List.append_nil, Glyph.glyphs, List.append_nil] at hall
  rw [withoutColors, hall, hshown, String.ofList_toList]

theorem closed {colored plain : String} (h : Paints colored plain) :
    Glyph.Closed (colorsOf colored) := by
  obtain ⟨gs, hgs, -, hclosed⟩ := h
  have hall := hgs []
  rw [List.append_nil, Glyph.glyphs, List.append_nil] at hall
  rw [colorsOf, hall]
  exact hclosed

end Paints

namespace Diagnostic

/-- The texts that a diagnostic is made of. -/
def texts (d : Diagnostic) : List String :=
  d.message :: (d.labels.flatMap fun l => [l.location.filename, l.message]) ++ d.notes

section Colors
variable {d : Diagnostic} (h : ∀ text ∈ d.texts, Colorless text)
include h

theorem colorless_message : Colorless d.message := h _ (by simp [texts])

theorem colorless_label {l : Label} (hl : l ∈ d.labels) :
    Colorless l.location.filename ∧ Colorless l.message := by
  have hmem : [l.location.filename, l.message] ⊆ d.texts := by
    intro text htext
    simp only [texts, List.mem_append, List.mem_cons, List.mem_flatMap]
    exact .inl (.inr ⟨l, hl, by simpa using htext⟩)
  exact ⟨h _ (hmem (by simp)), h _ (hmem (by simp))⟩

theorem colorless_note {note : String} (hnote : note ∈ d.notes) : Colorless note :=
  h _ (List.mem_append_right _ hnote)

theorem paints_terminalHeadline :
    Paints (d.terminalHeadline true) (d.terminalHeadline false) := by
  have hmessage := colorless_message h
  have hcolon : Paints ": " ": " := .of_colorless (by decide)
  have hend : Paints "\n" "\n" := .of_colorless (by decide)
  unfold terminalHeadline
  refine ((Paints.append ?_ hcolon).append ?_).append hend
  · cases hprimary : d.primary? with
    | none => exact .styled _ (.caption d)
    | some l =>
      obtain ⟨label, hlabel, rfl⟩ := Option.map_eq_some_iff.mp hprimary
      exact .styled _ (.location (colorless_label h (List.mem_of_find?_eq_some hlabel)).1)
  · split
    · exact .styled _ hmessage
    · exact .of_colorless hmessage

theorem paints_terminal : Paints (d.terminal true) (d.terminal false) := by
  have hstart : Paints "  " "  " := .of_colorless (by decide)
  have hequals : Paints "  = " "  = " := .of_colorless (by decide)
  have hblank : Paints " " " " := .of_colorless (by decide)
  have hcolon : Paints ": " ": " := .of_colorless (by decide)
  have hend : Paints "\n" "\n" := .of_colorless (by decide)
  have harrow : Paints (styled true .secondary "-->") (styled false .secondary "-->") :=
    .styled _ (by decide)
  have hword : Paints (styled true .note "note") (styled false .note "note") :=
    .styled _ (by decide)
  refine Paints.foldl ?_ (Paints.foldl ?_ (paints_terminalHeadline h))
  · intro note hnote
    have htext := Paints.of_colorless (colorless_note h hnote)
    exact (((hequals.append hword).append hcolon).append htext).append hend
  · intro l hl
    obtain ⟨hfilename, hmessage⟩ := colorless_label h (List.mem_filter.mp hl).1
    have hplace := Paints.of_colorless (Colorless.location hfilename)
    exact ((((((hstart.append harrow).append hblank).append hplace).append hcolon).append
      (.of_colorless hmessage)).append hend)

end Colors

theorem foldl_eq_append_join {α : Type} (line : α → String) (as : List α) (out : String) :
    as.foldl (fun out a => out ++ line a) out = out ++ String.join (as.map line) := by
  induction as generalizing out with
  | nil => simp
  | cons a as ih => rw [List.foldl_cons, ih, List.map_cons, String.join_cons, String.append_assoc]

/-- Lines that begin with a newline, with one more newline at the end, are lines that end in one. -/
theorem foldl_newline {α : Type} {step : String → α → String} {line : α → String}
    (h : ∀ out a, step out a ++ "\n" = out ++ "\n" ++ line a) (as : List α) (out : String) :
    as.foldl step out ++ "\n" = as.foldl (fun out a => out ++ line a) (out ++ "\n") := by
  induction as generalizing out with
  | nil => rfl
  | cons a as ih => rw [List.foldl_cons, List.foldl_cons, ih, h]

theorem terminalHeadline_plain (d : Diagnostic) :
    d.terminalHeadline false = d.headline ++ "\n" := by
  unfold terminalHeadline headline styled
  cases d.primary? <;> simp

theorem terminal_plain (d : Diagnostic) : d.terminal false = d.text ++ "\n" := by
  have hlabel (out : String) (l : Label) :
      out ++ "\n  --> " ++ l.location.text ++ ": " ++ l.message ++ "\n" =
        out ++ "\n" ++ terminalLabel false l := by
    have harrow : "\n  --> " = "\n" ++ ("  " ++ "-->" ++ " ") := by decide
    rw [harrow, terminalLabel, styled]
    simp only [Bool.false_eq_true, if_false, String.append_assoc]
  have hnote (out note : String) :
      out ++ "\n  = note: " ++ note ++ "\n" = out ++ "\n" ++ terminalNote false note := by
    have hword : "\n  = note: " = "\n" ++ ("  = " ++ "note" ++ ": ") := by decide
    rw [hword, terminalNote, styled]
    simp only [Bool.false_eq_true, if_false, String.append_assoc]
  unfold terminal text
  rw [terminalHeadline_plain, foldl_newline hnote, foldl_newline hlabel]

theorem terminalAll_plain (ds : List Diagnostic) :
    terminalAll false ds = String.join (ds.map fun d => d.text ++ "\n") := by
  rw [terminalAll, foldl_eq_append_join, String.empty_append]
  exact congrArg String.join (List.map_congr_left fun d _ => d.terminal_plain)

theorem paints_terminalAll {ds : List Diagnostic}
    (h : ∀ d ∈ ds, ∀ text ∈ d.texts, Colorless text) :
    Paints (terminalAll true ds) (terminalAll false ds) :=
  Paints.foldl (fun d hd => paints_terminal (h d hd)) (.of_colorless (by decide))

/-- Without colours, so when they are never wanted or when there is no terminal to show them, each
diagnostic is written as its text and a newline. With colours, if no text in the diagnostics has
an escape in it, the same is written once the colour sequences are left out, and each colour is
reset, once, before the next one begins. -/
theorem terminal_shows_text :
    (∀ (mode : ColorChoice) (isTerminal : Bool), mode.enabled isTerminal = false ↔
      mode = .never ∨ mode = .auto ∧ isTerminal = false) ∧
    (∀ ds : List Diagnostic, terminalAll false ds = String.join (ds.map fun d => d.text ++ "\n")) ∧
    ∀ ds : List Diagnostic, (∀ d ∈ ds, ∀ text ∈ d.texts, Colorless text) →
      withoutColors (terminalAll true ds) = terminalAll false ds ∧
        Glyph.Closed (colorsOf (terminalAll true ds)) := by
  refine ⟨?_, terminalAll_plain, ?_⟩
  · intro mode isTerminal
    cases mode <;> simp [ColorChoice.enabled]
  · intro ds h
    have hpaints := paints_terminalAll h
    exact ⟨hpaints.withoutColors_eq, hpaints.closed⟩

/-- A failure whose related place comes before its own, and a note without a place. -/
def crowded : List Diagnostic :=
  [⟨.notCallable, .error, "`int` is not callable",
      [⟨⟨"a", 4, 9⟩, "bound here", false⟩, ⟨⟨"a", 30, 36⟩, "called here", true⟩],
      ["only functions"]⟩,
    ⟨.unreadableInput, .note, "no input", [], []⟩]

theorem terminal_shows_text_crowded :
    (∀ d ∈ crowded, ∀ text ∈ d.texts, Colorless text) ∧
      withoutColors (terminalAll true crowded) =
        "a:30:36: `int` is not callable\n  --> a:4:9: bound here\n  = note: only functions\n" ++
          "note[E9001]: no input\n" ∧
      Glyph.Closed (colorsOf (terminalAll true crowded)) := by
  have hcolorless : ∀ d ∈ crowded, ∀ text ∈ d.texts, Colorless text := by decide
  obtain ⟨-, -, hcolors⟩ := terminal_shows_text
  obtain ⟨htext, hclosed⟩ := hcolors crowded hcolorless
  exact ⟨hcolorless, htext.trans (by decide +kernel), hclosed⟩

end Diagnostic

end TreeScript
