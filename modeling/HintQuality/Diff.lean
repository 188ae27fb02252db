import HintQuality.Align
import HintQuality.Text.Digit
import HintQuality.Text.Lines
import HintQuality.Text.Markup
/-!
# Line diffs

The difference of two texts, line by line. Unchanged lines follow two spaces, removed ones a minus and added ones a
plus. Lines far from any change can be left out, with a mark in each gap, and changed lines can be coloured.
-/

namespace HintQuality

/-- How changed lines are shown. -/
inductive ColorStyle where
  | none
  | ansi
  | html
  deriving DecidableEq, Repr

/-- The style of a name. -/
def ColorStyle.ofName? : String → Option ColorStyle
  | "none" => some .none
  | "ansi" => some .ansi
  | "html" => some .html
  | _ => Option.none

namespace Diff

/-- What happened to a line. -/
inductive Mark where
  | kept
  | removed
  | added
  deriving DecidableEq, Repr

/-- A line and what happened to it. -/
structure Line where
  /-- What happened. -/
  mark : Mark
  /-- The text of the line. -/
  text : String
  deriving DecidableEq, Repr

/-- The lines of a segment, removed ones before added ones. -/
def segmentLines : Segment String String → List Line
  | .same pairs => pairs.map fun p => ⟨.kept, p.1⟩
  | .changed old new => old.map (⟨.removed, ·⟩) ++ new.map (⟨.added, ·⟩)

/-- All lines of both texts, with what happened to them. -/
def diffLines (a b : List String) : List Line :=
  (align (· == ·) a b).flatMap segmentLines

/-! ## Context -/

/-- A line shown, by its number, or a gap between lines shown. -/
inductive Shown where
  | line (i : Nat)
  | gap
  deriving DecidableEq, Repr

/-- The numbers of the changed lines. -/
def changedIndices (lines : List Line) : List Nat :=
  (lines.zipIdx.filter fun p => p.1.mark ≠ .kept).map Prod.snd

/-- Adds the line numbers from `first` up to, but without, `stop` to ascending ones. -/
def addRange (first stop : Nat) (kept : List Nat) : List Nat :=
  kept.filter (· < first) ++ List.range' first (stop - first) ++ kept.filter (max first stop ≤ ·)

/-- Adds the numbers of the lines around line `i` of `n` lines; there are none around it if the context is negative. -/
def addAround (n : Nat) (context : Int) (kept : List Nat) (i : Nat) : List Nat :=
  addRange (max 0 (i - context)).toNat (min (n : Int) (i + context + 1)).toNat kept

/-- The numbers of the lines near a changed line, ascending. -/
def keptIndices (lines : List Line) (context : Int) : List Nat :=
  (changedIndices lines).foldl (addAround lines.length context) []

/-- Line numbers with marks in the gaps, where `last` was shown before them; nothing was if it is negative. -/
def markGaps (last : Int) : List Nat → List Shown
  | [] => []
  | i :: is => if 0 ≤ last ∧ last + 1 < i then .gap :: .line i :: markGaps i is else .line i :: markGaps i is

/-- The lines to show: all of them, or those near a change with marks in the gaps. -/
def inContext (lines : List Line) : Option Int → List Shown
  | none => (List.range lines.length).map .line
  | some context => markGaps (-1) (keptIndices lines context)

/-! ## Rendering -/

/-- The character before the lines of a mark. -/
def Mark.sign : Mark → String
  | kept => " "
  | removed => "-"
  | added => "+"

/-- The escape sequence that starts the colour of a mark. -/
def Mark.ansi : Mark → String
  | kept => ""
  | removed => "\x1b[31m"
  | added => "\x1b[32m"

/-- The name of the colour of a mark in markup. -/
def Mark.color : Mark → String
  | kept => ""
  | removed => "red"
  | added => "green"

/-- A line with its sign. -/
def Line.plain (l : Line) : String :=
  l.mark.sign ++ " " ++ l.text

/-- A line in a style. -/
def Line.render (style : ColorStyle) (l : Line) : String :=
  match style, l.mark with
  | .none, _ => l.plain
  | .ansi, .kept => l.plain
  | .ansi, mark => mark.ansi ++ l.plain ++ "\x1b[0m"
  | .html, .kept => "  " ++ Text.Markup.escape l.text
  | .html, mark => "<span style=\"color: " ++ mark.color ++ "\">" ++ Text.Markup.escape l.plain ++ "</span>"

/-- A shown line, or the mark of a gap. -/
def Shown.render (style : ColorStyle) (lines : List Line) : Shown → String
  | gap => "..."
  | line i => (lines[i]?.map (Line.render style)).getD ""

/-- What stands between two lines. -/
def separator : ColorStyle → String
  | .html => "<br />\n"
  | _ => "\n"

/-- The shown lines of the difference of two texts. -/
def renderedLines (a b : String) (context : Option Int) (style : ColorStyle) : List String :=
  let lines := diffLines (Text.lines a) (Text.lines b)
  (inContext lines context).map (Shown.render style lines)

end Diff

/-- The difference of two texts. -/
def diff (a b : String) (context : Option Int := none) (style : ColorStyle := .none) : String :=
  (Diff.separator style).intercalate (Diff.renderedLines a b context style)

end HintQuality
