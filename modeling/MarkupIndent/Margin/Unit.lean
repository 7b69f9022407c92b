import MarkupIndent.Fault
import MarkupIndent.Value
import MarkupIndent.Text.Lower
import MarkupIndent.Text.Blank

/-!
# Units of indentation

An indentation is a number of indent characters followed by a number of alignment spaces. The unit
says what the indent character is and how many of them one level takes.

* `IndentUnit.ofValue`: the unit that a setting means.
* `IndentUnit.indent`, `IndentUnit.shift`: deeper by levels, and to the right by columns.
* `IndentUnit.render`, `IndentUnit.measure`: from an indentation to blanks and back.
* `IndentUnit.describe`: blanks in words.
-/

namespace MarkupIndent.Margin

open Text

/-- The blanks at the beginning of a line: indent characters, then alignment spaces. -/
structure Indentation where
  width : Int
  align : Int
  deriving DecidableEq, Repr

/-- Indentations are compared by width first. -/
def Indentation.less (a b : Indentation) : Bool :=
  a.width < b.width || (a.width == b.width && a.align < b.align)

/-- The margin of a document. -/
def Indentation.none : Indentation := ⟨0, 0⟩

/-- What one level of indentation is made of. -/
inductive UnitStyle where
  | spaces (count : Nat)
  | tabs
  deriving DecidableEq, Repr

/-- A unit of indentation. With mixed alignment, spaces may follow tabs to reach a column. -/
structure IndentUnit where
  style : UnitStyle
  mixedAlignment : Bool
  deriving DecidableEq, Repr

namespace IndentUnit

/-- The text is the word for tabs or a tab by itself, in any case and with any blanks around it. -/
def isTabWord (s : String) : Bool :=
  let word := lower (trim s.toList)
  word == ['t', 'a', 'b'] || word == ['\t']

/-- The style that a setting means: a positive number of spaces, or the word for tabs. -/
def styleOf? : Value → Option UnitStyle
  | .int n => if n < 1 then .none else some (.spaces n.toNat)
  | .text (.whole s) => if isTabWord s then some .tabs else .none
  | _ => .none

/-- The unit that a setting means. -/
def ofValue (value : Value) (mixedAlignment : Bool) : Except Fault IndentUnit :=
  match styleOf? value with
  | some style => .ok ⟨style, mixedAlignment⟩
  | none => .error .badUnit

/-- The unit indents by tabs. -/
def usesTabs (u : IndentUnit) : Bool :=
  u.style == .tabs

/-- The indent character. -/
def char (u : IndentUnit) : Char :=
  match u.style with
  | .spaces _ => ' '
  | .tabs => '\t'

/-- The number of indent characters of one level. -/
def size (u : IndentUnit) : Nat :=
  match u.style with
  | .spaces count => count
  | .tabs => 1

/-- Deeper by a number of levels. -/
def indent (u : IndentUnit) (base : Indentation) (levels : Int) : Indentation :=
  ⟨base.width + levels * u.size, base.align⟩

/-- To the right by a number of columns. Tabs cannot express a column, so without mixed alignment
they stay. -/
def shift (u : IndentUnit) (base : Indentation) (columns : Int) : Indentation :=
  if columns ≤ 0 then base
  else match u.style with
    | .spaces _ => ⟨base.width + columns, base.align⟩
    | .tabs => if u.mixedAlignment then ⟨base.width, base.align + columns⟩ else base

/-- The blanks of an indentation. -/
def render (u : IndentUnit) (i : Indentation) : List Char :=
  List.replicate i.width.toNat u.char ++ List.replicate i.align.toNat ' '

/-- The indentation of blanks. With tabs, all that follows the leading tabs is alignment. -/
def measure (u : IndentUnit) (blanks : List Char) : Indentation :=
  match u.style with
  | .spaces _ => ⟨blanks.length, 0⟩
  | .tabs =>
    let tabs := (blanks.takeWhile (· == '\t')).length
    ⟨tabs, blanks.length - tabs⟩

/-- A number with a noun. -/
def counted (n : Nat) (noun : String) : String :=
  if n == 1 then toString n ++ " " ++ noun else toString n ++ " " ++ noun ++ "s"

/-- Blanks in words. Whatever is not a tab counts as a space. -/
def describe (u : IndentUnit) (blanks : List Char) : String :=
  let tabs := blanks.count '\t'
  let spaces := blanks.length - tabs
  if tabs ≠ 0 ∧ spaces ≠ 0 then counted tabs "tab" ++ " and " ++ counted spaces "space"
  else if tabs ≠ 0 then counted tabs "tab"
  else if spaces ≠ 0 then counted spaces "space"
  else counted 0 (if u.usesTabs then "tab" else "space")

end IndentUnit

end MarkupIndent.Margin
