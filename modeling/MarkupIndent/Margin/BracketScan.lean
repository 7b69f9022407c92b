import MarkupIndent.Text.Blank

/-!
# Bracket depth of embedded source

A scan looks at script or style source line by line and says how many brackets are open where a
line starts, how many closing brackets it begins with, and whether it continues a comment, a string
or an unfinished statement.

It works in two steps. `mask` blanks comments and strings, with their marks, and `scanFrom` counts
brackets in what is left.

* `mask`: one pass over the source, by the construct that is open.
* `maskedLines`: the lines that are left, each with the fact whether it starts inside a literal.
* `scan`: the record of every line.
-/

namespace MarkupIndent.Margin

open Text

/-! ## Marks -/

/-- The comment and string marks of a language. -/
structure LexicalRules where
  lineComments : List (List Char) := [['/', '/']]
  blockComments : List (List Char × List Char) := [(['/', '*'], ['*', '/'])]
  strings : List (List Char) := [['\''], ['"'], [Char.ofNat 0x60]]
  escape : Option Char := some '\\'
  continuations : List (List Char) := []

/-- The marks of script source. A line that begins with an operator continues the one before. -/
def scriptRules : LexicalRules :=
  { continuations := [['.'], ['?'], [':'], ['&', '&'], ['|', '|'], ['+'], ['*'], ['=']] }

/-- The marks of style source, which has no line comments. -/
def styleRules : LexicalRules :=
  { lineComments := [] }

/-- The marks of the style dialects with line comments. -/
def sassRules : LexicalRules :=
  { strings := [['\''], ['"']] }

/-- The construct that is open at a place in the source. -/
inductive LexicalState where
  | code
  | lineComment
  | blockComment (closer : List Char)
  | string (closer : List Char)
  deriving DecidableEq, Repr

/-- The construct goes on over a line end. -/
def LexicalState.goesOn : LexicalState → Bool
  | .blockComment _ | .string _ => true
  | _ => false

/-- The construct that is open after a line end. -/
def LexicalState.afterLineEnd : LexicalState → LexicalState
  | .lineComment => .code
  | state => state

/-- Marks that are not empty, longer ones first and otherwise in the order given. -/
def longestFirst {α : Type} (mark : α → List Char) (marks : List α) : List α :=
  (marks.filter fun m => !(mark m).isEmpty).mergeSort
    fun a b => (mark b).length ≤ (mark a).length

/-- What opens a construct, with the construct: line comments are tried first, then block
comments, then strings. -/
def LexicalRules.openers (rules : LexicalRules) : List (List Char × LexicalState) :=
  (longestFirst id rules.lineComments).map (fun m => (m, .lineComment)) ++
  (longestFirst Prod.fst (rules.blockComments.filter fun p => !p.2.isEmpty)).map
    (fun p => (p.1, .blockComment p.2)) ++
  (longestFirst id rules.strings).map (fun m => (m, .string m))

/-! ## Blanking comments and strings -/

/-- A string that ends in one character is not ended by that character after an odd number of
escape characters. -/
def isEscaped (closer : List Char) (escapes : Nat) : Bool :=
  closer.length ≤ 1 && escapes % 2 == 1

/-- The construct ends at a place, where `escapes` escape characters stand right before. -/
def LexicalState.endsAt (state : LexicalState) (escapes : Nat) (text : List Char) : Bool :=
  match state with
  | .blockComment closer => closer.isPrefixOf text
  | .string closer => closer.isPrefixOf text && !isEscaped closer escapes
  | _ => false

/-- The length of the mark that ends a construct. -/
def LexicalState.closerLength : LexicalState → Nat
  | .blockComment closer | .string closer => closer.length
  | _ => 0

/-- The number of escape characters right before the next place. -/
def countEscapes (escape : Option Char) (escapes : Nat) (c : Char) : Nat :=
  if escape == some c then escapes + 1 else 0

/-- A character of masked source. At a line end, `literal` says that the next line starts inside a
comment or string. -/
structure MaskedChar where
  char : Char
  literal : Bool
  deriving DecidableEq, Repr

/-- The source with comments and strings blanked, from a place where a construct is open, after
`escapes` escape characters, inside a mark of which `left` characters are left. -/
def mask (openers : List (List Char × LexicalState)) (escape : Option Char) :
    (state : LexicalState) → (escapes left : Nat) → List Char → List MaskedChar
  | _, _, _, [] => []
  | state, escapes, left + 1, c :: rest =>
    ⟨' ', false⟩ :: mask openers escape state (countEscapes escape escapes c) left rest
  | state, escapes, 0, c :: rest =>
    if c = '\n' then
      ⟨'\n', state.goesOn⟩ ::
        mask openers escape state.afterLineEnd (countEscapes escape escapes c) 0 rest
    else if state = .code then
      match openers.find? fun o => o.1.isPrefixOf (c :: rest) with
      | some (mark, opened) =>
        ⟨' ', false⟩ ::
          mask openers escape opened (countEscapes escape escapes c) (mark.length - 1) rest
      | none => ⟨c, false⟩ :: mask openers escape .code (countEscapes escape escapes c) 0 rest
    else if state.endsAt escapes (c :: rest) then
      ⟨' ', false⟩ ::
        mask openers escape .code (countEscapes escape escapes c) (state.closerLength - 1) rest
    else ⟨' ', false⟩ :: mask openers escape state (countEscapes escape escapes c) 0 rest

/-! ## Lines -/

/-- A line of masked source, without its line end. -/
structure MaskedLine where
  text : List Char
  literal : Bool

/-- The first line of masked source and the lines after it, where `literal` is the fact about the
first one. -/
def maskedLines (literal : Bool) : List MaskedChar → MaskedLine × List MaskedLine
  | [] => (⟨[], literal⟩, [])
  | c :: rest =>
    if c.char = '\n' then
      let (line, lines) := maskedLines c.literal rest
      (⟨[], literal⟩, line :: lines)
    else
      let (line, lines) := maskedLines literal rest
      (⟨c.char :: line.text, literal⟩, lines)

/-! ## Brackets and statements -/

/-- Opening brackets. -/
def isOpener (c : Char) : Bool :=
  c == '{' || c == '(' || c == '['

/-- Closing brackets. -/
def isCloser (c : Char) : Bool :=
  c == '}' || c == ')' || c == ']'

/-- A statement may end after the character. -/
def isBoundary (c : Char) : Bool :=
  c == ';' || c == ',' || isOpener c || isCloser c

/-- The depth after a character. It does not go below zero. -/
def depthAfter (depth : Nat) (c : Char) : Nat :=
  if isOpener c then depth + 1 else if isCloser c then depth - 1 else depth

/-- What is known where a line starts. -/
structure LineScan where
  depth : Nat
  leadingClosers : Nat
  continuesLiteral : Bool
  continuesStatement : Bool
  deriving DecidableEq, Repr

/-- The record of a line at a depth, after a line with content that ended in `previous`. -/
def scanLine (continuations : List (List Char)) (depth : Nat) (previous : Option Char)
    (line : MaskedLine) : LineScan :=
  let content := trim line.text
  let closers := (content.takeWhile isCloser).length
  let unfinished := match previous with
    | some c => !isBoundary c
    | none => false
  { depth := depth
    leadingClosers := min closers depth
    continuesLiteral := line.literal
    continuesStatement := !content.isEmpty && closers == 0 &&
      (unfinished || continuations.any fun m => m.isPrefixOf content) }

/-- The records of lines in turn. -/
def scanFrom (continuations : List (List Char)) :
    (depth : Nat) → (previous : Option Char) → List MaskedLine → List LineScan
  | _, _, [] => []
  | depth, previous, line :: rest =>
    scanLine continuations depth previous line ::
      scanFrom continuations (line.text.foldl depthAfter depth)
        ((trim line.text).getLast?.or previous) rest

/-- The record of every line of a source. -/
def scan (rules : LexicalRules) (source : List Char) : List LineScan :=
  let (line, lines) := maskedLines false (mask rules.openers rules.escape .code 0 0 source)
  scanFrom rules.continuations 0 none (line :: lines)

end MarkupIndent.Margin
