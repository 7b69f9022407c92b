import MarkupIndent.Margin.BracketScan
import MarkupIndent.Margin.Declaration
import MarkupIndent.Markup.Document

/-!
# Indenters of script and style content

The content of a script or style element is one token per line. An indenter declares offsets for
these tokens; a registry picks the indenter for a language.

* `Indenter.bracketDepth`: every line by the brackets that are open where it starts.
* `Indenter.pinned`: every line as it is.
* `Registry.select`: the first indenter that supports a language, else the fallback.
-/

namespace MarkupIndent.Margin

open Markup Text

/-- An indenter of embedded source. Its declarations may depend on the content tokens, the first
token of the block and the document. -/
structure Indenter where
  name : String
  supports : List Char → Bool
  declarations : (content : List Token) → (opener : Nat) → Document → List Declaration

/-! ## By bracket depth -/

/-- The lines that the content of a block touches, from the beginning of the line of its first
token to the end of its last. -/
def contentRegion? (d : Document) (first last : Token) : Option (List Char) :=
  (d.lines.line? first.line).map fun l => l.upTo last.stop

/-- The rule for a line of content by its record. The first line of content is the root of all
others. A line inside a literal or an unfinished statement stays as it is. -/
def bracketRule (root : Token) (scans : Array LineScan) (t : Token) : Declaration :=
  match scans[t.line - root.line]? with
  | none => .refuse .outOfRange
  | some s =>
    if s.continuesLiteral || s.continuesStatement then .offset t.index t.index .pinned 0
    else if s.depth ≤ s.leadingClosers then .offset t.index root.index .same 0
    else .offset t.index root.index .relative (s.depth - s.leadingClosers : Nat)

/-- The rules for content by bracket depth: its first line is one level below the block. -/
def bracketDeclarations (rules : LexicalRules) (content : List Token) (opener : Nat)
    (d : Document) : List Declaration :=
  match content with
  | [] => []
  | root :: rest =>
    .offset root.index opener .relative 1 ::
      match contentRegion? d root (rest.getLastD root) with
      | none => [.refuse .outOfRange]
      | some region => rest.map (bracketRule root (scan rules region).toArray)

/-- The indenter by bracket depth for some languages, named in lower case. -/
def Indenter.bracketDepth (name : String) (languages : List String) (rules : LexicalRules) :
    Indenter where
  name := name
  supports language := languages.contains (String.ofList (lower language))
  declarations := bracketDeclarations rules

/-! ## As it is -/

/-- The indenter that supports every language and leaves its source as it is. -/
def Indenter.pinned (name : String) : Indenter where
  name := name
  supports _ := true
  declarations content _ _ := content.map fun t => .offset t.index t.index .pinned 0

/-! ## Registries -/

/-- Indenters in the order in which they are asked, and one for languages that none supports. -/
structure Registry where
  indenters : List Indenter
  fallback : Option Indenter

/-- A registry without indenters. -/
def Registry.empty : Registry := ⟨[], none⟩

/-- Add an indenter after the others, or as the fallback. -/
def Registry.register (r : Registry) (indenter : Indenter) (fallback : Bool) : Registry :=
  if fallback then { r with fallback := some indenter }
  else { r with indenters := r.indenters ++ [indenter] }

/-- The indenter for a language. -/
def Registry.select (r : Registry) (language : List Char) : Except Fault Indenter :=
  match (r.indenters.find? fun i => i.supports language).or r.fallback with
  | some indenter => .ok indenter
  | none => .error (.unsupportedLanguage language)

/-- The registry for the languages of web pages. Any other language stays as it is. -/
def Registry.default : Registry where
  indenters :=
    [.bracketDepth "script" ["js", "javascript", "ts", "typescript", "mjs", "jsx", "tsx"]
      scriptRules,
     .bracketDepth "style" ["css", "postcss"] styleRules,
     .bracketDepth "sass" ["scss", "less"] sassRules]
  fallback := some (.pinned "pinned")

end MarkupIndent.Margin
