import MarkupIndent.Markup.Tree

/-!
# Documents

A document is a text with its tokens, its tree and its lines.

* `Document.read`: the document of a text, or the reason why it has none.
* `Document.leadingText?`: what stands before a token on its line.
-/

namespace MarkupIndent.Markup

open Text

/-- A text with its tokens, the nodes of its top level and the table of its lines. -/
structure Document where
  text : List Char
  tokens : Array Token
  nodes : List Node
  lines : LineTable := .ofText text
  lines_eq : lines = .ofText text := by rfl

/-- Read a text as a document. -/
def Document.read (text : List Char) : Except ReadError Document := do
  let t ← (OpenTree.start text).grow
  match t.frames with
  | [] => .ok { text := text, tokens := t.reading.tokens, nodes := t.done.reverse }
  | f :: _ => .error f.unclosed

/-- The text between the beginning of a token's line and the token. There is none if the document
has no such line. -/
def Document.leadingText? (d : Document) (t : Token) : Option (List Char) :=
  (d.lines.line? t.line).map fun l => l.upTo t.start

/-- Every part of the tree, each before its pieces. -/
def Document.parts (d : Document) : List Part :=
  partsOfNodes d.nodes

end MarkupIndent.Markup
