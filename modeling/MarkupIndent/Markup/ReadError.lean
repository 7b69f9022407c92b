import MarkupIndent.Text.Position

/-!
# Why a text cannot be read

* `ReadFault`: the causes, with their wording in `ReadFault.message`.
* `ReadError`: a cause with the line and column to look at.
-/

namespace MarkupIndent.Markup

open Text

/-- What is wrong with a text. -/
inductive ReadFault where
  | unexpectedClosing
  | unterminatedComment
  | unterminatedStartTag
  | expectedAttributeName
  | expectedAttributeValue
  | unterminatedAttributeValue
  | expectedTagEnd
  | expectedEndTag (name : List Char)
  | unclosedElement (name : List Char)
  | expectedKeyword
  | unterminatedMustache
  | expectedCloseTag (keyword : List Char)
  | unclosedBlock (keyword : List Char)
  deriving DecidableEq, Repr

/-- The wording of a cause. -/
def ReadFault.message : ReadFault → String
  | .unexpectedClosing => "Unexpected closing tag"
  | .unterminatedComment => "Unterminated comment"
  | .unterminatedStartTag => "Unterminated start tag"
  | .expectedAttributeName => "Expected attribute name"
  | .expectedAttributeValue => "Expected attribute value"
  | .unterminatedAttributeValue => "Unterminated attribute value"
  | .expectedTagEnd => "Expected '>'"
  | .expectedEndTag name => "Expected </" ++ String.ofList name ++ ">"
  | .unclosedElement name => "Unclosed element <" ++ String.ofList name ++ ">"
  | .expectedKeyword => "Expected block keyword"
  | .unterminatedMustache => "Unterminated mustache"
  | .expectedCloseTag keyword => "Expected \x7b/" ++ String.ofList keyword ++ "\x7d"
  | .unclosedBlock keyword => "Unclosed \x7b#" ++ String.ofList keyword ++ "\x7d block"

/-- A cause and the place that it concerns. -/
structure ReadError where
  fault : ReadFault
  line : Nat
  column : Nat
  deriving DecidableEq, Repr

/-- The wording of an error, with its place. -/
def ReadError.message (e : ReadError) : String :=
  e.fault.message ++ " (" ++ toString e.line ++ ":" ++ toString e.column ++ ")"

/-- The error of a cause at a place. -/
def ReadFault.at (fault : ReadFault) (place : Cursor) : ReadError :=
  ⟨fault, place.line, place.column⟩

end MarkupIndent.Markup
