import MarkupIndent.Text.Quoted

/-!
# What can go wrong in an analysis

* `Fault`: the causes, with their wording in `Fault.message`.
* `Fault.isConfiguration`: the settings are at fault, so the document as a whole gets one report.
* `Fault.isInconsistency`: the engine contradicts itself, so the analysis is given up.
-/

namespace MarkupIndent

open Text

/-- A cause that stops an analysis. -/
inductive Fault where
  /-- The setting of the indentation unit means nothing. -/
  | badUnit
  /-- The document has more tokens than the settings allow. -/
  | tooManyTokens (count : Nat) (limit : Int)
  /-- An offset refers to a token of another document. -/
  | foreignToken (index : Nat) (text : List Char)
  /-- An offset of a kind that does not exist. -/
  | unknownKind (kind : String)
  /-- An offset by a negative number of levels. -/
  | negativeWeight
  /-- The offsets of these tokens, each based on the next, lead back to the first. -/
  | cycle (chain : List Nat)
  /-- An edit overlaps an earlier one or leaves the text. -/
  | misplacedEdit (start stop : Int)
  /-- A part of a tree that has no rules of its own. -/
  | withoutRules (part : String)
  /-- No indenter supports a language, and there is no fallback. -/
  | unsupportedLanguage (language : List Char)
  /-- A blank token was asked for its line head. -/
  | blankHead
  /-- An index past the end of the tokens or lines. -/
  | outOfRange
  /-- A text cannot be mended because its analysis was given up. -/
  | givenUp (message : String)
  deriving DecidableEq, Repr

/-- The wording of a cause. -/
def Fault.message : Fault → String
  | .badUnit => "Indent unit must be a positive integer or 'tab'."
  | .tooManyTokens count limit =>
    "Document has " ++ toString count ++ " tokens; limit is " ++ toString limit ++ "."
  | .foreignToken index text =>
    "Token " ++ toString index ++ " (" ++ String.ofList (quoted text) ++
      ") is not part of the analysed document."
  | .unknownKind kind => "Unknown offset kind: " ++ kind
  | .negativeWeight => "Offset weight must be >= 0."
  | .cycle chain =>
    "Offset chain does not terminate: " ++ " -> ".intercalate (chain.map toString)
  | .misplacedEdit start stop =>
    "Text edit [" ++ toString start ++ ", " ++ toString stop ++
      ") overlaps or leaves the document."
  | .withoutRules part => "No visitor registered for node type " ++ part
  | .unsupportedLanguage language =>
    "No embedded indenter supports language: " ++ String.ofList language
  | .blankHead => "Whitespace tokens have no line head."
  | .outOfRange => "index out of range"
  | .givenUp message => message

/-- The settings are at fault. -/
def Fault.isConfiguration : Fault → Bool
  | .badUnit | .tooManyTokens .. | .foreignToken .. => true
  | _ => false

/-- The engine contradicts itself. -/
def Fault.isInconsistency : Fault → Bool
  | .unknownKind _ | .negativeWeight | .cycle _ | .misplacedEdit .. | .withoutRules _ => true
  | _ => false

end MarkupIndent
