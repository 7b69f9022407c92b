import MarkupIndent.Value

/-!
# Settings

The settings of a run, complete and in force. `Settings.Merge` says how they come about; here they
are only data, and a unit that means nothing is found out by whoever needs the unit.
-/

namespace MarkupIndent

namespace Settings

/-- The most tokens that a document may have unless the settings say otherwise. -/
def defaultMaxTokens : Int := 200000

/-- The most tokens that the settings may allow. -/
def maxTokensCap : Int := 2000000

/-- Expressions in attributes are indented by their own rules. -/
def expressionPrecedence : String := "expression"

/-- Attributes indent the expressions in them. -/
def attributePrecedence : String := "attribute"

end Settings

open Settings in
/-- Settings in force. -/
structure Settings where
  indentUnit : Value := .int 2
  alignAttributes : Bool := false
  indentRaw : Bool := true
  mixedAlignment : Bool := false
  precedence : String := expressionPrecedence
  ignoredNodes : List LooseText := ["pre", "textarea"]
  maxTokens : Int := defaultMaxTokens

end MarkupIndent
