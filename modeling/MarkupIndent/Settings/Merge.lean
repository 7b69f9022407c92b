import MarkupIndent.Settings.Basic
import MarkupIndent.Text.Blank
import MarkupIndent.Text.Lower

/-!
# Merging settings

Settings come in three layers: a base, the tables of a configuration file, and overrides from the
command line. A later layer wins where it says something. Every layer is checked, also where a later
one hides it.

* `SettingsFault`: what can be wrong with a layer.
* `mergeSettings`: the three layers in one.
-/

namespace MarkupIndent.Settings

open Text

/-- What is wrong with a layer of settings. -/
inductive SettingsFault where
  /-- The file is not in its format. -/
  | malformedFile
  /-- A section is not a table. -/
  | sectionField (name : String)
  /-- The precedence is none of the two. -/
  | precedence
  /-- A field should be a list. -/
  | listField (name : String)
  /-- A field should hold strings only. -/
  | stringsField (name : String)
  /-- A field should be a number of spaces or the word for tabs. -/
  | unitField (name : String)
  /-- A field should be true or false. -/
  | flagField (name : String)
  /-- A field should be a positive number. -/
  | positiveField (name : String)
  /-- A field is above its limit. -/
  | cappedField (name : String) (cap : Int)
  /-- The unit on the command line is no number. -/
  | unitArgument
  deriving DecidableEq, Repr

/-- The name of the configuration file. -/
def fileName : String := "tagindent.toml"

/-- The wording of a fault. -/
def SettingsFault.message : SettingsFault → String
  | .malformedFile => fileName ++ " is not valid TOML"
  | .sectionField name => "Config section '" ++ name ++ "' must be a table."
  | .precedence =>
    "Config field 'indent.attribute_expression_precedence' must be one of expression, attribute."
  | .listField name => "Config field '" ++ name ++ "' must be a list of strings."
  | .stringsField name => "Config field '" ++ name ++ "' must contain only strings."
  | .unitField name => "Config field '" ++ name ++ "' must be a positive integer or 'tab'."
  | .flagField name => "Config field '" ++ name ++ "' must be a boolean."
  | .positiveField name => "Config field '" ++ name ++ "' must be a positive integer."
  | .cappedField name cap => "Config field '" ++ name ++ "' must be <= " ++ toString cap ++ "."
  | .unitArgument => "--indent must be a positive integer or 'tab'."

/-- What a command line may override. A null says nothing. -/
structure Overrides where
  indentUnit : Value := .null
  alignAttributes : Option Bool := none
  indentRaw : Option Bool := none
  maxTokens : Value := .null

/-! ## Fields -/

/-- The fields of a section. A section that is missing has none. -/
def sectionFields (payload : List (LooseText × Value)) (name : String) :
    Except SettingsFault (List (LooseText × Value)) :=
  match Value.field? payload name with
  | none => .ok []
  | some (.table fields) => .ok fields
  | some _ => .error (.sectionField name)

/-- The value of a field, null if it is missing. -/
def fieldValue (fields : List (LooseText × Value)) (name : String) : Value :=
  (Value.field? fields name).getD .null

/-- The strings of a list. -/
def strings (name : String) : List Value → Except SettingsFault (List LooseText)
  | [] => .ok []
  | .text s :: rest => (strings name rest).map (s :: ·)
  | _ :: _ => .error (.stringsField name)

/-- The strings of a field, or those of the layer below if it is missing. -/
def stringsOr (below : List LooseText) (name : String) : Option Value →
    Except SettingsFault (List LooseText)
  | none => .ok below
  | some (.list items) => strings name items
  | some _ => .error (.listField name)

/-- The precedence of a field, or that of the layer below if it is missing. -/
def precedenceOr (below : String) (value : Option Value) : Except SettingsFault String :=
  match value.getD (.text below) with
  | .text (.whole s) =>
    if s = expressionPrecedence ∨ s = attributePrecedence then .ok s else .error .precedence
  | _ => .error .precedence

/-- A flag, or that of the layer below if it is null. -/
def flagOr (below : Bool) (name : String) : Value → Except SettingsFault Bool
  | .null => .ok below
  | .bool b => .ok b
  | _ => .error (.flagField name)

/-- A unit in its plain form, or that of the layer below if it is null. -/
def unitOr (below : Value) (name : String) : Value → Except SettingsFault Value
  | .null => .ok below
  | .int n => if n < 1 then .error (.unitField name) else .ok (.int n)
  | .text (.whole s) =>
    if lower (trim s.toList) = ['t', 'a', 'b'] then .ok (.text "tab")
    else .error (.unitField name)
  | _ => .error (.unitField name)

/-- A positive number up to a limit, or that of the layer below if it is null. -/
def positiveOr (below : Int) (name : String) (cap : Int) : Value → Except SettingsFault Int
  | .null => .ok below
  | .int n =>
    if n < 1 then .error (.positiveField name)
    else if cap < n then .error (.cappedField name cap)
    else .ok n
  | _ => .error (.positiveField name)

/-! ## Layers -/

/-- The settings of a base with the tables of a file over it. -/
def overlay (base : Settings) (payload : List (LooseText × Value)) :
    Except SettingsFault Settings := do
  let indent ← sectionFields payload "indent"
  let limits ← sectionFields payload "limits"
  let precedence ← precedenceOr base.precedence (Value.field? indent "attribute_expression_precedence")
  let ignored ← stringsOr base.ignoredNodes "indent.ignored_nodes" (Value.field? indent "ignored_nodes")
  let unit ← unitOr base.indentUnit "indent.unit" (fieldValue indent "unit")
  let align ← flagOr base.alignAttributes "indent.align_attributes_vertically"
    (fieldValue indent "align_attributes_vertically")
  let raw ← flagOr base.indentRaw "indent.indent_script_and_style"
    (fieldValue indent "indent_script_and_style")
  let mixed ← flagOr base.mixedAlignment "indent.mixed_alignment"
    (fieldValue indent "mixed_alignment")
  let maxTokens ← positiveOr base.maxTokens "limits.max_tokens" maxTokensCap
    (fieldValue limits "max_tokens")
  .ok {
    indentUnit := unit
    alignAttributes := align
    indentRaw := raw
    mixedAlignment := mixed
    precedence := precedence
    ignoredNodes := ignored
    maxTokens := maxTokens }

/-- Settings with overrides. -/
def override (s : Settings) (o : Overrides) : Except SettingsFault Settings := do
  let unit ← unitOr s.indentUnit "overrides.indent_unit" o.indentUnit
  let maxTokens ← positiveOr s.maxTokens "overrides.max_tokens" maxTokensCap o.maxTokens
  .ok { s with
    indentUnit := unit
    alignAttributes := o.alignAttributes.getD s.alignAttributes
    indentRaw := o.indentRaw.getD s.indentRaw
    maxTokens := maxTokens }

/-- The settings of a base, the tables of a file and overrides. -/
def mergeSettings (base : Settings) (payload : List (LooseText × Value)) (o : Overrides) :
    Except SettingsFault Settings := do
  let s ← overlay base payload
  override s o

/-- Settings as a value, in the tables of the file. -/
def toValue (s : Settings) : Value :=
  .table [
    ("indent", .table [
      ("unit", s.indentUnit),
      ("align_attributes_vertically", .bool s.alignAttributes),
      ("indent_script_and_style", .bool s.indentRaw),
      ("mixed_alignment", .bool s.mixedAlignment),
      ("attribute_expression_precedence", .text s.precedence),
      ("ignored_nodes", .list (s.ignoredNodes.map .text))]),
    ("limits", .table [("max_tokens", .int s.maxTokens)])]

end MarkupIndent.Settings
