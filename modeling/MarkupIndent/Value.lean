import MarkupIndent.Text.Loose

/-!
# Values of configuration and records

The values that a configuration file, a command or an audit record can hold. Numbers that are not
whole and points in time are kept as they are written: nothing computes with them.

* `Value`: the values.
* `Value.field?`, `Value.setField`: the fields of a table by name.
-/

namespace MarkupIndent

/-- A value. The fields of a table keep their order and have different names. -/
inductive Value where
  | null
  | bool (b : Bool)
  | int (n : Int)
  | real (spelling : String)
  | moment (spelling : String)
  | text (t : LooseText)
  | list (items : List Value)
  | table (fields : List (LooseText × Value))
  deriving Inhabited

namespace Value

/-- The field of a name in a list of fields. -/
def field? (fields : List (LooseText × Value)) (name : LooseText) : Option Value :=
  (fields.find? fun f => f.1 == name).map Prod.snd

/-- The fields with a value for a name, in the place of the name's earlier value or at the end. -/
def setField (fields : List (LooseText × Value)) (name : LooseText) (value : Value) :
    List (LooseText × Value) :=
  match fields with
  | [] => [(name, value)]
  | f :: rest => if f.1 == name then (name, value) :: rest else f :: setField rest name value

end Value

end MarkupIndent
