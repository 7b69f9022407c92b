import MarkupIndent.Json.Quoted
import MarkupIndent.Text.Numeral
import MarkupIndent.Value

/-!
# Writing JSON

A value is written on one line, with a space after each comma and colon. The order of fields is
that of the value; `ordered` puts them in the order of their names first, at every level.

* `spell`: the spelling of a value.
* `write?`: a value as text, unless a number in it has too many digits.
* `ordered`: a value with the fields of all tables in order.
-/

namespace MarkupIndent

/-! ## Numbers that can be written -/

namespace Value

mutual

/-- All numbers in a value can be written. -/
def isShort : Value → Bool
  | .int n => Text.isShort n
  | .list items => areShort items
  | .table fields => haveShort fields
  | _ => true

/-- All numbers in some items can be written. -/
def areShort : List Value → Bool
  | [] => true
  | item :: items => isShort item && areShort items

/-- All numbers in the values of some fields can be written. -/
def haveShort : List (LooseText × Value) → Bool
  | [] => true
  | (_, value) :: fields => isShort value && haveShort fields

end

end Value

namespace Json

open Text

/-! ## Writing -/

mutual

/-- The spelling of a value. -/
def spell : Value → List Char
  | .null => ['n', 'u', 'l', 'l']
  | .bool true => ['t', 'r', 'u', 'e']
  | .bool false => ['f', 'a', 'l', 's', 'e']
  | .int n => spellInteger n
  | .real s => s.toList
  | .moment s => writeString s
  | .text t => writeString t
  | .list [] => ['[', ']']
  | .list (item :: items) => '[' :: (spell item ++ spellItems items)
  | .table [] => ['\x7b', '\x7d']
  | .table ((name, value) :: fields) =>
    '\x7b' :: (writeString name ++ ':' :: ' ' :: (spell value ++ spellFields fields))

/-- The items of a list after the first, and its closing bracket. -/
def spellItems : List Value → List Char
  | [] => [']']
  | item :: items => ',' :: ' ' :: (spell item ++ spellItems items)

/-- The fields of a table after the first, and its closing brace. -/
def spellFields : List (LooseText × Value) → List Char
  | [] => ['\x7d']
  | (name, value) :: fields =>
    ',' :: ' ' :: (writeString name ++ ':' :: ' ' :: (spell value ++ spellFields fields))

end

/-- A value as text, if all its numbers can be written. -/
def write? (v : Value) : Option (List Char) :=
  if v.isShort then some (spell v) else none

/-! ## The order of fields -/

/-- The fields with one more, before the first whose name is not smaller by code points. -/
def insertField (f : LooseText × Value) : List (LooseText × Value) → List (LooseText × Value)
  | [] => [f]
  | g :: rest => if g.1.points < f.1.points then g :: insertField f rest else f :: g :: rest

mutual

/-- A value with the fields of all tables in the order of their names. -/
def ordered : Value → Value
  | .list items => .list (orderedItems items)
  | .table fields => .table (orderedFields fields)
  | value => value

/-- Items with the fields of all tables in them in order. -/
def orderedItems : List Value → List Value
  | [] => []
  | item :: items => ordered item :: orderedItems items

/-- Fields in the order of their names, with the fields of all tables in them in order. -/
def orderedFields : List (LooseText × Value) → List (LooseText × Value)
  | [] => []
  | (name, value) :: fields => insertField (name, ordered value) (orderedFields fields)

end

end Json

end MarkupIndent
