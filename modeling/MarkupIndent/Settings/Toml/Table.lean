import MarkupIndent.Value

/-!
# Building TOML tables

A file fills one table piece by piece. A table may be extended by later pieces only as long as
nothing has settled it: a header settles the table that it names, and dotted keys settle the tables
on their way once their section is over. Values are settled at once.

* `Item`: a part of a table that is being built.
* `openTable`, `openArray`: what a header does.
* `put`, `putUnder`: what a key with a value does.
* `valueOfFields`: the finished table.
-/

namespace MarkupIndent.Settings.Toml

/-- Who may still extend a table. -/
inductive Mark where
  /-- The table lies on the way to another one. -/
  | implied
  /-- Dotted keys of the section of a number lead through the table. -/
  | dotted (number : Nat)
  /-- A header names the table. -/
  | declared
  deriving DecidableEq, Repr

/-- A part of a table that is being built: a value, a table, or an array of tables of which only
the last can grow. -/
inductive Item where
  | value (v : Value)
  | table (mark : Mark) (fields : List (String × Item))
  | array (earlier : List Value) (fields : List (String × Item))

/-- The fields of a table that is being built. -/
abbrev Fields := List (String × Item)

mutual

/-- The value of a finished part. -/
def valueOf : Item → Value
  | .value v => v
  | .table _ fields => .table (valueOfFields fields)
  | .array earlier fields => .list (earlier ++ [.table (valueOfFields fields)])

/-- The fields of a finished table. -/
def valueOfFields : List (String × Item) → List (LooseText × Value)
  | [] => []
  | (name, item) :: rest => (.whole name, valueOf item) :: valueOfFields rest

end

/-- The table is settled for what comes in the section of a number. -/
def Mark.settled (now : Nat) : Mark → Bool
  | .implied => false
  | .dotted n => n < now
  | .declared => true

/-- The part of a name. -/
def item? (fields : Fields) (name : String) : Option Item :=
  (fields.find? fun f => f.1 == name).map Prod.snd

/-- The fields with the part of a name replaced, or added at the end. -/
def setItem (fields : Fields) (name : String) (item : Item) : Fields :=
  if fields.any fun f => f.1 == name then
    fields.map fun f => if f.1 == name then (name, item) else f
  else fields ++ [(name, item)]

/-- Change the table at the end of a path, and create the tables on the way that are missing. -/
def atPath (path : List String) (change : Fields → Option Fields) (fields : Fields) :
    Option Fields :=
  match path with
  | [] => change fields
  | name :: rest =>
    match item? fields name with
    | none => (atPath rest change []).map fun fs => setItem fields name (.table .implied fs)
    | some (.table mark fs) =>
      (atPath rest change fs).map fun fs => setItem fields name (.table mark fs)
    | some (.array earlier fs) =>
      (atPath rest change fs).map fun fs => setItem fields name (.array earlier fs)
    | some (.value _) => none

/-- Declare a table by a name. -/
def declareTable (now : Nat) (name : String) (fields : Fields) : Option Fields :=
  match item? fields name with
  | none => some (setItem fields name (.table .declared []))
  | some (.table mark fs) =>
    if mark.settled now then none else some (setItem fields name (.table .declared fs))
  | some _ => none

/-- Add a table to the array of a name. -/
def extendArray (name : String) (fields : Fields) : Option Fields :=
  match item? fields name with
  | none => some (setItem fields name (.array [] []))
  | some (.array earlier fs) =>
    some (setItem fields name (.array (earlier ++ [.table (valueOfFields fs)]) []))
  | some _ => none

/-- The header of a table, which begins a section. -/
def openTable (now : Nat) (key : List String) (fields : Fields) : Option Fields :=
  match key.getLast? with
  | some name => atPath key.dropLast (declareTable now name) fields
  | none => none

/-- The header of a table in an array. -/
def openArray (key : List String) (fields : Fields) : Option Fields :=
  match key.getLast? with
  | some name => atPath key.dropLast (extendArray name) fields
  | none => none

/-- Give a value to a dotted key in a section. The tables on its way must not be settled, and the
key must be new. -/
def put (now : Nat) (value : Value) : (key : List String) → Fields → Option Fields
  | [], _ => none
  | [name], fields =>
    match item? fields name with
    | none => some (setItem fields name (.value value))
    | some _ => none
  | name :: rest, fields =>
    match item? fields name with
    | none => (put now value rest []).map fun fs => setItem fields name (.table (.dotted now) fs)
    | some (.table mark fs) =>
      if mark.settled now then none
      else (put now value rest fs).map fun fs => setItem fields name (.table (.dotted now) fs)
    | some _ => none

/-- Give a value to a dotted key below the header of its section. -/
def putUnder (now : Nat) (header key : List String) (value : Value) (fields : Fields) :
    Option Fields :=
  atPath header (put now value key) fields

end MarkupIndent.Settings.Toml
