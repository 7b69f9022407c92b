import MarkupIndent.Files.Store
import MarkupIndent.Json.Read
import MarkupIndent.Json.Write
import MarkupIndent.Text.Blank

/-!
# The audit log

The log is a text to which each analysis adds one line, so it can be read as far as it goes
whatever happened to it: lines that hold no record are passed over. Only a number of too many digits
stops its reader, as it stops the writer of an event.

* `Event.line?`: what an event adds to the log.
* `Event.addTo`: adding an event to the file of a log.
* `record?`: the record of a line.
* `read`: the last records that a query asks for.
-/

namespace MarkupIndent.Audit

open Files Text

/-! ## Writing -/

/-- The summary of one analysis. -/
structure Event where
  timestamp : LooseText
  document : LooseText
  ok : Bool
  aborted : Bool
  errorCode : Option LooseText
  metadata : List (LooseText × Value)

/-- An event as a record. -/
def Event.toRecord (e : Event) : Value :=
  .table [
    ("timestamp", .text e.timestamp),
    ("document", .text e.document),
    ("ok", .bool e.ok),
    ("aborted", .bool e.aborted),
    ("error_code", (e.errorCode.map .text).getD .null),
    ("metadata", .table e.metadata)]

/-- The line of an event, if all its numbers can be written. -/
def Event.line? (e : Event) : Option (List Char) :=
  (Json.write? (Json.ordered e.toRecord)).map (· ++ ['\n'])

/-- The log after an event. -/
def append? (log : List Char) (e : Event) : Option (List Char) :=
  e.line?.map (log ++ ·)

/-- Why an event is not added to the file of a log. -/
inductive AppendFault where
  | file (fault : FileFault)
  /-- A number of the event has too many digits to be written. -/
  | longNumber
  deriving DecidableEq, Repr

/-- Add an event to the file of a log. The file is opened, and made if it does not exist, before the
event is written. -/
def Event.addTo (e : Event) (p : Path) : EStateM AppendFault Store Unit := fun s =>
  match s.appendText p (e.line?.getD []) with
  | .error fault => .error (.file fault) s
  | .ok s' => if e.line?.isSome then .ok () s' else .error .longNumber s'

/-! ## Reading -/

/-- Which records to read: those from a time on, those of a document, and of these the last
`limit`. -/
structure Query where
  since : Option LooseText := none
  limit : Int := 50
  document : Option LooseText := none

/-- What stops a query. -/
inductive LogFault where
  /-- A record cannot be asked for its fields, because it is not a table. -/
  | notTable
  /-- A number in a line has too many digits to be read. -/
  | longNumber (digits : Nat)
  deriving DecidableEq, Repr

/-- The lines of a log. -/
def lines (log : List Char) : List (List Char) :=
  splitLines (unifyLineEnds log)

/-- The record that a line holds by how it is read: a text that spells no value holds none. -/
def recordOf : Except Json.Refusal Value → Except LogFault (Option Value)
  | .ok record => .ok (some record)
  | .error .malformed => .ok none
  | .error (.longNumber digits) => .error (.longNumber digits)

/-- The record of a line, if the line holds one. -/
def record? (line : List Char) : Except LogFault (Option Value) :=
  let line := trim line
  if line.isEmpty then .ok none else recordOf (Json.read line)

/-- A record has a timestamp that is not before a time, by code points. -/
def notBefore (time : LooseText) (fields : List (LooseText × Value)) : Bool :=
  match Value.field? fields "timestamp" with
  | some (.text t) => !(t.points < time.points)
  | _ => false

/-- A record is of a document. -/
def isOf (document : LooseText) (fields : List (LooseText × Value)) : Bool :=
  match Value.field? fields "document" with
  | some (.text t) => t.points == document.points
  | _ => false

/-- A query asks for a record. -/
def Query.selects (q : Query) (record : Value) : Except LogFault Bool :=
  if q.since.isNone && q.document.isNone then .ok true
  else match record with
    | .table fields => .ok (q.since.all (notBefore · fields) && q.document.all (isOf · fields))
    | _ => .error .notTable

/-- The record of a line, if the line holds one that a query asks for. -/
def Query.find? (q : Query) (line : List Char) : Except LogFault (Option Value) := do
  match ← record? line with
  | none => .ok none
  | some record => .ok (if ← q.selects record then some record else none)

/-- The records of lines that a query asks for, before the limit. -/
def Query.select (q : Query) : List (List Char) → Except LogFault (List Value)
  | [] => .ok []
  | line :: rest => do
    let found ← q.find? line
    let more ← q.select rest
    .ok (found.toList ++ more)

/-- The last items of a list, at most `n`. -/
def lastItems {α : Type} (n : Nat) (items : List α) : List α :=
  items.drop (items.length - n)

/-- The last records that a query asks for. A limit below one asks for nothing. -/
def read (q : Query) (log : List Char) : Except LogFault (List Value) :=
  if q.limit < 1 then .ok []
  else (q.select (lines log)).map (lastItems q.limit.toNat)

end MarkupIndent.Audit
