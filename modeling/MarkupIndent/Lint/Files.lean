import MarkupIndent.Audit.Log
import MarkupIndent.Files.Store
import MarkupIndent.Lint.Outcome

/-!
# Linting files

Files are linted one after the other in the order of their paths, each on its own: what is wrong
with one becomes its outcome and leaves it as it is. A file is written only if its text changes. A
run that cannot go on stops, and leaves the files as they then are.

* `collect`: the documents that some paths stand for.
* `lintFile`: the outcome for one file.
* `lintFiles`: the outcomes for many.
* `Outcome.event`: what the audit log says about an outcome.
-/

namespace MarkupIndent.Lint

open Files Margin Settings Text

/-! ## The documents -/

/-- The endings of the names of documents. -/
def documentExtensions : List (List Char) :=
  [".svelte".toList, ".html".toList, ".htm".toList]

/-- A path is named like a document, in letters of either case. -/
def isDocument (p : Path) : Bool :=
  documentExtensions.contains (lower p.extension)

/-- The documents that a path stands for: those in a directory and below it, or the file itself. -/
def documentsOf (s : Store) (p : Path) : List Path :=
  if s.isDirectory p then (s.filesBelow p).filter isDocument else [p]

/-- The documents that some paths stand for. -/
def collect (s : Store) (paths : List Path) : List Path :=
  paths.flatMap (documentsOf s)

/-! ## The audit log -/

/-- Where the events of a run go, and the time that they carry. -/
structure Trail where
  path : Path
  time : String

/-- What the audit log says about an outcome. -/
def Outcome.event (o : Outcome) (time : String) : Audit.Event where
  timestamp := time
  document := o.document
  ok := o.ok
  aborted := o.aborted
  errorCode := o.error.map fun e => .whole e.1.label
  metadata := [
    ("lines_checked", .int o.linesChecked),
    ("mismatches", .int o.reports.length),
    ("suppressed", .int o.suppressed),
    ("fixed", .bool o.fixedText.isSome)]

/-- What stops a run. -/
inductive RunFault where
  | analysis (fault : Fault)
  | file (fault : FileFault)
  /-- A number that was to be logged has too many digits. -/
  | longNumber
  /-- An option that cannot do without a value has none. -/
  | missingValue (option : String)

/-- The wording of a fault. -/
def RunFault.message : RunFault → String
  | .analysis fault => fault.message
  | .file fault => fault.message
  | .longNumber =>
    "Exceeds the limit (" ++ toString maxDigits ++ " digits) for integer string conversion"
  | .missingValue option => option ++ " has no value"

/-- What is done in a run. If it stops, the files are left as they then are. -/
abbrev Run := EStateM RunFault Store

/-- Change the files. -/
def change (f : Store → Except FileFault Store) : Run Unit := fun s =>
  match f s with
  | .ok s' => .ok () s'
  | .error fault => .error (.file fault) s

/-- Make sure that the directory of the log exists. -/
def openTrail : Option Trail → Run Unit
  | none => pure ()
  | some trail => change (·.makeDirectory trail.path.parent)

/-- What stops a run because an event could not be logged. -/
def RunFault.ofAppend : Audit.AppendFault → RunFault
  | .file fault => .file fault
  | .longNumber => .longNumber

/-- Add an outcome to the log. -/
def record (o : Outcome) : Option Trail → Run Unit
  | none => pure ()
  | some trail => ((o.event trail.time).addTo trail.path).adaptExcept .ofAppend

/-! ## Linting -/

/-- Write the mended text of an outcome if it differs from the text that was read. -/
def writeFixed (p : Path) (text : List Char) (o : Outcome) : Run Unit :=
  match o.fixedText with
  | none => pure ()
  | some fixed => if fixed = text then pure () else change (·.writeText p fixed)

/-- Lint one file. A file that cannot be read has an outcome that says so, but a path that cannot
name a file stops the run. -/
def lintFile (job : Job) (trail : Option Trail) (p : Path) : Run Outcome := do
  match (← get).readText p with
  | .error fault =>
    if p.hasNull then throw (.file fault)
    else
      let o := Outcome.failed p.toString .unreadable fault.message
      record o trail
      return o
  | .ok text =>
    match lintText job p.toString text with
    | .error fault => throw (.analysis fault)
    | .ok o =>
      record o trail
      writeFixed p text o
      return o

/-- Lint files in the given order. -/
def lintEach (job : Job) (trail : Option Trail) : List Path → Run (List Outcome)
  | [] => return []
  | p :: rest => do
    let o ← lintFile job trail p
    let os ← lintEach job trail rest
    return o :: os

/-- Lint files in the order of their paths. -/
def lintFiles (job : Job) (trail : Option Trail) (paths : List Path) : Run (List Outcome) :=
  lintEach job trail (paths.mergeSort fun a b => !(b.toString < a.toString))

end MarkupIndent.Lint
