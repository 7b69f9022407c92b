import MarkupIndent.CommandLine.Arguments
import MarkupIndent.Lint.Files
import MarkupIndent.Settings.File

/-!
# One run of the program

A run goes from arguments and files to a listing, an exit status and the files afterwards. Nothing
is read or written outside the store, so a run is a function. A run that stops has no exit status of
its own, but leaves files too.

* `Arguments.overrides`, `settingsFor`: the settings of a run.
* `listing`, `status`: what is printed, and how the run ends.
* `run`: the whole.
-/

namespace MarkupIndent.CommandLine

open Files Lint Settings Text

/-- The name of the program in its messages. -/
def programName : String := "tagindent"

/-- How a run ends, and what it prints. -/
structure Ending where
  status : Nat
  output : String
  errors : String

/-! ## Settings -/

/-- The value of an option that cannot do without. -/
def Given.required {α : Type} (option : String) : Given α → Except RunFault α
  | .value a => .ok a
  | .nothing => .error (.missingValue option)

/-- The unit that the command line sets. -/
def unitArgument : Option String → Except SettingsFault Value
  | none => .ok .null
  | some s =>
    if s = "tab" then .ok (.text s)
    else match readInteger? s.toList with
      | some n => .ok (.int n)
      | none => .error .unitArgument

/-- The limit that the command line sets. A limit without a value is no number. -/
def limitArgument : Option (Given Int) → Value
  | none => .null
  | some (.value n) => .int n
  | some .nothing => .list []

/-- What the command line overrides, with a unit if it sets one. -/
def Arguments.overrides (a : Arguments) (indent : Option String) :
    Except SettingsFault Overrides := do
  let unit ← unitArgument indent
  .ok {
    indentUnit := unit
    alignAttributes := if a.alignAttributes then some true else none
    indentRaw := if a.keepRaw then some false else none
    maxTokens := limitArgument a.maxTokens }

/-- The text of the configuration file below a root, if the file exists. -/
def configurationText (s : Store) (root : Path) : Except FileFault (Option (List Char)) :=
  let path := root.child fileName
  if path.hasNull then .error ⟨path, .nullCharacter⟩
  else match s.bytesIn (s.spelledPlace path) with
  | .error .missing => .ok none
  | .error obstacle => .error ⟨path, obstacle⟩
  | .ok bytes => match Utf8.decode bytes with
    | .ok text => .ok (some text)
    | .error fault => .error ⟨path, .notText fault⟩

/-- The settings of a run. What is wrong with them is told apart from a file that cannot be
read. -/
def settingsFor (a : Arguments) (s : Store) :
    Except RunFault (Except SettingsFault Settings) := do
  let indent ← a.indent.mapM (Given.required "--indent")
  match a.overrides indent with
  | .error fault => .ok (.error fault)
  | .ok overrides => do
    let root ← a.configRoot.required "--config-root"
    let file ← (configurationText s (.ofString root)).mapError .file
    .ok (effectiveSettings file overrides)

/-! ## The listing -/

/-- The lines that are printed for an outcome. Reports are not printed when they are mended. -/
def outcomeLines (fixing : Bool) (o : Outcome) : List String :=
  match o.error with
  | some (code, message) => [o.document ++ ": " ++ code.label ++ ": " ++ message]
  | none =>
    if fixing then []
    else o.reports.map fun r =>
      o.document ++ ":" ++ toString r.location.line ++ ":" ++ toString r.location.column ++ ": " ++
        r.message

/-- Lines as text. -/
def printed (lines : List String) : String :=
  String.join (lines.map (· ++ "\n"))

/-- What is printed for outcomes. -/
def listing (fixing : Bool) (os : List Outcome) : String :=
  printed (os.flatMap (outcomeLines fixing))

/-- The exit status: two if a document has no regular outcome, else one if a report was printed. -/
def status (fixing : Bool) (os : List Outcome) : Nat :=
  if os.any fun o => o.error.isSome then 2
  else if !fixing && os.any fun o => !o.reports.isEmpty then 1
  else 0

/-! ## The run -/

/-- The trail that the arguments ask for. An empty path asks for none. -/
def Arguments.trail (a : Arguments) (time : String) : Option Trail :=
  match a.auditLog with
  | some (.value s) => if s.isEmpty then none else some ⟨.ofString s, time⟩
  | some .nothing => none
  | none => none

/-- Lint the documents that the arguments name. -/
def lintAll (a : Arguments) (settings : Settings) (time : String) : Run Ending := do
  let trail := a.trail time
  openTrail trail
  let job : Job := { settings := settings, fix := a.fix }
  let os ← lintFiles job trail (collect (← get) (a.paths.map Path.ofString))
  return ⟨status a.fix os, listing a.fix os, ""⟩

/-- A whole run at a time. -/
def run (a : Arguments) (time : String) : Run Ending := do
  match settingsFor a (← get) with
  | .error fault => throw fault
  | .ok (.error fault) => return ⟨2, "", printed [programName ++ ": " ++ fault.message]⟩
  | .ok (.ok settings) => lintAll a settings time

end MarkupIndent.CommandLine
