import MarkupIndent.Margin.Check

/-!
# Linting one document

Linting reads a text, checks it, leaves out the reports that are suppressed, and mends what the
others say if asked to. Whatever is wrong with the text or the settings becomes part of the
outcome.

* `lintText`: the outcome for a text.
* `fixText`: the mended text.
-/

namespace MarkupIndent.Lint

open Margin Markup Settings

/-- Why a document has no regular outcome. -/
inductive ErrorCode where
  | unreadable
  | parse
  | configuration
  | inconsistency
  deriving DecidableEq, Repr

/-- The name of a code in listings. -/
def ErrorCode.label : ErrorCode → String
  | .unreadable => "READ_ERROR"
  | .parse => "PARSE_ERROR"
  | .configuration => "CONFIGURATION_ERROR"
  | .inconsistency => "INTERNAL_CONSISTENCY"

/-- The outcome for one document. -/
structure Outcome where
  document : String
  reports : List Report
  suppressed : Nat
  linesChecked : Nat
  error : Option (ErrorCode × String)
  fixedText : Option (List Char)
  deriving DecidableEq, Repr

/-- The document is indented as expected. -/
def Outcome.ok (o : Outcome) : Bool :=
  o.error.isNone && o.reports.isEmpty

/-- The analysis was given up. Settings that mean nothing do not count: they are reported. -/
def Outcome.aborted (o : Outcome) : Bool :=
  match o.error with
  | some (.configuration, _) => false
  | some _ => true
  | none => false

/-- The outcome for a document that could not be analysed. -/
def Outcome.failed (document : String) (code : ErrorCode) (message : String) : Outcome where
  document := document
  reports := []
  suppressed := 0
  linesChecked := 0
  error := some (code, message)
  fixedText := none

/-- How to lint: the settings, the reports to leave out, whether to mend the text, and the
indenters of embedded source. -/
structure Job where
  settings : Settings
  isSuppressed : Report → Bool := fun _ => false
  fix : Bool := false
  registry : Registry := .default

/-- The outcome for a document that was analysed. -/
def Job.outcome (job : Job) (document : String) (text : List Char) (result : CheckResult) :
    Except Fault Outcome :=
  if result.settingsFault then
    .ok {
      document := document
      reports := result.reports
      suppressed := 0
      linesChecked := 0
      error := some (.configuration, (result.reports.head?.map Report.message).getD "")
      fixedText := none }
  else do
    let kept := result.reports.filter fun r => !job.isSuppressed r
    let fixed ← if job.fix then (applyEdits text (kept.flatMap Report.edits)).map some
      else .ok none
    .ok {
      document := document
      reports := kept
      suppressed := result.reports.length - kept.length
      linesChecked := result.linesChecked
      error := none
      fixedText := fixed }

/-- Lint a text under the name of a document. -/
def lintText (job : Job) (document : String) (text : List Char) : Except Fault Outcome :=
  match Document.read text with
  | .error e => .ok (.failed document .parse e.message)
  | .ok d =>
    match check d job.settings job.registry with
    | .ok result => job.outcome document text result
    | .error fault =>
      if fault.isInconsistency then .ok (.failed document .inconsistency fault.message)
      else .error fault

/-- The name of a document that has none. -/
def anonymous : String := "<text>"

/-- A text with every mismatch mended. -/
def fixText (settings : Settings) (text : List Char) : Except Fault (List Char) := do
  let o ← lintText { settings := settings, fix := true } anonymous text
  match o.error with
  | some (_, message) => if o.aborted then .error (.givenUp message) else .ok text
  | none => .ok (o.fixedText.getD text)

end MarkupIndent.Lint
