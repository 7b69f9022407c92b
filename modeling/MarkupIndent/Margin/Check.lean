import MarkupIndent.Margin.Edit
import MarkupIndent.Margin.Rules

/-!
# Checking a document

One analysis of a document gives a report for every line that is not indented as expected.
Settings that cannot drive an analysis give one report on the document as a whole, without edits.

* `check`: the analysis.
-/

namespace MarkupIndent.Margin

open Markup Settings

/-- Where a report points to: lines count from one, columns from zero. -/
structure Location where
  line : Nat
  column : Nat
  endLine : Nat
  endColumn : Nat
  deriving DecidableEq, Repr

/-- A finding, with the edits that mend it. -/
structure Report where
  message : String
  location : Location
  edits : List Edit
  deriving DecidableEq, Repr

/-- The result of an analysis. -/
structure CheckResult where
  reports : List Report
  linesChecked : Nat
  settingsFault : Bool
  deriving DecidableEq, Repr

/-- The edits of all reports. -/
def CheckResult.edits (r : CheckResult) : List Edit :=
  r.reports.flatMap Report.edits

/-- Blanks between quotes, with tabs spelled out. -/
def visibleBlanks (blanks : List Char) : String :=
  "\"" ++ String.ofList (blanks.flatMap fun c => if c = '\t' then ['\\', 't'] else [c]) ++ "\""

/-- The wording of a mismatch. Blanks that read alike in words are shown as they are. -/
def Mismatch.message (unit : IndentUnit) (m : Mismatch) : String :=
  let expected := unit.describe m.expected
  let actual := unit.describe m.actual
  "Expected indentation of " ++ expected ++ " but found " ++
    (if expected = actual then visibleBlanks m.actual else actual) ++ "."

/-- The report of a mismatch. -/
def Mismatch.report (unit : IndentUnit) (m : Mismatch) : Report where
  message := m.message unit
  location := ⟨m.line, 0, m.line, m.actual.length⟩
  edits := [m.edit]

/-- The report of settings that cannot drive an analysis. -/
def settingsReport (fault : Fault) : CheckResult where
  reports := [⟨fault.message, ⟨1, 0, 1, 0⟩, []⟩]
  linesChecked := 0
  settingsFault := true

/-- The layout that settings give to a document of a bounded number of tokens. -/
def Layout.ofSettings (d : Document) (s : Settings) (registry : Registry) :
    Except Fault Layout := do
  let unit ← IndentUnit.ofValue s.indentUnit s.mixedAlignment
  if s.maxTokens < d.tokens.size then .error (.tooManyTokens d.tokens.size s.maxTokens)
  else do
    let g ← OffsetGraph.build d s registry
    .ok ⟨g, d, unit⟩

/-- Analyse a document. -/
def check (d : Document) (s : Settings) (registry : Registry) : Except Fault CheckResult :=
  match Layout.ofSettings d s registry with
  | .error fault =>
    if fault.isConfiguration then .ok (settingsReport fault) else .error fault
  | .ok l => do
    let records ← l.records
    .ok ⟨(mismatches records).map (Mismatch.report l.unit), records.length, false⟩

end MarkupIndent.Margin
