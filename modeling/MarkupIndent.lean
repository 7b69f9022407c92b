import MarkupIndent.Audit.Log
import MarkupIndent.CommandLine.Run
import MarkupIndent.Main
import MarkupIndent.Proofs.Twins
import MarkupIndent.Settings.File
import MarkupIndent.Proofs.Slices
import MarkupIndent.Proofs.Nesting
import MarkupIndent.Proofs.Convergence
import MarkupIndent.Proofs.Outline
import MarkupIndent.Proofs.Rewriting
import MarkupIndent.Proofs.LastRule
import MarkupIndent.Proofs.Asked
import MarkupIndent.Proofs.Ignored
import MarkupIndent.Proofs.Verbatim
import MarkupIndent.Proofs.Levels
import MarkupIndent.Proofs.Lookahead
import MarkupIndent.Proofs.Replay
import MarkupIndent.Proofs.Replaced
import MarkupIndent.Proofs.ContentEdits
import MarkupIndent.Proofs.Suppression
import MarkupIndent.Proofs.Independence
import MarkupIndent.Proofs.TabMargins
import MarkupIndent.Proofs.GraphCalls
import MarkupIndent.Proofs.DamagedLog
import MarkupIndent.Proofs.Cycles
import MarkupIndent.Proofs.Alignment
import MarkupIndent.Proofs.SharedLines
import MarkupIndent.Proofs.MarginScans
import MarkupIndent.Proofs.OpaqueLiterals
import MarkupIndent.Proofs.LineByLine
import MarkupIndent.Proofs.LineStarts
import MarkupIndent.Proofs.Braces
import MarkupIndent.Proofs.ReadErrors
import MarkupIndent.Proofs.Printing
import MarkupIndent.Proofs.AcceptedSettings
import MarkupIndent.Proofs.Measures
import MarkupIndent.Proofs.OwnTokens
import MarkupIndent.Proofs.LineLookup
