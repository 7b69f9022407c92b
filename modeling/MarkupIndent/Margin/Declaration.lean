import MarkupIndent.Margin.OffsetGraph

/-!
# Declarations

The rules for a document are a list of declarations, outer ones before inner ones. The graph is
what is left when all are carried out in turn, so the last declaration for a token decides.

* `OffsetGraph.apply`, `OffsetGraph.applyAll`: carry out declarations on a graph.
-/

namespace MarkupIndent.Margin

/-- A change of the graph. -/
inductive Declaration where
  /-- A token of the document hangs on another. -/
  | offset (target base : Nat) (kind : OffsetKind) (weight : Int)
  /-- The significant tokens of a closed range hang on a base. -/
  | range (first last base : Nat) (kind : OffsetKind) (weight : Int)
  /-- The significant tokens of a closed range keep the indentation of their lines. -/
  | pin (first last : Nat)
  /-- What an indenter asks for; its tokens may be of another document. -/
  | request (target base : TokenRef) (kind : OffsetKind) (weight : Int)
  /-- The rules cannot be worked out from here on. -/
  | refuse (fault : Fault)
  deriving DecidableEq, Repr

namespace OffsetGraph

/-- Carry out a declaration. -/
def apply (g : OffsetGraph) : Declaration → Except Fault OffsetGraph
  | .offset target base kind weight => g.declare (.own target) (.own base) kind weight
  | .range first last base kind weight => g.declareRange first last (.own base) kind weight
  | .pin first last => g.pin first last
  | .request target base kind weight => g.declare target base kind weight
  | .refuse fault => .error fault

/-- Carry out declarations in turn, up to the first that fails. -/
def applyAll (g : OffsetGraph) (ds : List Declaration) : Except Fault OffsetGraph :=
  ds.foldlM apply g

end OffsetGraph

end MarkupIndent.Margin
