import MarkupIndent.Margin.Heads

/-!
# The offset graph

For every token the graph has at most one entry, which says how the token's indentation hangs on
that of a base token. The root hangs on nothing. A token that is declared again gets the new
entry, so what is declared last decides.

* `OffsetGraph.declare`, `declareRange`, `pin`, `setRoot`: all ways to change a graph. A call that
  fails gives no graph, so the one before it stands.
* `OffsetGraph.entry`: what is declared for a token.
-/

namespace MarkupIndent.Margin

open Markup

/-- How a token hangs on its base: a number of levels deeper, as deep, at the same column, or not
at all, when its line keeps the indentation that it has. -/
inductive OffsetKind where
  | relative
  | same
  | align
  | pinned
  | unknown (label : String)
  deriving DecidableEq, Repr

/-- The name of a kind in listings. -/
def OffsetKind.label : OffsetKind → String
  | .relative => "relative-indent"
  | .same => "same-indent"
  | .align => "align-to-base"
  | .pinned => "first-token-of-line"
  | .unknown label => label

/-- The kind of a name. -/
def OffsetKind.ofLabel (label : String) : OffsetKind :=
  if label == "relative-indent" then .relative
  else if label == "same-indent" then .same
  else if label == "align-to-base" then .align
  else if label == "first-token-of-line" then .pinned
  else .unknown label

/-- A token of the analysed document, by its index, or a token of another one. -/
inductive TokenRef where
  | own (index : Nat)
  | foreign (token : Token)
  deriving DecidableEq, Repr

/-- The index of a token in its own document. -/
def TokenRef.index : TokenRef → Nat
  | .own index => index
  | .foreign token => token.index

/-- The entry of a token: it hangs on `base`. The weight is the number of levels of a relative
offset, and zero otherwise. -/
structure OffsetEntry where
  target : Nat
  base : Nat
  kind : OffsetKind
  weight : Int
  deriving DecidableEq, Repr

/-- The entries of a document's tokens, and the token that hangs on nothing. -/
structure OffsetGraph where
  heads : Heads
  entries : Array (Option OffsetEntry)
  root : Option Nat

namespace OffsetGraph

/-- A graph without entries. -/
def empty (heads : Heads) : OffsetGraph :=
  ⟨heads, Array.replicate heads.size none, none⟩

/-- The number of entries. -/
def size (g : OffsetGraph) : Nat :=
  g.entries.countP Option.isSome

/-- The entry of a token. -/
def entry (g : OffsetGraph) (index : Nat) : Except Fault (Option OffsetEntry) :=
  match g.entries[index]? with
  | some e => .ok e
  | none => .error .outOfRange

/-- A reference is to a token of the graph's document. -/
def owns (g : OffsetGraph) : TokenRef → Bool
  | .own index => index < g.heads.size
  | .foreign _ => false

/-- The index of a token of the graph's document. -/
def ownIndex (g : OffsetGraph) : TokenRef → Except Fault Nat
  | .own index => if index < g.heads.size then .ok index else .error .outOfRange
  | .foreign token => .error (.foreignToken token.index token.text)

/-- Make a token the root, and drop its entry. -/
def setRoot (g : OffsetGraph) (token : TokenRef) : Except Fault OffsetGraph := do
  let index ← g.ownIndex token
  .ok { g with root := some index, entries := g.entries.setIfInBounds index none }

/-- The rule of a declaration makes sense. -/
def checkRule (kind : OffsetKind) (weight : Int) : Except Fault Unit :=
  match kind with
  | .unknown label => .error (.unknownKind label)
  | _ => if weight < 0 then .error .negativeWeight else .ok ()

/-- Hang a token on a base. The root stays as it is. -/
def declare (g : OffsetGraph) (target base : TokenRef) (kind : OffsetKind) (weight : Int) :
    Except Fault OffsetGraph := do
  checkRule kind weight
  let t ← g.ownIndex target
  let b ← g.ownIndex base
  if g.root = some t then .ok g
  else
    let entry : OffsetEntry := ⟨t, b, kind, if kind = .relative then weight else 0⟩
    .ok { g with entries := g.entries.setIfInBounds t (some entry) }

/-- Hang tokens on a base by one rule, the base itself apart. -/
def declareEach (g : OffsetGraph) (targets : List Token) (base : TokenRef) (kind : OffsetKind)
    (weight : Int) : Except Fault OffsetGraph :=
  targets.foldlM
    (fun g t => if t.index = base.index then .ok g else g.declare (.own t.index) base kind weight) g

/-- Hang every significant token of a closed range on a base. -/
def declareRange (g : OffsetGraph) (first last : Int) (base : TokenRef) (kind : OffsetKind)
    (weight : Int) : Except Fault OffsetGraph :=
  g.declareEach (g.heads.between first last) base kind weight

/-- Let every significant token of a closed range keep the indentation of its line. -/
def pin (g : OffsetGraph) (first last : Int) : Except Fault OffsetGraph :=
  (g.heads.between first last).foldlM
    (fun g t => g.declare (.own t.index) (.own t.index) .pinned 0) g

end OffsetGraph

end MarkupIndent.Margin
