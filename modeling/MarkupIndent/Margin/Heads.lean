import MarkupIndent.Fault
import MarkupIndent.Markup.Token

/-!
# Line heads

A line head is the first significant token of a line that begins outside any token. Every
significant token is governed by the last head at or before it: the head of the line that the
token's own line continues, when a token in between goes over line ends.

* `Heads.ofTokens`: the heads of a sequence of tokens, found in one pass.
* `Heads.lineHeads`, `Heads.isHead`, `Heads.headOf`: which tokens are heads, and whose.
* `Heads.between`, `Heads.next?`, `Heads.previous?`, `Heads.first?`: neighbours without blanks.
-/

namespace MarkupIndent.Margin

open Markup

/-- The head of every token in turn, none for a blank one, where `head` governs so far and
`reach` is the last line that a significant token touches. -/
def governors : (head : Option Nat) → (reach : Nat) → List Token → List (Option Nat)
  | _, _, [] => []
  | head, reach, t :: rest =>
    if t.isBlank then none :: governors head reach rest
    else
      let h := match head with
        | some h => if t.line > reach then t.index else h
        | none => t.index
      some h :: governors (some h) (max reach t.endLine) rest

/-- The tokens of a document with the line head that governs each. -/
structure Heads where
  tokens : Array Token
  governor : Array (Option Nat)

namespace Heads

/-- The heads of a sequence of tokens. -/
def ofTokens (tokens : Array Token) : Heads :=
  ⟨tokens, (governors none 0 tokens.toList).toArray⟩

/-- The number of tokens. -/
def size (h : Heads) : Nat := h.tokens.size

/-- The token of an index. -/
def token (h : Heads) (index : Nat) : Except Fault Token :=
  match h.tokens[index]? with
  | some t => .ok t
  | none => .error .outOfRange

/-- The line head that governs a token. -/
def headOf (h : Heads) (t : Token) : Except Fault Token :=
  if t.isBlank then .error .blankHead
  else match h.governor[t.index]? with
    | some (some i) => h.token i
    | _ => .error .outOfRange

/-- The token of an index is a line head. -/
def isHead (h : Heads) (t : Token) : Bool :=
  h.governor[t.index]? == some (some t.index)

/-- The line heads, in order. -/
def lineHeads (h : Heads) : List Token :=
  h.tokens.toList.filter h.isHead

/-- The first significant token. -/
def first? (h : Heads) : Option Token :=
  h.tokens.find? Token.isSignificant

/-- The significant tokens with an index in a closed range. -/
def between (h : Heads) (first last : Int) : List Token :=
  ((h.tokens.extract first.toNat (last + 1).toNat).filter Token.isSignificant).toList

/-- The nearest significant token after a token. -/
def next? (h : Heads) (t : Token) : Option Token :=
  (h.tokens.extract (t.index + 1) h.size).find? Token.isSignificant

/-- The nearest significant token before a token. -/
def previous? (h : Heads) (t : Token) : Option Token :=
  (h.tokens.extract 0 t.index).toList.reverse.find? Token.isSignificant

end Heads

end MarkupIndent.Margin
