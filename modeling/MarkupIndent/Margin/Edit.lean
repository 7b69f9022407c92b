import MarkupIndent.Margin.Expected

/-!
# Edits

An edit replaces a stretch of a text. Mismatches between expected and actual blanks become edits of
exactly these blanks.

* `mismatches`, `Mismatch.edit`: from records to edits.
* `applyEdits`: all edits at once, in whatever order they are given.
-/

namespace MarkupIndent.Margin

open Markup

/-- A checked line that is not indented as expected. -/
structure Mismatch where
  line : Nat
  token : Token
  expected : List Char
  actual : List Char
  deriving DecidableEq, Repr

/-- Replace the characters `[start, stop)` by a text. -/
structure Edit where
  start : Int
  stop : Int
  text : List Char
  deriving DecidableEq, Repr

/-- The records that do not agree. -/
def mismatches (records : List LineRecord) : List Mismatch :=
  (records.filter fun r => !r.agrees).map fun r => ⟨r.line, r.token, r.expected, r.actual⟩

/-- The edit that mends a mismatch: it replaces the blanks before the token. -/
def Mismatch.edit (m : Mismatch) : Edit :=
  ⟨(m.token.start : Int) - m.actual.length, m.token.start, m.expected⟩

/-- Edits in the order of the text; of edits at the same place, the one given first comes first. -/
def inOrder (edits : List Edit) : List Edit :=
  edits.mergeSort fun a b => a.start < b.start || (a.start == b.start && a.stop ≤ b.stop)

/-- Carry out edits on the rest of a text from an offset on. `limit` is the length of the whole
text. Each edit has to begin at or after the end of the one before. -/
def applyFrom (limit : Nat) : (offset : Nat) → (rest : List Char) → List Edit →
    Except Fault (List Char)
  | _, rest, [] => .ok rest
  | offset, rest, e :: edits =>
    if e.start < offset ∨ e.stop < e.start ∨ limit < e.stop then
      .error (.misplacedEdit e.start e.stop)
    else do
      let kept := e.start.toNat - offset
      let after ← applyFrom limit e.stop.toNat (rest.drop (e.stop.toNat - offset)) edits
      .ok (rest.take kept ++ e.text ++ after)

/-- Carry out edits on a text. -/
def applyEdits (text : List Char) (edits : List Edit) : Except Fault (List Char) :=
  applyFrom text.length 0 text (inOrder edits)

end MarkupIndent.Margin
