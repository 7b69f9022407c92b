import MarkupIndent.Text.Loose
import MarkupIndent.Text.Quoted

/-!
# Strings in JSON

Strings are written in printable ASCII. Every other character is spelled by the numbers of its
UTF-16 units, so a character beyond the first plane takes two of them. When strings are read, a
surrogate may also stand alone; it is no character, so strings are read as code points.

* `writeString`: a string in its quotes.
* `join`: two surrogates that belong together are one code point.
* `string?`: a string, from after its opening quote.
-/

namespace MarkupIndent.Json

open Text

/-! ## Writing -/

/-- A unit by its number. -/
def unitEscape (n : Nat) : List Char :=
  '\\' :: 'u' :: hexDigits 4 n

/-- A code point that is not printable ASCII. -/
def pointEscape (n : Nat) : List Char :=
  if n ≤ 0xffff then unitEscape n
  else unitEscape (0xd800 + (n - 0x10000) / 0x400) ++ unitEscape (0xdc00 + (n - 0x10000) % 0x400)

/-- The letters of the escapes for characters, and what they stand for. -/
def shortEscapes : List (Char × Nat) :=
  [('b', 0x08), ('t', 0x09), ('n', 0x0a), ('f', 0x0c), ('r', 0x0d), ('"', 0x22), ('\\', 0x5c)]

/-- The spelling of a code point inside quotes. -/
def spelling (n : Nat) : List Char :=
  match shortEscapes.find? fun e => e.2 == n with
  | some e => ['\\', e.1]
  | none => if 0x20 ≤ n ∧ n < 0x7f then [Char.ofNat n] else pointEscape n

/-- A string in its quotes. -/
def writeString (t : LooseText) : List Char :=
  '"' :: (t.points.flatMap spelling ++ ['"'])

/-! ## Reading -/

/-- The unit that four digits spell. -/
def unit? (a b c d : Char) : Option Nat := do
  some (((← hexValue? a) * 16 + (← hexValue? b)) * 256 + ((← hexValue? c) * 16 + (← hexValue? d)))

/-- What a letter after a backslash stands for. -/
def escaped? (c : Char) : Option Nat :=
  if c == '/' then some 0x2f
  else (shortEscapes.find? fun e => e.1 == c).map Prod.snd

/-- The units and characters of a string up to its closing quote, after those that are read
already, which are held last to first. Control characters stand in no string. -/
def unitsAfter (seen : List Nat) : List Char → Option (List Nat × List Char)
  | [] => none
  | '"' :: rest => some (seen.reverse, rest)
  | '\\' :: 'u' :: a :: b :: c :: d :: rest => do
    let n ← unit? a b c d
    unitsAfter (n :: seen) rest
  | '\\' :: c :: rest => do
    let n ← escaped? c
    unitsAfter (n :: seen) rest
  | c :: rest => if c.toNat < 0x20 then none else unitsAfter (c.toNat :: seen) rest

/-- The first of two surrogates. -/
def isHigh (n : Nat) : Bool :=
  0xd800 ≤ n && n < 0xdc00

/-- The second of two surrogates. -/
def isLow (n : Nat) : Bool :=
  0xdc00 ≤ n && n < 0xe000

/-- The code points of units, after those that are joined already, which are held last to first. -/
def joinAfter (seen : List Nat) : List Nat → List Nat
  | h :: l :: rest =>
    if isHigh h && isLow l then
      joinAfter ((0x10000 + (h - 0xd800) * 0x400 + (l - 0xdc00)) :: seen) rest
    else joinAfter (h :: seen) (l :: rest)
  | rest => seen.reverseAux rest

/-- Two surrogates that belong together are one code point. -/
def join (units : List Nat) : List Nat :=
  joinAfter [] units

/-- A string, from after its opening quote. -/
def string? (text : List Char) : Option (LooseText × List Char) :=
  (unitsAfter [] text).map fun p => (.ofPoints (join p.1), p.2)

end MarkupIndent.Json
