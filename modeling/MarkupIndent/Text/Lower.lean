import MarkupIndent.Text.LowerTable
import MarkupIndent.Text.Word

/-!
# Lower case

The full lower-case mapping of a text. Two characters need more than a table: U+0130 becomes two
characters, and a capital sigma takes its final form at the end of a word, that is after a cased
character and not before one, where case-ignorable characters in between do not count.

* `lower`: the mapping of a text.
* `sameLetter`: equality of a character with an ASCII letter when case is ignored.
-/

namespace MarkupIndent.Text

/-- The image of a code point under the simple mapping above U+007F. -/
def lowerCode (n : Nat) : Nat :=
  match lowerRuns.find? fun r => r.1 ≤ n && n ≤ r.2.1 && (n - r.1) % r.2.2.1 == 0 with
  | some r => r.2.2.2 + (n - r.1)
  | none => n

/-- The lower case of one character out of context. -/
def lowerChar (c : Char) : List Char :=
  let n := c.toNat
  if 0x41 ≤ n && n ≤ 0x5a then [Char.ofNat (n + 0x20)]
  else if n < 0x80 then [c]
  else if n == 0x130 then ['i', Char.ofNat 0x307]
  else [Char.ofNat (lowerCode n)]

/-- Characters that are skipped when looking for a cased neighbour. -/
def isCaseIgnorable (c : Char) : Bool :=
  if c.toNat < 0x80 then c == '\'' || c == '.' || c == ':' || c == '^' || c.toNat == 0x60
  else inRanges caseIgnorableRanges c.toNat

/-- Characters that carry case. -/
def isCased (c : Char) : Bool :=
  if c.toNat < 0x80 then isAsciiLetter c else inRanges casedRanges c.toNat

/-- The first character that is not skipped carries case. -/
def casedAhead (text : List Char) : Bool :=
  match text.dropWhile isCaseIgnorable with
  | c :: _ => isCased c
  | [] => false

/-- `lower` with the knowledge whether a cased character comes before. -/
def lowerAfter (cased : Bool) : List Char → List Char
  | [] => []
  | c :: rest =>
    let image :=
      if c.toNat == 0x3a3 then
        [Char.ofNat (if cased && !casedAhead rest then 0x3c2 else 0x3c3)]
      else lowerChar c
    image ++ lowerAfter (if isCaseIgnorable c then cased else isCased c) rest

/-- The lower case of a text. -/
def lower (text : List Char) : List Char :=
  lowerAfter false text

/-- Equality with a small ASCII letter when case is ignored: U+017F is an `s`, and the dotted
capital and the dotless small I (U+0130, U+0131) are an `i`. -/
def sameLetter (small c : Char) : Bool :=
  c == small || lowerChar c == [small] ||
  (small == 's' && c.toNat == 0x17f) ||
  (small == 'i' && (c.toNat == 0x130 || c.toNat == 0x131))

end MarkupIndent.Text
