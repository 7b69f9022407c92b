import MarkupIndent.Text.Blank
import MarkupIndent.Text.Word

/-!
# Whole numbers in text

A whole number as a person types it: white space around it, a sign, decimal digits of any script,
and single underscores between digits. Numbers of more than `maxDigits` digits are not converted, be
it from text or to text, by whoever reads or writes them.

* `readInteger?`: the number that a text spells.
* `spellInteger`: the decimal spelling of a number.
* `isShort`: a number can be converted.
-/

namespace MarkupIndent.Text

/-- The most digits of a number that is converted. -/
def maxDigits : Nat := 4300

/-- The values of digits with single underscores between them. `after` says whether a digit has
just been read, so that an underscore may follow. -/
def digitValues? (after : Bool) : List Char → Option (List Nat)
  | [] => if after then some [] else none
  | c :: rest =>
    if c == '_' then if after then digitValues? false rest else none
    else match digitValue? c with
      | some d => (digitValues? true rest).map (d :: ·)
      | none => none

/-- The number that a list of decimal digits spells, most significant first. -/
def ofDigits (digits : List Nat) : Nat :=
  digits.foldl (fun n d => 10 * n + d) 0

/-- The number that digits without a sign spell. -/
def readNatural? (text : List Char) : Option Nat := do
  let digits ← digitValues? false text
  if digits.length ≤ maxDigits then some (ofDigits digits) else none

/-- What may stand around a number: blanks other than the four information separators. -/
def isPadding (c : Char) : Bool :=
  isBlank c && !(0x1c ≤ c.toNat && c.toNat ≤ 0x1f)

/-- The text without the padding at both ends. -/
def unpadded (text : List Char) : List Char :=
  ((text.dropWhile isPadding).reverse.dropWhile isPadding).reverse

/-- The number that a text spells. -/
def readInteger? (text : List Char) : Option Int :=
  match unpadded text with
  | '+' :: rest => (readNatural? rest).map Int.ofNat
  | '-' :: rest => (readNatural? rest).map fun n => -(n : Int)
  | rest => (readNatural? rest).map Int.ofNat

/-- The decimal digits of a number, without leading zeros. -/
def spellNatural (n : Nat) : List Char :=
  if n < 10 then [Char.ofNat (0x30 + n)]
  else spellNatural (n / 10) ++ [Char.ofNat (0x30 + n % 10)]

/-- The decimal spelling of a number. -/
def spellInteger : Int → List Char
  | .ofNat n => spellNatural n
  | .negSucc n => '-' :: spellNatural (n + 1)

/-- A number has not too many digits to be converted. -/
def isShort (n : Int) : Bool :=
  (spellNatural n.natAbs).length ≤ maxDigits

end MarkupIndent.Text
