import MarkupIndent.Json.Quoted
import MarkupIndent.Text.Numeral
import MarkupIndent.Value

/-!
# Reading JSON

The grammar is strict: no comma may trail, no number may begin with a zero that is not needed, and
nothing may follow the value. Three words for numbers that are not finite are also read. A text is
refused at the first place at which something is wrong with it; a whole number of too many digits is
told apart from all else.

* `Refusal`: why a text is refused.
* `valueWithin`: a value at the beginning of a text.
* `read`: the value that a whole text spells.
-/

namespace MarkupIndent.Json

open Text

/-- Why a text is not read. -/
inductive Refusal where
  /-- It spells no value. -/
  | malformed
  /-- A whole number has too many digits to be converted. -/
  | longNumber (digits : Nat)
  deriving DecidableEq, Repr

/-- What was found, or else the text is malformed. -/
def orMalformed {α : Type} : Option α → Except Refusal α
  | some a => .ok a
  | none => .error .malformed

/-- The characters that may stand around values and marks. -/
def isSpace (c : Char) : Bool :=
  c == ' ' || c == '\t' || c == '\n' || c == '\r'

/-- The text without the spaces in front. -/
def skipSpace (text : List Char) : List Char :=
  text.dropWhile isSpace

/-! ## Numbers and words -/

/-- The digits at the beginning of a text, and the rest. -/
def spanDigits (text : List Char) : List Char × List Char :=
  text.span isAsciiDigit

/-- The whole part of a number: a zero alone, or digits that begin with another one. -/
def whole? (text : List Char) : Option (List Char × List Char) :=
  match text with
  | '0' :: rest => some (['0'], rest)
  | _ => match spanDigits text with
    | ([], _) => none
    | found => some found

/-- The part of a number after the point, with the point. -/
def fraction (text : List Char) : List Char × List Char :=
  match text with
  | '.' :: rest => match spanDigits rest with
    | ([], _) => ([], text)
    | (digits, rest) => ('.' :: digits, rest)
  | _ => ([], text)

/-- A sign and the text after it. -/
def sign : List Char → List Char × List Char
  | '+' :: rest => (['+'], rest)
  | '-' :: rest => (['-'], rest)
  | rest => ([], rest)

/-- The exponent of a number, with its letter. -/
def exponent (text : List Char) : List Char × List Char :=
  match text with
  | c :: rest =>
    if c == 'e' || c == 'E' then
      let (s, rest) := sign rest
      match spanDigits rest with
      | ([], _) => ([], text)
      | (digits, rest) => (c :: s ++ digits, rest)
    else ([], text)
  | [] => ([], text)

/-- The number that ASCII digits spell. -/
def naturalOf (digits : List Char) : Nat :=
  ofDigits (digits.map fun c => c.toNat - 0x30)

/-- The number that digits spell, if they are not too many. -/
def natural (digits : List Char) : Except Refusal Nat :=
  if digits.length ≤ maxDigits then .ok (naturalOf digits) else .error (.longNumber digits.length)

/-- A number without a sign. Only whole numbers are converted. -/
def number (text : List Char) : Except Refusal (Value × List Char) := do
  let (digits, rest) ← orMalformed (whole? text)
  let (f, rest) := fraction rest
  let (e, rest) := exponent rest
  if f.isEmpty && e.isEmpty then do
    let n ← natural digits
    .ok (.int n, rest)
  else .ok (.real (String.ofList (digits ++ f ++ e)), rest)

/-- The opposite of a number. -/
def negated : Value → Value
  | .int n => .int (-n)
  | .real s => .real ("-" ++ s)
  | value => value

/-- The words that are values. -/
def words : List (List Char × Value) :=
  [("null".toList, .null), ("true".toList, .bool true), ("false".toList, .bool false),
    ("NaN".toList, .real "NaN"), ("Infinity".toList, .real "Infinity"),
    ("-Infinity".toList, .real "-Infinity")]

/-- A value that is written without quotes and brackets. -/
def plain (text : List Char) : Except Refusal (Value × List Char) :=
  match words.find? fun w => w.1.isPrefixOf text with
  | some (word, value) => .ok (value, text.drop word.length)
  | none => match text with
    | '-' :: rest => (number rest).map fun p => (negated p.1, p.2)
    | _ => number text

/-! ## Values -/

/-- What stands between brackets: nothing, or what is read from there on. -/
def inBrackets {α : Type} (close : Char) (empty : α)
    (read : List Char → Except Refusal (α × List Char)) (text : List Char) :
    Except Refusal (α × List Char) :=
  match skipSpace text with
  | c :: rest => if c = close then .ok (empty, rest) else read (c :: rest)
  | [] => .error .malformed

/-- What comes after an item of a list, or a field of a table: the bracket that closes it, or a comma
and what is read next. -/
def afterItem {α : Type} (close : Char) (found : α)
    (next : List Char → Except Refusal (α × List Char)) (text : List Char) :
    Except Refusal (α × List Char) :=
  match skipSpace text with
  | c :: rest =>
    if c = close then .ok (found, rest)
    else if c = ',' then next (skipSpace rest)
    else .error .malformed
  | [] => .error .malformed

mutual

/-- A value at the beginning of a text. The first argument bounds the number of values inside. -/
def valueWithin : (bound : Nat) → List Char → Except Refusal (Value × List Char)
  | 0, _ => .error .malformed
  | bound + 1, text =>
    match text with
    | '"' :: rest => (orMalformed (string? rest)).map fun p => (.text p.1, p.2)
    | '[' :: rest =>
      inBrackets ']' (.list []) (fun text => (itemsWithin bound text).map fun p => (.list p.1, p.2))
        rest
    | '\x7b' :: rest =>
      inBrackets '\x7d' (.table [])
        (fun text => (fieldsWithin bound [] text).map fun p => (.table p.1, p.2)) rest
    | _ => plain text

/-- The items of a list up to its closing bracket, at least one. -/
def itemsWithin : (bound : Nat) → List Char → Except Refusal (List Value × List Char)
  | 0, _ => .error .malformed
  | bound + 1, text => do
    let (item, rest) ← valueWithin bound text
    afterItem ']' [item]
      (fun text => (itemsWithin bound text).map fun p => (item :: p.1, p.2)) rest

/-- The fields of a table up to its closing brace, at least one, after the fields read so far. Of
two fields of one name the later counts. -/
def fieldsWithin : (bound : Nat) → List (LooseText × Value) → List Char →
    Except Refusal (List (LooseText × Value) × List Char)
  | 0, _, _ => .error .malformed
  | bound + 1, fields, text =>
    match text with
    | '"' :: rest => do
      let (name, rest) ← orMalformed (string? rest)
      match skipSpace rest with
      | ':' :: rest => do
        let (value, rest) ← valueWithin bound (skipSpace rest)
        let fields := Value.setField fields name value
        afterItem '\x7d' fields (fun text => fieldsWithin bound fields text) rest
      | _ => .error .malformed
    | _ => .error .malformed

end

/-- The value that a whole text spells. -/
def read (text : List Char) : Except Refusal Value := do
  let (value, rest) ← valueWithin (2 * text.length + 1) (skipSpace text)
  if (skipSpace rest).isEmpty then .ok value else .error .malformed

end MarkupIndent.Json
