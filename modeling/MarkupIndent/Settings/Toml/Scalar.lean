import MarkupIndent.Value
import MarkupIndent.Text.Numeral
import MarkupIndent.Text.Quoted

/-!
# TOML strings, numbers and points in time

Each reader takes the text from a place on and gives what it read with the text after it, or
nothing if the text does not begin with such a thing.

* `basicString`, `basicLines`, `literalString`, `literalLines`: the four kinds of string, from
  after their opening quotes.
* `number?`: whole numbers in four bases, and other numbers.
* `moment?`: dates, times of day, and both together.
-/

namespace MarkupIndent.Settings.Toml

open Text

/-! ## Characters -/

/-- Spaces and tabs. -/
def isSpace (c : Char) : Bool :=
  c == ' ' || c == '\t'

/-- Control characters other than the tab, which may stand in no string on one line and in no
comment. -/
def isControl (c : Char) : Bool :=
  (c.toNat < 0x20 && c != '\t') || c.toNat == 0x7f

/-- Characters of a key without quotes. -/
def isBareKeyChar (c : Char) : Bool :=
  isAsciiLetter c || isAsciiDigit c || c == '-' || c == '_'

/-- The character of a code point in hexadecimal digits. Surrogates are not characters. -/
def scalar? (digits : List Char) : Option Char := do
  let values ← digits.mapM hexValue?
  let n := values.foldl (fun n d => 16 * n + d) 0
  if n.isValidChar then some (Char.ofNat n) else none

/-- The character that an escape of one letter stands for. -/
def escaped? : Char → Option Char
  | 'b' => some (Char.ofNat 0x08)
  | 't' => some '\t'
  | 'n' => some '\n'
  | 'f' => some (Char.ofNat 0x0c)
  | 'r' => some '\r'
  | '"' => some '"'
  | '\\' => some '\\'
  | _ => none

/-! ## Strings -/

/-- The text with one more character in front of what is read. -/
def withChar (c : Char) (r : List Char × List Char) : List Char × List Char :=
  (c :: r.1, r.2)

/-- A string with escapes on one line. -/
def basicString : List Char → Option (List Char × List Char)
  | [] => none
  | '"' :: rest => some ([], rest)
  | '\\' :: 'u' :: a :: b :: c :: d :: rest => do
    let ch ← scalar? [a, b, c, d]
    (basicString rest).map (withChar ch)
  | '\\' :: 'U' :: a :: b :: c :: d :: e :: f :: g :: h :: rest => do
    let ch ← scalar? [a, b, c, d, e, f, g, h]
    (basicString rest).map (withChar ch)
  | '\\' :: c :: rest => do
    let ch ← escaped? c
    (basicString rest).map (withChar ch)
  | c :: rest => if isControl c then none else (basicString rest).map (withChar c)

/-- What is passed over after a backslash at the end of a line: nothing, the blanks up to the line
end, or all blanks and line ends. -/
inductive Trimming where
  | off
  | toLineEnd
  | toText
  deriving DecidableEq, Repr

/-- Up to two quotes may stand right before the three that end a string of several lines. -/
def extraQuotes (quote : Char) (rest : List Char) : List Char × List Char :=
  let n := min 2 (rest.takeWhile (· == quote)).length
  (rest.take n, rest.drop n)

/-- A string with escapes on several lines. -/
def basicLines : Trimming → List Char → Option (List Char × List Char)
  | _, [] => none
  | .toLineEnd, c :: rest =>
    if isSpace c then basicLines .toLineEnd rest
    else if c == '\n' then basicLines .toText rest
    else none
  | _, '"' :: '"' :: '"' :: rest => some (extraQuotes '"' rest)
  | _, '\\' :: 'u' :: a :: b :: c :: d :: rest => do
    let ch ← scalar? [a, b, c, d]
    (basicLines .off rest).map (withChar ch)
  | _, '\\' :: 'U' :: a :: b :: c :: d :: e :: f :: g :: h :: rest => do
    let ch ← scalar? [a, b, c, d, e, f, g, h]
    (basicLines .off rest).map (withChar ch)
  | _, '\\' :: c :: rest =>
    if isSpace c then basicLines .toLineEnd rest
    else if c == '\n' then basicLines .toText rest
    else do
      let ch ← escaped? c
      (basicLines .off rest).map (withChar ch)
  | trimming, c :: rest =>
    if trimming = .toText ∧ (isSpace c ∨ c = '\n') then basicLines .toText rest
    else if isControl c && c != '\n' then none
    else (basicLines .off rest).map (withChar c)

/-- A string without escapes on one line. -/
def literalString : List Char → Option (List Char × List Char)
  | [] => none
  | c :: rest =>
    if c == '\'' then some ([], rest)
    else if isControl c then none
    else (literalString rest).map (withChar c)

/-- A string without escapes on several lines. -/
def literalLines : List Char → Option (List Char × List Char)
  | [] => none
  | '\'' :: '\'' :: '\'' :: rest => some (extraQuotes '\'' rest)
  | c :: rest =>
    if isControl c && c != '\n' then none else (literalLines rest).map (withChar c)

/-- A line end right after the opening quotes does not count. -/
def dropLineEnd : List Char → List Char
  | '\n' :: rest => rest
  | rest => rest

/-- A string of any kind. -/
def string? : List Char → Option (List Char × List Char)
  | '"' :: '"' :: '"' :: rest => basicLines .off (dropLineEnd rest)
  | '"' :: rest => basicString rest
  | '\'' :: '\'' :: '\'' :: rest => literalLines (dropLineEnd rest)
  | '\'' :: rest => literalString rest
  | _ => none

/-! ## Numbers -/

/-- Digits of a kind with single underscores between them, after the first digit. -/
def moreDigits (ok : Char → Bool) : List Char → List Char × List Char
  | '_' :: c :: rest =>
    if ok c then
      let (digits, after) := moreDigits ok rest
      (c :: digits, after)
    else ([], '_' :: c :: rest)
  | c :: rest =>
    if ok c then
      let (digits, after) := moreDigits ok rest
      (c :: digits, after)
    else ([], c :: rest)
  | [] => ([], [])

/-- Digits of a kind, at least one. -/
def digits? (ok : Char → Bool) : List Char → Option (List Char × List Char)
  | c :: rest =>
    if ok c then
      let (digits, after) := moreDigits ok rest
      some (c :: digits, after)
    else none
  | [] => none

/-- The number of digits in a base. -/
def numberOf (base : Nat) (digits : List Char) : Nat :=
  digits.foldl (fun n c => base * n + (hexValue? c).getD 0) 0

/-- A whole number in base sixteen, two or eight. -/
def based? : List Char → Option (Nat × List Char)
  | '0' :: 'x' :: rest => (digits? (fun c => (hexValue? c).isSome) rest).map fun p =>
    (numberOf 16 p.1, p.2)
  | '0' :: 'b' :: rest => (digits? (fun c => c == '0' || c == '1') rest).map fun p =>
    (numberOf 2 p.1, p.2)
  | '0' :: 'o' :: rest => (digits? (fun c => isAsciiDigit c && c.toNat < 0x38) rest).map fun p =>
    (numberOf 8 p.1, p.2)
  | _ => none

/-- A sign and the text after it. -/
def sign : List Char → List Char × List Char
  | '+' :: rest => (['+'], rest)
  | '-' :: rest => (['-'], rest)
  | rest => ([], rest)

/-- The whole part of a number: a zero alone, or digits that begin with another one. -/
def whole? : List Char → Option (List Char × List Char)
  | '0' :: rest => some (['0'], rest)
  | text => digits? isAsciiDigit text

/-- The part of a number after the point, with the point. -/
def fraction (text : List Char) : List Char × List Char :=
  match text with
  | '.' :: rest => match digits? isAsciiDigit rest with
    | some (digits, after) => ('.' :: digits, after)
    | none => ([], text)
  | _ => ([], text)

/-- The exponent of a number, with its letter. -/
def exponent (text : List Char) : List Char × List Char :=
  match text with
  | c :: rest =>
    if c == 'e' || c == 'E' then
      let (s, rest) := sign rest
      match digits? isAsciiDigit rest with
      | some (digits, after) => ('e' :: s ++ digits, after)
      | none => ([], text)
    else ([], text)
  | [] => ([], text)

/-- A number in base ten. -/
def decimal? (text : List Char) : Option (Value × List Char) := do
  let (s, rest) := sign text
  let (digits, rest) ← whole? rest
  let (f, rest) := fraction rest
  let (e, rest) := exponent rest
  if f.isEmpty && e.isEmpty then
    let n : Int := ofDigits (digits.map fun c => c.toNat - 0x30)
    some (.int (if s == ['-'] then -n else n), rest)
  else some (.real (String.ofList (s ++ digits ++ f ++ e)), rest)

/-- The numbers that are written as words. -/
def wordNumber? (text : List Char) : Option (Value × List Char) :=
  let (s, rest) := sign text
  match rest with
  | 'i' :: 'n' :: 'f' :: after => some (.real (String.ofList (s ++ "inf".toList)), after)
  | 'n' :: 'a' :: 'n' :: after => some (.real (String.ofList (s ++ "nan".toList)), after)
  | _ => none

/-- A number. -/
def number? (text : List Char) : Option (Value × List Char) :=
  ((based? text).map fun p => (.int (p.1 : Nat), p.2)).or
    ((decimal? text).or (wordNumber? text))

/-! ## Points in time -/

/-- A number of exactly `n` digits. -/
def fixedDigits? (n : Nat) (text : List Char) : Option (Nat × List Char) :=
  let digits := text.take n
  if digits.length = n ∧ digits.all isAsciiDigit then
    some (ofDigits (digits.map fun c => c.toNat - 0x30), text.drop n)
  else none

/-- A year is a leap year. -/
def isLeapYear (year : Nat) : Bool :=
  year % 4 == 0 && (year % 100 != 0 || year % 400 == 0)

/-- The number of days of a month. -/
def daysOf (year month : Nat) : Nat :=
  if month == 2 then if isLeapYear year then 29 else 28
  else if month == 4 || month == 6 || month == 9 || month == 11 then 30
  else 31

/-- A character that has to stand at a place. -/
def expect (c : Char) : List Char → Option (List Char)
  | d :: rest => if c == d then some rest else none
  | [] => none

/-- The form of a date: a year of four digits, a month of the twelve, a day up to 31. -/
def date? (text : List Char) : Option ((Nat × Nat × Nat) × List Char) := do
  let (year, rest) ← fixedDigits? 4 text
  let (month, rest) ← fixedDigits? 2 (← expect '-' rest)
  let (day, rest) ← fixedDigits? 2 (← expect '-' rest)
  if 1 ≤ month ∧ month ≤ 12 ∧ 1 ≤ day ∧ day ≤ 31 then some ((year, month, day), rest) else none

/-- The text after a time of day: hours, minutes, seconds and perhaps a fraction. -/
def afterTime? (text : List Char) : Option (List Char) := do
  let (hour, rest) ← fixedDigits? 2 text
  let (minute, rest) ← fixedDigits? 2 (← expect ':' rest)
  let (second, rest) ← fixedDigits? 2 (← expect ':' rest)
  if hour ≤ 23 ∧ minute ≤ 59 ∧ second ≤ 59 then
    match rest with
    | '.' :: c :: more =>
      if isAsciiDigit c then some (more.dropWhile isAsciiDigit) else some rest
    | _ => some rest
  else none

/-- The text after the distance from universal time, if one stands there. -/
def afterZone (text : List Char) : List Char :=
  match text with
  | 'Z' :: rest => rest
  | 'z' :: rest => rest
  | c :: rest =>
    let zone : Option (List Char) := do
      let (hour, rest) ← fixedDigits? 2 rest
      let (minute, rest) ← fixedDigits? 2 (← expect ':' rest)
      if hour ≤ 23 ∧ minute ≤ 59 then some rest else none
    if c == '+' || c == '-' then zone.getD text else text
  | [] => text

/-- The text after the time of day that may follow a date. -/
def afterDateTime (text : List Char) : List Char :=
  match text with
  | c :: rest =>
    if c == 'T' || c == 't' || c == ' ' then
      match afterTime? rest with
      | some after => afterZone after
      | none => text
    else text
  | [] => text

/-- What a text begins with that looks like a point in time. -/
inductive Moment where
  | none
  | invalid
  | valid (spelling : List Char) (rest : List Char)

/-- The point in time at the beginning of a text. What has the form of a date and is no day of the
calendar is invalid. -/
def moment (text : List Char) : Moment :=
  let upTo (rest : List Char) : Moment := .valid (text.take (text.length - rest.length)) rest
  match date? text with
  | some ((year, month, day), rest) =>
    if 1 ≤ year ∧ day ≤ daysOf year month then upTo (afterDateTime rest) else .invalid
  | none => match afterTime? text with
    | some rest => upTo rest
    | none => .none

end MarkupIndent.Settings.Toml
