import MarkupIndent.Settings.Toml.Scalar
import MarkupIndent.Settings.Toml.Table

/-!
# Reading a TOML file

A file is a sequence of lines, each with a header, a key with a value, or neither, and perhaps a
comment. Only arrays and some strings go over line ends.

* `value?`: a value of any kind.
* `statements?`: the lines of a file.
* `read?`: the table that a file describes, or nothing if it is malformed.
-/

namespace MarkupIndent.Settings.Toml

/-! ## Keys -/

/-- A part of a key: bare, or quoted on one line. -/
def keyPart? : List Char → Option (List Char × List Char)
  | '"' :: rest => basicString rest
  | '\'' :: rest => literalString rest
  | text =>
    let word := text.takeWhile isBareKeyChar
    if word.isEmpty then none else some (word, text.drop word.length)

/-- The parts of a key, separated by dots with spaces around them. The first argument bounds their
number. -/
def keyWithin : (bound : Nat) → List Char → Option (List String × List Char)
  | 0, _ => none
  | bound + 1, text => do
    let (part, rest) ← keyPart? text
    match rest.dropWhile isSpace with
    | '.' :: rest => do
      let (parts, rest) ← keyWithin bound (rest.dropWhile isSpace)
      some (String.ofList part :: parts, rest)
    | rest => some ([String.ofList part], rest)

/-- A key, and the text after it and the spaces that follow. -/
def key? (text : List Char) : Option (List String × List Char) :=
  keyWithin (text.length + 1) text

/-! ## Values -/

/-- The text from the end of the line on, if nothing stands before it but a comment. A comment has
no control characters. -/
def afterComment? : List Char → Option (List Char)
  | '#' :: rest =>
    let comment := rest.takeWhile (· != '\n')
    if comment.any isControl then none else some (rest.drop comment.length)
  | rest => some rest

/-- The text after spaces, line ends and comments. The first argument bounds the comments. -/
def afterGapsWithin : (bound : Nat) → List Char → Option (List Char)
  | 0, text => some text
  | bound + 1, text =>
    match text.dropWhile fun c => isSpace c || c == '\n' with
    | '#' :: rest => do afterGapsWithin bound (← afterComment? ('#' :: rest))
    | rest => some rest

/-- The text after spaces, line ends and comments. -/
def afterGaps? (text : List Char) : Option (List Char) :=
  afterGapsWithin (text.length + 1) text

/-- A value that has no values inside. -/
def scalar (text : List Char) : Option (Value × List Char) :=
  match text with
  | '"' :: _ | '\'' :: _ => (string? text).map fun p => (.text (.whole (String.ofList p.1)), p.2)
  | 't' :: 'r' :: 'u' :: 'e' :: rest => some (.bool true, rest)
  | 'f' :: 'a' :: 'l' :: 's' :: 'e' :: rest => some (.bool false, rest)
  | _ => match moment text with
    | .valid spelling rest => some (.moment (String.ofList spelling), rest)
    | .invalid => none
    | .none => number? text

mutual

/-- A value. The first argument bounds the number of values and gaps inside. -/
def valueWithin : (bound : Nat) → List Char → Option (Value × List Char)
  | 0, _ => none
  | bound + 1, text =>
    match text with
    | '[' :: rest => do
      let (items, rest) ← itemsWithin bound (← afterGaps? rest)
      some (.list items, rest)
    | '{' :: rest =>
      match rest.dropWhile isSpace with
      | '}' :: rest => some (.table [], rest)
      | rest => do
        let (fields, rest) ← fieldsWithin bound [] rest
        some (.table (valueOfFields fields), rest)
    | _ => scalar text

/-- The items of an array up to its closing bracket. -/
def itemsWithin : (bound : Nat) → List Char → Option (List Value × List Char)
  | 0, _ => none
  | bound + 1, text =>
    match text with
    | ']' :: rest => some ([], rest)
    | _ => do
      let (item, rest) ← valueWithin bound text
      match ← afterGaps? rest with
      | ']' :: rest => some ([item], rest)
      | ',' :: rest => do
        let (items, rest) ← itemsWithin bound (← afterGaps? rest)
        some (item :: items, rest)
      | _ => none

/-- The fields of a table on one line up to its closing brace, after the fields read so far. -/
def fieldsWithin : (bound : Nat) → Fields → List Char → Option (Fields × List Char)
  | 0, _, _ => none
  | bound + 1, fields, text => do
    let (key, rest) ← key? text
    let (value, rest) ← valueWithin bound ((← expect '=' rest).dropWhile isSpace)
    let fields ← put 0 value key fields
    match rest.dropWhile isSpace with
    | '}' :: rest => some (fields, rest)
    | ',' :: rest => fieldsWithin bound fields (rest.dropWhile isSpace)
    | _ => none

end

/-- A value. -/
def value? (text : List Char) : Option (Value × List Char) :=
  valueWithin (2 * text.length + 1) text

/-! ## Lines -/

/-- What a line says. -/
inductive Statement where
  | table (key : List String)
  | array (key : List String)
  | pair (key : List String) (value : Value)

/-- The header of a table or of a table in an array. -/
def header? : List Char → Option (Statement × List Char)
  | '[' :: '[' :: rest => do
    let (key, rest) ← key? (rest.dropWhile isSpace)
    some (.array key, ← expect ']' (← expect ']' rest))
  | '[' :: rest => do
    let (key, rest) ← key? (rest.dropWhile isSpace)
    some (.table key, ← expect ']' rest)
  | _ => none

/-- A key with its value. -/
def pair? (text : List Char) : Option (Statement × List Char) := do
  let (key, rest) ← key? text
  let (value, rest) ← value? ((← expect '=' rest).dropWhile isSpace)
  some (.pair key value, rest)

/-- What a line says, if it says anything, and the text from the end of the line on. -/
def statement? (text : List Char) : Option (List Statement × List Char) := do
  let (said, rest) ← match text.dropWhile isSpace with
    | [] => some ([], [])
    | '\n' :: rest => some ([], '\n' :: rest)
    | '#' :: rest => some ([], '#' :: rest)
    | '[' :: rest => (header? ('[' :: rest)).map fun p => ([p.1], p.2)
    | text => (pair? text).map fun p => ([p.1], p.2)
  some (said, ← afterComment? (rest.dropWhile isSpace))

/-- The statements of lines in turn. The first argument bounds their number. -/
def statementsWithin : (bound : Nat) → List Char → Option (List Statement)
  | 0, _ => none
  | bound + 1, text => do
    let (said, rest) ← statement? text
    match rest with
    | [] => some said
    | '\n' :: rest => do
      let more ← statementsWithin bound rest
      some (said ++ more)
    | _ => none

/-- The statements of a file. -/
def statements? (text : List Char) : Option (List Statement) :=
  statementsWithin (text.length + 1) text

/-- A line end of two characters counts as one. -/
def plainLineEnds : List Char → List Char
  | '\r' :: '\n' :: rest => '\n' :: plainLineEnds rest
  | c :: rest => c :: plainLineEnds rest
  | [] => []

/-- A table that is being filled: the number of the section, its header, and the fields so far. -/
structure Filling where
  number : Nat
  header : List String
  fields : Fields

/-- Do what a line says. -/
def Filling.add (f : Filling) : Statement → Option Filling
  | .table key =>
    (openTable (f.number + 1) key f.fields).map fun fields => ⟨f.number + 1, key, fields⟩
  | .array key =>
    (openArray key f.fields).map fun fields => ⟨f.number + 1, key, fields⟩
  | .pair key value =>
    (putUnder f.number f.header key value f.fields).map fun fields => { f with fields := fields }

/-- The table that a file describes. -/
def read? (text : List Char) : Option (List (LooseText × Value)) := do
  let said ← statements? (plainLineEnds text)
  let f ← said.foldlM Filling.add ⟨0, [], []⟩
  some (valueOfFields f.fields)

end MarkupIndent.Settings.Toml
