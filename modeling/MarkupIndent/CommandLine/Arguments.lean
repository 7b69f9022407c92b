import MarkupIndent.Text.Numeral

/-!
# Command-line arguments

A command line is a sequence of words. Words that begin with a dash name an option, in full or by a
beginning that no other option shares; the others are paths, which have to stand together. A word
of two dashes ends the options. First all words are sorted into kinds, then they are taken in turn.

* `Arguments`: what a command line asks for.
* `Arguments.ofWords`: reading a command line.
-/

namespace MarkupIndent.CommandLine

open Text

/-- An option. -/
inductive Switch where
  | help
  | fix
  | configRoot
  | indent
  | alignAttributes
  | keepRaw
  | maxTokens
  | auditLog
  deriving DecidableEq, Repr

/-- The names of the options. -/
def switchNames : List (String × Switch) := [
  ("-h", .help),
  ("--help", .help),
  ("--fix", .fix),
  ("--config-root", .configRoot),
  ("--indent", .indent),
  ("--align-attributes", .alignAttributes),
  ("--no-indent-script-and-style", .keepRaw),
  ("--max-tokens", .maxTokens),
  ("--audit-log", .auditLog)]

/-- The option takes a value. -/
def Switch.takesValue : Switch → Bool
  | .configRoot | .indent | .maxTokens | .auditLog => true
  | .help | .fix | .alignAttributes | .keepRaw => false

/-- Why there are no arguments to work with. -/
inductive Stop where
  /-- Help was asked for. -/
  | help
  /-- The command line is wrong. -/
  | misuse
  deriving DecidableEq, Repr

/-- The exit status that a stop leads to. -/
def Stop.status : Stop → Nat
  | .help => 0
  | .misuse => 2

/-! ## Words -/

/-- A word of a command line. -/
inductive Word where
  /-- A path or the value of an option. -/
  | value (s : String)
  /-- An option, perhaps with a value after an equals sign. -/
  | switch (w : Switch) (attached : Option String)
  /-- The short option for help with letters after it, perhaps behind an equals sign. -/
  | cluster (letters : List Char)
  /-- Something like an option that does not exist. -/
  | unknown
  /-- The end of the options. -/
  | separator
  deriving DecidableEq, Repr

/-- The option of one letter. -/
def shortHelp : List Char := ['-', 'h']

/-- Two dashes. -/
def separatorText : String := "--"

/-- The option of a full name. -/
def named? (name : List Char) : Option Switch :=
  (switchNames.find? fun e => e.1.toList == name).map Prod.snd

/-- The options whose names begin with a text. -/
def beginningWith (start : List Char) : List Switch :=
  (switchNames.filter fun e => start.isPrefixOf e.1.toList).map Prod.snd

/-- The parts of a word before and after its first equals sign. -/
def splitEquals (word : List Char) : List Char × Option (List Char) :=
  let name := word.takeWhile (· != '=')
  match word.drop name.length with
  | [] => (name, none)
  | _ :: value => (name, some value)

/-- The text is a negative number, whole or with a point. A line end may follow. -/
def isNegativeNumber (word : List Char) : Bool :=
  match word with
  | '-' :: rest =>
    let rest := if rest.getLast? = some '\n' then rest.dropLast else rest
    let whole := rest.takeWhile isDigit
    match rest.drop whole.length with
    | [] => !whole.isEmpty
    | '.' :: decimals => !decimals.isEmpty && decimals.all isDigit
    | _ => false
  | _ => false

/-- The kind of a word that is no full name. -/
def unnamedWord (word : List Char) : Except Stop Word :=
  let (name, value) := splitEquals word
  let found := match word with
    | '-' :: '-' :: _ => (beginningWith name).map fun w => Word.switch w (value.map String.ofList)
    | '-' :: 'h' :: letters => [.cluster letters]
    | _ => []
  match found with
  | [w] => .ok w
  | _ :: _ :: _ => .error .misuse
  | [] =>
    if isNegativeNumber word || word.contains ' ' then .ok (.value (String.ofList word))
    else .ok .unknown

/-- The kind of a word before the end of the options. A dash alone is a value. -/
def wordOf (word : List Char) : Except Stop Word :=
  match word with
  | ['-'] => .ok (.value (String.ofList word))
  | '-' :: _ =>
    match named? word, splitEquals word with
    | some w, _ => .ok (.switch w none)
    | none, (name, some value) =>
      if name = shortHelp then .ok (.cluster value)
      else match named? name with
        | some w => .ok (.switch w (some (String.ofList value)))
        | none => unnamedWord word
    | none, (_, none) => unnamedWord word
  | _ => .ok (.value (String.ofList word))

/-- The kinds of all words. -/
def wordsOf : List String → Except Stop (List Word)
  | [] => .ok []
  | s :: rest =>
    if s = separatorText then .ok (.separator :: rest.map .value)
    else do
      let w ← wordOf s.toList
      let ws ← wordsOf rest
      .ok (w :: ws)

/-! ## Arguments -/

/-- What an option was given. Two dashes after an equals sign are no value. -/
inductive Given (α : Type) where
  | value (a : α)
  | nothing
  deriving DecidableEq, Repr

/-- What stands after an equals sign. -/
def Given.ofAttached (s : String) : Given String :=
  if s = separatorText then .nothing else .value s

/-- What a command line asks for. -/
structure Arguments where
  paths : List String := []
  fix : Bool := false
  configRoot : Given String := .value "."
  indent : Option (Given String) := none
  alignAttributes : Bool := false
  keepRaw : Bool := false
  maxTokens : Option (Given Int) := none
  auditLog : Option (Given String) := none
  deriving DecidableEq, Repr

/-- How far the paths have been read. -/
inductive PathsState where
  | awaited
  | open
  | closed
  deriving DecidableEq, Repr

/-- The arguments that were read so far. `surplus` says that some words have no place. -/
structure Progress where
  arguments : Arguments := {}
  state : PathsState := .awaited
  surplus : Bool := false

/-- Paths that have begun end before anything else. -/
def Progress.closePaths (p : Progress) : Progress :=
  match p.state with
  | .open => { p with state := .closed }
  | _ => p

/-- Take a word that belongs to no option. -/
def Progress.addPath (p : Progress) (s : String) : Progress :=
  match p.state with
  | .closed => { p with surplus := true }
  | _ => { p with
      arguments := { p.arguments with paths := p.arguments.paths ++ [s] }
      state := .open }

/-- Take the end of the options. It has a place only where paths may stand. -/
def Progress.addSeparator (p : Progress) : Progress :=
  match p.state with
  | .closed => { p with surplus := true }
  | _ => p

/-- Take an option without a value. -/
def Progress.turnOn (p : Progress) (w : Switch) : Except Stop Progress :=
  let p := p.closePaths
  match w with
  | .help => .error .help
  | .fix => .ok { p with arguments := { p.arguments with fix := true } }
  | .alignAttributes => .ok { p with arguments := { p.arguments with alignAttributes := true } }
  | .keepRaw => .ok { p with arguments := { p.arguments with keepRaw := true } }
  | .configRoot | .indent | .maxTokens | .auditLog => .error .misuse

/-- The number that an option was given. -/
def wholeNumber : Given String → Except Stop (Given Int)
  | .nothing => .ok .nothing
  | .value s => match readInteger? s.toList with
    | some n => .ok (.value n)
    | none => .error .misuse

/-- Take an option with what it was given. -/
def Progress.assign (p : Progress) (w : Switch) (given : Given String) : Except Stop Progress :=
  let p := p.closePaths
  match w with
  | .configRoot => .ok { p with arguments := { p.arguments with configRoot := given } }
  | .indent => .ok { p with arguments := { p.arguments with indent := some given } }
  | .auditLog => .ok { p with arguments := { p.arguments with auditLog := some given } }
  | .maxTokens => do
    let n ← wholeNumber given
    .ok { p with arguments := { p.arguments with maxTokens := some n } }
  | .help | .fix | .alignAttributes | .keepRaw => .error .misuse

/-- What the letters after the short option for help lead to: each has to name that option again. -/
def clusterStop (letters : List Char) : Stop :=
  if !letters.isEmpty && letters.all (· == 'h') then .help else .misuse

/-- Take words in turn. -/
def Progress.take (p : Progress) : List Word → Except Stop Progress
  | [] => .ok p
  | .value s :: rest => (p.addPath s).take rest
  | .separator :: rest => p.addSeparator.take rest
  | .unknown :: rest => { p.closePaths with surplus := true }.take rest
  | .cluster letters :: _ => .error (clusterStop letters)
  | .switch w attached :: rest =>
    if w.takesValue then
      match attached, rest with
      | some value, rest => do (← p.assign w (.ofAttached value)).take rest
      | none, .value value :: rest => do (← p.assign w (.value value)).take rest
      | none, _ => .error .misuse
    else match attached with
      | some _ => .error .misuse
      | none => do (← p.turnOn w).take rest

/-- The arguments, if there are paths and no word is left over. -/
def Progress.finish (p : Progress) : Except Stop Arguments :=
  if p.surplus || p.arguments.paths.isEmpty then .error .misuse else .ok p.arguments

/-- The arguments of a command line. -/
def Arguments.ofWords (words : List String) : Except Stop Arguments := do
  let p ← Progress.take {} (← wordsOf words)
  p.finish

end MarkupIndent.CommandLine
