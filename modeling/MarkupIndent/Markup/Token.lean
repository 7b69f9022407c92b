/-!
# Tokens

A token is a stretch of the source with its kind and its place. The tokens of a document stand in
the order of the source and do not overlap; between them the source has only blanks.

* `Token.endLine`: the line of a token's last character.
* `Token.isBlank`: the blank stretches of text between tags, which no rule of indentation sees.
-/

namespace MarkupIndent.Markup

/-- What a token is made of. -/
inductive TokenKind where
  | htmlText
  | punctuator
  | name
  | literal
  | expression
  | rawText
  | comment
  deriving DecidableEq, Repr

/-- The name of a kind in listings. -/
def TokenKind.label : TokenKind → String
  | .htmlText => "html-text"
  | .punctuator => "punctuator"
  | .name => "name"
  | .literal => "literal"
  | .expression => "expression"
  | .rawText => "raw-text"
  | .comment => "comment"

/-- Every kind, once. -/
def TokenKind.all : List TokenKind :=
  [.htmlText, .punctuator, .name, .literal, .expression, .rawText, .comment]

/-- The kind of a name. -/
def TokenKind.ofLabel? (label : String) : Option TokenKind :=
  TokenKind.all.find? fun k => k.label == label

theorem TokenKind.ofLabel?_label (k : TokenKind) : TokenKind.ofLabel? k.label = some k := by
  cases k <;> rfl

/-- A token: its place in the sequence, its kind and text, the offsets `[start, stop)` that it
covers, and the line (from one) and column (from zero) of its first character. -/
structure Token where
  index : Nat
  kind : TokenKind
  text : List Char
  start : Nat
  stop : Nat
  line : Nat
  column : Nat
  deriving DecidableEq, Repr

/-- The line that holds the last character. A line end that is itself the last character still
belongs to the line that it ends. -/
def Token.endLine (t : Token) : Nat :=
  t.line + t.text.dropLast.count '\n'

/-- The token goes over a line end. -/
def Token.spansLines (t : Token) : Bool :=
  t.endLine != t.line

/-- Text between tags that is made of spaces, tabs and line ends only. Other white space, such
as a no-break space, is content. -/
def Token.isBlank (t : Token) : Bool :=
  t.kind == .htmlText && t.text.all fun c => c == ' ' || c == '\t' || c == '\r' || c == '\n'

/-- A token that rules of indentation see. -/
def Token.isSignificant (t : Token) : Bool :=
  !t.isBlank

/-- How a token takes part in the layout. -/
inductive TokenClass where
  | whitespace
  | structural
  | content
  deriving DecidableEq, Repr

/-- The name of a class in listings. -/
def TokenClass.label : TokenClass → String
  | .whitespace => "whitespace"
  | .structural => "structural"
  | .content => "content"

/-- The class of a token. -/
def Token.classify (t : Token) : TokenClass :=
  if t.isBlank then .whitespace
  else if t.kind = .punctuator then .structural
  else .content

end MarkupIndent.Markup
