import MarkupIndent.Text.Blank
import MarkupIndent.Text.Lower
import MarkupIndent.Markup.Token

/-!
# Lexemes

How far the pieces of a markup text reach. Each function looks at the text from a place on and
gives a number of characters; none of them looks back.

* names and values: `tagNameLength`, `attributeNameLength`, `unquotedLength?`;
* stretches of text: `textTail`, `stretches`;
* ends that are searched for: `commentEnd?`, `rawEnd?`;
* expressions: `expressionLexeme`.
-/

namespace MarkupIndent.Markup

open Text

/-! ## Names and values -/

/-- Characters of a tag name after its first letter. -/
def isTagNameChar (c : Char) : Bool :=
  isWord c || c == ':' || c == '.' || c == '-'

/-- The length of the tag name at a place, zero if there is none. -/
def tagNameLength : List Char → Nat
  | [] => 0
  | c :: rest => if isAsciiLetter c then 1 + (rest.takeWhile isTagNameChar).length else 0

/-- Characters of an attribute name. -/
def isAttributeNameChar (c : Char) : Bool :=
  !(isBlank c || c == '=' || c == '/' || c == '>' || c == '"' || c == '\'' || c == '{' || c == '}')

/-- The length of the attribute name at a place, zero if there is none. -/
def attributeNameLength (text : List Char) : Nat :=
  (text.takeWhile isAttributeNameChar).length

/-- Characters of an attribute value without quotes. -/
def isUnquotedChar (c : Char) : Bool :=
  !(isBlank c || c == '>' || c == '"' || c == '\'' || c == '=' || c.toNat == 0x60 || c == '{')

/-- The rest of an unquoted value after its first character: it ends before a blank, before the
end of the tag, or with the text. -/
def unquotedTail? : List Char → Option Nat
  | [] => some 0
  | c :: rest =>
    if isBlank c || c == '>' || (c == '/' && rest.head? == some '>') then some 0
    else if isUnquotedChar c then (unquotedTail? rest).map (· + 1)
    else none

/-- The length of the unquoted value at a place. -/
def unquotedLength? : List Char → Option Nat
  | [] => none
  | c :: rest => if isUnquotedChar c then (unquotedTail? rest).map (· + 1) else none

/-! ## Stretches of text -/

/-- What follows a less-than sign makes it the beginning of markup. -/
def opensMarkup : List Char → Bool
  | '/' :: _ => true
  | '!' :: '-' :: '-' :: _ => true
  | c :: _ => isAsciiLetter c
  | [] => false

/-- The rest of a run of character data after its first character. -/
def textTail : List Char → Nat
  | [] => 0
  | c :: rest =>
    if c == '{' || (c == '<' && opensMarkup rest) then 0 else textTail rest + 1

/-- A stretch of character data: blanks, or the content of one line from its first to its last
character that is not blank. -/
inductive Stretch where
  | blank (length : Nat)
  | content (length : Nat)
  deriving DecidableEq, Repr

/-- The number of characters of a stretch. -/
def Stretch.length : Stretch → Nat
  | .blank length => length
  | .content length => length

/-- The number of characters in stretches. -/
def totalLength : List Stretch → Nat
  | [] => 0
  | s :: rest => s.length + totalLength rest

/-- The rest of a line's content after its first character. -/
def contentTail : List Char → Nat
  | [] => 0
  | c :: rest =>
    if c == '\n' then 0
    else match contentTail rest with
      | 0 => if isBlank c then 0 else 1
      | n + 1 => n + 2

/-- A text as stretches, blank and content in turn. -/
def stretches : List Char → List Stretch
  | [] => []
  | c :: rest =>
    if isBlank c then
      let n := (rest.takeWhile isBlank).length
      .blank (n + 1) :: stretches (rest.drop n)
    else
      let n := contentTail rest
      .content (n + 1) :: stretches (rest.drop n)
termination_by text => text.length
decreasing_by all_goals simp only [List.length_drop, List.length_cons]; omega

/-! ## Ends that are searched for -/

/-- The characters before the end mark of a comment. -/
def commentEnd? : List Char → Option Nat
  | [] => none
  | '-' :: '-' :: '>' :: _ => some 0
  | _ :: rest => (commentEnd? rest).map (· + 1)

/-- What is left of a text after a word, where case is ignored. The word is in small letters. -/
def dropWord? : List Char → List Char → Option (List Char)
  | [], text => some text
  | _ :: _, [] => none
  | w :: word, c :: text => if sameLetter w c then dropWord? word text else none

/-- The closing tag of a raw element stands at a place. -/
def closesRaw (name : List Char) : List Char → Bool
  | '<' :: '/' :: rest =>
    match dropWord? name (trimLeft rest) with
    | some rest => (trimLeft rest).head? == some '>'
    | none => false
  | _ => false

/-- The characters before the closing tag of a raw element. -/
def rawEnd? (name : List Char) : List Char → Option Nat
  | [] => none
  | c :: rest =>
    if closesRaw name (c :: rest) then some 0 else (rawEnd? name rest).map (· + 1)

/-! ## Expressions -/

/-- The rest of a string after its opening quote, up to and with the closing one. A backslash
takes the next character with it. -/
def stringTail? (quote : Char) : List Char → Option Nat
  | [] => none
  | '\\' :: [] => none
  | '\\' :: _ :: rest => (stringTail? quote rest).map (· + 2)
  | c :: rest => if c == quote then some 1 else (stringTail? quote rest).map (· + 1)

/-- The three quotes of strings and templates. -/
def isQuote (c : Char) : Bool :=
  c == '\'' || c == '"' || c.toNat == 0x60

/-- First characters of a name in an expression. -/
def isNameStart (c : Char) : Bool :=
  isAsciiLetter c || c == '_' || c == '$'

/-- Operators of several characters; of two that fit, the earlier wins. -/
def operators : List (List Char) :=
  [['=', '>'], ['.', '.', '.'], ['=', '=', '='], ['!', '=', '='], ['=', '='], ['!', '='],
    ['<', '='], ['>', '='], ['&', '&'], ['|', '|'], ['?', '?'], ['?', '.']]

/-- Punctuation of one character. -/
def punctuation : List Char :=
  ['-', '+', '*', '/', '%', '<', '>', '=', '!', '&', '|', '^', '~', '?', ':', ';', ',', '.',
    '(', ')', '[', ']', '{', '}', '@', '#']

/-- The token at a place inside an expression: its kind and the number of characters after the
first. A string is one token if it is closed; a quote that opens no string is a token by itself,
and so is any other character that begins nothing. -/
def expressionLexeme (c : Char) (rest : List Char) : TokenKind × Nat :=
  match if isQuote c then stringTail? c rest else none with
  | some n => (.expression, n)
  | none =>
    if isDigit c then (.expression, (rest.takeWhile fun d => isWord d || d == '.').length)
    else if isNameStart c then (.expression, (rest.takeWhile fun d => isWord d || d == '$').length)
    else match operators.find? fun op => op.isPrefixOf (c :: rest) with
      | some op => (.punctuator, op.length - 1)
      | none => (if punctuation.contains c then .punctuator else .expression, 0)

end MarkupIndent.Markup
