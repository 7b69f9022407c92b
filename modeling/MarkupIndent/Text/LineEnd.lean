/-!
# Line ends

A line of a file may end in a line feed, a carriage return, or one of each. Everything here works
on texts in which all lines end in a line feed.

* `unifyLineEnds`: a text with line feeds only.
* `splitLines`: the lines of such a text; what follows the last line end is a line too.
-/

namespace MarkupIndent.Text

/-- The text with every line end written as a line feed. -/
def unifyLineEnds : List Char → List Char
  | [] => []
  | '\r' :: '\n' :: rest => '\n' :: unifyLineEnds rest
  | c :: rest => (if c = '\r' then '\n' else c) :: unifyLineEnds rest

/-- The lines of a text, without their line ends. -/
def splitLines : List Char → List (List Char)
  | [] => [[]]
  | c :: rest =>
    if c = '\n' then [] :: splitLines rest
    else match splitLines rest with
      | line :: lines => (c :: line) :: lines
      | [] => [[c]]

end MarkupIndent.Text
