import MarkupIndent.Text.Lower

/-!
# Paths

A path names a place from the root or from the working directory by its parts. Parts that say
nothing are left out when a path is read; the step to the parent directory is kept, because what
it means depends on what the directories are.

* `Path.ofString`, `Path.toString`: reading and writing.
* `Path.extension`: the ending of a path's name.
-/

namespace MarkupIndent.Files

/-- A path. The root is empty for a path from the working directory. -/
structure Path where
  root : String := ""
  parts : List String
  deriving DecidableEq, Repr, Inhabited

/-- The step to the parent directory. -/
def parentStep : String := ".."

/-- The part says nothing. -/
def isIdlePart (part : List Char) : Bool :=
  part.isEmpty || part == ['.']

/-- The pieces of a text between slashes. -/
def splitSlashes : List Char → List (List Char)
  | [] => [[]]
  | c :: rest =>
    if c = '/' then [] :: splitSlashes rest
    else match splitSlashes rest with
      | piece :: pieces => (c :: piece) :: pieces
      | [] => [[c]]

namespace Path

/-- The root of a text: exactly two slashes in front are a root of their own. -/
def rootOf (text : List Char) : String :=
  match (text.takeWhile (· == '/')).length with
  | 0 => ""
  | 2 => "//"
  | _ => "/"

/-- The path that a string spells. -/
def ofString (s : String) : Path where
  root := rootOf s.toList
  parts := ((splitSlashes s.toList).filter fun p => !isIdlePart p).map String.ofList

/-- The spelling of a path. The working directory is a dot. -/
protected def toString (p : Path) : String :=
  if p.root.isEmpty && p.parts.isEmpty then "." else p.root ++ "/".intercalate p.parts

/-- A part of a path has the character of number zero, which no name of a file has. -/
def hasNull (p : Path) : Bool :=
  p.parts.any fun part => part.toList.contains (Char.ofNat 0)

/-- The path of a part below a path. -/
def child (p : Path) (part : String) : Path :=
  { p with parts := p.parts ++ [part] }

/-- The path without its last part. -/
def parent (p : Path) : Path :=
  { p with parts := p.parts.dropLast }

/-- The ending of a name, from its last dot on. A dot that begins or ends the name begins no
ending. -/
def extensionOf (name : List Char) : List Char :=
  let ending := (name.reverse.takeWhile (· != '.')).reverse
  if ending.isEmpty || name.length ≤ ending.length + 1 then [] else '.' :: ending

/-- The ending of the name of a path. -/
def extension (p : Path) : List Char :=
  extensionOf ((p.parts.getLast?.getD "").toList)

end Path

end MarkupIndent.Files
