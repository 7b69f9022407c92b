/-!
# Lines and columns

Lines end at `\n` alone and count from one; columns and offsets count characters from zero.
A position is found in two ways that agree: a `Cursor` is carried along while reading, and a
`LineTable` is looked up afterwards.

* `Cursor`, `Cursor.over`: the position after a stretch of text.
* `LineTable.ofText`: the start of every line, each with the text from there on.
* `LineTable.lineOf`, `LineTable.start?`: from an offset to its line and from a line to its start.
-/

namespace MarkupIndent.Text

/-! ## Carrying a position along -/

/-- A place in a text: the number of characters before it, its line and its column. -/
structure Cursor where
  offset : Nat
  line : Nat
  column : Nat
  deriving DecidableEq, Repr

/-- The beginning of a text. -/
def Cursor.start : Cursor := ⟨0, 1, 0⟩

/-- The place after one more character. -/
def Cursor.step (p : Cursor) (c : Char) : Cursor :=
  if c = '\n' then ⟨p.offset + 1, p.line + 1, 0⟩ else ⟨p.offset + 1, p.line, p.column + 1⟩

/-- The place after a stretch of text. -/
def Cursor.over (p : Cursor) (text : List Char) : Cursor :=
  text.foldl Cursor.step p

@[simp] theorem Cursor.over_nil (p : Cursor) : p.over [] = p := rfl

theorem Cursor.over_append (p : Cursor) (a b : List Char) :
    p.over (a ++ b) = (p.over a).over b :=
  List.foldl_append

theorem Cursor.offset_step (p : Cursor) (c : Char) : (p.step c).offset = p.offset + 1 := by
  unfold Cursor.step
  split <;> rfl

theorem Cursor.offset_over (p : Cursor) (text : List Char) :
    (p.over text).offset = p.offset + text.length := by
  induction text generalizing p with
  | nil => rfl
  | cons c rest ih =>
    have := ih (p.step c)
    simp only [Cursor.over, List.foldl_cons, List.length_cons] at this ⊢
    rw [this, Cursor.offset_step]
    omega

/-! ## Looking a position up -/

/-- A physical line: the offset of its first character and the text from there to the end. -/
structure Line where
  start : Nat
  rest : List Char

/-- The lines after the first of a text that stands at an offset. -/
def linesAfter (offset : Nat) : List Char → List Line
  | [] => []
  | c :: rest =>
    if c = '\n' then ⟨offset + 1, rest⟩ :: linesAfter (offset + 1) rest
    else linesAfter (offset + 1) rest

/-- All lines of a text, in order. There is one more than there are line ends. -/
structure LineTable where
  lines : Array Line

/-- The lines of a text. -/
def LineTable.ofText (text : List Char) : LineTable :=
  ⟨(⟨0, text⟩ :: linesAfter 0 text).toArray⟩

/-- The number of lines. -/
def LineTable.count (t : LineTable) : Nat :=
  t.lines.size

/-- The line that holds an offset: the number of lines that begin at or before it. -/
def LineTable.lineOf (t : LineTable) (offset : Int) : Nat :=
  t.lines.countP fun l => (l.start : Int) ≤ offset

/-- The line of a number. Lines count from one; zero and below count back from the last line. -/
def LineTable.line? (t : LineTable) (number : Int) : Option Line :=
  let i := number - 1
  let i := if i < 0 then i + t.count else i
  if i < 0 then none else t.lines[i.toNat]?

/-- The offset at which a line begins. -/
def LineTable.start? (t : LineTable) (number : Int) : Option Nat :=
  (t.line? number).map Line.start

/-- The characters of a text from one offset to another. -/
def Line.upTo (l : Line) (offset : Nat) : List Char :=
  l.rest.take (offset - l.start)

end MarkupIndent.Text
