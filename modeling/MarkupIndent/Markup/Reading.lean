import MarkupIndent.Markup.Lexeme
import MarkupIndent.Markup.ReadError

/-!
# Reading a text piece by piece

A `Reading` is the unread rest of a text, the place where it begins, and the tokens read so far.
It moves in two ways only: `emit` turns the next characters into a token, and `skip` passes over
them. Every other step is made of these, so a fact about the tokens read so far has to be checked
for `emit` and `skip` alone.

* `rest_emit`, `rest_skip`: both drop what they read.
* `length_emit_lt`: a token makes the rest shorter, which is why reading ends.
-/

namespace MarkupIndent.Markup

open Text

/-- A sequence of two steps succeeds when both do. -/
theorem bind_eq_ok {ε α β : Type} {x : Except ε α} {f : α → Except ε β} {b : β} :
    (x >>= f) = .ok b ↔ ∃ a, x = .ok a ∧ f a = .ok b := by
  cases x <;> simp [bind, Except.bind]

theorem map_eq_ok {ε α β : Type} {x : Except ε α} {f : α → β} {b : β} :
    x.map f = .ok b ↔ ∃ a, x = .ok a ∧ f a = b := by
  cases x <;> simp [Except.map]

/-- A text that is read up to a place. -/
structure Reading where
  rest : List Char
  place : Cursor
  tokens : Array Token

namespace Reading

/-- A text of which nothing is read. -/
def start (text : List Char) : Reading := ⟨text, .start, #[]⟩

/-- Pass over the next `n` characters. -/
def skip (n : Nat) (r : Reading) : Reading :=
  { r with rest := r.rest.drop n, place := r.place.over (r.rest.take n) }

/-- Make a token of the next `n` characters. -/
def emit (kind : TokenKind) (n : Nat) (r : Reading) : Reading :=
  let token : Token :=
    { index := r.tokens.size
      kind := kind
      text := r.rest.take n
      start := r.place.offset
      stop := r.place.offset + n
      line := r.place.line
      column := r.place.column }
  { r.skip n with tokens := r.tokens.push token }

/-- The index of the next token. -/
def next (r : Reading) : Nat := r.tokens.size

/-- The index of the token read last. -/
def last (r : Reading) : Nat := r.tokens.size - 1

/-- The rest begins with a word. -/
def startsWith (word : List Char) (r : Reading) : Bool :=
  word.isPrefixOf r.rest

/-- Pass over blanks. -/
def skipBlanks (r : Reading) : Reading :=
  r.skip (r.rest.takeWhile isBlank).length

/-- The error of a cause at the place of a reading. -/
def fail (r : Reading) (fault : ReadFault) : ReadError :=
  fault.at r.place

/-- Read stretches: content becomes tokens of one kind, and blanks tokens of another kind or
nothing. -/
def readStretches (blank : Option TokenKind) (content : TokenKind) :
    List Stretch → Reading → Reading
  | [], r => r
  | .blank n :: rest, r =>
    readStretches blank content rest (match blank with
      | some kind => r.emit kind n
      | none => r.skip n)
  | .content n :: rest, r => readStretches blank content rest (r.emit content n)

/-- Read the next `n` characters as stretches. -/
def run (blank : Option TokenKind) (content : TokenKind) (n : Nat) (r : Reading) : Reading :=
  readStretches blank content (stretches (r.rest.take n)) r

/-! ## The rest after a step -/

@[simp] theorem rest_skip (n : Nat) (r : Reading) : (r.skip n).rest = r.rest.drop n := rfl

@[simp] theorem rest_emit (kind : TokenKind) (n : Nat) (r : Reading) :
    (r.emit kind n).rest = r.rest.drop n := rfl

theorem rest_skipBlanks (r : Reading) : r.skipBlanks.rest = r.rest.dropWhile isBlank := by
  have key : ∀ text : List Char,
      text.drop (text.takeWhile isBlank).length = text.dropWhile isBlank := by
    intro text
    induction text with
    | nil => rfl
    | cons c rest ih => by_cases h : isBlank c <;> simp [h, ih]
  exact key r.rest

theorem length_skipBlanks_le (r : Reading) : r.skipBlanks.rest.length ≤ r.rest.length := by
  simp [skipBlanks]

theorem length_emit_le (kind : TokenKind) (n : Nat) (r : Reading) :
    (r.emit kind n).rest.length ≤ r.rest.length := by
  simp

theorem length_emit_lt (kind : TokenKind) (n : Nat) {r : Reading} (hn : 0 < n)
    (hr : r.rest ≠ []) : (r.emit kind n).rest.length < r.rest.length := by
  have : 0 < r.rest.length := List.length_pos_iff.mpr hr
  simp only [rest_emit, List.length_drop]
  omega

theorem totalLength_stretches (text : List Char) :
    totalLength (stretches text) = text.length := by
  fun_induction stretches text with
  | case1 => rfl
  | case2 c rest hb n ih =>
    have hn : n ≤ rest.length := (List.takeWhile_prefix isBlank).length_le
    simp only [totalLength, Stretch.length, ih, List.length_drop, List.length_cons]
    omega
  | case3 c rest hb n ih =>
    have hle : ∀ cs : List Char, contentTail cs ≤ cs.length := by
      intro cs
      fun_induction contentTail cs <;> simp_all
    have hn : n ≤ rest.length := hle rest
    simp only [totalLength, Stretch.length, ih, List.length_drop, List.length_cons]
    omega

theorem rest_readStretches (blank : Option TokenKind) (content : TokenKind)
    (parts : List Stretch) (r : Reading) :
    (readStretches blank content parts r).rest =
      r.rest.drop (totalLength parts) := by
  induction parts generalizing r with
  | nil => simp [readStretches, totalLength]
  | cons s rest ih =>
    cases s with
    | blank n => cases blank <;> simp [readStretches, ih, totalLength, Stretch.length, List.drop_drop]
    | content n => simp [readStretches, ih, totalLength, Stretch.length, List.drop_drop]

theorem rest_run (blank : Option TokenKind) (content : TokenKind) (n : Nat) (r : Reading) :
    (r.run blank content n).rest = r.rest.drop n := by
  rw [run, rest_readStretches, totalLength_stretches, List.length_take]
  rcases Nat.le_total n r.rest.length with h | h
  · rw [Nat.min_eq_left h]
  · rw [Nat.min_eq_right h, List.drop_length, List.drop_eq_nil_of_le h]

end Reading

end MarkupIndent.Markup
