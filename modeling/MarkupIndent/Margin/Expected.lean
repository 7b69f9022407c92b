import MarkupIndent.Margin.OffsetGraph
import MarkupIndent.Margin.Unit
import MarkupIndent.Markup.Document

/-!
# Expected indentation

A line head is *checked* when it is the root, or when it has an entry whose base stands on another
line. The expected indentation of a checked head follows its entry to the base, from there to the
head of the base's line, and so on until it comes to the root or to a head that is not checked,
whose line keeps the indentation that it has.

* `Layout.link`: one step along this chain.
* `Layout.Resolves`: the indentation at the beginning of a chain, as a relation.
* `Layout.resolve`: the same by following the chain with a memo, or the cycle it runs into.
* `Layout.anchor`, `Layout.visual`: the indentation of a token's line, and a token's own column.
* `Layout.records`: expected and actual blanks of every checked line.
-/

namespace MarkupIndent.Margin

open Markup Text

/-- A document with its offset graph and the unit in which it is indented. -/
structure Layout where
  graph : OffsetGraph
  document : Document
  unit : IndentUnit

/-- The indentations that are known already, by the index of the head. -/
abbrev Memo := List (Nat × Indentation)

/-- One step along a chain: its end with an indentation, or a hop over an entry and its base to
another head. -/
inductive Link where
  | settled (indentation : Indentation)
  | hop (entry : OffsetEntry) (base head : Token)

namespace Layout

variable (l : Layout)

/-- The blanks before a token, as they are in the source. -/
def leadingText (t : Token) : Except Fault (List Char) :=
  match l.document.leadingText? t with
  | some blanks => .ok blanks
  | none => .error .outOfRange

/-- The indentation that a line has. -/
def actual (head : Token) : Except Fault Indentation := do
  let blanks ← l.leadingText head
  .ok (l.unit.measure blanks)

/-- The graph decides over a line. -/
def isChecked (head : Token) : Except Fault Bool :=
  if l.graph.root = some head.index then .ok true
  else do
    match ← l.graph.entry head.index with
    | none => .ok false
    | some e =>
      if e.kind = .pinned then .ok false
      else do
        let base ← l.graph.heads.token e.base
        let other ← l.graph.heads.headOf base
        .ok (other.index != head.index)

/-- The indentation of a token by that of the line of its base. -/
def adjust (e : OffsetEntry) (base head : Token) (i : Indentation) : Except Fault Indentation :=
  match e.kind with
  | .relative => .ok (l.unit.indent i e.weight)
  | .same => .ok i
  | .align =>
    .ok (if head.line = base.line then l.unit.shift i ((base.column : Int) - head.column) else i)
  | kind => .error (.unknownKind kind.label)

/-- The step of a head that is not the root. -/
def link (head : Token) : Except Fault Link := do
  match ← l.graph.entry head.index with
  | none => do
    let i ← l.actual head
    .ok (.settled i)
  | some e =>
    if e.kind = .pinned then do
      let i ← l.actual head
      .ok (.settled i)
    else do
      let base ← l.graph.heads.token e.base
      let other ← l.graph.heads.headOf base
      let checked ← l.isChecked other
      if checked then .ok (.hop e base other)
      else do
        let i ← l.actual other
        let i ← l.adjust e base other i
        .ok (.settled i)

/-- The indentation at the beginning of a chain. -/
inductive Resolves : Token → Indentation → Prop where
  | root {head : Token} : l.graph.root = some head.index → Resolves head .none
  | settled {head : Token} {i : Indentation} : l.graph.root ≠ some head.index →
      l.link head = .ok (.settled i) → Resolves head i
  | hop {head base other : Token} {e : OffsetEntry} {i j : Indentation} :
      l.graph.root ≠ some head.index → l.link head = .ok (.hop e base other) →
      Resolves other i → l.adjust e base other i = .ok j → Resolves head j

theorem index_lt_of_link {head : Token} {k : Link} (h : l.link head = .ok k) :
    head.index < l.graph.entries.size := by
  rcases Nat.lt_or_ge head.index l.graph.entries.size with hlt | hge
  · exact hlt
  · have : l.graph.entry head.index = .error .outOfRange := by
      simp [OffsetGraph.entry, Array.getElem?_eq_none hge]
    simp [link, this, bind, Except.bind] at h

/-- The number of indices below `n` that are not in a list. -/
def idle (n : Nat) (active : List Nat) : Nat :=
  (List.range n).countP fun i => !active.contains i

theorem idle_append_lt {n i : Nat} {active : List Nat} (hi : i < n) (ha : i ∉ active) :
    idle n (active ++ [i]) < idle n active := by
  unfold idle
  have key : ∀ xs : List Nat, i ∈ xs →
      xs.countP (fun j => !(active ++ [i]).contains j) <
        xs.countP fun j => !active.contains j := by
    intro xs
    induction xs with
    | nil => intro h; cases h
    | cons x rest ih =>
      intro h
      have hle : rest.countP (fun j => !(active ++ [i]).contains j) ≤
          rest.countP fun j => !active.contains j := by
        apply List.countP_mono_left
        intro j _ hj
        simp only [List.contains_append, Bool.not_or, Bool.and_eq_true] at hj
        exact hj.1
      simp only [List.countP_cons]
      by_cases hx : x = i
      · subst hx
        simp [ha]
        simp at hle
        omega
      · have hm : i ∈ rest := by
          rcases List.mem_cons.mp h with h | h
          · exact absurd h.symm hx
          · exact h
        have := ih hm
        have hc : ((active ++ [i]).contains x) = active.contains x := by
          simp [hx]
        rw [hc]
        omega
  exact key _ (List.mem_range.mpr hi)

/-- The expected indentation of a head, where the heads of `active` wait for it, the first of them
longest. What is found is added to the memo. -/
def resolveFrom (memo : Memo) (active : List Nat) (head : Token) :
    Except Fault (Indentation × Memo) :=
  match memo.lookup head.index with
  | some i => .ok (i, memo)
  | none =>
    if _ha : head.index ∈ active then
      .error (.cycle (active.dropWhile (· != head.index) ++ [head.index]))
    else if l.graph.root = some head.index then
      .ok (.none, (head.index, .none) :: memo)
    else
      match _hl : l.link head with
      | .error fault => .error fault
      | .ok (.settled i) => .ok (i, (head.index, i) :: memo)
      | .ok (.hop e base other) => do
        let (i, memo) ← resolveFrom memo (active ++ [head.index]) other
        let i ← l.adjust e base other i
        .ok (i, (head.index, i) :: memo)
termination_by idle l.graph.entries.size active
decreasing_by exact idle_append_lt (l.index_lt_of_link _hl) _ha

/-- The expected indentation of a head, with the memo after it. -/
def resolve (memo : Memo) (head : Token) : Except Fault (Indentation × Memo) :=
  l.resolveFrom memo [] head

/-- The indentation of the line of a token: the expected one if the line is checked, and the one
that it has otherwise. -/
def anchor (memo : Memo) (t : Token) : Except Fault (Indentation × Memo) := do
  let head ← l.graph.heads.headOf t
  if ← l.isChecked head then l.resolve memo head
  else do
    let i ← l.actual head
    .ok (i, memo)

/-- The column of a token, as an indentation, when its line has the indentation of its anchor. -/
def visual (memo : Memo) (t : Token) : Except Fault (Indentation × Memo) := do
  let head ← l.graph.heads.headOf t
  let (i, memo) ← l.anchor memo t
  if head.line = t.line then .ok (l.unit.shift i ((t.column : Int) - head.column), memo)
  else .ok (i, memo)

end Layout

/-! ## Records -/

/-- The expected and the actual blanks at the beginning of a checked line. -/
structure LineRecord where
  line : Nat
  token : Token
  expected : List Char
  actual : List Char
  deriving DecidableEq, Repr

/-- The line is indented as expected. -/
def LineRecord.agrees (r : LineRecord) : Bool :=
  r.expected == r.actual

namespace Layout

variable (l : Layout)

/-- The record of a line head, if its line is checked and begins with blanks, and the memo after
it. -/
def record? (memo : Memo) (head : Token) : Except Fault (Option LineRecord × Memo) := do
  if ← l.isChecked head then do
    let blanks ← l.leadingText head
    if blanks.all isBlank then do
      let (i, memo) ← l.resolve memo head
      .ok (some ⟨head.line, head, l.unit.render i, blanks⟩, memo)
    else .ok (none, memo)
  else .ok (none, memo)

/-- The records of line heads in turn. -/
def recordsOf (memo : Memo) : List Token → Except Fault (List LineRecord)
  | [] => .ok []
  | head :: rest => do
    let (record, memo) ← l.record? memo head
    let records ← recordsOf memo rest
    .ok (record.toList ++ records)

/-- The records of a document, in the order of its lines. -/
def records : Except Fault (List LineRecord) :=
  l.recordsOf [] l.graph.heads.lineHeads

end Layout

end MarkupIndent.Margin
