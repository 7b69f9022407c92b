import MarkupIndent.Markup.Tag

/-!
# Growing the tree

The tree of a text grows from left to right. At any time there is a stack of constructs that are
open, each with the nodes that came before it, and the nodes that are complete at the innermost
level. One step reads one piece of markup: it opens a construct, closes the innermost one, or
completes a node.

* `OpenTree.step`: one piece of markup.
* `OpenTree.grow`: steps to the end of the text.
* `length_step_lt`: a step makes the rest shorter.
-/

namespace MarkupIndent.Markup

open Text

/-- An open construct, with the complete nodes before it, the latest first. A block also has its
earlier branches, the latest first, and the tag of the branch that is open. -/
inductive Frame where
  | element (name : List Char) (tag : StartTag) (opened : Cursor) (before : List Node)
  | block (keyword : List Char) (opened : Cursor) (finished : List Branch) (tag : BlockTag)
      (before : List Node)

/-- The error of a construct that is left open. -/
def Frame.unclosed : Frame → ReadError
  | .element name _ opened _ => (ReadFault.unclosedElement name).at opened
  | .block keyword opened _ _ _ => (ReadFault.unclosedBlock keyword).at opened

/-- A control block from the branch that ends it back to its opening tag. -/
def closeBlock (closeTag : BlockTag) (tag : BlockTag) (children : List Node)
    (later : List Branch) : List Branch → Node
  | [] => .control tag children later closeTag
  | b :: earlier => closeBlock closeTag b.tag b.children (.mk tag children :: later) earlier

/-- A tree that is grown up to a place: the open constructs, the innermost first, the complete
nodes inside the innermost, the latest first, and the text with its tokens. -/
structure OpenTree where
  frames : List Frame
  done : List Node
  reading : Reading

/-- Elements that have no content and no end tag. -/
def voidElements : List String :=
  ["area", "base", "br", "col", "embed", "hr", "img", "input", "link", "meta", "param", "source",
    "track", "wbr"]

/-- The lower-case name is that of an element without content. -/
def isVoid (name : List Char) : Bool :=
  voidElements.contains (String.ofList name)

namespace OpenTree

/-- A tree before its text is read. -/
def start (text : List Char) : OpenTree := ⟨[], [], .start text⟩

/-- The tree with one more complete node. -/
def push (t : OpenTree) (node : Node) (r : Reading) : OpenTree :=
  { t with done := node :: t.done, reading := r }

/-- Read a comment. -/
def comment (t : OpenTree) : Except ReadError OpenTree :=
  match commentEnd? (t.reading.rest.drop 4) with
  | none => .error (t.reading.fail .unterminatedComment)
  | some n =>
    .ok (t.push (.comment t.reading.next t.reading.next) (t.reading.emit .comment (n + 7)))

/-- Read a run of character data. -/
def text (t : OpenTree) : OpenTree :=
  let r := t.reading.run (some .htmlText) .htmlText (textTail t.reading.rest.tail + 1)
  t.push (.text t.reading.next r.last) r

/-- Read a mustache. -/
def mustache (t : OpenTree) : Except ReadError OpenTree := do
  let (m, r) ← t.reading.readMustache
  .ok (t.push (.mustache m) r)

/-- Read the content and the end tag of a raw element whose start tag is read. -/
def raw (t : OpenTree) (kind : RawKind) (tag : StartTag) (name : List Char) (r : Reading) :
    Except ReadError OpenTree :=
  match rawEnd? kind.name r.rest with
  | none => .error ((ReadFault.unclosedElement kind.name).at t.reading.place)
  | some n => do
    let s := r.run none .rawText n
    let (endTag, u) ← s.readEndTag name
    let language := Reading.language kind r.tokens tag.attributes
    .ok (t.push (.raw kind tag (List.range' r.next (s.next - r.next)) endTag language) u)

/-- Read a start tag. It completes a node if the element has no content; the content of a script
or style element is read with it; any other element is left open. -/
def openElement (t : OpenTree) : Except ReadError OpenTree := do
  let (tag, name, r) ← t.reading.readStartTag
  match RawKind.ofName? (lower name) with
  | some kind =>
    if tag.selfClosing then .ok (t.push (.element name tag [] none) r)
    else t.raw kind tag name r
  | none =>
    if tag.selfClosing || isVoid (lower name) then .ok (t.push (.element name tag [] none) r)
    else .ok ⟨.element name tag t.reading.place t.done :: t.frames, [], r⟩

/-- Read an end tag, which closes the innermost construct. -/
def closeElement (t : OpenTree) : Except ReadError OpenTree :=
  match t.frames with
  | [] => .error (t.reading.fail .unexpectedClosing)
  | .element name tag _ before :: frames => do
    let (endTag, r) ← t.reading.readEndTag name
    .ok ⟨frames, .element name tag t.done.reverse (some endTag) :: before, r⟩
  | f :: _ => .error f.unclosed

/-- Read the opening tag of a control block. -/
def openBlock (t : OpenTree) : Except ReadError OpenTree := do
  let (tag, r) ← t.reading.readBlockTag
  .ok ⟨.block tag.keyword t.reading.place [] tag t.done :: t.frames, [], r⟩

/-- Read the tag of a further branch. -/
def nextBranch (t : OpenTree) : Except ReadError OpenTree :=
  match t.frames with
  | [] => .error (t.reading.fail .unexpectedClosing)
  | .block keyword opened finished tag before :: frames => do
    let (next, r) ← t.reading.readBlockTag
    .ok ⟨.block keyword opened (.mk tag t.done.reverse :: finished) next before :: frames, [], r⟩
  | f :: _ => .error f.unclosed

/-- Read the closing tag of a control block, which repeats the keyword of the opening one. -/
def endBlock (t : OpenTree) : Except ReadError OpenTree :=
  match t.frames with
  | [] => .error (t.reading.fail .unexpectedClosing)
  | .block keyword _ finished tag before :: frames => do
    let (closeTag, r) ← t.reading.readBlockTag
    if closeTag.keyword ≠ keyword then .error (t.reading.fail (.expectedCloseTag keyword))
    else .ok ⟨frames, closeBlock closeTag tag t.done.reverse [] finished :: before, r⟩
  | f :: _ => .error f.unclosed

/-- Read one piece of markup from a place that is not the end of the text. -/
def step (t : OpenTree) : Except ReadError OpenTree :=
  if t.reading.startsWith ['<', '/'] then t.closeElement
  else if t.reading.startsWith ['{', ':'] then t.nextBranch
  else if t.reading.startsWith ['{', '/'] then t.endBlock
  else if t.reading.startsWith ['<', '!', '-', '-'] then t.comment
  else if t.reading.startsWith ['<'] && tagNameLength t.reading.rest.tail != 0 then t.openElement
  else if t.reading.startsWith ['{', '#'] then t.openBlock
  else if t.reading.startsWith ['{'] then t.mustache
  else .ok t.text

/-! ## A step makes the rest shorter -/

variable {t u : OpenTree}

theorem length_comment_lt (hr : t.reading.rest ≠ []) (h : t.comment = .ok u) :
    u.reading.rest.length < t.reading.rest.length := by
  unfold comment at h
  split at h
  · cases h
  · cases h
    exact Reading.length_emit_lt _ _ (by omega) hr

theorem length_text_lt (hr : t.reading.rest ≠ []) :
    t.text.reading.rest.length < t.reading.rest.length := by
  have : 0 < t.reading.rest.length := List.length_pos_iff.mpr hr
  simp only [text, push, Reading.rest_run, List.length_drop]
  omega

theorem length_mustache_lt (hr : t.reading.rest ≠ []) (h : t.mustache = .ok u) :
    u.reading.rest.length < t.reading.rest.length := by
  unfold mustache at h
  obtain ⟨⟨m, r⟩, h1, h⟩ := bind_eq_ok.mp h
  cases h
  exact Reading.length_readMustache_lt hr h1

theorem length_raw_le {kind : RawKind} {tag : StartTag} {name : List Char} {r : Reading}
    (h : t.raw kind tag name r = .ok u) : u.reading.rest.length ≤ r.rest.length := by
  unfold raw at h
  split at h
  · cases h
  · rename_i n _
    obtain ⟨⟨e, s⟩, h1, h⟩ := bind_eq_ok.mp h
    cases h
    by_cases hs : (r.run none .rawText n).rest = []
    · simp only [Reading.readEndTag, Reading.skipBlanks, Reading.rest_emit, Reading.rest_skip,
        hs] at h1
      split at h1
      · cases h1
      · split at h1
        · cases h1
          simp [push, hs]
        · cases h1
    · have := Reading.length_readEndTag_lt hs h1
      rw [Reading.rest_run, List.length_drop] at this
      simp only [push]
      omega

theorem length_openElement_lt (hr : t.reading.rest ≠ []) (h : t.openElement = .ok u) :
    u.reading.rest.length < t.reading.rest.length := by
  unfold openElement at h
  obtain ⟨⟨tag, name, r⟩, h1, h⟩ := bind_eq_ok.mp h
  have key := Reading.length_readStartTag_lt hr h1
  simp only at h
  split at h
  · split at h
    · cases h
      exact key
    · exact Nat.lt_of_le_of_lt (length_raw_le h) key
  · split at h <;> cases h <;> exact key

theorem length_closeElement_lt (hr : t.reading.rest ≠ []) (h : t.closeElement = .ok u) :
    u.reading.rest.length < t.reading.rest.length := by
  unfold closeElement at h
  split at h
  · cases h
  · obtain ⟨⟨e, r⟩, h1, h⟩ := bind_eq_ok.mp h
    cases h
    exact Reading.length_readEndTag_lt hr h1
  · cases h

theorem length_openBlock_lt (hr : t.reading.rest ≠ []) (h : t.openBlock = .ok u) :
    u.reading.rest.length < t.reading.rest.length := by
  unfold openBlock at h
  obtain ⟨⟨b, r⟩, h1, h⟩ := bind_eq_ok.mp h
  cases h
  exact Reading.length_readBlockTag_lt hr h1

theorem length_nextBranch_lt (hr : t.reading.rest ≠ []) (h : t.nextBranch = .ok u) :
    u.reading.rest.length < t.reading.rest.length := by
  unfold nextBranch at h
  split at h
  · cases h
  · obtain ⟨⟨b, r⟩, h1, h⟩ := bind_eq_ok.mp h
    cases h
    exact Reading.length_readBlockTag_lt hr h1
  · cases h

theorem length_endBlock_lt (hr : t.reading.rest ≠ []) (h : t.endBlock = .ok u) :
    u.reading.rest.length < t.reading.rest.length := by
  unfold endBlock at h
  split at h
  · cases h
  · obtain ⟨⟨b, r⟩, h1, h⟩ := bind_eq_ok.mp h
    simp only at h
    split at h
    · cases h
    · cases h
      exact Reading.length_readBlockTag_lt hr h1
  · cases h

theorem length_step_lt (hr : t.reading.rest ≠ []) (h : t.step = .ok u) :
    u.reading.rest.length < t.reading.rest.length := by
  unfold step at h
  split at h
  · exact length_closeElement_lt hr h
  split at h
  · exact length_nextBranch_lt hr h
  split at h
  · exact length_endBlock_lt hr h
  split at h
  · exact length_comment_lt hr h
  split at h
  · exact length_openElement_lt hr h
  split at h
  · exact length_openBlock_lt hr h
  split at h
  · exact length_mustache_lt hr h
  · cases h
    exact length_text_lt hr

/-- Read to the end of the text. -/
def grow (t : OpenTree) : Except ReadError OpenTree :=
  match _hr : t.reading.rest with
  | [] => .ok t
  | _ :: _ =>
    match _ht : t.step with
    | .error e => .error e
    | .ok u => u.grow
termination_by t.reading.rest.length
decreasing_by exact length_step_lt (by simp [_hr]) _ht

end OpenTree

end MarkupIndent.Markup
