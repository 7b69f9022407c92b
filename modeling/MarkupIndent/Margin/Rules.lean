import MarkupIndent.Margin.Indenter
import MarkupIndent.Margin.Unit
import MarkupIndent.Settings.Basic

/-!
# The rules of indentation

Every kind of node declares how the tokens within it hang on its first token. A node declares
before its children do, so the innermost node that speaks of a token decides. A node whose label
is ignored keeps its lines as they are, its first token apart, and nothing within it is asked.

* `nodeLabel`, `partLabel`: what an ignored node is called.
* `Rules.ofNode`, `Rules.ofPart`: the declarations of a node and of a part.
* `OffsetGraph.build`: the graph of a document.
-/

namespace MarkupIndent.Margin

open Markup Settings Text

/-! ## Labels -/

/-- The name of a raw element. -/
def rawLabel (kind : RawKind) : List Char := kind.name

/-- The label of an attribute: its key, in lower case. -/
def attributeLabel (tokens : Array Token) (a : Attribute) : List Char :=
  match a.key with
  | some key => lower ((tokens[key]?).elim [] Token.text)
  | none => "attribute".toList

/-- The label of a node. -/
def nodeLabel : Node → List Char
  | .text .. => "text".toList
  | .comment .. => "comment".toList
  | .mustache _ => "mustache".toList
  | .element name _ _ _ => lower name
  | .raw kind _ _ _ _ => rawLabel kind
  | .control openTag _ _ _ => openTag.keyword ++ "-block".toList

/-- The name of the kind of a part. -/
def partName : Part → String
  | .node (.text ..) => "Text"
  | .node (.comment ..) => "Comment"
  | .node (.mustache _) => "MustacheTag"
  | .node (.element ..) => "Element"
  | .node (.raw .script ..) => "ScriptBlock"
  | .node (.raw .style ..) => "StyleBlock"
  | .node (.control ..) => "ControlBlock"
  | .attribute _ => "Attribute"
  | .startTag _ => "StartTag"
  | .endTag _ => "EndTag"
  | .blockTag _ => "BlockTag"
  | .branch _ => "BlockBranch"
  | .document => "Document"

/-- The label of a part. Tags and branches of a control block have none of their own. -/
def partLabel (tokens : Array Token) : Part → Except Fault (List Char)
  | .node n => .ok (nodeLabel n)
  | .attribute a => .ok (attributeLabel tokens a)
  | .startTag _ => .ok "start-tag".toList
  | .endTag _ => .ok "end-tag".toList
  | p => .error (.withoutRules (partName p))

/-! ## Rules -/

/-- What the rules depend on: the document with its line heads, the labels that are ignored, and
the settings. -/
structure Rules where
  document : Document
  heads : Heads
  ignored : List (List Char)
  alignAttributes : Bool
  expressionsFirst : Bool
  indentRaw : Bool
  registry : Registry

namespace Rules

variable (rules : Rules)

/-- Nodes of a label are ignored. -/
def ignores (label : List Char) : Bool :=
  rules.ignored.contains label

/-- The line of a token. -/
def line (index : Nat) : Nat :=
  (rules.document.tokens[index]?).elim 0 Token.line

/-- The line of the end of a token. -/
def endLine (index : Nat) : Nat :=
  (rules.document.tokens[index]?).elim 0 Token.endLine

/-- A range of tokens goes over a line end. -/
def spansLines (first last : Nat) : Bool :=
  rules.line first < rules.endLine last

/-- A closing bracket that is a line head. -/
def isClosingHead (t : Token) : Bool :=
  t.kind == .punctuator && (t.text == ['}'] || t.text == [')'] || t.text == [']']) &&
    rules.heads.isHead t

/-- The rules of a stretch between braces that goes over lines: one level deeper, and brackets
that close at the head of a line as deep as the opening brace. -/
def ofBraces (first last : Nat) : List Declaration :=
  if rules.spansLines first last then
    .range (first + 1) last first .relative 1 ::
      ((rules.heads.between (first + 1 : Nat) last).filter rules.isClosingHead).map fun t =>
        .offset t.index first .same 0
  else []

/-- The rules of a mustache. -/
def ofMustache (m : Mustache) : List Declaration :=
  if rules.ignores "mustache".toList then [.pin (m.first + 1) m.last]
  else rules.ofBraces m.first m.last

/-- The rules of an attribute: what follows the key is one level deeper, and the expressions in
its value go by their own rules if the settings say so. -/
def ofAttribute (a : Attribute) : List Declaration :=
  if rules.ignores (attributeLabel rules.document.tokens a) then [.pin (a.first + 1) a.last]
  else match a.key with
    | none => a.values.flatMap rules.ofMustache
    | some key =>
      .range (key + 1) a.last key .relative 1 ::
        if rules.expressionsFirst then a.values.flatMap rules.ofMustache else []

/-- The rules that align the attributes of a tag with the first one, if that stands on the line
where the tag begins. -/
def ofAlignment (tag : StartTag) : List Declaration :=
  match tag.attributes with
  | first :: rest =>
    if rules.alignAttributes && rules.line first.first == rules.line tag.first then
      rest.map fun a => .offset a.first first.first .align 0
    else []
  | [] => []

/-- The rules of a start tag: what is in it is one level deeper, and a closing sign on a later
line is as deep as the opening one. -/
def ofStartTag (tag : StartTag) : List Declaration :=
  if rules.ignores "start-tag".toList then [.pin (tag.first + 1) tag.last]
  else
    .range (tag.first + 1) tag.last tag.first .relative 1 ::
      (rules.ofAlignment tag ++
        (if rules.spansLines tag.first tag.last then [.offset tag.last tag.first .same 0]
        else []) ++
        tag.attributes.flatMap rules.ofAttribute)

/-- The rules of an end tag. -/
def ofEndTag (tag : EndTag) : List Declaration :=
  if rules.ignores "end-tag".toList then [.pin (tag.first + 1) tag.last]
  else
    .range (tag.first + 1) (tag.last - 1) tag.first .relative 1 ::
      if rules.spansLines tag.first tag.last then [.offset tag.last tag.first .same 0] else []

/-- The tokens of a list of indices. -/
def tokensAt (indices : List Nat) : List Token :=
  indices.filterMap fun i => rules.document.tokens[i]?

/-- The rules of the content of a raw block: those of the indenter of its language, or the lines
as they are. -/
def ofContent (indices : List Nat) (opener : Nat) (language : List Char) : List Declaration :=
  match rules.tokensAt indices with
  | [] => []
  | first :: rest =>
    if rules.indentRaw then
      match rules.registry.select language with
      | .ok indenter => indenter.declarations (first :: rest) opener rules.document
      | .error fault => [.refuse fault]
    else [.pin first.index (rest.getLastD first).index]

/-- The rules that a control block gives to the tag of a branch and to the children up to the tag
that follows. -/
def ofBranchTag (opener : Nat) (tag following : BlockTag) : List Declaration :=
  (if tag.first = opener then [] else [.offset tag.first opener .same 0]) ++
    [.range (tag.last + 1) (following.first - 1) tag.first .relative 1]

/-- The tags of a control block with the tags that follow them. -/
def ofBranchTags (opener : Nat) : List BlockTag → List Declaration
  | tag :: following :: rest =>
    ofBranchTag opener tag following ++ ofBranchTags opener (following :: rest)
  | _ => []

mutual

/-- The declarations of a node. -/
def ofNode : Node → List Declaration
  | .text first last =>
    if rules.ignores "text".toList then [.pin (first + 1) last] else []
  | .comment first last =>
    if rules.ignores "comment".toList then [.pin (first + 1) last] else []
  | .mustache m => rules.ofMustache m
  | .element name tag children endTag =>
    if rules.ignores (lower name) then
      [.pin (tag.first + 1) (Node.element name tag children endTag).last]
    else
      (match endTag with
      | some e =>
        [.range (tag.last + 1) (e.first - 1) tag.first .relative 1,
          .offset e.first tag.first .same 0]
      | none => []) ++
        rules.ofStartTag tag ++ endTag.toList.flatMap rules.ofEndTag ++ ofNodes children
  | .raw kind tag indices endTag language =>
    if rules.ignores (rawLabel kind) then [.pin (tag.first + 1) endTag.last]
    else
      rules.ofStartTag tag ++ rules.ofContent indices tag.first language ++
        .offset endTag.first tag.first .same 0 :: rules.ofEndTag endTag
  | .control openTag children branches closeTag =>
    if rules.ignores (nodeLabel (.control openTag children branches closeTag)) then
      [.pin (openTag.first + 1) closeTag.last]
    else
      ofBranchTags openTag.first (openTag :: (branches.map Branch.tag ++ [closeTag])) ++
        .offset closeTag.first openTag.first .same 0 ::
        (rules.ofBraces openTag.first openTag.last ++ ofNodes children ++ ofBranches branches ++
          rules.ofBraces closeTag.first closeTag.last)

/-- The declarations of nodes in turn. -/
def ofNodes : List Node → List Declaration
  | [] => []
  | n :: rest => ofNode n ++ ofNodes rest

/-- The declarations of the tags and children of further branches in turn. -/
def ofBranches : List Branch → List Declaration
  | [] => []
  | .mk tag children :: rest =>
    rules.ofBraces tag.first tag.last ++ ofNodes children ++ ofBranches rest

end

/-- The declarations of a part. -/
def ofPart : Part → Except Fault (List Declaration)
  | .node n => .ok (rules.ofNode n)
  | .attribute a => .ok (rules.ofAttribute a)
  | .startTag tag => .ok (rules.ofStartTag tag)
  | .endTag tag => .ok (rules.ofEndTag tag)
  | p => .error (.withoutRules (partName p))

/-- The declarations of the whole document below a root: every token is as deep as the root until
a node says otherwise. -/
def below (root : Nat) : List Declaration :=
  .range (root + 1) (rules.heads.size - 1) root .same 0 :: rules.ofNodes rules.document.nodes

end Rules

/-! ## The graph of a document -/

/-- The rules that settings give for a document. Attributes are aligned only if the unit can
express a column. -/
def Rules.ofSettings (d : Document) (s : Settings) (registry : Registry) : Except Fault Rules := do
  let unit ← IndentUnit.ofValue s.indentUnit s.mixedAlignment
  .ok {
    document := d
    heads := Heads.ofTokens d.tokens
    ignored := (s.ignoredNodes : List String).map fun label => lower label.toList
    alignAttributes := s.alignAttributes && (!unit.usesTabs || s.mixedAlignment)
    expressionsFirst := s.precedence == expressionPrecedence
    indentRaw := s.indentRaw
    registry := registry }

/-- The offset graph of a document: the first significant token is the root. -/
def OffsetGraph.build (d : Document) (s : Settings) (registry : Registry) :
    Except Fault OffsetGraph := do
  let rules ← Rules.ofSettings d s registry
  let g := OffsetGraph.empty rules.heads
  match rules.heads.first? with
  | none => .ok g
  | some root => do
    let g ← g.setRoot (.own root.index)
    g.applyAll (rules.below root.index)

end MarkupIndent.Margin
