import MarkupIndent.Markup.Token

/-!
# The tree of a document

Nodes refer to tokens by index, and `first` and `last` are the indices of the tokens at their two
ends. The spans of the nodes of a list follow each other without gaps; inside a node, its tags and
children do.

* `Node`: text, comments, mustaches, elements, raw script and style blocks, control blocks.
* `Part`: a node or one of the pieces that nodes are built of, for listings and labels.
-/

namespace MarkupIndent.Markup

/-- An expression tag: `text` for a plain one, else the word after the at sign. -/
structure Mustache where
  kind : List Char
  first : Nat
  last : Nat
  deriving DecidableEq, Repr

/-- An attribute of a start tag. Without a key it is a mustache by itself. -/
structure Attribute where
  first : Nat
  last : Nat
  key : Option Nat
  values : List Mustache
  deriving DecidableEq, Repr

/-- The opening tag of an element; `name` is the index of its name. -/
structure StartTag where
  first : Nat
  last : Nat
  name : Nat
  attributes : List Attribute
  selfClosing : Bool
  deriving DecidableEq, Repr

/-- The closing tag of an element. -/
structure EndTag where
  first : Nat
  last : Nat
  deriving DecidableEq, Repr

/-- A tag of a control block: the opening one, that of a further branch, or the closing one. -/
structure BlockTag where
  keyword : List Char
  first : Nat
  last : Nat
  deriving DecidableEq, Repr

/-- The elements whose content is not markup. -/
inductive RawKind where
  | script
  | style
  deriving DecidableEq, Repr

/-- The tag name, in lower case. -/
def RawKind.name : RawKind → List Char
  | .script => ['s', 'c', 'r', 'i', 'p', 't']
  | .style => ['s', 't', 'y', 'l', 'e']

/-- The language of a block that does not say one. -/
def RawKind.language : RawKind → List Char
  | .script => ['j', 's']
  | .style => ['c', 's', 's']

/-- The raw element of a lower-case tag name. -/
def RawKind.ofName? (name : List Char) : Option RawKind :=
  if name = RawKind.script.name then some .script
  else if name = RawKind.style.name then some .style
  else none

mutual

/-- A node of the tree. An element without an end tag is its start tag alone. The content of a
raw block is the list of its tokens, one per line. A control block has its opening tag with the
children after it, further branches, and its closing tag. -/
inductive Node where
  | text (first last : Nat)
  | comment (first last : Nat)
  | mustache (tag : Mustache)
  | element (name : List Char) (startTag : StartTag) (children : List Node)
      (endTag : Option EndTag)
  | raw (kind : RawKind) (startTag : StartTag) (content : List Nat) (endTag : EndTag)
      (language : List Char)
  | control (openTag : BlockTag) (children : List Node) (branches : List Branch)
      (closeTag : BlockTag)

/-- A further branch of a control block: its tag and the children after it. -/
inductive Branch where
  | mk (tag : BlockTag) (children : List Node)

end

/-- The tag that begins a branch. -/
def Branch.tag : Branch → BlockTag
  | .mk tag _ => tag

/-- The nodes of a branch. -/
def Branch.children : Branch → List Node
  | .mk _ children => children

/-- The first token of a node. -/
def Node.first : Node → Nat
  | .text first _ => first
  | .comment first _ => first
  | .mustache tag => tag.first
  | .element _ startTag _ _ => startTag.first
  | .raw _ startTag _ _ _ => startTag.first
  | .control openTag _ _ _ => openTag.first

/-- The last token of a node. -/
def Node.last : Node → Nat
  | .text _ last => last
  | .comment _ last => last
  | .mustache tag => tag.last
  | .element _ startTag _ none => startTag.last
  | .element _ _ _ (some endTag) => endTag.last
  | .raw _ _ _ endTag _ => endTag.last
  | .control _ _ _ closeTag => closeTag.last

/-! ## Parts -/

/-- A node, a piece of one that has tokens of its own, or the document around all of them. -/
inductive Part where
  | node (n : Node)
  | attribute (a : Attribute)
  | startTag (tag : StartTag)
  | endTag (tag : EndTag)
  | blockTag (tag : BlockTag)
  | branch (b : Branch)
  | document

/-- The mustaches of an attribute, as parts. -/
def Attribute.parts (a : Attribute) : List Part :=
  .attribute a :: a.values.map fun m => .node (.mustache m)

/-- A start tag and all within it. -/
def StartTag.parts (t : StartTag) : List Part :=
  .startTag t :: t.attributes.flatMap Attribute.parts

mutual

/-- A node and everything within it, each before its pieces. -/
def Node.parts : Node → List Part
  | .text first last => [.node (.text first last)]
  | .comment first last => [.node (.comment first last)]
  | .mustache tag => [.node (.mustache tag)]
  | .element name startTag children endTag =>
    .node (.element name startTag children endTag) ::
      (startTag.parts ++ partsOfNodes children ++ endTag.toList.map .endTag)
  | .raw kind startTag content endTag language =>
    .node (.raw kind startTag content endTag language) ::
      (startTag.parts ++ [.endTag endTag])
  | .control openTag children branches closeTag =>
    .node (.control openTag children branches closeTag) ::
      .branch (.mk openTag children) :: .blockTag openTag ::
      (partsOfNodes children ++ partsOfBranches branches ++ [.blockTag closeTag])

/-- The parts of a list of nodes. -/
def partsOfNodes : List Node → List Part
  | [] => []
  | node :: rest => node.parts ++ partsOfNodes rest

/-- The parts of the further branches of a control block. -/
def partsOfBranches : List Branch → List Part
  | [] => []
  | .mk tag children :: rest =>
    .branch (.mk tag children) :: .blockTag tag :: (partsOfNodes children ++ partsOfBranches rest)

end

end MarkupIndent.Markup
