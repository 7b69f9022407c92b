import MarkupIndent.Proofs.Tiling

/-!
# Spans of the tree

What the tree says about its tokens, in terms of spans alone. The spans of the top level follow each
other and cover all tokens; the pieces of every node and of every start tag cover it in the same
way; and a construct that is closed is closed by the name or keyword that opened it.

* `SpansTile`: spans that follow each other without gaps.
* `Node.pieces`, `StartTag.pieces`: the spans that a node and a start tag are made of.
* `Part.WellNested`: what holds of every part of a tree, with its signs and names.
* `wellNested_of_read`: **every document is well nested**.
-/

namespace MarkupIndent.Markup

open Text

/-! ## Spans -/

/-- The tokens from the first to the last of a piece. -/
structure Span where
  first : Nat
  last : Nat

/-- Spans follow each other from one index to another, without gaps, and none is empty. -/
def SpansTile : (lo : Nat) → List Span → (hi : Nat) → Prop
  | lo, [], hi => lo = hi
  | lo, s :: rest, hi => s.first = lo ∧ s.first ≤ s.last ∧ SpansTile (s.last + 1) rest hi

theorem SpansTile.append {lo mid hi : Nat} {a b : List Span} (h : SpansTile lo a mid)
    (h' : SpansTile mid b hi) : SpansTile lo (a ++ b) hi := by
  induction a generalizing lo with
  | nil =>
    rw [show lo = mid from h]
    exact h'
  | cons s rest ih => exact ⟨h.1, h.2.1, ih h.2.2⟩

theorem SpansTile.concat {lo : Nat} {a : List Span} {s : Span} (h : SpansTile lo a s.first)
    (hs : s.first ≤ s.last) : SpansTile lo (a ++ [s]) (s.last + 1) :=
  h.append ⟨rfl, hs, rfl⟩

/-- The span of one token. -/
def Span.single (i : Nat) : Span := ⟨i, i⟩

theorem spansTile_range' (lo n : Nat) :
    SpansTile lo ((List.range' lo n).map Span.single) (lo + n) := by
  induction n generalizing lo with
  | zero => rfl
  | succ n ih =>
    refine ⟨rfl, Nat.le_refl lo, ?_⟩
    have := ih (lo + 1)
    rwa [show lo + 1 + n = lo + (n + 1) by omega] at this

/-! ## The pieces of a tree -/

def StartTag.span (t : StartTag) : Span := ⟨t.first, t.last⟩

def EndTag.span (t : EndTag) : Span := ⟨t.first, t.last⟩

def BlockTag.span (t : BlockTag) : Span := ⟨t.first, t.last⟩

def Attribute.span (a : Attribute) : Span := ⟨a.first, a.last⟩

def Node.span (n : Node) : Span := ⟨n.first, n.last⟩

/-- The tag of a branch and its children. -/
def Branch.pieces : Branch → List Span
  | .mk tag children => tag.span :: children.map Node.span

/-- A start tag is its opening sign, its name, its attributes and its closing sign. -/
def StartTag.pieces (t : StartTag) : List Span :=
  .single t.first :: .single t.name :: (t.attributes.map Attribute.span ++ [.single t.last])

/-- What a node is made of. Text, comments and mustaches are of one piece; an element without an end
tag is its start tag; the content of a raw block is one token after the other. -/
def Node.pieces : Node → List Span
  | .text first last | .comment first last => [⟨first, last⟩]
  | .mustache tag => [⟨tag.first, tag.last⟩]
  | .element _ tag children none => tag.span :: children.map Node.span
  | .element _ tag children (some e) => tag.span :: (children.map Node.span ++ [e.span])
  | .raw _ tag content e _ => tag.span :: (content.map Span.single ++ [e.span])
  | .control openTag children branches closeTag =>
    openTag.span :: (children.map Node.span ++ branches.flatMap Branch.pieces ++ [closeTag.span])

/-- A construct is closed by the name or keyword that opened it. An element that nothing closes is
closed by its start tag, or is of those that have no content. -/
def Node.Closed (tokens : Array Token) : Node → Prop
  | .element name tag children none => children = [] ∧ Stands tokens tag.name .name name ∧
      (tag.selfClosing = true ∨ isVoid (lower name) = true)
  | .element name tag _ (some e) =>
      Stands tokens tag.name .name name ∧ Stands tokens (e.first + 1) .name name
  | .raw kind tag _ e _ => ∃ name, RawKind.ofName? (lower name) = some kind ∧
      Stands tokens tag.name .name name ∧ Stands tokens (e.first + 1) .name name
  | .control openTag _ _ closeTag => closeTag.keyword = openTag.keyword
  | .text _ _ | .comment _ _ | .mustache _ => True

/-- The pieces of a part cover it in order, its signs and names stand where it says, and the
mustaches of an attribute lie inside. -/
def Part.WellNested (tokens : Array Token) : Part → Prop
  | .node n => SpansTile n.first n.pieces (n.last + 1) ∧ n.Closed tokens
  | .startTag t => SpansTile t.first t.pieces (t.last + 1) ∧
      Stands tokens t.first .punctuator ['<'] ∧ Stands tokens t.last .punctuator t.closing
  | .endTag t => t.last = t.first + 2 ∧ Stands tokens t.first .punctuator ['<', '/'] ∧
      Stands tokens t.last .punctuator ['>']
  | .attribute a => ∀ m ∈ a.values, a.first ≤ m.first ∧ m.first < m.last ∧ m.last ≤ a.last
  | .blockTag t => t.first < t.last ∧ Stands tokens (t.first + 1) .name t.keyword
  | .branch _ | .document => True

/-! ## Trees that fit -/

section Fits

variable {tokens : Array Token}

theorem AttributesTile.spans {as : List Attribute} {lo hi : Nat}
    (h : AttributesTile tokens lo as hi) : SpansTile lo (as.map Attribute.span) hi := by
  induction as generalizing lo with
  | nil => exact h
  | cons a rest ih => exact ⟨h.1, h.2.1.le, ih h.2.2⟩

theorem NodesTile.spans {nodes : List Node} {lo hi : Nat} (h : NodesTile tokens lo nodes hi) :
    SpansTile lo (nodes.map Node.span) hi := by
  induction nodes generalizing lo with
  | nil => exact h
  | cons n rest ih => exact ⟨h.1, Node.Fits.le n h.2.1, ih h.2.2⟩

theorem BranchesTile.spans {branches : List Branch} {lo hi : Nat}
    (h : BranchesTile tokens lo branches hi) :
    SpansTile lo (branches.flatMap Branch.pieces) hi := by
  induction branches generalizing lo with
  | nil => exact h
  | cons b rest ih =>
    cases b with
    | mk tag children =>
      obtain ⟨h1, h2, mid, h3, h4⟩ := h
      exact SpansTile.append (a := (Branch.mk tag children).pieces)
        ⟨h1, Nat.le_of_lt h2.lt, h3.spans⟩ (ih h4)

theorem EndTag.Fits.le {e : EndTag} (h : e.Fits tokens) : e.first ≤ e.last := by
  rw [h.last]
  omega

/-- **The pieces of a node cover it.** -/
theorem Node.Fits.pieces {n : Node} (h : n.Fits tokens) :
    SpansTile n.first n.pieces (n.last + 1) := by
  cases n with
  | text => exact ⟨rfl, h.1, rfl⟩
  | comment => exact ⟨rfl, Nat.le_of_eq h.1, rfl⟩
  | mustache => exact ⟨rfl, Nat.le_of_lt (Mustache.Fits.lt h), rfl⟩
  | element _ tag children endTag =>
    cases endTag with
    | none =>
      obtain ⟨h1, rfl, -⟩ := h
      have := h1.lt
      exact ⟨rfl, show tag.first ≤ tag.last by omega, rfl⟩
    | some e =>
      obtain ⟨h1, h2, h3, -⟩ := h
      have := h1.lt
      exact ⟨rfl, show tag.first ≤ tag.last by omega, SpansTile.concat h2.spans h3.le⟩
  | raw _ tag content e =>
    obtain ⟨h1, h2, rfl, -, h3, -⟩ := h
    have := h1.lt
    have hcontent := spansTile_range' (tag.last + 1) (e.first - (tag.last + 1))
    rw [Nat.add_sub_of_le h2] at hcontent
    exact ⟨rfl, show tag.first ≤ tag.last by omega, SpansTile.concat hcontent h3.le⟩
  | control =>
    obtain ⟨h1, ⟨mid, h2, h3⟩, h4, -⟩ := h
    exact ⟨rfl, Nat.le_of_lt h1.lt, (h2.spans.append h3.spans).concat (Nat.le_of_lt h4.lt)⟩

theorem Node.Fits.closed {n : Node} (h : n.Fits tokens) : n.Closed tokens := by
  cases n with
  | text | comment | mustache => trivial
  | element _ _ _ endTag =>
    cases endTag with
    | none => exact h.2
    | some => exact h.2.2.2
  | raw =>
    obtain ⟨name, h1, h2, h3, -⟩ := h.2.2.2.2.2
    exact ⟨name, h1, h2, h3⟩
  | control => exact h.2.2.2

theorem Node.Fits.wellNested {n : Node} (h : n.Fits tokens) : (Part.node n).WellNested tokens :=
  ⟨Node.Fits.pieces h, Node.Fits.closed h⟩

theorem EndTag.Fits.wellNested {e : EndTag} (h : e.Fits tokens) :
    (Part.endTag e).WellNested tokens :=
  ⟨h.last, h.opened, h.closed⟩

theorem BlockTag.Fits.wellNested {t : BlockTag} (h : t.Fits tokens) :
    (Part.blockTag t).WellNested tokens :=
  ⟨h.lt, h.keyword⟩

theorem Attribute.Fits.wellNested {a : Attribute} (h : a.Fits tokens) :
    ∀ p ∈ a.parts, p.WellNested tokens := by
  intro p hp
  rcases List.mem_cons.mp hp with rfl | hp
  · exact fun m hm => ⟨(h.values m hm).2.1, (h.values m hm).1.lt, (h.values m hm).2.2⟩
  · obtain ⟨m, hm, rfl⟩ := List.mem_map.mp hp
    exact Node.Fits.wellNested (n := .mustache m) (h.values m hm).1

theorem StartTag.Fits.pieces {t : StartTag} (h : t.Fits tokens) :
    SpansTile t.first t.pieces (t.last + 1) := by
  refine ⟨rfl, Nat.le_refl _, h.name, Nat.le_refl _, ?_⟩
  show SpansTile (t.name + 1) _ _
  rw [h.name]
  exact SpansTile.concat (s := .single t.last) h.attributes.spans (Nat.le_refl _)

theorem StartTag.Fits.wellNested {t : StartTag} (h : t.Fits tokens) :
    ∀ p ∈ t.parts, p.WellNested tokens := by
  intro p hp
  rcases List.mem_cons.mp hp with rfl | hp
  · exact ⟨h.pieces, h.opened, h.closed⟩
  · obtain ⟨a, ha, hp⟩ := List.mem_flatMap.mp hp
    exact (h.attributes.bounds a ha).1.wellNested p hp

mutual

/-- **Every part of a node that fits is well nested.** -/
theorem wellNested_node : (n : Node) → n.Fits tokens → ∀ p ∈ n.parts, p.WellNested tokens
  | .text _ _, h | .comment _ _, h | .mustache _, h => by
    intro p hp
    rw [Node.parts, List.mem_singleton] at hp
    exact hp ▸ Node.Fits.wellNested h
  | .element _ _ _ none, h => by
    have hnode := Node.Fits.wellNested h
    obtain ⟨h1, rfl, -⟩ := h
    intro p hp
    rw [Node.parts, partsOfNodes, List.append_nil, Option.toList_none, List.map_nil,
      List.append_nil, List.mem_cons] at hp
    rcases hp with rfl | hp
    · exact hnode
    · exact h1.wellNested p hp
  | .element _ _ children (some e), h => by
    have hnode := Node.Fits.wellNested h
    obtain ⟨h1, h2, h3, -⟩ := h
    intro p hp
    rw [Node.parts, Option.toList_some, List.map_singleton, List.mem_cons, List.mem_append,
      List.mem_append, List.mem_singleton] at hp
    rcases hp with rfl | (hp | hp) | rfl
    · exact hnode
    · exact h1.wellNested p hp
    · exact wellNested_nodes children _ _ h2 p hp
    · exact h3.wellNested
  | .raw _ _ _ e _, h => by
    have hnode := Node.Fits.wellNested h
    obtain ⟨h1, -, -, -, h2, -⟩ := h
    intro p hp
    rw [Node.parts, List.mem_cons, List.mem_append, List.mem_singleton] at hp
    rcases hp with rfl | hp | rfl
    · exact hnode
    · exact h1.wellNested p hp
    · exact h2.wellNested
  | .control openTag children branches closeTag, h => by
    have hnode := Node.Fits.wellNested h
    obtain ⟨h1, ⟨mid, h2, h3⟩, h4, -⟩ := h
    intro p hp
    rw [Node.parts, List.mem_cons, List.mem_cons, List.mem_cons, List.mem_append, List.mem_append,
      List.mem_singleton] at hp
    rcases hp with rfl | rfl | rfl | (hp | hp) | rfl
    · exact hnode
    · trivial
    · exact h1.wellNested
    · exact wellNested_nodes children _ _ h2 p hp
    · exact wellNested_branches branches _ _ h3 p hp
    · exact h4.wellNested

theorem wellNested_nodes : (nodes : List Node) → (lo hi : Nat) → NodesTile tokens lo nodes hi →
    ∀ p ∈ partsOfNodes nodes, p.WellNested tokens
  | [], _, _, _ => by simp [partsOfNodes]
  | n :: rest, _, _, h => by
    intro p hp
    rw [partsOfNodes, List.mem_append] at hp
    exact hp.elim (wellNested_node n h.2.1 p) (wellNested_nodes rest _ _ h.2.2 p)

theorem wellNested_branches : (branches : List Branch) → (lo hi : Nat) →
    BranchesTile tokens lo branches hi → ∀ p ∈ partsOfBranches branches, p.WellNested tokens
  | [], _, _, _ => by simp [partsOfBranches]
  | .mk tag children :: rest, _, _, h => by
    obtain ⟨-, h1, mid, h2, h3⟩ := h
    intro p hp
    rw [partsOfBranches, List.mem_cons, List.mem_cons, List.mem_append] at hp
    rcases hp with rfl | rfl | hp | hp
    · trivial
    · exact h1.wellNested
    · exact wellNested_nodes children _ _ h2 p hp
    · exact wellNested_branches rest _ _ h3 p hp

end

end Fits

/-! ## Documents -/

/-- **The tree tiles the tokens and is well nested.** The top level covers all tokens of a document,
and every part of its tree is covered by its pieces and closed by what opened it. -/
theorem wellNested_of_read {text : List Char} {d : Document} (h : Document.read text = .ok d) :
    SpansTile 0 (d.nodes.map Node.span) d.tokens.size ∧
      ∀ p ∈ d.parts, p.WellNested d.tokens :=
  ⟨(tile_of_read h).spans, wellNested_nodes d.nodes _ _ (tile_of_read h)⟩

/-- A block of two branches, a void element, a raw block and an attribute with two mustaches. -/
theorem wellNested_of_read_branches :
    ∃ d : Document, Document.read ("\x7b#if a\x7d<p b=\"\x7bc\x7d \x7bd\x7d\">x<br></p>".toList ++
        "\x7b:else\x7d<script>f(\n)</script>\x7b/if\x7d\n".toList) = .ok d ∧
      d.tokens.size = 39 ∧ SpansTile 0 (d.nodes.map Node.span) d.tokens.size ∧
      ∀ p ∈ d.parts, p.WellNested d.tokens := by
  obtain ⟨d, hd⟩ := exists_of_isOk (show (Document.read
      ("\x7b#if a\x7d<p b=\"\x7bc\x7d \x7bd\x7d\">x<br></p>".toList ++
        "\x7b:else\x7d<script>f(\n)</script>\x7b/if\x7d\n".toList)).isOk = true by decide +kernel)
  have hsize : (Document.read ("\x7b#if a\x7d<p b=\"\x7bc\x7d \x7bd\x7d\">x<br></p>".toList ++
      "\x7b:else\x7d<script>f(\n)</script>\x7b/if\x7d\n".toList)).map
        (fun d => d.tokens.size) = .ok 39 := by decide +kernel
  rw [hd] at hsize
  obtain ⟨htile, hnested⟩ := wellNested_of_read hd
  exact ⟨d, hd, Except.ok.inj hsize, htile, hnested⟩

end MarkupIndent.Markup
