import MarkupIndent.Proofs.MarginEdits

/-!
# The outline of a document

What a document says, whatever blanks lie between: the kinds and texts of the tokens that have
content, and the tree over these tokens. Blank tokens between tags are not counted, and text that is
made of them alone is left out.

* `Document.words`: the tokens with content.
* `Document.rank`: the number of a token among those with content.
* `Document.outline`: the tree with these numbers in place of indices.
* `read_marginEdits`: **other margins leave words and outline as they are**.
-/

namespace MarkupIndent.Markup

open Margin Text

/-! ## Words -/

/-- The token has a character that is not blank. -/
def Token.hasContent (t : Token) : Bool :=
  t.text.any fun c => !Text.isBlank c

/-- Kind and text of every token with content. -/
def Document.words (d : Document) : List (TokenKind × List Char) :=
  (d.tokens.toList.filter Token.hasContent).map fun t => (t.kind, t.text)

/-- The number of tokens with content before an index. -/
def Document.rank (d : Document) (i : Nat) : Nat :=
  (d.tokens.toList.take i).countP Token.hasContent

/-! ## Trees over other numbers -/

section Numbered

variable (number : Nat → Nat)

/-- The mustache with other numbers for its tokens; the other pieces of nodes in the same way. -/
def Mustache.numbered (m : Mustache) : Mustache :=
  ⟨m.kind, number m.first, number m.last⟩

def Attribute.numbered (a : Attribute) : Attribute :=
  ⟨number a.first, number a.last, a.key.map number, a.values.map (Mustache.numbered number)⟩

def StartTag.numbered (t : StartTag) : StartTag :=
  ⟨number t.first, number t.last, number t.name, t.attributes.map (Attribute.numbered number),
    t.selfClosing⟩

def EndTag.numbered (t : EndTag) : EndTag :=
  ⟨number t.first, number t.last⟩

def BlockTag.numbered (t : BlockTag) : BlockTag :=
  ⟨t.keyword, number t.first, number t.last⟩

mutual

/-- The outline of a node, where a token of an index has as many tokens before it that count as
`number` says. Text without tokens that count is not in the outline. -/
def Node.outline : Node → List Node
  | .text first last =>
    if number first = number (last + 1) then []
    else [.text (number first) (number (last + 1) - 1)]
  | .comment first last => [.comment (number first) (number last)]
  | .mustache tag => [.mustache (tag.numbered number)]
  | .element name tag children endTag =>
    [.element name (tag.numbered number) (outlineOfNodes children)
      (endTag.map (EndTag.numbered number))]
  | .raw kind tag content endTag language =>
    [.raw kind (tag.numbered number) (content.map number) (endTag.numbered number) language]
  | .control openTag children branches closeTag =>
    [.control (openTag.numbered number) (outlineOfNodes children) (outlineOfBranches branches)
      (closeTag.numbered number)]

/-- The outlines of nodes, one after the other. -/
def outlineOfNodes : List Node → List Node
  | [] => []
  | n :: rest => n.outline ++ outlineOfNodes rest

/-- The outlines of branches. -/
def outlineOfBranches : List Branch → List Branch
  | [] => []
  | .mk tag children :: rest =>
    .mk (tag.numbered number) (outlineOfNodes children) :: outlineOfBranches rest

end

theorem outlineOfNodes_append (a b : List Node) :
    outlineOfNodes number (a ++ b) = outlineOfNodes number a ++ outlineOfNodes number b := by
  induction a with
  | nil => rfl
  | cons n rest ih => rw [List.cons_append, outlineOfNodes, outlineOfNodes, ih, List.append_assoc]

end Numbered

/-- The tree of a document over its tokens with content. -/
def Document.outline (d : Document) : List Node :=
  outlineOfNodes d.rank d.nodes

section Moved

variable (number : Nat → Nat) (k : Nat)

theorem Mustache.numbered_moved (m : Mustache) :
    (m.moved k).numbered number = m.numbered fun i => number (i + k) := rfl

theorem Attribute.numbered_moved (a : Attribute) :
    (a.moved k).numbered number = a.numbered fun i => number (i + k) := by
  simp only [Attribute.numbered, Attribute.moved, Option.map_map, List.map_map]
  rfl

theorem StartTag.numbered_moved (t : StartTag) :
    (t.moved k).numbered number = t.numbered fun i => number (i + k) := by
  simp only [StartTag.numbered, StartTag.moved, List.map_map, Function.comp_def,
    Attribute.numbered_moved]

mutual

/-- The outline of a node after more tokens. -/
theorem Node.outline_moved : (n : Node) →
    (n.moved k).outline number = n.outline fun i => number (i + k)
  | .text first last => by
    rw [Node.moved, Node.outline, Node.outline, Nat.add_right_comm last k 1]
  | .comment _ _ | .mustache _ => rfl
  | .element _ _ children _ => by
    rw [Node.moved, Node.outline, Node.outline, outlineOfNodes_moved children,
      StartTag.numbered_moved, Option.map_map]
    rfl
  | .raw _ _ _ _ _ => by
    rw [Node.moved, Node.outline, Node.outline, StartTag.numbered_moved, List.map_map]
    rfl
  | .control _ children branches _ => by
    rw [Node.moved, Node.outline, Node.outline, outlineOfNodes_moved children,
      outlineOfBranches_moved branches]
    rfl

theorem outlineOfNodes_moved : (ns : List Node) →
    outlineOfNodes number (nodesMoved k ns) = outlineOfNodes (fun i => number (i + k)) ns
  | [] => rfl
  | n :: rest => by
    rw [nodesMoved, outlineOfNodes, outlineOfNodes, n.outline_moved, outlineOfNodes_moved rest]

theorem outlineOfBranches_moved : (bs : List Branch) →
    outlineOfBranches number (branchesMoved k bs) =
      outlineOfBranches (fun i => number (i + k)) bs
  | [] => rfl
  | .mk _ children :: rest => by
    rw [branchesMoved, outlineOfBranches, outlineOfBranches, outlineOfNodes_moved children,
      outlineOfBranches_moved rest]
    rfl

end

/-- The text that a document begins with, in outline. -/
theorem outline_leadingText (h0 : number 0 = 0) (n : Nat) :
    outlineOfNodes number (leadingText n) =
      if number n = 0 then [] else [.text 0 (number n - 1)] := by
  cases n with
  | zero => rw [h0, if_pos rfl, leadingText, if_pos rfl, outlineOfNodes]
  | succ n =>
    rw [leadingText, if_neg (Nat.succ_ne_zero n), Nat.add_sub_cancel, outlineOfNodes,
      outlineOfNodes, Node.outline, List.append_nil, h0]
    simp only [eq_comm]

end Moved

/-! ## Mended documents -/

/-- Both tokens have content or neither has; if they have, they are the same in kind and text. -/
structure SameContent (t t' : Token) : Prop where
  hasContent : t.hasContent = t'.hasContent
  word : t.hasContent = true → (t.kind, t.text) = (t'.kind, t'.text)

theorem any_reindented {a b : List Char} (h : Reindented a b) :
    (a.any fun c => !Text.isBlank c) = b.any fun c => !Text.isBlank c := by
  have blank : ∀ w : List Char, Margin w → (w.any fun c => !Text.isBlank c) = false := by
    intro w hw
    rw [List.any_eq_false]
    exact fun c hc => by simp [(hw c hc).1]
  induction h with
  | nil => rfl
  | char _ _ ih => rw [List.any_cons, List.any_cons, ih]
  | line hv hw _ ih =>
    rw [List.any_cons, List.any_cons, List.any_append, List.any_append, blank _ hv, blank _ hw, ih]

/-- **Tokens with content stay as they are** when margins before heads are mended. -/
theorem sameContent_kin {es : List Edit} {d d' : Document}
    (htok : Tokenized d.text d.text.length d.tokens) (hes : HeadEdits d es) {i : Nat} {t t' : Token}
    (ht : d.tokens[i]? = some t) (hkin : Kin es d.text d'.text t t') : SameContent t t' := by
  refine ⟨any_reindented hkin.slice.reindented, fun hc => ?_⟩
  rw [hkin.kind, Prod.mk.injEq]
  refine ⟨rfl, ?_⟩
  by_cases hk : t.kind = .htmlText
  · have hadmits := (htok.token i t ht).admits
    rw [hk] at hadmits
    rcases hadmits with ⟨-, hblank⟩ | hinline
    · obtain ⟨c, hmem, hcb⟩ := List.any_eq_true.mp hc
      rw [hblank c hmem] at hcb
      cases hcb
    · exact hkin.slice.eq_of_not_mem hinline.2
  · exact (text_kin_of_ne htok ht hkin hes hk).symm

theorem words_forall₂ {xs ys : List Token} (h : List.Forall₂ SameContent xs ys) :
    (xs.filter Token.hasContent).map (fun t => (t.kind, t.text)) =
      (ys.filter Token.hasContent).map fun t => (t.kind, t.text) :=
  map_forall₂ (filter_forall₂ h fun _ _ hsame => hsame.hasContent) fun _ _ hxy => hxy.1.word hxy.2

theorem countP_forall₂ {xs ys : List Token} (h : List.Forall₂ SameContent xs ys) :
    xs.countP Token.hasContent = ys.countP Token.hasContent := by
  induction h with
  | nil => rfl
  | cons hsame _ ih => rw [List.countP_cons, List.countP_cons, ih, hsame.hasContent]

section Regrown

variable {k k' : Nat} {d d' : Document} (h : Matched SameContent k d.tokens (d'.tokens.extract k'))
  (hk : d.Vacant k) (hk' : d'.Vacant k')
include h hk hk'

omit h hk' in
/-- Blank tokens at the beginning have no content. -/
theorem hasContent_of_vacant {t : Token} (ht : t ∈ d.tokens.toList.take k) :
    t.hasContent = false := by
  obtain ⟨i, hi⟩ := List.mem_iff_getElem?.mp ht
  have hlt := (List.getElem?_eq_some_iff.mp hi).1
  rw [List.length_take] at hlt
  rw [List.getElem?_take_of_lt (by omega), Array.getElem?_toList] at hi
  rw [Token.hasContent, List.any_eq_false]
  exact fun c hc => by simp [hk i t (by omega) hi c hc]

omit hk hk' in
/-- The other tokens are of each other. -/
theorem forall₂_drop : List.Forall₂ SameContent (d.tokens.toList.drop k)
    (d'.tokens.toList.drop k') := by
  have := h.drop
  rwa [Array.toList_extract, List.extract_eq_take_drop, List.take_of_length_le (by simp)] at this

/-- The tokens with content are the same. -/
theorem words_regrown : d.words = d'.words := by
  have none_before : ∀ {d : Document} {k : Nat}, d.Vacant k → d.words =
      ((d.tokens.toList.drop k).filter Token.hasContent).map fun t => (t.kind, t.text) := by
    intro d k hk
    rw [Document.words, ← List.take_append_drop k d.tokens.toList, List.filter_append,
      List.filter_eq_nil_iff.mpr fun t ht => by simp [hasContent_of_vacant hk ht],
      List.nil_append, List.take_append_drop]
  rw [none_before hk, none_before hk']
  exact words_forall₂ (forall₂_drop h)

/-- Tokens of each other have the same number. -/
theorem rank_regrown (i : Nat) : d.rank (i + k) = d'.rank (i + k') := by
  have none_before : ∀ {d : Document} {k : Nat}, d.Vacant k →
      d.rank (i + k) = ((d.tokens.toList.drop k).take i).countP Token.hasContent := by
    intro d k hk
    rw [Document.rank, Nat.add_comm, List.take_add, List.countP_append,
      List.countP_eq_zero.mpr fun t ht => by simp [hasContent_of_vacant hk ht], Nat.zero_add]
  rw [none_before hk, none_before hk']
  exact countP_forall₂ (List.forall₂_take i (forall₂_drop h))

end Regrown

/-- The outline of a mended document is that of the document. -/
theorem outline_regrown {es : List Edit} {k k' m : Nat} {d d' : Document}
    (htok : Tokenized d.text d.text.length d.tokens) (hes : HeadEdits d es)
    (hk : d.Vacant k) (hk' : d'.Vacant k')
    (h : Regrown (Kin es d.text d'.text) k k' (leadingText (m + k)) (leadingText (m + k')) d d') :
    d'.words = d.words ∧ d'.outline = d.outline := by
  have hsame := h.matched.mono fun i t t' ht hkin => sameContent_kin htok hes ht hkin
  refine ⟨(words_regrown hsame hk hk').symm, ?_⟩
  obtain ⟨ns, hns, hns'⟩ := h.nodes
  have hrank := rank_regrown hsame hk hk'
  have hnone : ∀ d : Document, d.rank 0 = 0 := fun _ => rfl
  rw [Document.outline, Document.outline, hns, hns', outlineOfNodes_append, outlineOfNodes_append,
    outline_leadingText d.rank (hnone d), outline_leadingText d'.rank (hnone d'), hrank,
    outlineOfNodes_moved, outlineOfNodes_moved, funext hrank]

/-- **Other margins leave the parse as it is.** For any of the line heads of a document, any spaces
and tabs may be put in the place of what stands before the head on its line: the text can be read
again, its tokens with content are the same in kind and text, and its tree over these tokens is the
same. -/
theorem read_marginEdits {text : List Char} {d : Document} (hd : Document.read text = .ok d)
    (choice : Token → Option (List Char))
    (hblanks : ∀ head blanks, choice head = some blanks → ∀ c ∈ blanks, c = ' ' ∨ c = '\t') :
    ∃ fixed d', applyEdits text (marginEdits d choice) = .ok fixed ∧
      Document.read fixed = .ok d' ∧ d'.words = d.words ∧ d'.outline = d.outline := by
  have htok := tokenized_of_read hd
  obtain rfl := text_of_read hd
  have hes := headEdits_marginEdits htok hblanks
  obtain ⟨fixed, hfixed, hmended⟩ := hes.applyEdits htok (nodup_marginEdits htok)
  obtain ⟨d', k, k', m, hd', hk, hk', hgrown⟩ := read_of_mended hd hmended
  obtain rfl := text_of_read hd'
  exact ⟨_, d', hfixed, hd', outline_regrown htok hes hk hk' hgrown⟩

/-- A no-break space before the first line, a value and a comment over two lines, and blanks put
before every head but those of the second line. -/
theorem read_marginEdits_ragged :
    ∃ (d d' : Document) (fixed : List Char),
      Document.read "\u00a0\n<p a='\n1'>\n\tx \x7bb\x7d <!--\n--></p>".toList = .ok d ∧
      (∀ (head : Token) (blanks : List Char),
        (if head.line = 2 then none else some [' ', '\t']) = some blanks →
          ∀ c ∈ blanks, c = ' ' ∨ c = '\t') ∧
      applyEdits "\u00a0\n<p a='\n1'>\n\tx \x7bb\x7d <!--\n--></p>".toList
        (marginEdits d fun head => if head.line = 2 then none else some [' ', '\t']) = .ok fixed ∧
      Document.read fixed = .ok d' ∧ d'.words = d.words ∧ d'.outline = d.outline := by
  have hblanks : ∀ (head : Token) (blanks : List Char),
      (if head.line = 2 then none else some [' ', '\t']) = some blanks →
        ∀ c ∈ blanks, c = ' ' ∨ c = '\t' := by
    intro head blanks h
    split at h
    · cases h
    · cases h
      simp
  obtain ⟨d, hd⟩ := exists_of_isOk (show (Document.read
    "\u00a0\n<p a='\n1'>\n\tx \x7bb\x7d <!--\n--></p>".toList).isOk = true by decide +kernel)
  obtain ⟨fixed, d', h1, h2, h3, h4⟩ := read_marginEdits hd
    (fun head => if head.line = 2 then none else some [' ', '\t']) hblanks
  exact ⟨d, d', fixed, hd, hblanks, h1, h2, h3, h4⟩

end MarkupIndent.Markup
