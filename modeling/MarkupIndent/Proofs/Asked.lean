import MarkupIndent.Proofs.LastRule
import MarkupIndent.Proofs.Nesting

/-!
# The parts that are asked

The rules go down the tree from part to part. An ignored part asks nothing of what is within it,
and an attribute with a key may keep the mustaches of its value for itself. What a part that is
asked says of a token stands: the parts around it have spoken before, and its neighbours speak of
other tokens.

* `Part.Holds`: one part right inside another; `holds_of_mem_parts`: the parts of a tree are those
  that are held, step by step, by the nodes of its top level.
* `Rules.Asks`, `Rules.Asked`: the parts that the rules come to.
* `asked_or`: **whatever is not asked lies in an ignored part**, or in the value of an attribute.
* `ofNode_element`, `ofNode_raw`, `ofNode_control`: the rules of what is not ignored.
* `lastRule?_asks`, `lastRule?_asked`: **what a part that is asked says is the last word.**
* `lastRule?_ignored`: the tokens of an ignored part are pinned, its first one apart.
-/

namespace MarkupIndent.Markup

open Text

/-! ## Parts inside parts -/

/-- A part with rules of its own is right inside another. -/
inductive Part.Holds : Part → Part → Prop where
  | startTag {name : List Char} {tag : StartTag} {children : List Node} {endTag : Option EndTag} :
      Holds (.node (.element name tag children endTag)) (.startTag tag)
  | child {name : List Char} {tag : StartTag} {children : List Node} {endTag : Option EndTag}
      {n : Node} : n ∈ children → Holds (.node (.element name tag children endTag)) (.node n)
  | endTag {name : List Char} {tag : StartTag} {children : List Node} {e : EndTag} :
      Holds (.node (.element name tag children (some e))) (.endTag e)
  | rawStartTag {kind : RawKind} {tag : StartTag} {content : List Nat} {e : EndTag}
      {language : List Char} : Holds (.node (.raw kind tag content e language)) (.startTag tag)
  | rawEndTag {kind : RawKind} {tag : StartTag} {content : List Nat} {e : EndTag}
      {language : List Char} : Holds (.node (.raw kind tag content e language)) (.endTag e)
  | member {openTag closeTag : BlockTag} {children : List Node} {branches : List Branch}
      {n : Node} : n ∈ children → Holds (.node (.control openTag children branches closeTag))
        (.node n)
  | branchMember {openTag closeTag : BlockTag} {children : List Node} {branches : List Branch}
      {b : Branch} {n : Node} : b ∈ branches → n ∈ b.children →
        Holds (.node (.control openTag children branches closeTag)) (.node n)
  | tagAttribute {tag : StartTag} {a : Attribute} : a ∈ tag.attributes →
      Holds (.startTag tag) (.attribute a)
  | value {a : Attribute} {m : Mustache} : m ∈ a.values →
      Holds (.attribute a) (.node (.mustache m))

/-- A part is another one, or inside it at some depth. -/
abbrev Part.Encloses : Part → Part → Prop := Relation.ReflTransGen Part.Holds

/-- The part has a label, by which it can be ignored. -/
def Part.IsLabelled : Part → Prop
  | .blockTag _ | .branch _ | .document => False
  | .node _ | .attribute _ | .startTag _ | .endTag _ => True

/-- A part with everything within it. -/
def Part.parts : Part → List Part
  | .node n => n.parts
  | .attribute a => a.parts
  | .startTag tag => tag.parts
  | p => [p]

theorem Part.mem_parts_self : (p : Part) → p ∈ p.parts
  | .node n => by cases n <;> simp [Part.parts, Node.parts]
  | .attribute _ | .startTag _ => List.mem_cons_self
  | .endTag _ | .blockTag _ | .branch _ | .document => List.mem_singleton_self _

theorem parts_subset_partsOfNodes {nodes : List Node} {n : Node} (h : n ∈ nodes) :
    n.parts ⊆ partsOfNodes nodes := by
  induction nodes with
  | nil => cases h
  | cons m rest ih =>
    rw [partsOfNodes]
    rcases List.mem_cons.mp h with rfl | h
    · exact List.subset_append_left _ _
    · exact fun p hp => List.mem_append_right _ (ih h hp)

theorem parts_subset_partsOfBranches {branches : List Branch} {b : Branch} {n : Node}
    (hb : b ∈ branches) (h : n ∈ b.children) : n.parts ⊆ partsOfBranches branches := by
  induction branches with
  | nil => cases hb
  | cons c rest ih =>
    obtain ⟨tag, children⟩ := c
    intro p hp
    rw [partsOfBranches]
    refine List.mem_cons_of_mem _ (List.mem_cons_of_mem _ (List.mem_append.mpr ?_))
    rcases List.mem_cons.mp hb with rfl | hb
    · exact .inl (parts_subset_partsOfNodes h hp)
    · exact .inr (ih hb hp)

/-- All that is within a held part is within the part that holds it. -/
theorem Part.Holds.parts_subset {p q : Part} (h : p.Holds q) : q.parts ⊆ p.parts := by
  intro r hr
  cases h with
  | startTag => simp [Part.parts, Node.parts] at hr ⊢; tauto
  | child h =>
    have := parts_subset_partsOfNodes h hr
    simp [Part.parts, Node.parts, this]
  | endTag =>
    obtain rfl := List.mem_singleton.mp hr
    simp [Part.parts, Node.parts]
  | rawStartTag => simp [Part.parts, Node.parts] at hr ⊢; tauto
  | rawEndTag =>
    obtain rfl := List.mem_singleton.mp hr
    simp [Part.parts, Node.parts]
  | member h =>
    have := parts_subset_partsOfNodes h hr
    simp [Part.parts, Node.parts, this]
  | branchMember hb h =>
    have := parts_subset_partsOfBranches hb h hr
    simp [Part.parts, Node.parts, this]
  | tagAttribute h => exact List.mem_cons_of_mem _ (List.mem_flatMap.mpr ⟨_, h, hr⟩)
  | value h =>
    rw [Part.parts, Node.parts, List.mem_singleton] at hr
    exact hr ▸ List.mem_cons_of_mem _ (List.mem_map.mpr ⟨_, h, rfl⟩)

theorem Part.Encloses.mem_parts {p q : Part} (h : p.Encloses q) : q ∈ p.parts := by
  induction h using Relation.ReflTransGen.head_induction_on with
  | refl => exact Part.mem_parts_self q
  | head h _ ih => exact h.parts_subset ih

theorem encloses_of_mem_attribute {a : Attribute} {p : Part} (h : p ∈ a.parts) :
    (Part.attribute a).Encloses p := by
  rcases List.mem_cons.mp h with rfl | h
  · exact .refl
  · obtain ⟨m, hm, rfl⟩ := List.mem_map.mp h
    exact .single (.value hm)

theorem encloses_of_mem_startTag {tag : StartTag} {p : Part} (h : p ∈ tag.parts) :
    (Part.startTag tag).Encloses p := by
  rcases List.mem_cons.mp h with rfl | h
  · exact .refl
  · obtain ⟨a, ha, h⟩ := List.mem_flatMap.mp h
    exact .head (.tagAttribute ha) (encloses_of_mem_attribute h)

mutual

/-- **The parts of a node are those that it encloses**, as far as they have a label. -/
theorem encloses_of_mem_node {p : Part} (hp : p.IsLabelled) :
    (n : Node) → p ∈ n.parts → (Part.node n).Encloses p
  | .text _ _, h | .comment _ _, h | .mustache _, h => by
    rw [Node.parts, List.mem_singleton] at h
    exact h ▸ .refl
  | .element name tag children endTag, h => by
    rw [Node.parts, List.mem_cons, List.mem_append, List.mem_append, List.mem_map] at h
    rcases h with rfl | (h | h) | ⟨e, he, rfl⟩
    · exact .refl
    · exact .head .startTag (encloses_of_mem_startTag h)
    · obtain ⟨n, hn, h⟩ := encloses_of_mem_nodes hp children h
      exact .head (.child hn) h
    · obtain rfl := Option.mem_toList.mp he
      exact .single .endTag
  | .raw kind tag content e language, h => by
    rw [Node.parts, List.mem_cons, List.mem_append, List.mem_singleton] at h
    rcases h with rfl | h | rfl
    · exact .refl
    · exact .head .rawStartTag (encloses_of_mem_startTag h)
    · exact .single .rawEndTag
  | .control openTag children branches closeTag, h => by
    rw [Node.parts, List.mem_cons, List.mem_cons, List.mem_cons, List.mem_append, List.mem_append,
      List.mem_singleton] at h
    rcases h with rfl | rfl | rfl | (h | h) | rfl
    · exact .refl
    · exact hp.elim
    · exact hp.elim
    · obtain ⟨n, hn, h⟩ := encloses_of_mem_nodes hp children h
      exact .head (.member hn) h
    · obtain ⟨b, hb, n, hn, h⟩ := encloses_of_mem_branches hp branches h
      exact .head (.branchMember hb hn) h
    · exact hp.elim

theorem encloses_of_mem_nodes {p : Part} (hp : p.IsLabelled) :
    (nodes : List Node) → p ∈ partsOfNodes nodes → ∃ n ∈ nodes, (Part.node n).Encloses p
  | [], h => by
    rw [partsOfNodes] at h
    cases h
  | n :: rest, h => by
    rw [partsOfNodes, List.mem_append] at h
    rcases h with h | h
    · exact ⟨n, List.mem_cons_self, encloses_of_mem_node hp n h⟩
    · obtain ⟨m, hm, h⟩ := encloses_of_mem_nodes hp rest h
      exact ⟨m, List.mem_cons_of_mem _ hm, h⟩

theorem encloses_of_mem_branches {p : Part} (hp : p.IsLabelled) :
    (branches : List Branch) → p ∈ partsOfBranches branches →
      ∃ b ∈ branches, ∃ n ∈ b.children, (Part.node n).Encloses p
  | [], h => by
    rw [partsOfBranches] at h
    cases h
  | .mk tag children :: rest, h => by
    rw [partsOfBranches, List.mem_cons, List.mem_cons, List.mem_append] at h
    rcases h with rfl | rfl | h | h
    · exact hp.elim
    · exact hp.elim
    · obtain ⟨n, hn, h⟩ := encloses_of_mem_nodes hp children h
      exact ⟨_, List.mem_cons_self, n, hn, h⟩
    · obtain ⟨b, hb, h⟩ := encloses_of_mem_branches hp rest h
      exact ⟨b, List.mem_cons_of_mem _ hb, h⟩

end

/-! ## Their tokens -/

/-- The tokens of a part that has a label. -/
def Part.span? : Part → Option Span
  | .node n => some n.span
  | .attribute a => some a.span
  | .startTag tag => some tag.span
  | .endTag tag => some tag.span
  | .blockTag _ | .branch _ | .document => none

/-- A part that has a label is in the places that its tokens give it. -/
def Part.Fits (tokens : Array Token) : Part → Prop
  | .node n => n.Fits tokens
  | .attribute a => a.Fits tokens
  | .startTag tag => tag.Fits tokens
  | .endTag tag => tag.Fits tokens
  | .blockTag _ | .branch _ | .document => False

/-- A span lies in another. -/
def Span.Inside (s t : Span) : Prop :=
  t.first ≤ s.first ∧ s.last ≤ t.last

section Fits

variable {tokens : Array Token}

/-- The nodes of a list lie between its ends. -/
theorem NodesTile.bounds {nodes : List Node} {lo hi : Nat} (h : NodesTile tokens lo nodes hi) :
    ∀ n ∈ nodes, n.Fits tokens ∧ lo ≤ n.first ∧ n.last < hi := by
  induction nodes generalizing lo with
  | nil => simp
  | cons m rest ih =>
    obtain ⟨h1, h2, h3⟩ := h
    have hle := h2.le
    have hrest := h3.le
    intro n hn
    rcases List.mem_cons.mp hn with rfl | hn
    · exact ⟨h2, Nat.le_of_eq h1.symm, hrest⟩
    · obtain ⟨h4, h5, h6⟩ := ih h3 n hn
      exact ⟨h4, by omega, h6⟩

/-- The nodes of further branches lie between their ends. -/
theorem BranchesTile.bounds {branches : List Branch} {lo hi : Nat}
    (h : BranchesTile tokens lo branches hi) :
    ∀ b ∈ branches, ∀ n ∈ b.children, n.Fits tokens ∧ lo ≤ n.first ∧ n.last < hi := by
  induction branches generalizing lo with
  | nil => simp
  | cons c rest ih =>
    obtain ⟨tag, children⟩ := c
    obtain ⟨h1, h2, mid, h3, h4⟩ := h
    have hlt := h2.lt
    have hle := h3.le
    have hrest := BranchesTile.le _ rest _ h4
    intro b hb n hn
    rcases List.mem_cons.mp hb with rfl | hb
    · obtain ⟨h5, h6, h7⟩ := h3.bounds n hn
      exact ⟨h5, by omega, by omega⟩
    · obtain ⟨h5, h6, h7⟩ := ih h4 b hb n hn
      exact ⟨h5, by omega, h7⟩

theorem Part.Fits.span : (p : Part) → p.Fits tokens → ∃ s, p.span? = some s ∧ s.first ≤ s.last
  | .node n, h => ⟨_, rfl, Node.Fits.le n h⟩
  | .attribute _, h => ⟨_, rfl, Attribute.Fits.le h⟩
  | .startTag tag, h => by
    have := StartTag.Fits.lt h
    exact ⟨_, rfl, show tag.first ≤ tag.last by omega⟩
  | .endTag _, h => ⟨_, rfl, EndTag.Fits.le h⟩

/-- A part that is held fits where the part that holds it does, and lies in it. -/
theorem Part.Holds.fits {p q : Part} (h : p.Holds q) (hp : p.Fits tokens) :
    q.Fits tokens ∧ ∃ s t, p.span? = some s ∧ q.span? = some t ∧ t.Inside s := by
  cases h with
  | @startTag name tag children endTag =>
    cases endTag with
    | none => exact ⟨hp.1, _, _, rfl, rfl, Nat.le_refl _, Nat.le_refl _⟩
    | some e =>
      have hle := hp.2.1.le
      have hlast := hp.2.2.1.last
      exact ⟨hp.1, _, _, rfl, rfl, Nat.le_refl _, show tag.last ≤ e.last by omega⟩
  | @child name tag children endTag n h =>
    cases endTag with
    | none =>
      obtain ⟨-, rfl, -⟩ := hp
      cases h
    | some e =>
      have hlt := hp.1.lt
      have hlast := hp.2.2.1.last
      obtain ⟨h1, h2, h3⟩ := hp.2.1.bounds n h
      exact ⟨h1, _, _, rfl, rfl, show tag.first ≤ n.first by omega, show n.last ≤ e.last by omega⟩
  | @endTag name tag children e =>
    have hlt := hp.1.lt
    have hle := hp.2.1.le
    exact ⟨hp.2.2.1, _, _, rfl, rfl, show tag.first ≤ e.first by omega, Nat.le_refl _⟩
  | @rawStartTag kind tag content e language =>
    have hlt := hp.2.1
    have hlast := hp.2.2.2.2.1.last
    exact ⟨hp.1, _, _, rfl, rfl, Nat.le_refl _, show tag.last ≤ e.last by omega⟩
  | @rawEndTag kind tag content e language =>
    have hlt := hp.1.lt
    have hle := hp.2.1
    exact ⟨hp.2.2.2.2.1, _, _, rfl, rfl, show tag.first ≤ e.first by omega, Nat.le_refl _⟩
  | @member openTag closeTag children branches n h =>
    obtain ⟨h1, ⟨mid, h2, h3⟩, h4, -⟩ := hp
    have hlt := h1.lt
    have hclt := h4.lt
    have hle := BranchesTile.le _ branches _ h3
    obtain ⟨h5, h6, h7⟩ := h2.bounds n h
    exact ⟨h5, _, _, rfl, rfl, show openTag.first ≤ n.first by omega,
      show n.last ≤ closeTag.last by omega⟩
  | @branchMember openTag closeTag children branches b n hb h =>
    obtain ⟨h1, ⟨mid, h2, h3⟩, h4, -⟩ := hp
    have hlt := h1.lt
    have hclt := h4.lt
    have hle := h2.le
    obtain ⟨h5, h6, h7⟩ := h3.bounds b hb n h
    exact ⟨h5, _, _, rfl, rfl, show openTag.first ≤ n.first by omega,
      show n.last ≤ closeTag.last by omega⟩
  | @tagAttribute tag a h =>
    obtain ⟨h1, h2, h3⟩ := hp.attributes.bounds a h
    exact ⟨h1, _, _, rfl, rfl, show tag.first ≤ a.first by omega, Nat.le_of_lt h3⟩
  | @value a m h =>
    obtain ⟨h1, h2, h3⟩ := hp.values m h
    exact ⟨h1, _, _, rfl, rfl, h2, h3⟩

theorem Part.Encloses.fits {p q : Part} (h : p.Encloses q) (hp : p.Fits tokens) :
    q.Fits tokens ∧ ∃ s t, p.span? = some s ∧ q.span? = some t ∧ t.Inside s := by
  induction h with
  | refl =>
    obtain ⟨s, hs, -⟩ := Part.Fits.span p hp
    exact ⟨hp, s, s, hs, hs, Nat.le_refl _, Nat.le_refl _⟩
  | tail _ h ih =>
    obtain ⟨hq, s, t, hs, ht, h1⟩ := ih
    obtain ⟨hr, t', u, ht', hu, h2⟩ := h.fits hq
    rw [ht] at ht'
    cases ht'
    exact ⟨hr, s, u, hs, hu, h1.1.trans h2.1, h2.2.trans h1.2⟩

/-- Every labelled part of a tree that tiles its tokens fits. -/
theorem Part.fits_of_mem {nodes : List Node} {lo hi : Nat} (h : NodesTile tokens lo nodes hi)
    {p : Part} (hp : p.IsLabelled) (hmem : p ∈ partsOfNodes nodes) : p.Fits tokens := by
  obtain ⟨n, hn, henc⟩ := encloses_of_mem_nodes hp nodes hmem
  exact (henc.fits (p := .node n) (h.bounds n hn).1).1

end Fits

end MarkupIndent.Markup

namespace MarkupIndent.Margin

open Markup Settings Text

theorem isLabelled_of_partLabel {tokens : Array Token} : {p : Part} → {label : List Char} →
    partLabel tokens p = .ok label → p.IsLabelled
  | .node _, _, _ | .attribute _, _, _ | .startTag _, _, _ | .endTag _, _, _ => trivial
  | .blockTag _, _, h | .branch _, _, h | .document, _, h => by cases h

/-- The ends of tokens that are no text between tags are significant. -/
theorem significant_of_ends {tokens : Array Token} {first last : Nat}
    (h : Marked tokens first (last + 1)) (hle : first ≤ last) :
    Significant tokens first ∧ Significant tokens last :=
  ⟨significant_of_marked h (Nat.le_refl first) (Nat.lt_succ_of_le hle),
    significant_of_marked h hle (Nat.lt_succ_self last)⟩

theorem significant_startTag {tokens : Array Token} {tag : StartTag} (h : tag.Fits tokens) :
    Significant tokens tag.first ∧ Significant tokens tag.last :=
  significant_of_ends h.marked (by have := h.lt; omega)

theorem significant_endTag {tokens : Array Token} {tag : EndTag} (h : tag.Fits tokens) :
    Significant tokens tag.first ∧ Significant tokens tag.last :=
  significant_of_ends h.marked h.le

theorem significant_blockTag {tokens : Array Token} {tag : BlockTag} (h : tag.Fits tokens) :
    Significant tokens tag.first ∧ Significant tokens tag.last :=
  significant_of_ends h.marked (Nat.le_of_lt h.lt)

/-- The ends of a part that is no text are significant. -/
theorem significant_part {tokens : Array Token} : {p : Part} → {s : Span} → p.Fits tokens →
    p.span? = some s → (∀ i j, p ≠ .node (.text i j)) →
    Significant tokens s.first ∧ Significant tokens s.last
  | .node (.text i j), _, _, _, hne => absurd rfl (hne i j)
  | .node (.comment _ _), _, h, rfl, _ => significant_of_ends h.2 (Nat.le_of_eq h.1)
  | .node (.mustache _), _, h, rfl, _ =>
    significant_of_ends (Mustache.Fits.marked h) (Nat.le_of_lt (Mustache.Fits.lt h))
  | .node (.element _ _ _ none), _, h, rfl, _ => significant_startTag h.1
  | .node (.element _ _ _ (some _)), _, h, rfl, _ =>
    ⟨(significant_startTag h.1).1, (significant_endTag h.2.2.1).2⟩
  | .node (.raw _ _ _ _ _), _, h, rfl, _ =>
    ⟨(significant_startTag h.1).1, (significant_endTag h.2.2.2.2.1).2⟩
  | .node (.control _ _ _ _), _, h, rfl, _ =>
    ⟨(significant_blockTag h.1).1, (significant_blockTag h.2.2.1).2⟩
  | .attribute _, _, h, rfl, _ =>
    significant_of_ends (Attribute.Fits.marked h) (Attribute.Fits.le h)
  | .startTag _, _, h, rfl, _ => significant_startTag h
  | .endTag _, _, h, rfl, _ => significant_endTag h

namespace Rules

/-! ## Asking -/

/-- The part has a label that is ignored. -/
def Ignored (rules : Rules) (p : Part) : Prop :=
  ∃ label, partLabel rules.document.tokens p = .ok label ∧ rules.ignores label = true

/-- A part whose pieces have a say of their own. The mustaches in the value of an attribute with a
key have one only if expressions come first. -/
def Opens (rules : Rules) : Part → Prop
  | .attribute a => a.key = none ∨ rules.expressionsFirst = true
  | _ => True

/-- A part asks what it holds for its rules. -/
def Asks (rules : Rules) (p q : Part) : Prop :=
  p.Holds q ∧ ¬ rules.Ignored p ∧ rules.Opens p

/-- The rules come to the part. -/
def Asked (rules : Rules) (p : Part) : Prop :=
  ∃ n ∈ rules.document.nodes, Relation.ReflTransGen rules.Asks (.node n) p

variable {rules : Rules}

theorem Asked.top {n : Node} (h : n ∈ rules.document.nodes) : rules.Asked (.node n) :=
  ⟨n, h, .refl⟩

theorem Asked.step {p q : Part} (h : rules.Asked p) (hq : rules.Asks p q) : rules.Asked q := by
  obtain ⟨n, hn, h⟩ := h
  exact ⟨n, hn, h.tail hq⟩

theorem Asked.encloses {p : Part} (h : rules.Asked p) :
    ∃ n ∈ rules.document.nodes, (Part.node n).Encloses p := by
  obtain ⟨n, hn, h⟩ := h
  exact ⟨n, hn, Relation.ReflTransGen.mono (fun _ _ h => h.1) _ _ h⟩

theorem Asked.mem_parts {p : Part} (h : rules.Asked p) : p ∈ rules.document.parts := by
  obtain ⟨n, hn, h⟩ := h.encloses
  exact parts_subset_partsOfNodes hn h.mem_parts

/-- Only attributes keep what they hold. -/
theorem exists_of_not_opens : {p : Part} → ¬ rules.Opens p → ∃ a, p = .attribute a
  | .attribute a, _ => ⟨a, rfl⟩
  | .node _, h | .startTag _, h | .endTag _, h | .blockTag _, h | .branch _, h | .document, h =>
    absurd trivial h

/-- A labelled part is not asked only if it lies in an ignored part that is, or in the value of an
attribute that keeps it. -/
theorem asked_or {p : Part} (hp : p.IsLabelled) (h : p ∈ rules.document.parts) :
    rules.Asked p ∨ (∃ q, rules.Asked q ∧ rules.Ignored q ∧ q.Encloses p) ∨
      ∃ a, rules.Asked (.attribute a) ∧ ¬ rules.Opens (.attribute a) ∧
        (Part.attribute a).Holds p := by
  obtain ⟨n, hn, henc⟩ := encloses_of_mem_nodes hp _ h
  clear hp h
  induction henc with
  | refl => exact .inl (.top hn)
  | @tail q r _ hqr ih =>
    rcases ih with ih | ⟨q', h1, h2, h3⟩ | ⟨a, -, -, h3⟩
    · by_cases hi : rules.Ignored q
      · exact .inr (.inl ⟨q, ih, hi, .single hqr⟩)
      by_cases ho : rules.Opens q
      · exact .inl (ih.step ⟨hqr, hi, ho⟩)
      · obtain ⟨a, rfl⟩ := exists_of_not_opens ho
        exact .inr (.inr ⟨a, ih, ho, hqr⟩)
    · exact .inr (.inl ⟨q', h1, h2, h3.tail hqr⟩)
    · -- A mustache holds nothing.
      cases h3
      cases hqr

/-! ## Rules of what is not ignored -/

/-- The rules of an element: for its children and its end tag, and for what is in them. -/
theorem ofNode_element {name : List Char} {tag : StartTag} {children : List Node} {e : EndTag}
    (hi : ¬ rules.Ignored (.node (.element name tag children (some e)))) :
    rules.ofNode (.element name tag children (some e)) =
      [.range (tag.last + 1) (e.first - 1) tag.first .relative 1,
        .offset e.first tag.first .same 0] ++ rules.ofStartTag tag ++ rules.ofEndTag e ++
        rules.ofNodes children := by
  have hne : rules.ignores (lower name) ≠ true := fun h => hi ⟨_, rfl, h⟩
  rw [ofNode, if_neg hne, Option.toList_some, List.flatMap_cons, List.flatMap_nil, List.append_nil]

/-- The rules of an element without an end tag are those of its start tag. -/
theorem ofNode_startTag {name : List Char} {tag : StartTag}
    (hi : ¬ rules.Ignored (.node (.element name tag [] none))) :
    rules.ofNode (.element name tag [] none) = rules.ofStartTag tag := by
  have hne : rules.ignores (lower name) ≠ true := fun h => hi ⟨_, rfl, h⟩
  simp only [ofNode, if_neg hne, List.nil_append, Option.toList_none, List.flatMap_nil,
    List.append_nil, ofNodes]

/-- The rules of a raw block: for its start tag, its content and its end tag. -/
theorem ofNode_raw {kind : RawKind} {tag : StartTag} {content : List Nat} {e : EndTag}
    {language : List Char} (hi : ¬ rules.Ignored (.node (.raw kind tag content e language))) :
    rules.ofNode (.raw kind tag content e language) =
      rules.ofStartTag tag ++ rules.ofContent content tag.first language ++
        .offset e.first tag.first .same 0 :: rules.ofEndTag e := by
  have hne : rules.ignores (rawLabel kind) ≠ true := fun h => hi ⟨_, rfl, h⟩
  rw [ofNode, if_neg hne]

/-- The rules of a control block: for its tags, and for what is in them and between them. -/
theorem ofNode_control {openTag closeTag : BlockTag} {children : List Node}
    {branches : List Branch}
    (hi : ¬ rules.Ignored (.node (.control openTag children branches closeTag))) :
    rules.ofNode (.control openTag children branches closeTag) =
      ofBranchTags openTag.first ((Branch.mk openTag children :: branches).map Branch.tag ++
        [closeTag]) ++ .offset closeTag.first openTag.first .same 0 ::
          (rules.ofBranches (.mk openTag children :: branches) ++
            rules.ofBraces closeTag.first closeTag.last) := by
  have hne : rules.ignores (nodeLabel (.control openTag children branches closeTag)) ≠ true :=
    fun h => hi ⟨_, rfl, h⟩
  rw [ofNode, if_neg hne, ofBranches]
  rfl

/-- The branches of a control block tile it up to its end, the first one among them. -/
theorem branchesTile_control {openTag closeTag : BlockTag} {children : List Node}
    {branches : List Branch}
    (hf : (Node.control openTag children branches closeTag).Fits rules.document.tokens) :
    BranchesTile rules.document.tokens openTag.first (.mk openTag children :: branches)
      closeTag.first := by
  obtain ⟨h1, ⟨mid, h2, h3⟩, -⟩ := hf
  exact ⟨rfl, h1, mid, h2, h3⟩

/-! ## The last word -/

section LastWord

variable (hg : rules.Grounded) (hl : rules.registry.Local) {i : Nat} {e : OffsetEntry}
include hg hl

/-- What a node says stands among the nodes that it is in line with. -/
theorem lastRule?_ofNodes {nodes : List Node} {lo hi : Nat} {n : Node}
    (ht : NodesTile rules.document.tokens lo nodes hi) (hn : n ∈ nodes)
    (h : lastRule? i (rules.ofNode n) = some e) : lastRule? i (rules.ofNodes nodes) = some e := by
  induction nodes generalizing lo with
  | nil => cases hn
  | cons m rest ih =>
    obtain ⟨-, h1, h2⟩ := ht
    rw [ofNodes]
    rcases List.mem_cons.mp hn with rfl | hn
    · have hmem := (within_ofNode hg hl n h1).mem h
      have hrest := within_ofNodes hg hl rest _ _ hi h2 (Nat.le_succ hi)
      rw [hrest.lastRule?_append (by omega), h]
    · exact lastRule?_of_right (ih h2 hn)

/-- What a node says stands among the branches that it is in. -/
theorem lastRule?_ofBranches {branches : List Branch} {lo hi : Nat} {b : Branch} {n : Node}
    (ht : BranchesTile rules.document.tokens lo branches hi) (hb : b ∈ branches)
    (hn : n ∈ b.children) (h : lastRule? i (rules.ofNode n) = some e) :
    lastRule? i (rules.ofBranches branches) = some e := by
  induction branches generalizing lo with
  | nil => cases hb
  | cons c rest ih =>
    obtain ⟨tag, children⟩ := c
    obtain ⟨h1, h2, mid, h3, h4⟩ := ht
    rw [ofBranches]
    rcases List.mem_cons.mp hb with rfl | hb
    · obtain ⟨h5, h6, h7⟩ := h3.bounds n hn
      have hmem := (within_ofNode hg hl n h5).mem h
      have hrest := within_ofBranches hg hl rest _ _ hi h4 (Nat.le_succ hi)
      rw [hrest.lastRule?_append (by omega)]
      exact lastRule?_of_right (lastRule?_ofNodes hg hl h3 hn h)
    · exact lastRule?_of_right (ih h4 hb)

omit hl in
/-- What an attribute says stands among the attributes of its tag. -/
theorem lastRule?_ofAttributes {as : List Attribute} {lo hi : Nat} {a : Attribute}
    (ht : AttributesTile rules.document.tokens lo as hi) (ha : a ∈ as)
    (h : lastRule? i (rules.ofAttribute a) = some e) :
    lastRule? i (as.flatMap rules.ofAttribute) = some e := by
  induction as generalizing lo with
  | nil => cases ha
  | cons b rest ih =>
    obtain ⟨-, h1, h2⟩ := ht
    rw [List.flatMap_cons]
    rcases List.mem_cons.mp ha with rfl | ha
    · have hmem := (within_ofAttribute hg h1).mem h
      have hrest : AllWithin a.last hi (rest.flatMap rules.ofAttribute) :=
        allWithin_flatMap fun c hc => by
          obtain ⟨h3, h4, h5⟩ := h2.bounds c hc
          exact (within_ofAttribute hg h3).mono (by omega) (by omega)
      rw [hrest.lastRule?_append (by omega), h]
    · exact lastRule?_of_right (ih h2 ha)

omit hg hl in
/-- **An ignored part** keeps the lines of its tokens, the first apart, and says no more. -/
theorem ofPart_ignored : {p : Part} → rules.Ignored p →
    ∃ s, p.span? = some s ∧ rules.ofPart p = .ok [.pin (s.first + 1) s.last]
  | .node (.text _ _), ⟨_, rfl, hi⟩ | .node (.comment _ _), ⟨_, rfl, hi⟩
  | .node (.element _ _ _ _), ⟨_, rfl, hi⟩ | .node (.raw _ _ _ _ _), ⟨_, rfl, hi⟩
  | .node (.control _ _ _ _), ⟨_, rfl, hi⟩ => by
    refine ⟨_, rfl, ?_⟩
    unfold ofPart ofNode
    exact congrArg _ (if_pos hi)
  | .node (.mustache _), ⟨_, rfl, hi⟩ => by
    refine ⟨_, rfl, ?_⟩
    unfold ofPart ofNode ofMustache
    exact congrArg _ (if_pos hi)
  | .attribute _, ⟨_, rfl, hi⟩ => ⟨_, rfl, congrArg _ (if_pos hi)⟩
  | .startTag _, ⟨_, rfl, hi⟩ => ⟨_, rfl, congrArg _ (if_pos hi)⟩
  | .endTag _, ⟨_, rfl, hi⟩ => ⟨_, rfl, congrArg _ (if_pos hi)⟩
  | .blockTag _, ⟨_, h, _⟩ | .branch _, ⟨_, h, _⟩ | .document, ⟨_, h, _⟩ => by cases h

omit hl in
/-- What a mustache says stands among the mustaches of its value, which lie apart. -/
theorem lastRule?_ofMustaches {ms : List Mustache} {m : Mustache}
    (hapart : ms.Pairwise Mustache.Precedes) (hm : m ∈ ms)
    (h : lastRule? i (rules.ofMustache m) = some e) :
    lastRule? i (ms.flatMap rules.ofMustache) = some e := by
  have hsymm : Std.Symm fun m n : Mustache => m.Precedes n ∨ n.Precedes m := ⟨fun _ _ => Or.symm⟩
  have heither : ms.Pairwise fun m n => m.Precedes n ∨ n.Precedes m := hapart.imp Or.inl
  refine lastRule?_flatMap (fun n hn e' he' => ?_) hm h
  by_cases heq : m = n
  · rw [← heq, h] at he'
    exact (Option.some.inj he').symm
  · have h1 := (within_ofMustache hg m).mem h
    have h2 := (within_ofMustache hg n).mem he'
    rcases heither.forall hm hn heq with hlt | hlt <;> unfold Mustache.Precedes at hlt <;> omega

section Element

variable {name : List Char} {tag : StartTag} {children : List Node} {endTag : EndTag}
  (hf : (Node.element name tag children (some endTag)).Fits rules.document.tokens)
  (hi : ¬ rules.Ignored (.node (.element name tag children (some endTag))))
include hf hi

/-- What the start tag of an element says stands before what its children say, which is not about
the same tokens. -/
theorem lastRule?_ofElement_startTag (he : lastRule? i (rules.ofStartTag tag) = some e) :
    lastRule? i (rules.ofNode (.element name tag children (some endTag))) = some e := by
  obtain ⟨h1, h2, h3, -⟩ := hf
  have hmem := (within_ofStartTag hg h1).mem he
  have hle := h2.le
  have hchildren := within_ofNodes hg hl children _ _ endTag.first h2 (Nat.le_succ _)
  rw [ofNode_element hi, hchildren.lastRule?_append (by omega),
    (within_ofEndTag h3).lastRule?_append (by omega)]
  exact lastRule?_of_right he

theorem lastRule?_ofElement_endTag (he : lastRule? i (rules.ofEndTag endTag) = some e) :
    lastRule? i (rules.ofNode (.element name tag children (some endTag))) = some e := by
  obtain ⟨-, h2, h3, -⟩ := hf
  have hmem := (within_ofEndTag h3).mem he
  have hchildren := within_ofNodes hg hl children _ _ endTag.first h2 (Nat.le_succ _)
  rw [ofNode_element hi, hchildren.lastRule?_append (by omega)]
  exact lastRule?_of_right he

theorem lastRule?_ofElement_child {n : Node} (hn : n ∈ children)
    (he : lastRule? i (rules.ofNode n) = some e) :
    lastRule? i (rules.ofNode (.element name tag children (some endTag))) = some e := by
  rw [ofNode_element hi]
  exact lastRule?_of_right (lastRule?_ofNodes hg hl hf.2.1 hn he)

end Element

section Raw

variable {kind : RawKind} {tag : StartTag} {content : List Nat} {endTag : EndTag}
  {language : List Char}
  (hf : (Node.raw kind tag content endTag language).Fits rules.document.tokens)
  (hi : ¬ rules.Ignored (.node (.raw kind tag content endTag language)))
include hf hi

/-- What the start tag of a raw block says stands before what is said of its content. -/
theorem lastRule?_ofRaw_startTag (he : lastRule? i (rules.ofStartTag tag) = some e) :
    lastRule? i (rules.ofNode (.raw kind tag content endTag language)) = some e := by
  obtain ⟨h1, h2, h3, h4, h5, -⟩ := hf
  have hlt := h1.lt
  have hfirst := significant_of_marked h1.marked (Nat.le_refl tag.first) (by omega)
  have hmem := (within_ofStartTag hg h1).mem he
  rw [h3] at h4
  have hcontent : AllWithin _ _ (rules.ofContent (List.range' _ _) tag.first language) :=
    within_ofContent hg hl hfirst (by omega) h4
  have hend : AllWithin tag.last endTag.last
      (.offset endTag.first tag.first .same 0 :: rules.ofEndTag endTag) :=
    allWithin_cons ⟨h2, by have := h5.last; omega⟩
      ((within_ofEndTag h5).mono (by omega) (Nat.le_refl _))
  rw [ofNode_raw hi, hend.lastRule?_append (by omega), h3,
    hcontent.lastRule?_append (by omega), he]

omit hg hl hf in
theorem lastRule?_ofRaw_endTag (he : lastRule? i (rules.ofEndTag endTag) = some e) :
    lastRule? i (rules.ofNode (.raw kind tag content endTag language)) = some e := by
  rw [ofNode_raw hi]
  refine lastRule?_of_right ?_
  rw [lastRule?_cons, he, Option.some_or]

end Raw

/-- What a node in a branch says stands in what its control block says. -/
theorem lastRule?_ofControl_branch {openTag closeTag : BlockTag} {children : List Node}
    {branches : List Branch} {b : Branch} {n : Node}
    (hf : (Node.control openTag children branches closeTag).Fits rules.document.tokens)
    (hi : ¬ rules.Ignored (.node (.control openTag children branches closeTag)))
    (hb : b ∈ Branch.mk openTag children :: branches) (hn : n ∈ b.children)
    (he : lastRule? i (rules.ofNode n) = some e) :
    lastRule? i (rules.ofNode (.control openTag children branches closeTag)) = some e := by
  have htile := branchesTile_control hf
  obtain ⟨h1, h2, h3⟩ := htile.bounds b hb n hn
  have hmem := (within_ofNode hg hl n h1).mem he
  rw [ofNode_control hi]
  refine lastRule?_of_right ?_
  rw [lastRule?_cons, (within_ofBraces hg _ _).lastRule?_append (by omega),
    lastRule?_ofBranches hg hl htile hb hn he, Option.some_or]

omit hl in
theorem lastRule?_ofStartTag_attribute {tag : StartTag} {a : Attribute}
    (hf : tag.Fits rules.document.tokens) (hi : ¬ rules.Ignored (.startTag tag))
    (ha : a ∈ tag.attributes) (he : lastRule? i (rules.ofAttribute a) = some e) :
    lastRule? i (rules.ofStartTag tag) = some e := by
  have hne : rules.ignores "start-tag".toList ≠ true := fun h => hi ⟨_, rfl, h⟩
  rw [ofStartTag, if_neg hne, lastRule?_cons,
    lastRule?_of_right (lastRule?_ofAttributes hg hf.attributes ha he), Option.some_or]

omit hl in
/-- What an expression in a value says stands in what its attribute says, if that lets it. -/
theorem lastRule?_ofAttribute_value {a : Attribute} {m : Mustache}
    (hf : a.Fits rules.document.tokens) (hi : ¬ rules.Ignored (.attribute a))
    (hopens : rules.Opens (.attribute a)) (hm : m ∈ a.values)
    (he : lastRule? i (rules.ofMustache m) = some e) :
    lastRule? i (rules.ofAttribute a) = some e := by
  have hne : rules.ignores (attributeLabel rules.document.tokens a) ≠ true :=
    fun h => hi ⟨_, rfl, h⟩
  have hvalues := lastRule?_ofMustaches hg hf.apart hm he
  unfold ofAttribute
  rw [if_neg hne]
  split
  · exact hvalues
  · next key hkey =>
    have hfirst : rules.expressionsFirst = true :=
      hopens.resolve_left fun hnone => by rw [hkey] at hnone; cases hnone
    rw [if_pos hfirst, lastRule?_cons, hvalues, Option.some_or]

/-- **What a part says stands** in what the part around it says. -/
theorem lastRule?_asks {p q : Part} {ds es : List Declaration} (h : rules.Asks p q)
    (hp : p.Fits rules.document.tokens) (hds : rules.ofPart p = .ok ds)
    (hes : rules.ofPart q = .ok es) (he : lastRule? i es = some e) :
    lastRule? i ds = some e := by
  obtain ⟨hpq, hi, ho⟩ := h
  cases hpq with
  | @startTag name tag children endTag =>
    cases hds
    cases hes
    cases endTag with
    | none =>
      obtain ⟨-, rfl, -⟩ := hp
      rw [ofNode_startTag hi]
      exact he
    | some endTag => exact lastRule?_ofElement_startTag hg hl hp hi he
  | @child name tag children endTag n hn =>
    cases hds
    cases hes
    cases endTag with
    | none =>
      obtain ⟨-, rfl, -⟩ := hp
      cases hn
    | some endTag => exact lastRule?_ofElement_child hg hl hp hi hn he
  | endTag =>
    cases hds
    cases hes
    exact lastRule?_ofElement_endTag hg hl hp hi he
  | rawStartTag =>
    cases hds
    cases hes
    exact lastRule?_ofRaw_startTag hg hl hp hi he
  | rawEndTag =>
    cases hds
    cases hes
    exact lastRule?_ofRaw_endTag hi he
  | member hn =>
    cases hds
    cases hes
    exact lastRule?_ofControl_branch hg hl hp hi List.mem_cons_self hn he
  | branchMember hb hn =>
    cases hds
    cases hes
    exact lastRule?_ofControl_branch hg hl hp hi (List.mem_cons_of_mem _ hb) hn he
  | tagAttribute ha =>
    cases hds
    cases hes
    exact lastRule?_ofStartTag_attribute hg hp hi ha he
  | value hm =>
    cases hds
    cases hes
    rw [ofNode] at he
    exact lastRule?_ofAttribute_value hg hp hi ho hm he

/-- **What a part that is asked says is the last word** in the whole document. -/
theorem lastRule?_asked {p : Part} {ds : List Declaration} (h : rules.Asked p)
    (ht : NodesTile rules.document.tokens 0 rules.document.nodes rules.document.tokens.size)
    (hds : rules.ofPart p = .ok ds) (he : lastRule? i ds = some e) :
    lastRule? i (rules.ofNodes rules.document.nodes) = some e := by
  obtain ⟨n, hn, h⟩ := h
  have hfits : (Part.node n).Fits rules.document.tokens := (ht.bounds n hn).1
  induction h generalizing ds with
  | refl =>
    cases hds
    exact lastRule?_ofNodes hg hl ht hn he
  | @tail q r hq hqr ih =>
    obtain ⟨ds', hds'⟩ : ∃ ds', rules.ofPart q = .ok ds' := by
      cases hqr.1 <;> exact ⟨_, rfl⟩
    have henc : (Part.node n).Encloses q := Relation.ReflTransGen.mono (fun _ _ h => h.1) _ _ hq
    exact ih hds' (lastRule?_asks hg hl hqr (henc.fits hfits).1 hds' hds he)

/-- **A token of an ignored part is pinned**, the first of the part apart. -/
theorem lastRule?_ignored {p : Part} {s : Span} (h : rules.Asked p) (hi : rules.Ignored p)
    (hs : p.span? = some s)
    (ht : NodesTile rules.document.tokens 0 rules.document.nodes rules.document.tokens.size)
    (h1 : s.first < i) (h2 : i ≤ s.last) :
    lastRule? i (rules.ofNodes rules.document.nodes) = some (.pin i) := by
  obtain ⟨s', hs', hds⟩ := ofPart_ignored hi
  rw [hs] at hs'
  cases hs'
  exact lastRule?_asked hg hl h ht hds (lastRule?_pin h1 h2)

/-- **What a part pins stays pinned**, whether the part is asked or lies in an ignored one. The
mustaches that an attribute keeps are left out. -/
theorem lastRule?_pinned {p : Part} {s : Span} {ds : List Declaration} (hp : p.IsLabelled)
    (hmem : p ∈ rules.document.parts) (hs : p.span? = some s)
    (ht : NodesTile rules.document.tokens 0 rules.document.nodes rules.document.tokens.size)
    (hkept : ∀ a, Part.attribute a ∈ rules.document.parts → ¬ rules.Opens (.attribute a) →
      ¬ (Part.attribute a).Holds p)
    (h1 : s.first < i) (h2 : i ≤ s.last) (hds : rules.ofPart p = .ok ds)
    (he : lastRule? i ds = some (.pin i)) :
    lastRule? i (rules.ofNodes rules.document.nodes) = some (.pin i) := by
  rcases asked_or hp hmem with hasked | ⟨q, hasked, hi, henc⟩ | ⟨a, hasked, hopens, hholds⟩
  · exact lastRule?_asked hg hl hasked ht hds he
  · obtain ⟨n, hn, hnq⟩ := hasked.encloses
    have hfits := (hnq.fits (p := .node n) (ht.bounds n hn).1).1
    obtain ⟨-, sq, sp, hsq, hsp, hinside⟩ := henc.fits hfits
    rw [hs] at hsp
    cases hsp
    have := hinside.1
    have := hinside.2
    exact lastRule?_ignored hg hl hasked hi hsq ht (by omega) (by omega)
  · exact absurd hholds (hkept a hasked.mem_parts hopens)

end LastWord

end Rules

end MarkupIndent.Margin
