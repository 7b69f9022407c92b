import MarkupIndent.Proofs.Asked
import MarkupIndent.Proofs.Repair

/-!
# Indentation follows nesting

A child of an element is one level deeper than the line on which the start tag begins, and the end
tag is as deep as that line. A child in a branch of a control block is one level deeper than the
line on which the tag of the branch begins, and the later tags of the block are as deep as the line
of the first one. What stands at the top of the document is not indented.

The rules of a node speak of its tokens after the first one only, so what the node around it says
of that first token stands. The tokens of a text go by the node around it altogether.

* `Layout.Anchors`, `Layout.Expects`: the answers about a line, whatever is known already.
* `expects_of_entry`: a token that hangs on an earlier one is as deep as its line, by its rule.
* `Rules.Leaves`: the tokens that a node leaves to what is around it.
* `Rules.Deeper`, `Rules.AsDeep`: nesting, token by token.
* `lastRule?_child` and the like: what the node around a token says of it last.
* `expects_of_nesting`: **every line is as deep as the tree says**.
-/

namespace MarkupIndent.Margin

open Markup Settings Text

/-! ## From entries to indentation -/

/-- The line of a token has this indentation, whatever is known already. -/
def Layout.Anchors (l : Layout) (t : Token) (i : Indentation) : Prop :=
  ∀ memo, l.Known memo → ∃ memo', l.anchor memo t = .ok (i, memo') ∧ l.Known memo'

/-- A head is resolved to this indentation, whatever is known already. -/
def Layout.Expects (l : Layout) (t : Token) (i : Indentation) : Prop :=
  ∀ memo, l.Known memo → ∃ memo', l.resolve memo t = .ok (i, memo') ∧ l.Known memo'

namespace Layout

variable {l : Layout} {root : Nat} (hl : l.Grounded root)
include hl

theorem expects_of_resolves {i : Nat} {t : Token} (ht : l.document.tokens[i]? = some t)
    {x : Indentation} (h : l.Resolves t x) : l.Expects t x := by
  intro memo hm
  obtain ⟨⟨y, memo'⟩, hy⟩ := resolve_ok hl ht memo
  rw [← hl.indexed i t ht] at ht
  obtain ⟨hr, hm'⟩ := resolveFrom_resolves hl ht hm hy
  rw [h.eq hr]
  exact ⟨memo', hy, hm'⟩

theorem exists_resolves {i : Nat} {t : Token} (ht : l.document.tokens[i]? = some t) :
    ∃ x, l.Resolves t x := by
  obtain ⟨⟨x, memo⟩, hx⟩ := resolve_ok hl ht []
  rw [← hl.indexed i t ht] at ht
  exact ⟨x, (resolveFrom_resolves hl ht known_nil hx).1⟩

omit hl in
/-- The line of a token is as deep as its head is resolved, if that is checked. -/
theorem anchors_of_checked {t head : Token} (hhead : l.graph.heads.headOf t = .ok head)
    (hc : l.isChecked head = .ok true) {x : Indentation} (h : l.Expects head x) :
    l.Anchors t x := by
  intro memo hm
  obtain ⟨memo', h1, h2⟩ := h memo hm
  exact ⟨memo', by simp only [anchor, hhead, hc, h1, bind, Except.bind, if_true], h2⟩

omit hl in
/-- The line of a token is as deep as it is in the source, if its head is not checked. -/
theorem anchors_of_unchecked {t head : Token} (hhead : l.graph.heads.headOf t = .ok head)
    (hc : l.isChecked head = .ok false) {x : Indentation} (h : l.actual head = .ok x) :
    l.Anchors t x := by
  intro memo hm
  exact ⟨memo, by simp only [anchor, hhead, hc, h, bind, Except.bind, Bool.false_eq_true, if_false],
    hm⟩

/-- **A token that hangs on an earlier one is checked**, and resolved to the indentation of the
line of that one by its rule. -/
theorem expects_of_entry {i : Nat} {t base : Token} {e : OffsetEntry}
    (ht : l.document.tokens[i]? = some t) (hroot : l.graph.root ≠ some i)
    (he : l.graph.entry i = .ok (some e)) (hkind : e.kind ≠ .pinned)
    (hbase : l.document.tokens[e.base]? = some base) (hb : base.isBlank = false)
    (hlt : e.base < i) :
    l.isChecked t = .ok true ∧ ∃ head x, l.Anchors base x ∧
      ∀ y, l.adjust e base head x = .ok y → l.Expects t y := by
  have hti := hl.indexed i t ht
  obtain ⟨g, head, hhead, hg, hgoverns⟩ := hl.headOf hbase hb
  have hne : head.index ≠ t.index := by
    have := hgoverns.le
    rw [hti, hl.indexed g head hg]
    omega
  rw [← hti] at hroot he
  have hlink : ∀ checked, l.isChecked head = .ok checked → l.link t =
      if checked then .ok (.hop e base head)
      else l.actual head >>= fun x => l.adjust e base head x >>= fun y => .ok (.settled y) := by
    intro checked hc
    simp only [link, he, if_neg hkind, hl.token hbase, hhead, hc, bind, Except.bind]
  refine ⟨?_, head, ?_⟩
  · simp only [isChecked, if_neg hroot, he, if_neg hkind, hl.token hbase, hhead, bind, Except.bind]
    exact congrArg _ (bne_iff_ne.mpr hne)
  · obtain ⟨checked, hc⟩ := hl.isChecked hg
    have hlink := hlink checked hc
    cases checked with
    | true =>
      obtain ⟨x, hx⟩ := exists_resolves hl hg
      exact ⟨x, anchors_of_checked hhead hc (expects_of_resolves hl hg hx), fun y hy =>
        expects_of_resolves hl ht (.hop hroot hlink hx hy)⟩
    | false =>
      have hx := hl.actual hg
      refine ⟨_, anchors_of_unchecked hhead hc hx, fun y hy =>
        expects_of_resolves hl ht (.settled hroot ?_)⟩
      rw [hlink, hx]
      simp only [Bool.false_eq_true, if_false, bind, Except.bind, hy]

/-- The same of the entry that a rule gives. -/
theorem expects_of_hang {i base : Nat} {t : Token} {kind : OffsetKind} {weight : Int}
    (ht : l.document.tokens[i]? = some t)
    (he : l.graph.entry i = .ok (some (.hang i base kind weight))) (hkind : kind ≠ .pinned)
    (hbase : Significant l.document.tokens base) (hroot : root ≤ base) (hlt : base < i) :
    l.isChecked t = .ok true ∧ ∃ b head x, l.document.tokens[base]? = some b ∧ l.Anchors b x ∧
      ∀ y, l.adjust (.hang i base kind weight) b head x = .ok y → l.Expects t y := by
  obtain ⟨b, hb, hbb⟩ := hbase
  have hne : l.graph.root ≠ some i := by
    rw [hl.graph.hasRoot]
    intro h
    have := Option.some.inj h
    omega
  obtain ⟨h1, head, x, h2, h3⟩ := expects_of_entry hl ht hne he hkind hb hbb hlt
  exact ⟨h1, b, head, x, hb, h2, h3⟩

omit hl in
/-- A line has one indentation. -/
theorem Anchors.eq {t : Token} {x y : Indentation} (hx : l.Anchors t x) (hy : l.Anchors t y) :
    x = y := by
  obtain ⟨memo, h1, -⟩ := hx [] known_nil
  obtain ⟨memo', h2, -⟩ := hy [] known_nil
  rw [h1] at h2
  exact (Prod.mk.inj (Except.ok.inj h2)).1

/-- The root has no indentation, and is checked. -/
theorem expects_root {t : Token} (ht : l.document.tokens[root]? = some t) :
    l.isChecked t = .ok true ∧ l.Expects t .none := by
  have hroot : l.graph.root = some t.index := by rw [hl.indexed root t ht, hl.graph.hasRoot]
  exact ⟨if_pos hroot, expects_of_resolves hl ht (.root hroot)⟩

/-- The line of the root has no indentation, if only blanks come before it. -/
theorem anchors_root {t : Token} (ht : l.document.tokens[root]? = some t)
    (hb : t.isBlank = false)
    (hfirst : ∀ i, Significant l.document.tokens i → root ≤ i) : l.Anchors t .none := by
  obtain ⟨g, head, hhead, hg, hgoverns⟩ := hl.headOf ht hb
  have hle := hfirst g ⟨head, hg, hgoverns.leads.significant hg⟩
  obtain rfl := Nat.le_antisymm hgoverns.le hle
  rw [ht] at hg
  cases hg
  obtain ⟨hc, hx⟩ := expects_root hl ht
  exact anchors_of_checked hhead hc hx

end Layout

/-! ## What the node around a token says -/

namespace Rules

/-- A node leaves a token to what is around it: its first one, and every token of a text that is
not ignored. -/
def Leaves (rules : Rules) (n : Node) (i : Nat) : Prop :=
  i = n.first ∨ ∃ first last, n = .text first last ∧ rules.ignores "text".toList = false ∧
    first ≤ i ∧ i ≤ last

section Around

variable {rules : Rules} (hg : rules.Grounded) (hl : rules.registry.Local) {i : Nat}

include hg hl in
/-- A node says nothing of a token that it leaves to what is around it. -/
theorem Leaves.lastRule? {n : Node} (h : rules.Leaves n i) (hn : n.Fits rules.document.tokens) :
    lastRule? i (rules.ofNode n) = none ∧ n.first ≤ i ∧ i ≤ n.last := by
  have hle := hn.le
  rcases h with rfl | ⟨first, last, rfl, hi, h1, h2⟩
  · exact ⟨(within_ofNode hg hl n hn).lastRule? (.inl (Nat.le_refl _)), Nat.le_refl _, hle⟩
  · refine ⟨?_, h1, h2⟩
    unfold ofNode
    rw [if_neg (by rw [hi]; exact Bool.false_ne_true)]
    rfl

include hg hl in
theorem lastRule?_ofNodes_leaves {nodes : List Node} {lo hi : Nat} {n : Node}
    (ht : NodesTile rules.document.tokens lo nodes hi) (hn : n ∈ nodes) (h : rules.Leaves n i) :
    lastRule? i (rules.ofNodes nodes) = none ∧ lo ≤ i ∧ i < hi := by
  induction nodes generalizing lo with
  | nil => cases hn
  | cons m rest ih =>
    obtain ⟨h1, h2, h3⟩ := ht
    have hle := h2.le
    have hrest := h3.le
    rw [ofNodes]
    rcases List.mem_cons.mp hn with rfl | hn
    · obtain ⟨h4, h5, h6⟩ := h.lastRule? hg hl h2
      have hlater := within_ofNodes hg hl rest _ _ hi h3 (Nat.le_succ _)
      rw [hlater.lastRule?_append (by omega)]
      exact ⟨h4, by omega, by omega⟩
    · obtain ⟨h4, h5, h6⟩ := ih h3 hn
      rw [lastRule?_of_left h4]
      exact ⟨(within_ofNode hg hl m h2).lastRule? (by omega), by omega, h6⟩

include hg hl in
theorem lastRule?_ofBranches_leaves {branches : List Branch} {lo hi : Nat} {b : Branch} {n : Node}
    (ht : BranchesTile rules.document.tokens lo branches hi) (hb : b ∈ branches)
    (hn : n ∈ b.children) (h : rules.Leaves n i) :
    lastRule? i (rules.ofBranches branches) = none ∧
      (lo ≤ b.tag.first ∧ b.tag.first < i) ∧ i < hi := by
  induction branches generalizing lo with
  | nil => cases hb
  | cons c rest ih =>
    obtain ⟨tag, children⟩ := c
    obtain ⟨h1, h2, mid, h3, h4⟩ := ht
    have hlt := h2.lt
    have hle := h3.le
    have hrest := BranchesTile.le _ rest _ h4
    rw [ofBranches]
    rcases List.mem_cons.mp hb with rfl | hb
    · obtain ⟨h5, h6, h7⟩ := lastRule?_ofNodes_leaves hg hl h3 hn h
      have hlater := within_ofBranches hg hl rest _ _ hi h4 (Nat.le_succ _)
      rw [hlater.lastRule?_append (by omega), lastRule?_of_left h5]
      refine ⟨(within_ofBraces hg _ _).lastRule? (by omega), ?_, by omega⟩
      show lo ≤ tag.first ∧ tag.first < i
      omega
    · obtain ⟨h5, h6, h7⟩ := ih h4 hb
      have hnodes := within_ofNodes hg hl children _ _ (mid - 1) h3 (by omega)
      rw [lastRule?_of_left h5, hnodes.lastRule?_append (by omega)]
      exact ⟨(within_ofBraces hg _ _).lastRule? (by omega), ⟨by omega, h6.2⟩, h7⟩

include hg hl in
/-- Branches say nothing of the first tokens of their tags. -/
theorem lastRule?_ofBranches_tag {branches : List Branch} {lo hi : Nat} {b : Branch}
    (ht : BranchesTile rules.document.tokens lo branches hi) (hb : b ∈ branches) :
    lastRule? b.tag.first (rules.ofBranches branches) = none ∧ lo ≤ b.tag.first ∧
      b.tag.last < hi := by
  induction branches generalizing lo with
  | nil => cases hb
  | cons c rest ih =>
    obtain ⟨tag, children⟩ := c
    obtain ⟨h1, h2, mid, h3, h4⟩ := ht
    have hlt := h2.lt
    have hle := h3.le
    have hrest := BranchesTile.le _ rest _ h4
    rw [ofBranches]
    rcases List.mem_cons.mp hb with rfl | hb
    · have hnodes := within_ofNodes hg hl children _ _ mid h3 (by omega)
      have hlater := within_ofBranches hg hl rest _ _ hi h4 (Nat.le_succ _)
      show lastRule? tag.first _ = none ∧ lo ≤ tag.first ∧ tag.last < hi
      rw [hlater.lastRule?_append (by omega), hnodes.lastRule?_append (by omega)]
      exact ⟨(within_ofBraces hg _ _).lastRule? (by omega), by omega, by omega⟩
    · obtain ⟨h5, h6, h7⟩ := ih h4 hb
      have hnodes := within_ofNodes hg hl children _ _ (mid - 1) h3 (by omega)
      rw [lastRule?_of_left h5, hnodes.lastRule?_append (by omega)]
      exact ⟨(within_ofBraces hg _ _).lastRule? (by omega), by omega, h7⟩

/-! ### Elements and raw blocks -/

section Element

variable {name : List Char} {tag : StartTag} {children : List Node} {e : EndTag}
  (hf : (Node.element name tag children (some e)).Fits rules.document.tokens)
  (hi : ¬ rules.Ignored (.node (.element name tag children (some e))))
include hg hl hf hi

/-- **A child of an element** is one level deeper than the start tag. -/
theorem lastRule?_child {n : Node} (hn : n ∈ children) (h : rules.Leaves n i) :
    lastRule? i (rules.ofNode (.element name tag children (some e))) =
      some (.hang i tag.first .relative 1) := by
  obtain ⟨h1, h2, h3, -⟩ := hf
  obtain ⟨h4, h5, h6⟩ := lastRule?_ofNodes_leaves hg hl h2 hn h
  rw [ofNode_element hi, lastRule?_of_left h4, (within_ofEndTag h3).lastRule?_append (by omega),
    (within_ofStartTag hg h1).lastRule?_append (by omega)]
  rw [lastRule?_cons, lastRule?_single, Declaration.rule?, if_neg (by omega), Option.none_or,
    Declaration.rule?, if_pos (by omega)]

/-- **The end tag of an element** is as deep as the start tag. -/
theorem lastRule?_endTag :
    lastRule? e.first (rules.ofNode (.element name tag children (some e))) =
      some (.hang e.first tag.first .same 0) := by
  obtain ⟨h1, h2, h3, -⟩ := hf
  have hle := h2.le
  have hchildren := within_ofNodes hg hl children _ _ (e.first - 1) h2 (by omega)
  rw [ofNode_element hi, hchildren.lastRule?_append (by omega),
    (within_ofEndTag h3).lastRule?_append (by omega),
    (within_ofStartTag hg h1).lastRule?_append (by omega)]
  rw [lastRule?_cons, lastRule?_single, Declaration.rule?, if_pos rfl, Option.some_or]

end Element

/-- **The end tag of a raw block** is as deep as the start tag. -/
theorem lastRule?_rawEndTag {kind : RawKind} {tag : StartTag} {content : List Nat} {e : EndTag}
    {language : List Char}
    (hf : (Node.raw kind tag content e language).Fits rules.document.tokens)
    (hi : ¬ rules.Ignored (.node (.raw kind tag content e language))) :
    lastRule? e.first (rules.ofNode (.raw kind tag content e language)) =
      some (.hang e.first tag.first .same 0) := by
  obtain ⟨-, -, -, -, h5, -⟩ := hf
  rw [ofNode_raw hi]
  refine lastRule?_of_right ?_
  rw [lastRule?_cons, (within_ofEndTag h5).lastRule? (by omega), Option.none_or]
  exact if_pos rfl

/-! ### Control blocks -/

/-- The rules for the tags of branches say nothing of what is before them. -/
theorem lastRule?_ofBranchTags_before {opener : Nat} {tags : List BlockTag}
    (h : ∀ tag ∈ tags, i < tag.first ∧ tag.first < tag.last) :
    lastRule? i (ofBranchTags opener tags) = none := by
  fun_induction ofBranchTags opener tags with
  | case1 tag following rest ih =>
    obtain ⟨h1, h2⟩ := h tag List.mem_cons_self
    rw [lastRule?_of_left (ih fun t ht => h t (List.mem_cons_of_mem _ ht)), ofBranchTag,
      lastRule?_append, lastRule?_single, Declaration.rule?, if_neg (by omega), Option.none_or]
    split
    · rfl
    · rw [lastRule?_single, Declaration.rule?, if_neg (by omega)]
  | case2 => rfl

/-- The rules for the first tag of some branches, and those for the later ones. -/
theorem ofBranchTags_cons (opener : Nat) (tag : BlockTag) {mid : Nat} {closeTag : BlockTag}
    {rest : List Branch}
    (h : BranchesTile rules.document.tokens mid rest closeTag.first) :
    ∃ following : BlockTag, following.first = mid ∧
      ofBranchTags opener (tag :: (rest.map Branch.tag ++ [closeTag])) =
        ofBranchTag opener tag following ++
          ofBranchTags opener (rest.map Branch.tag ++ [closeTag]) := by
  cases rest with
  | nil => exact ⟨closeTag, h.symm, rfl⟩
  | cons b later =>
    obtain ⟨next, children⟩ := b
    exact ⟨next, h.1, rfl⟩

/-- The tags after a branch. -/
theorem tags_after {mid : Nat} {rest : List Branch} {closeTag : BlockTag}
    (h : BranchesTile rules.document.tokens mid rest closeTag.first)
    (hc : closeTag.Fits rules.document.tokens) :
    ∀ tag ∈ rest.map Branch.tag ++ [closeTag], mid ≤ tag.first ∧ tag.first < tag.last := by
  intro tag htag
  rcases List.mem_append.mp htag with htag | htag
  · obtain ⟨h1, h2, h3⟩ := tags_of_branchesTile h tag htag
    exact ⟨h1, h3.lt⟩
  · obtain rfl := List.mem_singleton.mp htag
    exact ⟨BranchesTile.le _ rest _ h, hc.lt⟩

include hg hl in
/-- **A child in a branch** is one level deeper than the tag of the branch. -/
theorem lastRule?_ofBranchTags_leaves {opener lo : Nat} {branches : List Branch}
    {closeTag : BlockTag} {b : Branch} {n : Node}
    (ht : BranchesTile rules.document.tokens lo branches closeTag.first)
    (hc : closeTag.Fits rules.document.tokens) (hb : b ∈ branches) (hn : n ∈ b.children)
    (h : rules.Leaves n i) :
    lastRule? i (ofBranchTags opener (branches.map Branch.tag ++ [closeTag])) =
      some (.hang i b.tag.first .relative 1) := by
  induction branches generalizing lo with
  | nil => cases hb
  | cons c rest ih =>
    obtain ⟨tag, children⟩ := c
    obtain ⟨h1, h2, mid, h3, h4⟩ := ht
    obtain ⟨following, hmid, heq⟩ := ofBranchTags_cons opener tag h4
    rw [List.map_cons, List.cons_append]
    show lastRule? i (ofBranchTags opener (tag :: (rest.map Branch.tag ++ [closeTag]))) = _
    rw [heq]
    rcases List.mem_cons.mp hb with rfl | hb
    · obtain ⟨-, h5, h6⟩ := lastRule?_ofNodes_leaves hg hl h3 hn h
      have hafter : lastRule? i (ofBranchTags opener (rest.map Branch.tag ++ [closeTag])) = none :=
        lastRule?_ofBranchTags_before fun t ht => by
          obtain ⟨h7, h8⟩ := tags_after h4 hc t ht
          exact ⟨by omega, h8⟩
      rw [lastRule?_of_left hafter]
      refine lastRule?_of_right ?_
      rw [lastRule?_single, Declaration.rule?, if_pos (by omega)]
      rfl
    · exact lastRule?_of_right (ih h4 hb)

/-- **The tag of a later branch** is as deep as the opening tag. -/
theorem lastRule?_ofBranchTags_tag {opener lo : Nat} {branches : List Branch}
    {closeTag : BlockTag} {b : Branch}
    (ht : BranchesTile rules.document.tokens lo branches closeTag.first)
    (hc : closeTag.Fits rules.document.tokens) (hb : b ∈ branches) (hne : b.tag.first ≠ opener) :
    lastRule? b.tag.first (ofBranchTags opener (branches.map Branch.tag ++ [closeTag])) =
      some (.hang b.tag.first opener .same 0) := by
  induction branches generalizing lo with
  | nil => cases hb
  | cons c rest ih =>
    obtain ⟨tag, children⟩ := c
    obtain ⟨h1, h2, mid, h3, h4⟩ := ht
    have hlt := h2.lt
    have hle := h3.le
    obtain ⟨following, hmid, heq⟩ := ofBranchTags_cons opener tag h4
    rw [List.map_cons, List.cons_append]
    show lastRule? b.tag.first (ofBranchTags opener (tag :: (rest.map Branch.tag ++ [closeTag]))) = _
    rw [heq]
    rcases List.mem_cons.mp hb with rfl | hb
    · change tag.first ≠ opener at hne
      change lastRule? tag.first _ = some (.hang tag.first opener .same 0)
      have hafter : lastRule? tag.first (ofBranchTags opener (rest.map Branch.tag ++ [closeTag])) =
          none := lastRule?_ofBranchTags_before fun t ht => by
        obtain ⟨h7, h8⟩ := tags_after h4 hc t ht
        exact ⟨by omega, h8⟩
      rw [lastRule?_of_left hafter, ofBranchTag, if_neg hne, lastRule?_append, lastRule?_single,
        lastRule?_single, Declaration.rule?, if_pos rfl, Declaration.rule?, if_neg (by omega),
        Option.none_or]
    · exact lastRule?_of_right (ih h4 hb)

section Control

variable {openTag closeTag : BlockTag} {children : List Node} {branches : List Branch}
  (hf : (Node.control openTag children branches closeTag).Fits rules.document.tokens)
  (hi : ¬ rules.Ignored (.node (.control openTag children branches closeTag)))
include hg hl hf hi

theorem lastRule?_branch {b : Branch} {n : Node} (hb : b ∈ Branch.mk openTag children :: branches)
    (hn : n ∈ b.children) (h : rules.Leaves n i) :
    lastRule? i (rules.ofNode (.control openTag children branches closeTag)) =
      some (.hang i b.tag.first .relative 1) := by
  have htile := branchesTile_control hf
  obtain ⟨h1, h2, h3⟩ := lastRule?_ofBranches_leaves hg hl htile hb hn h
  have hclose := within_ofBraces hg closeTag.first closeTag.last
  rw [ofNode_control hi, lastRule?_append, lastRule?_cons,
    hclose.lastRule?_append (by omega), h1, Option.none_or, Declaration.rule?, if_neg (by omega),
    Option.none_or]
  exact lastRule?_ofBranchTags_leaves hg hl htile hf.2.2.1 hb hn h

theorem lastRule?_branchTag {b : Branch} (hb : b ∈ branches) :
    lastRule? b.tag.first (rules.ofNode (.control openTag children branches closeTag)) =
      some (.hang b.tag.first openTag.first .same 0) := by
  have htile := branchesTile_control hf
  have hb' := List.mem_cons_of_mem (Branch.mk openTag children) hb
  obtain ⟨h1, ⟨mid, h2, h3⟩, h4, -⟩ := hf
  obtain ⟨h5, -, h6⟩ := lastRule?_ofBranches_tag hg hl htile hb'
  obtain ⟨h7, -, h8⟩ := tags_of_branchesTile h3 b.tag (List.mem_map_of_mem hb)
  have hlt := h1.lt
  have hlt' := h8.lt
  have hle := h2.le
  have hclose := within_ofBraces hg closeTag.first closeTag.last
  rw [ofNode_control hi, lastRule?_append, lastRule?_cons,
    hclose.lastRule?_append (by omega), h5, Option.none_or, Declaration.rule?, if_neg (by omega),
    Option.none_or]
  exact lastRule?_ofBranchTags_tag htile h4 hb' (by omega)

theorem lastRule?_closeTag :
    lastRule? closeTag.first (rules.ofNode (.control openTag children branches closeTag)) =
      some (.hang closeTag.first openTag.first .same 0) := by
  have htile := branchesTile_control hf
  obtain ⟨h1, ⟨mid, h2, h3⟩, -⟩ := hf
  have hlt := h1.lt
  have hle := h2.le
  have hle' := BranchesTile.le _ _ _ h3
  have hbranches := within_ofBranches hg hl _ _ _ (closeTag.first - 1) htile (by omega)
  have hclose := within_ofBraces hg closeTag.first closeTag.last
  rw [ofNode_control hi]
  refine lastRule?_of_right ?_
  rw [lastRule?_cons, hclose.lastRule?_append (by omega), hbranches.lastRule? (by omega),
    Option.none_or]
  exact if_pos rfl

end Control

end Around

/-! ## Nesting -/

/-- A node that has its rules carried out: it is neither ignored nor inside an ignored node. -/
def Open (rules : Rules) (x : Node) : Prop :=
  .node x ∈ rules.document.parts ∧
    ∀ n, .node n ∈ rules.document.parts → .node x ∈ n.parts → rules.ignores (nodeLabel n) = false

/-- A token stands one level deeper than the line of another: a child of an element than its start
tag, and a child in a branch of a control block than the tag of the branch. -/
inductive Deeper (rules : Rules) : (i base : Nat) → Prop where
  | child {name : List Char} {tag : StartTag} {children : List Node} {endTag : Option EndTag}
      {n : Node} {i : Nat} : rules.Open (.element name tag children endTag) → n ∈ children →
      rules.Leaves n i → Deeper rules i tag.first
  | branch {openTag closeTag : BlockTag} {children : List Node} {branches : List Branch}
      {b : Branch} {n : Node} {i : Nat} :
      rules.Open (.control openTag children branches closeTag) →
      b ∈ .mk openTag children :: branches → n ∈ b.children → rules.Leaves n i →
      Deeper rules i b.tag.first

/-- A token stands as deep as the line of another: an end tag as its start tag, and the later tags
of a control block as the opening one. -/
inductive AsDeep (rules : Rules) : (i base : Nat) → Prop where
  | endTag {name : List Char} {tag : StartTag} {children : List Node} {e : EndTag} :
      rules.Open (.element name tag children (some e)) → AsDeep rules e.first tag.first
  | rawEndTag {kind : RawKind} {tag : StartTag} {content : List Nat} {e : EndTag}
      {language : List Char} :
      rules.Open (.raw kind tag content e language) → AsDeep rules e.first tag.first
  | branchTag {openTag closeTag : BlockTag} {children : List Node} {branches : List Branch}
      {b : Branch} : rules.Open (.control openTag children branches closeTag) → b ∈ branches →
      AsDeep rules b.tag.first openTag.first
  | closeTag {openTag closeTag : BlockTag} {children : List Node} {branches : List Branch} :
      rules.Open (.control openTag children branches closeTag) →
      AsDeep rules closeTag.first openTag.first

section Nesting

variable {rules : Rules} (hg : rules.Grounded) (hl : rules.registry.Local)
  (htile : NodesTile rules.document.tokens 0 rules.document.nodes rules.document.tokens.size)
  {x : Node}

/-- A node that is open is asked for its rules, the values of attributes apart. -/
theorem Open.asked (h : rules.Open x) (hx : ∀ m, x ≠ .mustache m) :
    rules.Asked (.node x) ∧ ¬ rules.Ignored (.node x) := by
  obtain ⟨hmem, hopen⟩ := h
  have hself : Part.node x ∈ x.parts := Part.mem_parts_self (.node x)
  have hvalue : ∀ a : Attribute, Part.node x ∉ a.parts := by
    intro a hxa
    rcases List.mem_cons.mp hxa with h | h
    · cases h
    · obtain ⟨m, -, h⟩ := List.mem_map.mp h
      exact hx m (Part.node.inj h).symm
  constructor
  · rcases asked_or (p := .node x) trivial hmem with hasked | ⟨q, hasked, hi, henc⟩ | ⟨a, -, -, hholds⟩
    · exact hasked
    · have hin := henc.mem_parts
      obtain ⟨label, hlabel, hi⟩ := hi
      cases q with
      | node n =>
        cases hlabel
        rw [hopen n hasked.mem_parts hin] at hi
        cases hi
      | startTag tag =>
        rcases List.mem_cons.mp hin with h | h
        · cases h
        · obtain ⟨a, -, h⟩ := List.mem_flatMap.mp h
          exact absurd h (hvalue a)
      | endTag tag => cases List.mem_singleton.mp hin
      | blockTag tag => cases List.mem_singleton.mp hin
      | branch b => cases List.mem_singleton.mp hin
      | document => cases List.mem_singleton.mp hin
      | _ => exact absurd hin (hvalue _)
    · exact absurd hholds.parts_subset fun h => hvalue a (h hself)
  · rintro ⟨label, hlabel, hi⟩
    cases hlabel
    rw [hopen x hmem hself] at hi
    cases hi

include htile in
theorem Open.fits (h : rules.Open x) : x.Fits rules.document.tokens :=
  Part.fits_of_mem (p := .node x) htile trivial h.1

include hg hl htile in
/-- What an open node says is the last word. -/
theorem Open.lastRule? (h : rules.Open x) (hx : ∀ m, x ≠ .mustache m) {i : Nat} {e : OffsetEntry}
    (he : lastRule? i (rules.ofNode x) = some e) :
    Margin.lastRule? i (rules.ofNodes rules.document.nodes) = some e :=
  lastRule?_asked hg hl (h.asked hx).1 htile rfl he

include hg hl htile

/-- **A token that stands deeper** hangs one level deeper on a significant token before it. -/
theorem Deeper.lastRule? {i base : Nat} (h : rules.Deeper i base) :
    Margin.lastRule? i (rules.ofNodes rules.document.nodes) =
      some (.hang i base .relative 1) ∧ base < i ∧ Significant rules.document.tokens base := by
  cases h with
  | @child name tag children endTag n _ hopen hn hleaves =>
    have hx : ∀ m, Node.element name tag children endTag ≠ .mustache m := by
      rintro m ⟨⟩
    have hf := hopen.fits htile
    cases endTag with
    | none =>
      obtain ⟨-, rfl, -⟩ := hf
      cases hn
    | some e =>
      have hrule := lastRule?_child hg hl hf (hopen.asked hx).2 hn hleaves
      obtain ⟨h1, h2, -⟩ := hf
      obtain ⟨-, h3, -⟩ := lastRule?_ofNodes_leaves hg hl h2 hn hleaves
      have hlt := h1.lt
      exact ⟨hopen.lastRule? hg hl htile hx hrule, by omega,
        significant_of_marked h1.marked (Nat.le_refl tag.first) (by omega)⟩
  | @branch openTag closeTag children branches b n _ hopen hb hn hleaves =>
    have hx : ∀ m, Node.control openTag children branches closeTag ≠ .mustache m := by
      rintro m ⟨⟩
    have hf := hopen.fits htile
    have htags := branchesTile_control hf
    have hrule := lastRule?_branch hg hl hf (hopen.asked hx).2 hb hn hleaves
    obtain ⟨-, h1, -⟩ := lastRule?_ofBranches_leaves hg hl htags hb hn hleaves
    obtain ⟨-, -, h2⟩ := tags_of_branchesTile htags b.tag (List.mem_map_of_mem hb)
    exact ⟨hopen.lastRule? hg hl htile hx hrule, h1.2, (significant_blockTag h2).1⟩

/-- **A token that stands as deep as another** hangs as deep on that one, which is significant and
before it. -/
theorem AsDeep.lastRule? {i base : Nat} (h : rules.AsDeep i base) :
    Margin.lastRule? i (rules.ofNodes rules.document.nodes) =
      some (.hang i base .same 0) ∧ base < i ∧ Significant rules.document.tokens base := by
  cases h with
  | @endTag name tag children e hopen =>
    have hx : ∀ m, Node.element name tag children (some e) ≠ .mustache m := by
      rintro m ⟨⟩
    have hf := hopen.fits htile
    have hrule := lastRule?_endTag hg hl hf (hopen.asked hx).2
    obtain ⟨h1, h2, -⟩ := hf
    have hlt := h1.lt
    have hle := h2.le
    exact ⟨hopen.lastRule? hg hl htile hx hrule, by omega, (significant_startTag h1).1⟩
  | @rawEndTag kind tag content e language hopen =>
    have hx : ∀ m, Node.raw kind tag content e language ≠ .mustache m := by
      rintro m ⟨⟩
    have hf := hopen.fits htile
    have hrule := lastRule?_rawEndTag hf (hopen.asked hx).2
    obtain ⟨h1, h2, -⟩ := hf
    have hlt := h1.lt
    exact ⟨hopen.lastRule? hg hl htile hx hrule, by omega, (significant_startTag h1).1⟩
  | @branchTag openTag closeTag children branches b hopen hb =>
    have hx : ∀ m, Node.control openTag children branches closeTag ≠ .mustache m := by
      rintro m ⟨⟩
    have hf := hopen.fits htile
    have hrule := lastRule?_branchTag hg hl hf (hopen.asked hx).2 hb
    obtain ⟨h1, ⟨mid, h2, h3⟩, -⟩ := hf
    obtain ⟨h4, -⟩ := tags_of_branchesTile h3 b.tag (List.mem_map_of_mem hb)
    have hlt := h1.lt
    have hle := h2.le
    exact ⟨hopen.lastRule? hg hl htile hx hrule, by omega, (significant_blockTag h1).1⟩
  | @closeTag openTag closeTag children branches hopen =>
    have hx : ∀ m, Node.control openTag children branches closeTag ≠ .mustache m := by
      rintro m ⟨⟩
    have hf := hopen.fits htile
    have hrule := lastRule?_closeTag hg hl hf (hopen.asked hx).2
    obtain ⟨h1, ⟨mid, h2, h3⟩, -⟩ := hf
    have hlt := h1.lt
    have hle := h2.le
    have hle' := BranchesTile.le _ _ _ h3
    exact ⟨hopen.lastRule? hg hl htile hx hrule, by omega, (significant_blockTag h1).1⟩

end Nesting

end Rules

/-! ## Lines -/

/-- **Indentation follows nesting.** The head of a line is checked and resolved to one level more
than the line of a token if it stands deeper than that token, to as much as that line if it stands
as deep, and to nothing if it stands at the top of the document. -/
theorem expects_of_nesting {text : List Char} {d : Document} {s : Settings} {unit : IndentUnit}
    (hd : Document.read text = .ok d)
    (hu : IndentUnit.ofValue s.indentUnit s.mixedAlignment = .ok unit) :
    ∃ (rules : Rules) (l : Layout), Rules.ofSettings d s .default = .ok rules ∧
      OffsetGraph.build d s .default = .ok l.graph ∧ l.document = d ∧ l.unit = unit ∧
      ∀ t ∈ l.graph.heads.lineHeads,
        (∀ base, rules.Deeper t.index base → l.isChecked t = .ok true ∧
          ∃ b x, d.tokens[base]? = some b ∧ l.Anchors b x ∧ l.Expects t (unit.indent x 1)) ∧
        (∀ base, rules.AsDeep t.index base → l.isChecked t = .ok true ∧
          ∃ b x, d.tokens[base]? = some b ∧ l.Anchors b x ∧ l.Expects t x) ∧
        ((∃ n ∈ d.nodes, rules.Leaves n t.index) →
          l.isChecked t = .ok true ∧ l.Expects t .none) := by
  obtain ⟨rules, hrules⟩ := exists_rules d .default hu
  obtain ⟨rfl, hg, hregistry, htile⟩ := rules_of_settings hd hrules
  have hlocal : rules.registry.Local := hregistry ▸ local_default
  have hx := indexed_of_tokenized hg.tokens
  cases hfirst : (Heads.ofTokens rules.document.tokens).first? with
  | none =>
    obtain ⟨g, hbuild, -⟩ := descends_build hd descends_default hu
    have hg' : g.heads = Heads.ofTokens rules.document.tokens := by
      simp only [OffsetGraph.build, hrules, hg.heads, hfirst, bind, Except.bind] at hbuild
      rw [← Except.ok.inj hbuild]
      rfl
    refine ⟨rules, ⟨g, _, unit⟩, hrules, hbuild, rfl, rfl, fun t ht => ?_⟩
    rw [hg', lineHeads_eq_nil hd fun i => first?_eq_none hfirst] at ht
    cases ht
  | some root =>
    obtain ⟨g, hbuild, hord, hentry⟩ := entry_build hd descends_default hrules hfirst
    obtain ⟨r, hr, hrb, hbefore⟩ := first?_spec hfirst
    obtain rfl := hx r root hr
    have hl : (⟨g, rules.document, unit⟩ : Layout).Grounded root.index := ⟨hg.tokens, hord⟩
    have hroot : ∀ i, Significant rules.document.tokens i → root.index ≤ i := by
      rintro i ⟨u, hu, hb⟩
      by_contra hlt
      rw [hbefore i u (by omega) hu] at hb
      cases hb
    refine ⟨rules, ⟨g, _, unit⟩, hrules, hbuild, rfl, rfl, fun t ht => ?_⟩
    rw [hord.heads, mem_lineHeads hx] at ht
    obtain ⟨i, ht, hlead⟩ := ht
    obtain rfl := hx i t ht
    have hs : Significant rules.document.tokens t.index := ⟨t, ht, hlead.significant ht⟩
    refine ⟨fun base h => ?_, fun base h => ?_, fun hleaves => ?_⟩
    · obtain ⟨hrule, hlt, hbase⟩ := h.lastRule? hg hlocal htile
      have hle := hroot base hbase
      have he := hentry t.index hs (by omega)
      rw [hrule] at he
      obtain ⟨h1, b, head, x, h2, h3, h4⟩ :=
        Layout.expects_of_hang hl ht he (by simp) hbase hle hlt
      exact ⟨h1, b, x, h2, h3, h4 _ rfl⟩
    · obtain ⟨hrule, hlt, hbase⟩ := h.lastRule? hg hlocal htile
      have hle := hroot base hbase
      have he := hentry t.index hs (by omega)
      rw [hrule] at he
      obtain ⟨h1, b, head, x, h2, h3, h4⟩ :=
        Layout.expects_of_hang hl ht he (by simp) hbase hle hlt
      exact ⟨h1, b, x, h2, h3, h4 _ rfl⟩
    · obtain ⟨n, hn, h⟩ := hleaves
      rcases Nat.lt_or_eq_of_le (hroot _ hs) with hlt | heq
      · obtain ⟨hrule, -⟩ := Rules.lastRule?_ofNodes_leaves hg hlocal htile hn h
        have he := hentry t.index hs (by omega)
        rw [hrule] at he
        obtain ⟨h1, b, head, x, h2, h3, h4⟩ :=
          Layout.expects_of_hang hl ht he (by simp) ⟨root, hr, hrb⟩ (Nat.le_refl _) hlt
        rw [hr] at h2
        cases h2
        have hnone := Layout.anchors_root hl hr hrb hroot
        rw [h3.eq hnone] at h4
        exact ⟨h1, h4 _ rfl⟩
      · exact Layout.expects_root hl (heq ▸ ht)

/-- A node is a text of some tokens, as a check. -/
def textAt (first last : Nat) : Node → Bool
  | .text i j => i == first && j == last
  | _ => false

/-- A part is not ignored, if it is a node, as a check. -/
def openAt (rules : Rules) : Part → Bool
  | .node n => !rules.ignores (nodeLabel n)
  | _ => true

/-- A part is an element that begins with a token and has a text of some tokens, as a check. -/
def holdsTextAt (opener first last : Nat) : Part → Bool
  | .node (.element _ tag children (some _)) =>
    tag.first == opener && children.any (textAt first last)
  | _ => false

theorem element_of_holdsTextAt {opener first last : Nat} {p : Part}
    (h : holdsTextAt opener first last p = true) : ∃ name tag children e,
      p = .node (.element name tag children (some e)) ∧ tag.first = opener ∧
        .text first last ∈ children := by
  unfold holdsTextAt at h
  split at h
  · next name tag children e =>
    rw [Bool.and_eq_true, beq_iff_eq, List.any_eq_true] at h
    obtain ⟨htag, n, hn, htext⟩ := h
    unfold textAt at htext
    split at htext
    · next i j =>
      rw [Bool.and_eq_true, beq_iff_eq, beq_iff_eq] at htext
      obtain ⟨rfl, rfl⟩ := htext
      exact ⟨name, tag, children, e, rfl, htag, hn⟩
    · cases htext
  · cases h

/-- A paragraph in a division: its text is on the second level. -/
theorem expects_of_nesting_paragraph :
    ∃ (d : Document) (l : Layout) (t : Token),
      Document.read "<div>\n<p>\nx</p>\n</div>".toList = .ok d ∧
      OffsetGraph.build d {} .default = .ok l.graph ∧ l.document = d ∧
      t ∈ l.graph.heads.lineHeads ∧ t.index = 8 ∧ l.isChecked t = .ok true ∧
      l.Expects t ⟨4, 0⟩ := by
  obtain ⟨d, hd⟩ := exists_of_isOk
    (show (Document.read "<div>\n<p>\nx</p>\n</div>".toList).isOk = true by decide +kernel)
  have hparagraph : (Document.read "<div>\n<p>\nx</p>\n</div>".toList).map (fun d =>
      d.parts.any (holdsTextAt 4 7 8)) = .ok true := by decide +kernel
  have hopen : (Document.read "<div>\n<p>\nx</p>\n</div>".toList).map (fun d =>
      (Rules.ofSettings d {} .default).toOption.map fun rules =>
        !rules.ignores "text".toList && d.parts.all (openAt rules)) = .ok (some true) := by
    decide +kernel
  have hline : (Document.read "<div>\n<p>\nx</p>\n</div>".toList).map (fun d =>
      (OffsetGraph.build d {} .default).toOption.map fun g =>
        ((g.heads.lineHeads.map Token.index).contains 8, d.tokens[4]?.map fun b =>
          ((Layout.mk g d ⟨.spaces 2, false⟩).anchor [] b).toOption.map Prod.fst)) =
      .ok (some (true, some (some ⟨2, 0⟩))) := by decide +kernel
  rw [hd] at hparagraph hopen hline
  obtain ⟨rules, l, hrules, hbuild, hdoc, hunit, hall⟩ := expects_of_nesting (s := {}) hd rfl
  have hopen : (Rules.ofSettings d {} .default).toOption.map _ = some true := Except.ok.inj hopen
  have hline : (OffsetGraph.build d {} .default).toOption.map _ = some (true, _) :=
    Except.ok.inj hline
  rw [hrules] at hopen
  rw [hbuild] at hline
  obtain ⟨rfl, -⟩ := rules_of_settings hd hrules
  obtain ⟨hignores, hnodes⟩ := Bool.and_eq_true_iff.mp (Option.some.inj hopen)
  obtain ⟨hhead, hanchor⟩ := Prod.mk.inj (Option.some.inj hline)
  obtain ⟨t, ht, hti⟩ := List.mem_map.mp (List.contains_iff_mem.mp hhead)
  have hl : Layout.mk l.graph rules.document ⟨.spaces 2, false⟩ = l := by
    rw [← hdoc, show (⟨.spaces 2, false⟩ : IndentUnit) = l.unit from hunit.symm]
  rw [hl] at hanchor
  obtain ⟨p, hp, hmatch⟩ := List.any_eq_true.mp (Except.ok.inj hparagraph)
  obtain ⟨name, tag, children, e, rfl, htag, hn⟩ := element_of_holdsTextAt hmatch
  have hopen : rules.Open (.element name tag children (some e)) :=
    ⟨hp, fun n hn _ => by simpa [openAt] using List.all_eq_true.mp hnodes _ hn⟩
  have hleaves : rules.Leaves (.text 7 8) t.index :=
    .inr ⟨7, 8, rfl, by simpa using hignores, by omega, by omega⟩
  obtain ⟨hchecked, b, x, hb, hx, hexpects⟩ := (hall t ht).1 _ (.child hopen hn hleaves)
  obtain ⟨memo, h1, -⟩ := hx [] Layout.known_nil
  rw [htag] at hb
  rw [hb] at hanchor
  have hanchor : (l.anchor [] b).toOption.map Prod.fst = some ⟨2, 0⟩ := Option.some.inj hanchor
  rw [h1] at hanchor
  rw [show x = ⟨2, 0⟩ from Option.some.inj hanchor] at hexpects
  exact ⟨_, l, t, hd, hbuild, hdoc, ht, hti, hchecked, hexpects⟩

end MarkupIndent.Margin
