import MarkupIndent.Proofs.Layouts
import MarkupIndent.Proofs.Verbatim

/-!
# Wrapped tags, attributes and expressions

When a tag goes over several lines, its attributes are one level deeper than the line on which it
begins, and its closing sign is as deep as that line. What follows the key of an attribute is one
level deeper than the line of the key. Between braces, all is one level deeper than the line of the
opening brace but for brackets that close at the head of a line, which are as deep.

Up to four declarations speak of one token. The tag, the attribute and the expression around it
declare in this order, so the innermost one decides, unless an attribute keeps the expressions of
its value. A line head inside a tag shows that the tag goes over lines, which the rules of braces
and of closing signs ask for.

* `Rules.Braced`: the stretches between braces that go by their own rules.
* `Rules.Wrapped`, `Rules.Closes`: one level deeper, and as deep.
* `lastRule?_attribute`, `lastRule?_afterKey`, `lastRule?_ofBraces`: what the part around a token
  says of it last.
* `Wrapped.lastRule?`, `Closes.lastRule?`: that is the last word.
* `expects_of_wrapping`: **wrapped lines are as deep as the tag, the key or the brace says.**
-/

namespace MarkupIndent.Margin

open Markup Settings Text

namespace Rules

/-! ## Stretches of tokens -/

/-- A punctuator that closes a bracket. -/
def IsClosing (t : Token) : Prop :=
  t.kind = .punctuator ∧ (t.text = ['}'] ∨ t.text = [')'] ∨ t.text = [']'])

/-- A stretch between braces that goes by its own rules: a mustache at the top of the document, a
mustache that is held by a part whose pieces have a say, and every tag of a control block. -/
inductive Braced (rules : Rules) : (first last : Nat) → Prop where
  | top {m : Mustache} : .mustache m ∈ rules.document.nodes → Braced rules m.first m.last
  | held {p : Part} {m : Mustache} : p ∈ rules.document.parts → p.Holds (.node (.mustache m)) →
      rules.Opens p → Braced rules m.first m.last
  | tag {openTag closeTag : BlockTag} {children : List Node} {branches : List Branch}
      {tag : BlockTag} :
      .node (.control openTag children branches closeTag) ∈ rules.document.parts →
      tag ∈ openTag :: (branches.map Branch.tag ++ [closeTag]) → Braced rules tag.first tag.last

/-- A token stands one level deeper than the line of another: an attribute than its tag, what
follows the key of an attribute than the key, unless an expression comes first there, and what is
between braces than the opening one. -/
inductive Wrapped (rules : Rules) : (i base : Nat) → Prop where
  | tagAttribute {tag : StartTag} {a : Attribute} : .startTag tag ∈ rules.document.parts →
      a ∈ tag.attributes → Wrapped rules a.first tag.first
  | afterKey {a : Attribute} {key i : Nat} : .attribute a ∈ rules.document.parts →
      a.key = some key → key < i → i ≤ a.last →
      (rules.expressionsFirst = true → ∀ m ∈ a.values, ¬ (m.first < i ∧ i ≤ m.last)) →
      Wrapped rules i key
  | braced {first last i : Nat} {t : Token} : rules.Braced first last → first < i → i ≤ last →
      rules.document.tokens[i]? = some t → ¬ IsClosing t → Wrapped rules i first

/-- A token stands as deep as the line of another: the closing sign of a tag as the opening one, and
a closing bracket between braces as the opening brace. -/
inductive Closes (rules : Rules) : (i base : Nat) → Prop where
  | tag {tag : StartTag} : .startTag tag ∈ rules.document.parts → Closes rules tag.last tag.first
  | bracket {first last i : Nat} {t : Token} : rules.Braced first last → first < i → i ≤ last →
      rules.document.tokens[i]? = some t → IsClosing t → Closes rules i first

/-! ## What the part around a token says -/

section Around

variable {rules : Rules} (hg : rules.Grounded) {i : Nat}
include hg

/-- A stretch with a line head after its first token goes over a line end. -/
theorem spansLines_of_leads {first last : Nat} {t : Token}
    (hfirst : Significant rules.document.tokens first)
    (hlast : rules.document.tokens[last]? = some t)
    (hlead : Leads rules.document.tokens.toList i) (h1 : first < i) (h2 : i ≤ last) :
    rules.spansLines first last = true := by
  obtain ⟨b, hb, hbb⟩ := hfirst
  obtain ⟨u, hu, -, hbefore⟩ := hlead
  rw [Array.getElem?_toList] at hu
  have hline : b.endLine < u.line := hbefore first b h1 (by rwa [Array.getElem?_toList]) hbb
  have hle := line_le_endLine b
  have hstart := start_le_of_le hg.tokens h2 hu hlast
  have hend := line_le_endLine_of_covers (hg.tokens.token last t hlast)
    (Nat.lt_of_le_of_lt hstart (hg.tokens.token last t hlast).lt)
  rw [← (hg.tokens.token i u hu).line] at hend
  simp only [spansLines, line, endLine, hb, hlast, Option.elim_some, decide_eq_true_eq]
  omega

theorem isClosingHead_iff {t : Token} (ht : rules.document.tokens[i]? = some t)
    (hlead : Leads rules.document.tokens.toList i) :
    rules.isClosingHead t = true ↔ IsClosing t := by
  have hhead : rules.heads.isHead t = true := by
    rw [hg.heads]
    exact (isHead_iff (indexed_of_tokenized hg.tokens) ht).mpr hlead
  simp [isClosingHead, IsClosing, hhead, or_assoc]

/-- **Between braces** a line head is one level deeper than the opening brace, or as deep if it is a
closing bracket. -/
theorem lastRule?_ofBraces {first last : Nat} {t : Token}
    (hspan : Marked rules.document.tokens first (last + 1))
    (ht : rules.document.tokens[i]? = some t) (hlead : Leads rules.document.tokens.toList i)
    (h1 : first < i) (h2 : i ≤ last) :
    (¬ IsClosing t → lastRule? i (rules.ofBraces first last) =
      some (.hang i first .relative 1)) ∧
    (IsClosing t → lastRule? i (rules.ofBraces first last) = some (.hang i first .same 0)) := by
  have hx := indexed_of_tokenized hg.tokens
  obtain ⟨u, hu, -⟩ := hspan last (by omega) (Nat.lt_succ_self last)
  have hsig := significant_of_marked hspan (Nat.le_refl first) (by omega)
  have hfilter : ∀ v, v ∈ ((rules.heads.between (first + 1 : Nat) last).filter
      rules.isClosingHead) → v.index = i → v = t ∧ IsClosing t := by
    intro v hv hvi
    rw [List.mem_filter, hg.heads, mem_between] at hv
    obtain ⟨⟨j, -, -, hj, -⟩, hclosing⟩ := hv
    obtain rfl := (hx j v hj).symm.trans hvi
    rw [ht] at hj
    obtain rfl := Option.some.inj hj
    exact ⟨rfl, (isClosingHead_iff hg ht hlead).mp hclosing⟩
  rw [ofBraces, if_pos (spansLines_of_leads hg hsig hu hlead h1 h2), lastRule?_cons,
    Declaration.rule?, if_pos ⟨h1, h2⟩]
  constructor
  · intro hno
    rw [show lastRule? i (List.map _ _) = none from ?_, Option.none_or]
    by_contra hsome
    obtain ⟨e, he⟩ := Option.ne_none_iff_exists'.mp hsome
    obtain ⟨d, hd, hde⟩ := exists_of_lastRule? he
    obtain ⟨v, hv, rfl⟩ := List.mem_map.mp hd
    rw [Declaration.rule?] at hde
    split at hde
    · next hvi => exact hno (hfilter v hv hvi).2
    · cases hde
  · intro hyes
    rw [show lastRule? i (List.map _ _) = some (.hang i first .same 0) from ?_, Option.some_or]
    have hmem : t ∈ (rules.heads.between (first + 1 : Nat) last).filter rules.isClosingHead := by
      rw [List.mem_filter, hg.heads, mem_between]
      exact ⟨⟨i, by omega, by omega, ht, hlead.significant ht⟩,
        (isClosingHead_iff hg ht hlead).mpr hyes⟩
    refine lastRule?_map (fun v _ e he => ?_) hmem (if_pos (hx i t ht))
    rw [Declaration.rule?] at he
    split at he <;> cases he
    rfl

/-- The attributes of a tag say nothing of their first tokens. -/
theorem lastRule?_ofAttributes_first {as : List Attribute} {lo hi : Nat} {a : Attribute}
    (ht : AttributesTile rules.document.tokens lo as hi) (ha : a ∈ as) :
    lastRule? a.first (as.flatMap rules.ofAttribute) = none := by
  induction as generalizing lo with
  | nil => cases ha
  | cons b rest ih =>
    obtain ⟨-, h1, h2⟩ := ht
    have hb := within_ofAttribute hg h1
    rw [List.flatMap_cons]
    rcases List.mem_cons.mp ha with rfl | ha
    · have hle := h1.le
      have hrest : AllWithin a.last hi (rest.flatMap rules.ofAttribute) :=
        allWithin_flatMap fun c hc => by
          obtain ⟨h3, h4, h5⟩ := h2.bounds c hc
          exact (within_ofAttribute hg h3).mono (by omega) (by omega)
      rw [hrest.lastRule?_append (by omega)]
      exact hb.lastRule? (.inl (Nat.le_refl _))
    · obtain ⟨-, h4, -⟩ := h2.bounds a ha
      rw [lastRule?_of_left (ih h2 ha)]
      exact hb.lastRule? (.inr (by omega))

omit hg in
/-- The rule of a closing sign says nothing of the tokens before it. -/
theorem lastRule?_ofClosing_of_lt {first last : Nat} (h : i < last) :
    lastRule? i (if rules.spansLines first last then [.offset last first .same 0] else []) =
      none := by
  split
  · rw [lastRule?_single, Declaration.rule?, if_neg (by omega)]
  · rfl

section StartTag

variable {tag : StartTag} (hf : tag.Fits rules.document.tokens)
  (hi : ¬ rules.Ignored (.startTag tag)) (halign : rules.alignAttributes = false)
include hf hi halign

omit hg hf in
/-- The rules of a start tag whose attributes are not aligned. -/
theorem ofStartTag_unaligned : rules.ofStartTag tag =
    .range (tag.first + 1) tag.last tag.first .relative 1 ::
      ((if rules.spansLines tag.first tag.last then [.offset tag.last tag.first .same 0] else []) ++
        tag.attributes.flatMap rules.ofAttribute) := by
  have hne : rules.ignores "start-tag".toList ≠ true := fun h => hi ⟨_, rfl, h⟩
  have hnone : rules.ofAlignment tag = [] := by
    unfold ofAlignment
    rw [halign]
    cases tag.attributes <;> rfl
  rw [ofStartTag, if_neg hne, hnone, List.nil_append]

/-- **An attribute** is one level deeper than its tag. -/
theorem lastRule?_attribute {a : Attribute} (ha : a ∈ tag.attributes) :
    lastRule? a.first (rules.ofStartTag tag) = some (.hang a.first tag.first .relative 1) := by
  obtain ⟨hfits, h1, h2⟩ := hf.attributes.bounds a ha
  have hle := hfits.le
  rw [ofStartTag_unaligned hi halign, lastRule?_cons, lastRule?_append,
    lastRule?_ofAttributes_first hg hf.attributes ha, lastRule?_ofClosing_of_lt (by omega),
    Option.none_or, Option.none_or, Declaration.rule?, if_pos (by omega)]

/-- **The closing sign of a tag** that goes over lines is as deep as the opening one. -/
theorem lastRule?_closing (hspan : rules.spansLines tag.first tag.last = true) :
    lastRule? tag.last (rules.ofStartTag tag) = some (.hang tag.last tag.first .same 0) := by
  have hattributes :
      AllWithin tag.first (tag.last - 1) (tag.attributes.flatMap rules.ofAttribute) :=
    allWithin_flatMap fun a ha => by
      obtain ⟨h1, h2, h3⟩ := hf.attributes.bounds a ha
      exact (within_ofAttribute hg h1).mono (by omega) (by omega)
  have hlt := hf.lt
  rw [ofStartTag_unaligned hi halign, if_pos hspan, lastRule?_cons,
    hattributes.lastRule?_append (.inr (by omega)), lastRule?_single, Declaration.rule?, if_pos rfl,
    Option.some_or]

end StartTag

/-- **What follows the key of an attribute** is one level deeper than the key, unless an expression
that comes first has a say. -/
theorem lastRule?_afterKey {a : Attribute} {key : Nat} (hi : ¬ rules.Ignored (.attribute a))
    (hkey : a.key = some key) (h1 : key < i) (h2 : i ≤ a.last)
    (hout : rules.expressionsFirst = true → ∀ m ∈ a.values, ¬ (m.first < i ∧ i ≤ m.last)) :
    lastRule? i (rules.ofAttribute a) = some (.hang i key .relative 1) := by
  have hne : rules.ignores (attributeLabel rules.document.tokens a) ≠ true :=
    fun h => hi ⟨_, rfl, h⟩
  have hvalues : lastRule? i (if rules.expressionsFirst then a.values.flatMap rules.ofMustache
      else []) = none := by
    split
    · next hfirst =>
      by_contra hsome
      obtain ⟨e, he⟩ := Option.ne_none_iff_exists'.mp hsome
      obtain ⟨d, hd, hde⟩ := exists_of_lastRule? he
      obtain ⟨m, hm, hdm⟩ := List.mem_flatMap.mp hd
      have hone : AllWithin m.first m.last [d] :=
        allWithin_single (within_ofMustache hg m d hdm)
      exact hout hfirst m hm (hone.mem (by rw [lastRule?_single, hde]))
    · rfl
  unfold ofAttribute
  rw [if_neg hne]
  simp only [hkey]
  rw [lastRule?_cons, hvalues, Option.none_or, Declaration.rule?, if_pos ⟨h1, h2⟩]

/-- What a tag of a branch says between its braces stands among the branches. -/
theorem lastRule?_ofBranches_braces (hl : rules.registry.Local) {branches : List Branch}
    {lo hi : Nat} {b : Branch} {e : OffsetEntry}
    (ht : BranchesTile rules.document.tokens lo branches hi) (hb : b ∈ branches)
    (h : lastRule? i (rules.ofBraces b.tag.first b.tag.last) = some e) :
    lastRule? i (rules.ofBranches branches) = some e := by
  induction branches generalizing lo with
  | nil => cases hb
  | cons c rest ih =>
    obtain ⟨tag, children⟩ := c
    obtain ⟨h1, h2, mid, h3, h4⟩ := ht
    have hle := h3.le
    rw [ofBranches]
    rcases List.mem_cons.mp hb with rfl | hb
    · have hmem : tag.first < i ∧ i ≤ tag.last := (within_ofBraces hg _ _).mem h
      have hnodes := within_ofNodes hg hl children _ _ mid h3 (by omega)
      have hlater := within_ofBranches hg hl rest _ _ hi h4 (Nat.le_succ _)
      rw [hlater.lastRule?_append (by omega), hnodes.lastRule?_append (by omega)]
      exact h
    · exact lastRule?_of_right (ih h4 hb)

/-- What a tag of a control block says between its braces stands in what the block says. -/
theorem lastRule?_control_braces (hl : rules.registry.Local) {openTag closeTag tag : BlockTag}
    {children : List Node} {branches : List Branch} {e : OffsetEntry}
    (hf : (Node.control openTag children branches closeTag).Fits rules.document.tokens)
    (hi : ¬ rules.Ignored (.node (.control openTag children branches closeTag)))
    (htag : tag ∈ openTag :: (branches.map Branch.tag ++ [closeTag]))
    (h : lastRule? i (rules.ofBraces tag.first tag.last) = some e) :
    lastRule? i (rules.ofNode (.control openTag children branches closeTag)) = some e := by
  have htile := branchesTile_control hf
  rw [ofNode_control hi]
  refine lastRule?_of_right ?_
  rw [lastRule?_cons]
  rw [← List.cons_append, List.mem_append, List.mem_singleton] at htag
  rcases htag with htag | rfl
  · obtain ⟨b, hb, rfl⟩ := List.mem_map.mp
      (show tag ∈ (Branch.mk openTag children :: branches).map Branch.tag from htag)
    have hmem := (within_ofBraces hg _ _).mem h
    obtain ⟨-, -, hlast⟩ := lastRule?_ofBranches_tag hg hl htile hb
    rw [(within_ofBraces hg _ _).lastRule?_append (by omega),
      lastRule?_ofBranches_braces hg hl htile hb h, Option.some_or]
  · rw [lastRule?_of_right h, Option.some_or]

end Around

/-! ## The last word -/

section LastWord

variable {rules : Rules} (hg : rules.Grounded) (hl : rules.registry.Local)
  (htile : NodesTile rules.document.tokens 0 rules.document.nodes rules.document.tokens.size)
  (hfree : rules.ignored = []) (halign : rules.alignAttributes = false)
include hfree

theorem not_ignored (p : Part) : ¬ rules.Ignored p := by
  rintro ⟨label, -, h⟩
  rw [ignores, hfree] at h
  cases h

/-- If nothing is ignored, a part is asked unless an attribute keeps it. -/
theorem asked_of_free {p : Part} (hp : p.IsLabelled) (h : p ∈ rules.document.parts)
    (hkept : ∀ a, (Part.attribute a).Holds p → rules.Opens (.attribute a)) : rules.Asked p := by
  rcases asked_or hp h with hasked | ⟨q, -, hi, -⟩ | ⟨a, -, hopens, hholds⟩
  · exact hasked
  · exact absurd hi (not_ignored hfree q)
  · exact absurd (hkept a hholds) hopens

include hg hl htile

/-- Braces that go by their own rules have the last word between them. -/
theorem Braced.decides {first last : Nat} (h : rules.Braced first last) :
    Marked rules.document.tokens first (last + 1) ∧
      ∀ i e, lastRule? i (rules.ofBraces first last) = some e →
        lastRule? i (rules.ofNodes rules.document.nodes) = some e := by
  have hmustache : ∀ {m : Mustache}, rules.Asked (.node (.mustache m)) →
      Marked rules.document.tokens m.first (m.last + 1) ∧
        ∀ i e, lastRule? i (rules.ofBraces m.first m.last) = some e →
          lastRule? i (rules.ofNodes rules.document.nodes) = some e := by
    intro m hasked
    have hne : rules.ignores "mustache".toList ≠ true := fun h =>
      not_ignored hfree (.node (.mustache m)) ⟨_, rfl, h⟩
    have hfits := Part.fits_of_mem htile (p := .node (.mustache m)) trivial hasked.mem_parts
    refine ⟨Mustache.Fits.marked hfits, fun i e he => lastRule?_asked hg hl hasked htile rfl ?_⟩
    rw [ofNode, ofMustache, if_neg hne]
    exact he
  cases h with
  | top hm => exact hmustache (.top hm)
  | @held p m hp hholds hopens =>
    have hasked : rules.Asked p := by
      cases hholds <;> refine asked_of_free hfree trivial hp fun a ha => ?_ <;> cases ha
    exact hmustache (hasked.step ⟨hholds, not_ignored hfree p, hopens⟩)
  | @tag openTag closeTag children branches tag hmem htag =>
    have hasked : rules.Asked (.node (.control openTag children branches closeTag)) :=
      asked_of_free hfree trivial hmem fun a ha => by cases ha
    have hf := Part.fits_of_mem htile (p := .node (.control _ _ _ _)) trivial hmem
    have hfits : tag.Fits rules.document.tokens := by
      rw [← List.cons_append, List.mem_append, List.mem_singleton] at htag
      rcases htag with htag | rfl
      · exact (tags_of_branchesTile (branchesTile_control hf) tag htag).2.2
      · exact hf.2.2.1
    exact ⟨hfits.marked, fun i e he => lastRule?_asked hg hl hasked htile rfl
      (lastRule?_control_braces hg hl hf (not_ignored hfree _) htag he)⟩

/-- A start tag or an attribute has the last word of what it says. -/
theorem lastRule?_free {p : Part} {ds : List Declaration} {i : Nat} {e : OffsetEntry}
    (hp : p ∈ rules.document.parts) (hlabelled : p.IsLabelled) (hne : ∀ n, p ≠ .node n)
    (hds : rules.ofPart p = .ok ds) (he : Margin.lastRule? i ds = some e) :
    Margin.lastRule? i (rules.ofNodes rules.document.nodes) = some e := by
  have hasked : rules.Asked p := asked_of_free hfree hlabelled hp fun a ha => by
    cases ha
    exact absurd rfl (hne _)
  exact lastRule?_asked hg hl hasked htile hds he

include halign

/-- **A line head that is wrapped** hangs one level deeper on a significant token before it. -/
theorem Wrapped.lastRule? {i base : Nat} (h : rules.Wrapped i base)
    (hlead : Leads rules.document.tokens.toList i) :
    Margin.lastRule? i (rules.ofNodes rules.document.nodes) =
      some (.hang i base .relative 1) ∧ base < i ∧ Significant rules.document.tokens base := by
  cases h with
  | @tagAttribute tag a hp ha =>
    have hf : tag.Fits rules.document.tokens :=
      Part.fits_of_mem htile (p := .startTag tag) trivial hp
    obtain ⟨-, h1, -⟩ := hf.attributes.bounds a ha
    exact ⟨lastRule?_free hg hl htile hfree hp trivial (by simp) rfl
      (lastRule?_attribute hg hf (not_ignored hfree _) halign ha), by omega,
      (significant_startTag hf).1⟩
  | @afterKey a _ _ hp hkey h1 h2 hout =>
    have hf : a.Fits rules.document.tokens :=
      Part.fits_of_mem htile (p := .attribute a) trivial hp
    have hle := hf.le
    refine ⟨lastRule?_free hg hl htile hfree hp trivial (by simp) rfl
      (lastRule?_afterKey hg (not_ignored hfree _) hkey h1 h2 hout), h1, ?_⟩
    rw [hf.key base hkey]
    exact significant_of_marked hf.marked (Nat.le_refl _) (by omega)
  | @braced first last _ t hbraced h1 h2 ht hno =>
    obtain ⟨hmarked, hdecides⟩ := hbraced.decides hg hl htile hfree
    exact ⟨hdecides _ _ ((lastRule?_ofBraces hg hmarked ht hlead h1 h2).1 hno), h1,
      significant_of_marked hmarked (Nat.le_refl _) (by omega)⟩

/-- **A line head that closes** hangs as deep on a significant token before it. -/
theorem Closes.lastRule? {i base : Nat} (h : rules.Closes i base)
    (hlead : Leads rules.document.tokens.toList i) :
    Margin.lastRule? i (rules.ofNodes rules.document.nodes) =
      some (.hang i base .same 0) ∧ base < i ∧ Significant rules.document.tokens base := by
  cases h with
  | @tag tag hp =>
    have hf : tag.Fits rules.document.tokens :=
      Part.fits_of_mem htile (p := .startTag tag) trivial hp
    have hlt := hf.lt
    obtain ⟨hfirst, t, ht, -⟩ := significant_startTag hf
    have hspan := spansLines_of_leads hg hfirst ht hlead (by omega) (Nat.le_refl _)
    exact ⟨lastRule?_free hg hl htile hfree hp trivial (by simp) rfl
      (lastRule?_closing hg hf (not_ignored hfree _) halign hspan), by omega, hfirst⟩
  | @bracket first last _ t hbraced h1 h2 ht hyes =>
    obtain ⟨hmarked, hdecides⟩ := hbraced.decides hg hl htile hfree
    exact ⟨hdecides _ _ ((lastRule?_ofBraces hg hmarked ht hlead h1 h2).2 hyes), h1,
      significant_of_marked hmarked (Nat.le_refl _) (by omega)⟩

end LastWord

end Rules

/-! ## Lines -/

/-- **Wrapped tags, attributes and expressions.** If no attributes are aligned and nothing is
ignored, the head of a line is checked and resolved to one level more than the line of a token if it
is wrapped after that token, and to as much as that line if it closes what that token opens. -/
theorem expects_of_wrapping {text : List Char} {d : Document} {s : Settings} {unit : IndentUnit}
    (hd : Document.read text = .ok d)
    (hu : IndentUnit.ofValue s.indentUnit s.mixedAlignment = .ok unit)
    (halign : s.alignAttributes = false) (hignored : s.ignoredNodes = []) :
    ∃ (rules : Rules) (l : Layout), Rules.ofSettings d s .default = .ok rules ∧
      OffsetGraph.build d s .default = .ok l.graph ∧ l.document = d ∧ l.unit = unit ∧
      ∀ t ∈ l.graph.heads.lineHeads,
        (∀ base, rules.Wrapped t.index base → l.isChecked t = .ok true ∧
          ∃ b x, d.tokens[base]? = some b ∧ l.Anchors b x ∧ l.Expects t (unit.indent x 1)) ∧
        (∀ base, rules.Closes t.index base → l.isChecked t = .ok true ∧
          ∃ b x, d.tokens[base]? = some b ∧ l.Anchors b x ∧ l.Expects t x) := by
  obtain ⟨rules, l, hrules, hbuild, hdoc, rfl, hl⟩ := exists_follows hd hu
  obtain ⟨hfree, -, _, -, hunaligned⟩ := options_of_settings hrules
  rw [hignored, LooseText.wholes_nil, List.map_nil] at hfree
  rw [halign, Bool.false_and] at hunaligned
  obtain rfl : rules.document = d := hl.document.symm.trans hdoc
  refine ⟨rules, l, hrules, hbuild, hdoc, rfl, fun t ht => ⟨fun base h => ?_, fun base h => ?_⟩⟩
  · obtain ⟨hrule, hlt, hbase⟩ := h.lastRule? hl.grounded hl.registered hl.tile hfree hunaligned
      (hl.mem_lineHeads.mp ht).2
    exact hl.expects_deeper ht hrule hbase hlt
  · obtain ⟨hrule, hlt, hbase⟩ := h.lastRule? hl.grounded hl.registered hl.tile hfree hunaligned
      (hl.mem_lineHeads.mp ht).2
    exact hl.expects_asDeep ht hrule hbase hlt

/-- A part is an attribute with a mustache of some tokens in its value, as a check. -/
def hasValueAt (first last : Nat) : Part → Bool
  | .attribute a => a.values.any fun m => m.first == first && m.last == last
  | _ => false

theorem attribute_of_hasValueAt {first last : Nat} {p : Part}
    (h : hasValueAt first last p = true) :
    ∃ a m, p = .attribute a ∧ m ∈ a.values ∧ m.first = first ∧ m.last = last := by
  unfold hasValueAt at h
  split at h
  · next a =>
    obtain ⟨m, hm, hends⟩ := List.any_eq_true.mp h
    rw [Bool.and_eq_true, beq_iff_eq, beq_iff_eq] at hends
    exact ⟨a, m, rfl, hm, hends⟩
  · cases h

/-- A call in an attribute on a line of its own: its argument is one level deeper than that line,
and its closing bracket as deep. -/
theorem expects_of_wrapping_call :
    ∃ (d : Document) (l : Layout) (t u : Token),
      Document.read "<p\na=\x7bf(\n1\n)\x7d>x</p>".toList = .ok d ∧
      OffsetGraph.build d { ignoredNodes := [] } .default = .ok l.graph ∧ l.document = d ∧
      (t ∈ l.graph.heads.lineHeads ∧ t.index = 7 ∧ l.isChecked t = .ok true ∧
        l.Expects t ⟨4, 0⟩) ∧
      u ∈ l.graph.heads.lineHeads ∧ u.index = 8 ∧ l.isChecked u = .ok true ∧
        l.Expects u ⟨2, 0⟩ := by
  obtain ⟨d, hd⟩ := exists_of_isOk
    (show (Document.read "<p\na=\x7bf(\n1\n)\x7d>x</p>".toList).isOk = true by decide +kernel)
  have hvalue : (Document.read "<p\na=\x7bf(\n1\n)\x7d>x</p>".toList).map (fun d =>
      (d.parts.any (hasValueAt 4 9), d.tokens[7]?.map Token.text, d.tokens[8]?.map fun t =>
        (t.kind, t.text))) =
      .ok (true, some ['1'], some (.punctuator, [')'])) := by decide +kernel
  have hfirst : (Document.read "<p\na=\x7bf(\n1\n)\x7d>x</p>".toList).map (fun d =>
      (Rules.ofSettings d { ignoredNodes := [] } .default).toOption.map Rules.expressionsFirst) =
      .ok (some true) := by decide +kernel
  have hline : (Document.read "<p\na=\x7bf(\n1\n)\x7d>x</p>".toList).map (fun d =>
      (OffsetGraph.build d { ignoredNodes := [] } .default).toOption.map fun g =>
        (g.heads.lineHeads.map Token.index, d.tokens[4]?.map fun b =>
          ((Layout.mk g d ⟨.spaces 2, false⟩).anchor [] b).toOption.map Prod.fst)) =
      .ok (some ([0, 2, 7, 8], some (some ⟨2, 0⟩))) := by decide +kernel
  rw [hd] at hvalue hfirst hline
  obtain ⟨rules, l, hrules, hbuild, hdoc, hunit, hall⟩ :=
    expects_of_wrapping (s := { ignoredNodes := [] }) hd rfl rfl rfl
  obtain ⟨rfl, -⟩ := rules_of_settings hd hrules
  obtain ⟨hmem, h78⟩ := Prod.mk.inj (Except.ok.inj hvalue)
  obtain ⟨h7, h8⟩ := Prod.mk.inj h78
  have hfirst : (Rules.ofSettings rules.document { ignoredNodes := [] } .default).toOption.map
    Rules.expressionsFirst = some true := Except.ok.inj hfirst
  have hline : (OffsetGraph.build rules.document { ignoredNodes := [] } .default).toOption.map _ =
    some ([0, 2, 7, 8], _) := Except.ok.inj hline
  rw [hrules] at hfirst
  rw [hbuild] at hline
  obtain ⟨hheads, hanchor⟩ := Prod.mk.inj (Option.some.inj hline)
  have hl : Layout.mk l.graph rules.document ⟨.spaces 2, false⟩ = l := by
    rw [← hdoc, show (⟨.spaces 2, false⟩ : IndentUnit) = l.unit from hunit.symm]
  rw [hl] at hanchor
  obtain ⟨p, hp, hmatch⟩ := List.any_eq_true.mp hmem
  obtain ⟨a, m, rfl, hm, hmf, hml⟩ := attribute_of_hasValueAt hmatch
  have hbraced : rules.Braced 4 9 :=
    hmf ▸ hml ▸ .held hp (.value hm) (.inr (Option.some.inj hfirst))
  have hbase : ∀ b x, rules.document.tokens[4]? = some b → l.Anchors b x → x = ⟨2, 0⟩ := by
    intro b x hb hx
    obtain ⟨memo, hx, -⟩ := hx [] Layout.known_nil
    rw [hb] at hanchor
    have hanchor : (l.anchor [] b).toOption.map Prod.fst = some ⟨2, 0⟩ := Option.some.inj hanchor
    rw [hx] at hanchor
    exact Option.some.inj hanchor
  obtain ⟨t, ht, hti⟩ := List.mem_map.mp (show 7 ∈ l.graph.heads.lineHeads.map Token.index by
    rw [hheads]; decide)
  obtain ⟨u, hu, hui⟩ := List.mem_map.mp (show 8 ∈ l.graph.heads.lineHeads.map Token.index by
    rw [hheads]; decide)
  obtain ⟨t', ht', htext⟩ := Option.map_eq_some_iff.mp h7
  obtain ⟨u', hu', htext'⟩ := Option.map_eq_some_iff.mp h8
  obtain ⟨hcheck, b, x, hb, hx, hexpects⟩ := (hall t ht).1 4 (.braced hbraced (by omega) (by omega)
    (hti ▸ ht') (by simp [Rules.IsClosing, htext]))
  obtain ⟨hcheck', b', x', hb', hx', hexpects'⟩ := (hall u hu).2 4 (.bracket hbraced (by omega)
    (by omega) (hui ▸ hu') ⟨(Prod.mk.inj htext').1, .inr (.inl (Prod.mk.inj htext').2)⟩)
  rw [hbase b x hb hx] at hexpects
  rw [hbase b' x' hb' hx'] at hexpects'
  exact ⟨_, l, t, u, hd, hbuild, hdoc, ⟨ht, hti, hcheck, hexpects⟩, hu, hui, hcheck', hexpects'⟩

end MarkupIndent.Margin
