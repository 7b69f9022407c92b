import MarkupIndent.Proofs.Asked
import MarkupIndent.Proofs.LowerCase
import MarkupIndent.Proofs.Repair

/-!
# Ignored parts keep their lines

A part is ignored by its label, which the settings may spell as they like: labels are compared in
lower case. The label of a control block is the exception. It has the keyword as it is written, so
a keyword with a capital letter cannot be named.

* `lower_partLabel`: the labels of all other parts are in lower case.
* `entry_of_ignored`: **the tokens of an ignored part are pinned**, wherever it is in the tree.
* `ignored_unpinned`: the three ways out: the keyword of a block, a value that its attribute
  keeps, and the root of the document.
-/

namespace MarkupIndent.Margin

open Markup Settings Text

/-! ## Labels -/

theorem lower_attributeLabel (tokens : Array Token) (a : Attribute) :
    lower (attributeLabel tokens a) = attributeLabel tokens a := by
  unfold attributeLabel
  split
  · exact lower_lower _
  · decide +kernel

/-- **A label is in lower case**, that of a control block apart. -/
theorem lower_partLabel {tokens : Array Token} : {p : Part} → {label : List Char} →
    partLabel tokens p = .ok label →
    (∀ openTag children branches closeTag,
      p = .node (.control openTag children branches closeTag) → lower label = label) →
    lower label = label
  | .node (.text ..), _, rfl, _ => show lower "text".toList = "text".toList by decide +kernel
  | .node (.comment ..), _, rfl, _ =>
    show lower "comment".toList = "comment".toList by decide +kernel
  | .node (.mustache _), _, rfl, _ =>
    show lower "mustache".toList = "mustache".toList by decide +kernel
  | .node (.element ..), _, rfl, _ => lower_lower _
  | .node (.raw kind ..), _, rfl, _ => show lower kind.name = kind.name by
    cases kind <;> decide +kernel
  | .node (.control ..), _, _, h => h _ _ _ _ rfl
  | .attribute a, _, rfl, _ => lower_attributeLabel tokens a
  | .startTag _, _, rfl, _ =>
    show lower "start-tag".toList = "start-tag".toList by decide +kernel
  | .endTag _, _, rfl, _ => show lower "end-tag".toList = "end-tag".toList by decide +kernel
  | .blockTag _, _, h, _ | .branch _, _, h, _ | .document, _, h, _ => by cases h

/-- A label in lower case is ignored if it is listed. -/
theorem ignores_of_mem {d : Document} {s : Settings} {registry : Registry} {rules : Rules}
    (h : Rules.ofSettings d s registry = .ok rules) {label : List Char}
    (hlower : lower label = label) (hmem : .whole (String.ofList label) ∈ s.ignoredNodes) :
    rules.ignores label = true := by
  obtain ⟨unit, -, h⟩ := bind_eq_ok.mp h
  cases h
  refine List.contains_iff_mem.mpr (List.mem_map.mpr ⟨_, LooseText.mem_wholes.mpr hmem, ?_⟩)
  rw [String.toList_ofList, hlower]

/-! ## Entries -/

/-- **The tokens of an ignored part are pinned.** Wherever a part is in the tree, if its label is
listed, then every significant token after its first one has an entry on itself. Left out are
control blocks whose label is not in lower case, the mustaches in the value of an attribute with a
key unless expressions come first, and the token that the whole document hangs on. -/
theorem entry_of_ignored {text : List Char} {d : Document} {s : Settings} {unit : IndentUnit}
    (hd : Document.read text = .ok d)
    (hu : IndentUnit.ofValue s.indentUnit s.mixedAlignment = .ok unit) :
    ∃ g, OffsetGraph.build d s .default = .ok g ∧
      ∀ p ∈ d.parts, ∀ (label : List Char) (span : Span),
        partLabel d.tokens p = .ok label → p.span? = some span →
        .whole (String.ofList label) ∈ s.ignoredNodes →
        (∀ openTag children branches closeTag,
          p = .node (.control openTag children branches closeTag) → lower label = label) →
        (s.precedence = expressionPrecedence ∨ ∀ a : Attribute, .attribute a ∈ d.parts →
          a.key ≠ none → ∀ m ∈ a.values, p ≠ .node (.mustache m)) →
        ∀ i, span.first < i → i ≤ span.last → Significant d.tokens i → g.root ≠ some i →
          g.entry i = .ok (some ⟨i, i, .pinned, 0⟩) := by
  obtain ⟨rules, hrules⟩ := exists_rules d .default hu
  have hfirst : rules.expressionsFirst = (s.precedence == expressionPrecedence) := by
    obtain ⟨_, -, h⟩ := bind_eq_ok.mp hrules
    cases h
    rfl
  obtain ⟨rfl, hg, hregistry, htile⟩ := rules_of_settings hd hrules
  have hlocal : rules.registry.Local := hregistry ▸ local_default
  cases hroot : (Heads.ofTokens rules.document.tokens).first? with
  | none =>
    obtain ⟨g, hbuild, -⟩ := descends_build hd descends_default hu
    refine ⟨g, hbuild, ?_⟩
    intro p _ _ _ _ _ _ _ _ i _ _ hsig
    exact absurd hsig (first?_eq_none hroot)
  | some root =>
    obtain ⟨g, hbuild, hord, hentry⟩ := entry_build hd descends_default hrules hroot
    refine ⟨g, hbuild, ?_⟩
    intro p hp label span hlabel hspan hmem hcontrol hvalue i h1 h2 hsig hne
    have hignored : rules.Ignored p :=
      ⟨label, hlabel, ignores_of_mem hrules (lower_partLabel hlabel hcontrol) hmem⟩
    have hlast : lastRule? i (rules.ofNodes rules.document.nodes) = some (.pin i) := by
      obtain ⟨span', hspan', hds⟩ := Rules.ofPart_ignored hignored
      rw [hspan] at hspan'
      cases hspan'
      refine Rules.lastRule?_pinned hg hlocal (isLabelled_of_partLabel hlabel) hp hspan htile ?_
        h1 h2 hds (lastRule?_pin h1 h2)
      -- A value that its attribute keeps is left out.
      intro a ha hopens hholds
      cases hholds with
      | value hm =>
        refine absurd rfl (hvalue.resolve_left ?_ a ha ?_ _ hm)
        · intro hprec
          exact hopens (.inr (by rw [hfirst, hprec]; rfl))
        · intro hkey
          exact hopens (.inl hkey)
    have hir : i ≠ root.index := fun h => hne (h ▸ hord.hasRoot)
    rw [hentry i hsig hir, hlast]
    rfl

/-- A node is an element of a name from one token to another, as a check. -/
def closedAt (label : List Char) (first last : Nat) : Node → Bool
  | .element name tag _ (some e) => name == label && tag.first == first && e.last == last
  | _ => false

theorem element_of_closedAt {label : List Char} {first last : Nat} {n : Node}
    (h : closedAt label first last n = true) : ∃ tag children e,
      n = .element label tag children (some e) ∧ tag.first = first ∧ e.last = last := by
  unfold closedAt at h
  split at h
  · next name tag children e =>
    simp only [Bool.and_eq_true, beq_iff_eq] at h
    obtain ⟨⟨rfl, hfirst⟩, hlast⟩ := h
    exact ⟨tag, children, e, rfl, hfirst, hlast⟩
  · cases h

/-- The content of an ignored element, and the signs of its end tag. -/
theorem entry_of_ignored_pre :
    ∃ (d : Document) (g : OffsetGraph), Document.read "<pre>\n x</pre>".toList = .ok d ∧
      OffsetGraph.build d {} .default = .ok g ∧ .whole "pre" ∈ ({} : Settings).ignoredNodes ∧
      ∀ i, 3 < i → i ≤ 7 → g.entry i = .ok (some ⟨i, i, .pinned, 0⟩) := by
  obtain ⟨d, hd⟩ := exists_of_isOk
    (show (Document.read "<pre>\n x</pre>".toList).isOk = true by decide +kernel)
  have hnode : (Document.read "<pre>\n x</pre>".toList).map (fun d =>
      d.nodes.any (closedAt "pre".toList 0 7)) = .ok true := by decide +kernel
  have hsignificant : (Document.read "<pre>\n x</pre>".toList).map
      (fun d => d.tokens.toList.map Token.isBlank) =
        .ok [false, false, false, true, false, false, false, false] := by decide +kernel
  have hroot : (Document.read "<pre>\n x</pre>".toList).map
      (fun d => (OffsetGraph.build d {} .default).toOption.map OffsetGraph.root) =
        .ok (some (some 0)) := by decide +kernel
  rw [hd] at hnode hsignificant hroot
  obtain ⟨g, hg, hall⟩ := entry_of_ignored (s := {}) hd rfl
  obtain ⟨n, hn, h⟩ := List.any_eq_true.mp (Except.ok.inj hnode)
  obtain ⟨tag, children, e, rfl, hfirst, hlast⟩ := element_of_closedAt h
  have hp : Part.node (.element "pre".toList tag children (some e)) ∈ d.parts :=
    parts_subset_partsOfNodes hn (Part.mem_parts_self (.node _))
  have hblank : d.tokens.toList.map Token.isBlank =
      [false, false, false, true, false, false, false, false] := Except.ok.inj hsignificant
  have hroot : (OffsetGraph.build d {} .default).toOption.map OffsetGraph.root = some (some 0) :=
    Except.ok.inj hroot
  rw [hg] at hroot
  refine ⟨d, g, hd, hg, by simp, fun i h1 h2 => ?_⟩
  have hlower : lower "pre".toList = "pre".toList := by decide +kernel
  refine hall _ hp "pre".toList _ (congrArg Except.ok hlower) rfl (by simp)
    (fun _ _ _ _ h => by cases h) (.inl rfl) i ?_ ?_ ?_ ?_
  · show tag.first < i
    omega
  · show i ≤ e.last
    omega
  · have hi : (d.tokens.toList.map Token.isBlank)[i]? = some false := by
      rw [hblank]
      rcases (by omega : i = 4 ∨ i = 5 ∨ i = 6 ∨ i = 7) with rfl | rfl | rfl | rfl <;> rfl
    rw [List.getElem?_map, Array.getElem?_toList, Option.map_eq_some_iff] at hi
    exact hi
  · intro h
    rw [Except.toOption, Option.map_some, h] at hroot
    have : i = 0 := Option.some.inj (Option.some.inj hroot)
    omega

/-! ## What is left out -/

/-- A part whose label is listed has a significant token after its first one that is not pinned. -/
def Unpinned (d : Document) (s : Settings) : Prop :=
  ∃ g, OffsetGraph.build d s .default = .ok g ∧
    ∃ p ∈ d.parts, ∃ (label : List Char) (span : Span) (i : Nat),
      partLabel d.tokens p = .ok label ∧ p.span? = some span ∧
      .whole (String.ofList label) ∈ s.ignoredNodes ∧ span.first < i ∧ i ≤ span.last ∧
      Significant d.tokens i ∧ g.entry i ≠ .ok (some ⟨i, i, .pinned, 0⟩)

/-- The same of a given label and token, as a check. -/
def unpinnedAt (label : List Char) (i : Nat) (d : Document) (s : Settings) : Bool :=
  match OffsetGraph.build d s .default with
  | .ok g => d.parts.any fun p =>
    (partLabel d.tokens p).toOption == some label &&
    p.span?.any (fun span => span.first < i && i ≤ span.last) &&
    s.ignoredNodes.contains (.whole (String.ofList label)) &&
    (d.tokens[i]?).any Token.isSignificant && (g.entry i).toOption != some (some (.pin i))
  | .error _ => false

theorem unpinned_of_at {label : List Char} {i : Nat} {d : Document} {s : Settings}
    (h : unpinnedAt label i d s = true) : Unpinned d s := by
  unfold unpinnedAt at h
  split at h
  · next g hg =>
    obtain ⟨p, hp, h⟩ := List.any_eq_true.mp h
    simp only [Bool.and_eq_true, beq_iff_eq, bne_iff_ne, List.contains_iff_mem] at h
    obtain ⟨⟨⟨⟨h1, h2⟩, h3⟩, h4⟩, h5⟩ := h
    have hlabel : partLabel d.tokens p = .ok label := by
      cases hl : partLabel d.tokens p with
      | error fault =>
        rw [hl] at h1
        cases h1
      | ok l =>
        rw [hl] at h1
        rw [Option.some.inj h1]
    obtain ⟨span, hspan, h6, h7⟩ : ∃ span, p.span? = some span ∧ span.first < i ∧ i ≤ span.last := by
      simpa only [Option.any_eq_true, Bool.and_eq_true, decide_eq_true_eq] using h2
    obtain ⟨t, ht, hb⟩ : ∃ t, d.tokens[i]? = some t ∧ t.isBlank = false := by
      simpa only [Option.any_eq_true, Token.isSignificant, Bool.not_eq_true'] using h4
    refine ⟨g, hg, p, hp, label, span, i, hlabel, hspan, h3, h6, h7, ⟨t, ht, hb⟩, fun he => ?_⟩
    rw [he] at h5
    exact h5 rfl
  · cases h

/-- **What is left out is not pinned**: a block whose keyword is not in lower case, a mustache in a
value that its attribute keeps, and the token that the whole document hangs on. -/
theorem ignored_unpinned :
    (∃ d, Document.read "\x7b#If a\x7d\nx\n\x7b/If\x7d".toList = .ok d ∧
      Unpinned d { ignoredNodes := ["If-block"] }) ∧
    (∃ d, Document.read "<br a=\x7bb\nc\x7d>".toList = .ok d ∧
      Unpinned d { ignoredNodes := ["mustache"], precedence := attributePrecedence }) ∧
    ∃ d, Document.read "\nfoo".toList = .ok d ∧ Unpinned d { ignoredNodes := ["text"] } := by
  have key : ∀ (text : String) (label : List Char) (i : Nat) (s : Settings),
      (Document.read text.toList).map (unpinnedAt label i · s) = .ok true →
        ∃ d, Document.read text.toList = .ok d ∧ Unpinned d s := by
    intro text label i s h
    cases hd : Document.read text.toList with
    | error e =>
      rw [hd] at h
      cases h
    | ok d =>
      rw [hd] at h
      exact ⟨d, rfl, unpinned_of_at (Except.ok.inj h)⟩
  refine ⟨key _ "If-block".toList 5 _ ?_, key _ "mustache".toList 5 _ ?_, key _ "text".toList 1 _ ?_⟩
  · decide +kernel
  · decide +kernel
  · decide +kernel

end MarkupIndent.Margin
