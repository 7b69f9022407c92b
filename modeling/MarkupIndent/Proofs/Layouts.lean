import MarkupIndent.Proofs.Levels

/-!
# Layouts by the rules

The graph of a document is what its rules say, token by token: the first significant token is the
root, and every later one has the entry that the last rule for it gives. So what the rules say of a
line head can be read as an answer about its line, without the graph.

* `Layout.RootedAt`, `Layout.Follows`: a layout that goes by rules.
* `follows_of_build`: **the graph of a document goes by its rules.**
* `Layout.Follows.expects_deeper`, `expects_asDeep`: a head that hangs on an earlier token is
  checked, and as deep as the line of that token, by its rule.
* `Layout.Follows.unchecked_of_pin`: a head that is pinned is not checked.
-/

namespace MarkupIndent.Margin

open Markup Settings Text

/-- The first significant token of a document is the root of its layout, and every later one has the
entry that the last rule for it gives. -/
structure Layout.RootedAt (l : Layout) (rules : Rules) (root : Nat) : Prop where
  grounded : l.Grounded root
  significant : Significant rules.document.tokens root
  first : ∀ i, Significant rules.document.tokens i → root ≤ i
  entry : ∀ i, Significant rules.document.tokens i → i ≠ root →
    l.graph.entry i = .ok (some ((lastRule? i (rules.ofNodes rules.document.nodes)).getD
      (.hang i root .same 0)))

/-- A layout goes by the rules of its document. -/
structure Layout.Follows (l : Layout) (rules : Rules) : Prop where
  document : l.document = rules.document
  grounded : rules.Grounded
  registry : rules.registry = .default
  tile : NodesTile rules.document.tokens 0 rules.document.nodes rules.document.tokens.size
  heads : l.graph.heads = .ofTokens rules.document.tokens
  rooted : ∀ i, Significant rules.document.tokens i → ∃ root, l.RootedAt rules root

section Follows

variable {text : List Char} {d : Document} {s : Settings} {rules : Rules} {l : Layout}

/-- **The graph of a document goes by its rules**, in any unit. -/
theorem follows_of_build (hd : Document.read text = .ok d)
    (hrules : Rules.ofSettings d s .default = .ok rules) {g : OffsetGraph}
    (hbuild : OffsetGraph.build d s .default = .ok g) (unit : IndentUnit) :
    (⟨g, d, unit⟩ : Layout).Follows rules := by
  obtain ⟨rfl, hg, hregistry, htile⟩ := rules_of_settings hd hrules
  have hx := indexed_of_tokenized hg.tokens
  cases hfirst : (Heads.ofTokens rules.document.tokens).first? with
  | none =>
    simp only [OffsetGraph.build, hrules, hg.heads, hfirst, bind, Except.bind] at hbuild
    cases hbuild
    exact ⟨rfl, hg, hregistry, htile, rfl, fun i hi => absurd hi (first?_eq_none hfirst)⟩
  | some root =>
    obtain ⟨g', hbuild', hord, hentry⟩ := entry_build hd descends_default hrules hfirst
    rw [hbuild] at hbuild'
    cases hbuild'
    obtain ⟨r, hr, hrb, hbefore⟩ := first?_spec hfirst
    obtain rfl := hx r root hr
    refine ⟨rfl, hg, hregistry, htile, hord.heads, fun _ _ =>
      ⟨root.index, ⟨hg.tokens, hord⟩, ⟨root, hr, hrb⟩, ?_, hentry⟩⟩
    rintro i ⟨u, hu, hb⟩
    by_contra hlt
    rw [hbefore i u (by omega) hu] at hb
    cases hb

/-- Every document has rules and a layout that goes by them. -/
theorem exists_follows (hd : Document.read text = .ok d) {unit : IndentUnit}
    (hu : IndentUnit.ofValue s.indentUnit s.mixedAlignment = .ok unit) :
    ∃ (rules : Rules) (l : Layout), Rules.ofSettings d s .default = .ok rules ∧
      OffsetGraph.build d s .default = .ok l.graph ∧ l.document = d ∧ l.unit = unit ∧
      l.Follows rules := by
  obtain ⟨rules, hrules⟩ := exists_rules d .default hu
  obtain ⟨g, hbuild, -⟩ := descends_build hd descends_default hu
  exact ⟨rules, ⟨g, d, unit⟩, hrules, hbuild, rfl, rfl, follows_of_build hd hrules hbuild unit⟩

/-- The same of a document that does not have too many tokens for the settings. -/
theorem exists_follows_of_size (hd : Document.read text = .ok d) {unit : IndentUnit}
    (hu : IndentUnit.ofValue s.indentUnit s.mixedAlignment = .ok unit)
    (hsize : d.tokens.size ≤ s.maxTokens) :
    ∃ (rules : Rules) (l : Layout), Rules.ofSettings d s .default = .ok rules ∧
      Layout.ofSettings d s .default = .ok l ∧ l.document = d ∧ l.unit = unit ∧
      l.Follows rules := by
  obtain ⟨rules, l, hrules, hbuild, rfl, rfl, hl⟩ := exists_follows hd hu
  refine ⟨rules, l, hrules, ?_, rfl, rfl, hl⟩
  simp only [Layout.ofSettings, hu, hbuild, if_neg (Int.not_lt.mpr hsize), bind, Except.bind]

namespace Layout.Follows

variable (h : l.Follows rules)
include h

theorem registered : rules.registry.Local :=
  h.registry ▸ local_default

theorem indexed : Indexed rules.document.tokens :=
  indexed_of_tokenized h.grounded.tokens

/-- A line head is the token of its index, and leads its line. -/
theorem mem_lineHeads {t : Token} : t ∈ l.graph.heads.lineHeads ↔
    rules.document.tokens[t.index]? = some t ∧ Leads rules.document.tokens.toList t.index := by
  rw [h.heads, Margin.mem_lineHeads h.indexed]
  constructor
  · rintro ⟨i, ht, hlead⟩
    obtain rfl := h.indexed i t ht
    exact ⟨ht, hlead⟩
  · exact fun ht => ⟨t.index, ht⟩

/-- A line head is its own head. -/
theorem headOf_head {t : Token} (ht : t ∈ l.graph.heads.lineHeads) :
    l.graph.heads.headOf t = .ok t := by
  obtain ⟨hti, hlead⟩ := h.mem_lineHeads.mp ht
  obtain ⟨g, head, hhead, hg, hgoverns⟩ := headOf_spec h.indexed hti (hlead.significant hti)
  obtain rfl := hgoverns.eq ⟨hlead, Nat.le_refl _, fun j h1 h2 => absurd h1 (by omega)⟩
  rw [hti] at hg
  rw [h.heads, hhead, Option.some.inj hg]

/-- The line of a head on which a token hangs by the last rule decides over it. -/
theorem expects_of_rule {i base : Nat} {t : Token} {kind : OffsetKind} {weight : Int}
    (ht : rules.document.tokens[i]? = some t) (hb : t.isBlank = false)
    (hrule : lastRule? i (rules.ofNodes rules.document.nodes) = some (.hang i base kind weight))
    (hkind : kind ≠ .pinned) (hbase : Significant rules.document.tokens base) (hlt : base < i) :
    l.isChecked t = .ok true ∧ ∃ b head x, rules.document.tokens[base]? = some b ∧
      l.Anchors b x ∧ ∀ y, l.adjust (.hang i base kind weight) b head x = .ok y →
        l.Expects t y := by
  obtain ⟨root, hroot⟩ := h.rooted i ⟨t, ht, hb⟩
  have hle := hroot.first base hbase
  have he := hroot.entry i ⟨t, ht, hb⟩ (by omega)
  rw [hrule] at he
  rw [← h.document] at ht hbase ⊢
  exact expects_of_hang hroot.grounded ht he hkind hbase hle hlt

/-- A token hangs one level deeper. -/
theorem expects_deeper {t : Token} (ht : t ∈ l.graph.heads.lineHeads) {base : Nat}
    {weight : Int}
    (hrule : lastRule? t.index (rules.ofNodes rules.document.nodes) =
      some (.hang t.index base .relative weight))
    (hbase : Significant rules.document.tokens base) (hlt : base < t.index) :
    l.isChecked t = .ok true ∧ ∃ b x, rules.document.tokens[base]? = some b ∧ l.Anchors b x ∧
      l.Expects t (l.unit.indent x weight) := by
  obtain ⟨hti, hlead⟩ := h.mem_lineHeads.mp ht
  obtain ⟨h1, b, head, x, h2, h3, h4⟩ :=
    h.expects_of_rule hti (hlead.significant hti) hrule (by simp) hbase hlt
  exact ⟨h1, b, x, h2, h3, h4 _ rfl⟩

/-- A token hangs as deep. -/
theorem expects_asDeep {t : Token} (ht : t ∈ l.graph.heads.lineHeads) {base : Nat}
    (hrule : lastRule? t.index (rules.ofNodes rules.document.nodes) =
      some (.hang t.index base .same 0))
    (hbase : Significant rules.document.tokens base) (hlt : base < t.index) :
    l.isChecked t = .ok true ∧ ∃ b x, rules.document.tokens[base]? = some b ∧ l.Anchors b x ∧
      l.Expects t x := by
  obtain ⟨hti, hlead⟩ := h.mem_lineHeads.mp ht
  obtain ⟨h1, b, head, x, h2, h3, h4⟩ :=
    h.expects_of_rule hti (hlead.significant hti) hrule (by simp) hbase hlt
  exact ⟨h1, b, x, h2, h3, h4 _ rfl⟩

/-- A token after a significant one has the entry that the last rule for it gives. -/
theorem entry_of_rule {i before : Nat} {t : Token} {e : OffsetEntry}
    (ht : rules.document.tokens[i]? = some t) (hb : t.isBlank = false)
    (hrule : lastRule? i (rules.ofNodes rules.document.nodes) = some e)
    (hbefore : Significant rules.document.tokens before) (hlt : before < i) :
    l.graph.root ≠ some t.index ∧ l.graph.entry t.index = .ok (some e) := by
  obtain ⟨root, hroot⟩ := h.rooted i ⟨t, ht, hb⟩
  have hle := hroot.first before hbefore
  have he := hroot.entry i ⟨t, ht, hb⟩ (by omega)
  rw [hrule] at he
  rw [h.indexed i t ht, hroot.grounded.graph.hasRoot]
  refine ⟨fun heq => ?_, he⟩
  have := Option.some.inj heq
  omega

/-- A token that the last rule for it pins is not checked, the root apart. -/
theorem unchecked_of_pin {i before : Nat} {t : Token} (ht : rules.document.tokens[i]? = some t)
    (hb : t.isBlank = false)
    (hrule : lastRule? i (rules.ofNodes rules.document.nodes) = some (.pin i))
    (hbefore : Significant rules.document.tokens before) (hlt : before < i) :
    l.isChecked t = .ok false := by
  obtain ⟨hne, he⟩ := h.entry_of_rule ht hb hrule hbefore hlt
  simp only [isChecked, if_neg hne, he, bind, Except.bind, OffsetEntry.pin, OffsetEntry.hang,
    if_pos]

end Layout.Follows

end Follows

end MarkupIndent.Margin
