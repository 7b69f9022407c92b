import MarkupIndent.Proofs.Asked

/-!
# What a part of the tree writes

A part of the tree writes into the graph of its document. Whatever the graph holds, and whichever of
its tokens is the root, a part gives entries to its own tokens only, its first one apart, and hangs
them on its own tokens. The parts around it have written before, and those beside it have tokens of
their own, so an entry that is written last is written by the innermost part that speaks of it.

* `OffsetGraph.WrittenWithin`: what is written into a graph stays in a stretch of tokens.
* `written_fold`: what each of several steps keeps to, all of them do.
* `written_apply`: a declaration that descends, in the stretch that it speaks of.
* `Declaration.BasedFrom`: a declaration that hangs nothing on the tokens before a place;
  `Declared.basedFrom`: what is declared of a stretch hangs nothing on the tokens before it.
* `parts_write_own_tokens`: **a part writes within its own tokens**, by every single declaration
  and by all of them.
-/

namespace MarkupIndent.Margin

open Markup Settings Text

/-! ## Writing within a stretch of tokens -/

namespace OffsetGraph

/-- The graph `g'` is `g` after entries were written: the entries of tokens after the first of a
stretch up to its last, on bases in the stretch. -/
structure WrittenWithin (s : Span) (g g' : OffsetGraph) : Prop where
  heads : g'.heads = g.heads
  root : g'.root = g.root
  size : g'.entries.size = g.entries.size
  entry : ∀ i : Nat, g'.entries[i]? = g.entries[i]? ∨
    s.first < i ∧ i ≤ s.last ∧ ∃ e : OffsetEntry, g'.entries[i]? = some (some e) ∧ e.target = i ∧
      s.first ≤ e.base ∧ e.base ≤ s.last

section Written

variable {tokens : Array Token} {s : Span} {g g' g'' : OffsetGraph}

theorem WrittenWithin.refl (s : Span) (g : OffsetGraph) : WrittenWithin s g g :=
  ⟨rfl, rfl, rfl, fun _ => .inl rfl⟩

theorem WrittenWithin.trans (h : WrittenWithin s g g') (h' : WrittenWithin s g' g'') :
    WrittenWithin s g g'' where
  heads := h'.heads.trans h.heads
  root := h'.root.trans h.root
  size := h'.size.trans h.size
  entry i := by
    rcases h'.entry i with hsame | hwritten
    · rw [hsame]
      exact h.entry i
    · exact .inr hwritten

/-- One declaration of a token writes within a stretch that holds the token and its base. -/
theorem written_declare (h : g.heads = .ofTokens tokens) {target base : Nat} {kind : OffsetKind}
    {weight : Int} (hd : Hangs tokens target base kind weight) (h1 : s.first < target)
    (h2 : target ≤ s.last) (h3 : s.first ≤ base) :
    ∃ g', g.declare (.own target) (.own base) kind weight = .ok g' ∧ WrittenWithin s g g' := by
  have hown {i : Nat} (hi : Significant tokens i) : g.ownIndex (.own i) = .ok i := by
    have : i < g.heads.size := by rw [h]; exact hi.lt
    simp [ownIndex, this]
  have hle : base ≤ target := by
    by_cases hpin : kind = .pinned
    · exact Nat.le_of_eq (hd.pinned hpin)
    · exact Nat.le_of_lt (hd.lt hpin)
  simp only [declare, checkRule_ok hd.known hd.nonneg, hown hd.onTarget, hown hd.onBase, bind,
    Except.bind]
  split
  · exact ⟨g, rfl, .refl s g⟩
  · refine ⟨_, rfl, rfl, rfl, Array.size_setIfInBounds, fun i => ?_⟩
    by_cases hi : target = i
    · subst hi
      by_cases hset : target < g.entries.size
      · exact .inr ⟨h1, h2, _, Array.getElem?_setIfInBounds_self_of_lt hset, rfl, h3, hle.trans h2⟩
      · simp [hset]
    · exact .inl (Array.getElem?_setIfInBounds_ne hi)

/-- What each of several steps keeps to, all of them do. -/
theorem written_fold {α : Type} {f : OffsetGraph → α → Except Fault OffsetGraph} {xs : List α}
    {heads : Heads} (hf : ∀ x ∈ xs, ∀ g : OffsetGraph, g.heads = heads →
      ∃ g', f g x = .ok g' ∧ WrittenWithin s g g') (h : g.heads = heads) :
    ∃ g', xs.foldlM f g = .ok g' ∧ WrittenWithin s g g' := by
  induction xs generalizing g with
  | nil => exact ⟨g, rfl, .refl s g⟩
  | cons x rest ih =>
    obtain ⟨g₁, hstep, hwritten⟩ := hf x List.mem_cons_self g h
    obtain ⟨g', hrest, hwritten'⟩ :=
      ih (fun y hy => hf y (List.mem_cons_of_mem _ hy)) (hwritten.heads.trans h)
    refine ⟨g', ?_, hwritten.trans hwritten'⟩
    rw [List.foldlM_cons, hstep]
    exact hrest

end Written

end OffsetGraph

/-- The declaration hangs nothing on the tokens before `lo`. -/
def Declaration.BasedFrom (lo : Nat) : Declaration → Prop
  | .offset _ base _ _ | .range _ _ base _ _ => lo ≤ base
  | .pin first _ => lo ≤ first
  | .request .. | .refuse _ => False

/-- **A declaration writes within its stretch**, into any graph of the tokens. -/
theorem written_apply {tokens : Array Token} {s : Span} {g : OffsetGraph} {d : Declaration}
    (hx : Indexed tokens) (h : g.heads = .ofTokens tokens) (hd : d.Descends tokens)
    (hin : d.Within s.first s.last) (hfrom : d.BasedFrom s.first) :
    ∃ g', g.apply d = .ok g' ∧ g.WrittenWithin s g' := by
  have hmem {first last : Nat} {t : Token} (ht : t ∈ g.heads.between first last) :
      Significant tokens t.index ∧ first ≤ t.index ∧ t.index ≤ last := by
    rw [h] at ht
    obtain ⟨i, h1, h2, hi, hb⟩ := mem_between.mp ht
    rw [hx i t hi]
    exact ⟨⟨t, hi, hb⟩, by omega, by omega⟩
  cases d with
  | offset target base kind weight => exact OffsetGraph.written_declare h hd hin.1 hin.2 hfrom
  | range first last base kind weight =>
    obtain ⟨hlt, hbase, hknown, hpin, hweight⟩ := hd
    refine OffsetGraph.written_fold (fun t ht g' hg' => ?_) h
    obtain ⟨hsig, h1, h2⟩ := hmem ht
    have hne : t.index ≠ (TokenRef.own base).index := by
      show t.index ≠ base
      omega
    rw [if_neg hne]
    exact OffsetGraph.written_declare hg'
      ⟨hsig, hbase, hknown, hweight, fun hp => absurd hp hpin, fun _ => by omega⟩
      (Nat.lt_of_lt_of_le hin.1 h1) (h2.trans hin.2) hfrom
  | pin first last =>
    refine OffsetGraph.written_fold (fun t ht g' hg' => ?_) h
    obtain ⟨hsig, h1, h2⟩ := hmem ht
    exact OffsetGraph.written_declare hg'
      ⟨hsig, hsig, by simp, Int.le_refl 0, fun _ => rfl, fun hp => absurd rfl hp⟩
      (Nat.lt_of_lt_of_le hin.1 h1) (h2.trans hin.2) (le_trans hfrom h1)
  | request => exact hd.elim
  | refuse => exact hd.elim

/-! ## Where bases are -/

/-- Declarations that all hang nothing on the tokens before `lo`. -/
def AllBasedFrom (lo : Nat) (ds : List Declaration) : Prop :=
  ∀ d ∈ ds, d.BasedFrom lo

theorem Declaration.Owned.basedFrom {tokens : Array Token} {align : Bool} {lo hi : Nat}
    {d : Declaration} (h : d.Owned tokens align lo hi) : d.BasedFrom lo := by
  cases h with
  | pin h _ => exact Nat.le_of_lt h
  | deeper _ h _ _ => exact h
  | asDeep _ _ h _ _ | aligned _ _ _ h _ _ => exact h

theorem Declaration.BasedFrom.mono {lo lo' : Nat} {d : Declaration} (h : d.BasedFrom lo)
    (hle : lo' ≤ lo) : d.BasedFrom lo' := by
  cases d <;> simp only [Declaration.BasedFrom] at h ⊢ <;> omega

/-- An indenter hangs nothing on the tokens before the block. -/
def Indenter.Based (indenter : Indenter) : Prop :=
  ∀ (d : Document) (opener : Nat) (content : List Token),
    Tokenized d.text d.text.length d.tokens → Content d.tokens opener content →
      AllBasedFrom opener (indenter.declarations content opener d)

theorem based_pinned (name : String) : (Indenter.pinned name).Based := by
  intro d opener content _ hc e he
  obtain ⟨t, ht, rfl⟩ := List.mem_map.mp he
  exact Nat.le_of_lt (hc.mem t ht).2.2

theorem based_bracketDepth (name : String) (languages : List String) {rules : LexicalRules}
    (hr : rules.Plain) : (Indenter.bracketDepth name languages rules).Based := by
  intro d opener content htok hc
  cases content with
  | nil => simp [Indenter.bracketDepth, bracketDeclarations, AllBasedFrom]
  | cons root rest =>
    obtain ⟨region, -, heq, hlines⟩ := bracketDeclarations_eq hr htok hc
    have hroot := (hc.mem root List.mem_cons_self).2.2
    show AllBasedFrom opener (bracketDeclarations rules (root :: rest) opener d)
    rw [heq]
    refine List.forall_mem_cons.mpr ⟨Nat.le_refl opener, fun e he => ?_⟩
    obtain ⟨t, ht, rfl⟩ := List.mem_map.mp he
    have hline := hlines t ht
    have htoken := (hc.mem t (List.mem_cons_of_mem _ ht)).2.2
    rw [bracketRule, List.getElem?_toArray, List.getElem?_eq_getElem hline]
    simp only
    -- A line hangs on itself or on the first line of the content.
    split
    · exact Nat.le_of_lt htoken
    split
    · exact Nat.le_of_lt hroot
    · exact Nat.le_of_lt hroot

/-- No indenter of a registry hangs content on the tokens before its block. -/
def Registry.Based (registry : Registry) : Prop :=
  ∀ language indenter, registry.select language = .ok indenter → indenter.Based

theorem based_default : Registry.default.Based := by
  intro language indenter h
  rcases select_default h with ⟨name, languages, rules, hr, rfl, -⟩ | ⟨rfl, -⟩
  · exact based_bracketDepth name languages hr
  · exact based_pinned "pinned"

/-! ## Parts -/

namespace Rules

section Parts

variable {rules : Rules} (hg : rules.Grounded) (hl : rules.registry.Local)
  (hb : rules.registry.Based)
include hg hb

theorem basedFrom_ofContent {opener lo n : Nat} {language : List Char}
    (ho : Significant rules.document.tokens opener) (hlo : opener < lo)
    (hraw : ∀ i ∈ List.range' lo n, ∃ t,
      rules.document.tokens[i]? = some t ∧ t.kind = .rawText) :
    AllBasedFrom opener (rules.ofContent (List.range' lo n) opener language) := by
  have hc := content_tokensAt hg ho hlo hraw
  unfold ofContent
  split
  · simp [AllBasedFrom]
  · next first rest hlist =>
    rw [hlist] at hc
    split
    · obtain ⟨indenter, hsel, -⟩ := hg.registry language
      rw [hsel]
      exact hb language indenter hsel _ _ _ hg.tokens hc
    · intro e he
      rw [List.mem_singleton.mp he]
      exact Nat.le_of_lt (hc.mem first List.mem_cons_self).2.2

/-- **What is declared of a stretch hangs nothing on the tokens before it.** -/
theorem Declared.basedFrom {lo hi : Nat} {d : Declaration} (h : rules.Declared lo hi d) :
    d.BasedFrom lo := by
  cases h with
  | owned h => exact h.basedFrom
  | content ho h1 h2 _ hraw hd => exact (basedFrom_ofContent hg hb ho h2 hraw d hd).mono h1

omit hb in
/-- A part that has a label has rules, which are about its tokens. -/
theorem declared_ofPart : (p : Part) → p.Fits rules.document.tokens →
    ∃ s ds, p.span? = some s ∧ rules.ofPart p = .ok ds ∧ rules.AllDeclared s.first s.last ds
  | .node n, h => ⟨_, _, rfl, rfl, declared_ofNode hg n h⟩
  | .attribute _, h =>
    ⟨_, _, rfl, rfl, (owned_ofAttribute hg h).declared (Nat.le_refl _) (Nat.le_refl _)⟩
  | .startTag _, h =>
    ⟨_, _, rfl, rfl, (owned_ofStartTag hg h).declared (Nat.le_refl _) (Nat.le_refl _)⟩
  | .endTag _, h => ⟨_, _, rfl, rfl, (owned_ofEndTag h).declared (Nat.le_refl _) (Nat.le_refl _)⟩

include hl

/-- A part that has a label has rules, and they descend and keep to its tokens. -/
theorem owned_ofPart (p : Part) (hp : p.Fits rules.document.tokens) :
    ∃ s ds, p.span? = some s ∧ rules.ofPart p = .ok ds ∧ AllDescend rules.document.tokens ds ∧
      AllWithin s.first s.last ds ∧ AllBasedFrom s.first ds := by
  obtain ⟨s, ds, hs, hds, h⟩ := declared_ofPart hg p hp
  exact ⟨s, ds, hs, hds, fun d hd => (h d hd).descends hg, h.within hg hl,
    fun d hd => (h d hd).basedFrom hg hb⟩

end Parts

end Rules

/-- **A part writes within its own tokens.** With a unit that means something, every part of the
tree that has a label has rules, and they can be carried out on any graph of the tokens, whatever
its entries and its root. All of them together, and each one of them on any such graph, change the
entries of tokens after the first of the part up to its last, and no others; they hang them on
tokens of the part, and leave the root as it is. -/
theorem parts_write_own_tokens {text : List Char} {d : Document} {s : Settings} {unit : IndentUnit}
    (hd : Document.read text = .ok d)
    (hu : IndentUnit.ofValue s.indentUnit s.mixedAlignment = .ok unit) :
    ∃ rules, Rules.ofSettings d s .default = .ok rules ∧
      ∀ p ∈ d.parts, p.IsLabelled → ∃ span ds, p.span? = some span ∧ rules.ofPart p = .ok ds ∧
        ∀ g : OffsetGraph, g.heads = .ofTokens d.tokens →
          (∃ g', g.applyAll ds = .ok g' ∧ g.WrittenWithin span g') ∧
          ∀ e ∈ ds, ∃ g', g.apply e = .ok g' ∧ g.WrittenWithin span g' := by
  obtain ⟨rules, hrules⟩ := exists_rules d .default hu
  obtain ⟨rfl, hg, hregistry, htile⟩ := rules_of_settings hd hrules
  refine ⟨rules, hrules, fun p hmem hp => ?_⟩
  have hfits := Part.fits_of_mem htile hp hmem
  obtain ⟨span, ds, hspan, hds, hdescend, hwithin, hbased⟩ :=
    Rules.owned_ofPart hg (hregistry ▸ local_default) (hregistry ▸ based_default) p hfits
  have hstep : ∀ e ∈ ds, ∀ g : OffsetGraph, g.heads = .ofTokens rules.document.tokens →
      ∃ g', g.apply e = .ok g' ∧ g.WrittenWithin span g' := fun e he g h =>
    written_apply (indexed_of_tokenized hg.tokens) h (hdescend e he) (hwithin e he) (hbased e he)
  exact ⟨span, ds, hspan, hds, fun g h =>
    ⟨OffsetGraph.written_fold hstep h, fun e he => hstep e he g h⟩⟩

/-- An element with a line of its own for its text, on a graph without entries. -/
theorem parts_write_own_tokens_element :
    ∃ (d : Document) (rules : Rules) (p : Part) (span : Span) (ds : List Declaration)
      (g : OffsetGraph),
      Document.read "<p>\nx</p>".toList = .ok d ∧
      IndentUnit.ofValue (.int 2) false = .ok ⟨.spaces 2, false⟩ ∧
      Rules.ofSettings d {} .default = .ok rules ∧ p ∈ d.parts ∧ p.span? = some span ∧
      rules.ofPart p = .ok ds ∧ (OffsetGraph.empty (.ofTokens d.tokens)).applyAll ds = .ok g ∧
      (OffsetGraph.empty (.ofTokens d.tokens)).WrittenWithin span g := by
  have hnodes : (Document.read "<p>\nx</p>".toList).toOption.any (!·.nodes.isEmpty) = true := by
    decide +kernel
  cases hd : Document.read "<p>\nx</p>".toList with
  | error e =>
    rw [hd] at hnodes
    cases hnodes
  | ok d =>
    rw [hd] at hnodes
    obtain ⟨n, hn⟩ : ∃ n, n ∈ d.nodes := by
      rw [← List.isEmpty_eq_false_iff_exists_mem]
      simpa [Except.toOption] using hnodes
    have hmem : Part.node n ∈ d.parts :=
      parts_subset_partsOfNodes hn (Part.mem_parts_self (.node n))
    have hunit : IndentUnit.ofValue (.int 2) false = .ok ⟨.spaces 2, false⟩ := rfl
    obtain ⟨rules, hrules, hparts⟩ := parts_write_own_tokens (s := {}) hd hunit
    obtain ⟨span, ds, hspan, hds, hwrites⟩ := hparts _ hmem trivial
    obtain ⟨⟨g, hg, hwritten⟩, -⟩ := hwrites (.empty (.ofTokens d.tokens)) rfl
    exact ⟨d, rules, _, span, ds, g, rfl, rfl, hrules, hmem, hspan, hds, hg, hwritten⟩

end MarkupIndent.Margin
