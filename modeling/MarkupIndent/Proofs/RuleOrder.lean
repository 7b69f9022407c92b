import MarkupIndent.Proofs.Declared

/-!
# The graph of a document is ordered

All that the nodes of a document declare descends, so carrying it out gives an ordered graph: every
token hangs on one before it or is pinned. The first significant token is the root, and since
everything after it is hung on the root first, no significant token is left out.

* `descends_below`: what is declared for a whole document.
* `ordered_build`: **the graph of a document is ordered**, and no significant token is left out.
* `descends_of_ordered`: what that says of each token.
-/

namespace MarkupIndent.Margin

open Markup Settings Text

namespace Rules

/-- The declarations of a whole document descend. -/
theorem descends_below {rules : Rules} (hg : rules.Grounded) {root : Nat}
    (hr : Significant rules.document.tokens root)
    (ht : NodesTile rules.document.tokens 0 rules.document.nodes rules.document.tokens.size) :
    AllDescend rules.document.tokens (rules.below root) := by
  refine allDescend_cons ⟨Nat.lt_succ_self root, hr, by simp, by simp, Int.le_refl 0⟩ fun d hd => ?_
  exact (declared_ofNodes hg _ _ _ _ ht (Nat.le_succ _) d hd).descends hg

end Rules

/-! ## The graph of a document -/

/-- The first significant token has only blank ones before it. -/
theorem first?_spec {tokens : Array Token} {root : Token}
    (h : (Heads.ofTokens tokens).first? = some root) :
    ∃ i, tokens[i]? = some root ∧ root.isBlank = false ∧
      ∀ (j : Nat) (u : Token), j < i → tokens[j]? = some u → u.isBlank = true := by
  rw [Heads.first?, Heads.ofTokens, ← Array.find?_toList, List.find?_eq_some_iff_append] at h
  obtain ⟨hb, before, after, hsplit, hbefore⟩ := h
  refine ⟨before.length, ?_, by simpa [Token.isSignificant] using hb, fun j u hj hu => ?_⟩
  · rw [← Array.getElem?_toList, hsplit]
    simp
  · rw [← Array.getElem?_toList, hsplit, List.getElem?_append_left hj] at hu
    simpa [Token.isSignificant] using hbefore u (List.mem_of_getElem? hu)

theorem first?_eq_none {tokens : Array Token} (h : (Heads.ofTokens tokens).first? = none) {i : Nat} :
    ¬ Significant tokens i := by
  rintro ⟨t, ht, hb⟩
  rw [Heads.first?, Heads.ofTokens, Array.find?_eq_none] at h
  have := h t (Array.mem_of_getElem? ht)
  simp [Token.isSignificant, hb] at this

theorem grounded_of_settings {text : List Char} {d : Document} {s : Settings} {registry : Registry}
    {rules : Rules} (hd : Document.read text = .ok d) (hr : registry.Descends)
    (h : Rules.ofSettings d s registry = .ok rules) : rules.document = d ∧ rules.Grounded := by
  obtain ⟨unit, hu, h⟩ := bind_eq_ok.mp h
  cases h
  have htext := text_of_read hd
  have htok := tokenized_of_read hd
  rw [← htext] at htok
  exact ⟨rfl, rfl, htok, hr⟩

/-- The graph in which only the root is set. -/
theorem ordered_setRoot {tokens : Array Token} {root : Nat} (hr : root < tokens.size) :
    ∃ g, (OffsetGraph.empty (.ofTokens tokens)).setRoot (.own root) = .ok g ∧
      g.Ordered tokens root := by
  have hnone : ∀ i : Nat, (Array.replicate tokens.size (none : Option OffsetEntry))[i]? =
      if i < tokens.size then some none else none := by
    intro i
    rw [Array.getElem?_replicate]
  refine ⟨⟨.ofTokens tokens, (Array.replicate tokens.size none).setIfInBounds root none, some root⟩,
    ?_, rfl, ?_, rfl, ?_, ?_⟩
  · simp [OffsetGraph.setRoot, OffsetGraph.ownIndex, OffsetGraph.empty, Heads.size, Heads.ofTokens,
      hr, bind, Except.bind]
  · simp
  · exact Array.getElem?_setIfInBounds_self_of_lt (by simpa using hr)
  · intro i e he
    by_cases hi : root = i
    · subst hi
      rw [Array.getElem?_setIfInBounds_self_of_lt (by simpa using hr)] at he
      cases he
    · rw [Array.getElem?_setIfInBounds_ne hi, hnone] at he
      split at he <;> cases he

/-- **The graph of a document is ordered**, and every significant token but the root hangs on
something. -/
theorem ordered_build {text : List Char} {d : Document} {s : Settings} {registry : Registry}
    {unit : IndentUnit} {root : Token} (hd : Document.read text = .ok d) (hr : registry.Descends)
    (hu : IndentUnit.ofValue s.indentUnit s.mixedAlignment = .ok unit)
    (hroot : (Heads.ofTokens d.tokens).first? = some root) :
    ∃ g, OffsetGraph.build d s registry = .ok g ∧ g.Ordered d.tokens root.index ∧
      ∀ i, Significant d.tokens i → i ≠ root.index →
        ∃ e, g.entries[i]? = some (some e) := by
  obtain ⟨rules, hrules⟩ : ∃ rules, Rules.ofSettings d s registry = .ok rules := by
    simp only [Rules.ofSettings, hu, bind, Except.bind]
    exact ⟨_, rfl⟩
  obtain ⟨hdoc, hg⟩ := grounded_of_settings hd hr hrules
  have hheads := hg.heads
  have htok := hg.tokens
  rw [hdoc] at hheads htok
  have hx := indexed_of_tokenized htok
  obtain ⟨r, hri, hrb, hbefore⟩ := first?_spec hroot
  have hsig : Significant d.tokens r := ⟨root, hri, hrb⟩
  rw [hx r root hri]
  have hds := Rules.descends_below hg (by rwa [hdoc]) (by rw [hdoc]; exact tile_of_read hd)
  rw [hdoc] at hds
  obtain ⟨g0, h1, h2⟩ := ordered_setRoot hsig.lt
  have hrange := hds _ List.mem_cons_self
  obtain ⟨g1, h3, h4, h5⟩ := OffsetGraph.ordered_declareRange hx h2 hrange
  obtain ⟨g2, h6, h7, h8⟩ := OffsetGraph.ordered_applyAll hx h4
    fun e (he : e ∈ rules.ofNodes rules.document.nodes) => hds e (List.mem_cons_of_mem _ he)
  refine ⟨g2, ?_, h7, ?_⟩
  · simp only [OffsetGraph.build, hrules, hheads, hroot, hx r root hri, h1, bind, Except.bind]
    simp only [OffsetGraph.applyAll, Rules.below, List.foldlM_cons, OffsetGraph.apply, h3, bind,
      Except.bind]
    exact h6
  · intro i hi hne
    have hlt : r < i := by
      obtain ⟨t, ht, hb⟩ := hi
      rcases Nat.lt_trichotomy i r with hlt | heq | hgt
      · rw [hbefore i t hlt ht] at hb
        cases hb
      · exact absurd heq hne
      · exact hgt
    have hsize := hi.lt
    have hcount : rules.heads.size = d.tokens.size := by rw [hheads]; rfl
    obtain ⟨e, he⟩ := OffsetGraph.covers_declareRange hx h2 hrange h3 (i := i) (by omega)
      (by omega) hne hi
    exact h8 i e he

/-- What the graph of a document looks like: the first significant token is the root, blank tokens
and the root have no entry, and every other token has one, whose base is significant and comes
before the token unless the token is pinned to itself. -/
structure OffsetGraph.Descends (tokens : Array Token) (g : OffsetGraph) : Prop where
  root : g.root = (tokens.find? Token.isSignificant).map Token.index
  bare : ∀ (i : Nat) (t : Token), tokens[i]? = some t → t.isBlank = true ∨ g.root = some i →
    g.entry i = .ok none
  hung : ∀ (i : Nat) (t : Token), tokens[i]? = some t → t.isBlank = false → g.root ≠ some i →
    ∃ (e : OffsetEntry) (base : Token), g.entry i = .ok (some e) ∧ e.target = i ∧
      tokens[e.base]? = some base ∧ base.isBlank = false ∧
      (if e.kind = .pinned then e.base = i else e.base < i)

theorem descends_of_ordered {tokens : Array Token} {root : Token} {g : OffsetGraph}
    (hroot : (Heads.ofTokens tokens).first? = some root) (h : g.Ordered tokens root.index)
    (hall : ∀ i, Significant tokens i → i ≠ root.index → ∃ e, g.entries[i]? = some (some e)) :
    g.Descends tokens where
  root := by
    rw [h.hasRoot, show tokens.find? Token.isSignificant = some root from hroot, Option.map_some]
  bare := by
    intro i t ht hor
    have hi := (Array.getElem?_eq_some_iff.mp ht).1
    rw [← h.size] at hi
    rw [h.hasRoot] at hor
    rw [OffsetGraph.entry]
    rcases hor with hb | hr
    · cases he : g.entries[i]? with
      | none => simp at he; omega
      | some e =>
        cases e with
        | none => rfl
        | some e =>
          obtain ⟨t', ht', hb'⟩ := (h.entry i e he).2.onTarget
          rw [ht] at ht'
          cases ht'
          rw [hb] at hb'
          cases hb'
    · rw [← Option.some.inj hr, h.unhung]
  hung := by
    intro i t ht hb hne
    rw [h.hasRoot] at hne
    obtain ⟨e, he⟩ := hall i ⟨t, ht, hb⟩ fun hi => hne (congrArg some hi.symm)
    obtain ⟨htarget, hangs⟩ := h.entry i e he
    obtain ⟨base, hbase, hbb⟩ := hangs.onBase
    refine ⟨e, base, by rw [OffsetGraph.entry, he], htarget, hbase, hbb, ?_⟩
    split
    · next hp => exact hangs.pinned hp
    · next hp => exact hangs.lt hp

end MarkupIndent.Margin
