import MarkupIndent.Proofs.Repair
import MarkupIndent.Proofs.ShiftedRules

/-!
# The graph of a mended document

When no edit takes a line its head, a mended document has the offset graph that the document had.
The text that a document begins with may lose its first token, the blanks before the root; the root
itself takes its place, and hangs on nothing before and after.

* `first?_shifted`: the roots are of each other.
* `build_shifted`: the graphs are of each other.
* `ofSettings_shifted`: so are the layouts that settings give.
* `Layout.twin_of_shifted`: layouts with such graphs are twins.
-/

namespace MarkupIndent.Margin

open Markup Settings Text

/-- The first significant tokens of two sequences are of each other. -/
theorem first?_shifted {k : Nat} {ts ts' : Array Token} (h : Matched Counterpart k ts ts')
    (hx : Indexed ts) (hx' : Indexed ts')
    (hfirst : ∀ (i : Nat) (t : Token), i < k → ts[i]? = some t → t.isBlank = true)
    {root : Token} (hroot : (Heads.ofTokens ts).first? = some root) :
    ∃ root', (Heads.ofTokens ts').first? = some root' ∧ root.index = root'.index + k := by
  obtain ⟨i, hi, hb, hbefore⟩ := first?_spec hroot
  have hik : k ≤ i := by
    by_contra hlt
    have := hfirst i root (by omega) hi
    rw [hb] at this
    cases this
  obtain ⟨i, rfl⟩ : ∃ n, i = n + k := ⟨i - k, by omega⟩
  obtain ⟨t', ht', htt'⟩ := h.of_first hi
  have hb' : t'.isBlank = false := htt'.blank ▸ hb
  cases hroot' : (Heads.ofTokens ts').first? with
  | none => exact absurd ⟨t', ht', hb'⟩ (first?_eq_none hroot')
  | some root' =>
    refine ⟨root', rfl, ?_⟩
    obtain ⟨j, hj, hjb, hjbefore⟩ := first?_spec hroot'
    obtain ⟨u, hu, huroot⟩ := h.token j root' hj
    have hub : u.isBlank = false := by rw [huroot.blank, hjb]
    rw [hx _ _ hi, hx' _ _ hj]
    rcases Nat.lt_trichotomy i j with hlt | rfl | hgt
    · have := hjbefore i t' hlt ht'
      rw [hb'] at this
      cases this
    · rfl
    · have := hbefore (j + k) u (by omega) hu
      rw [hub] at this
      cases this

/-! ## The text that a document begins with -/

/-- What a document begins with that is not a node of the mended one, and what that begins with
instead: nothing and nothing, or text of which the first token is gone. -/
inductive Beginning : Nat → List Node → List Node → Prop
  | same : Beginning 0 [] []
  | gone : Beginning 1 [.text 0 0] []
  | shorter (last : Nat) : Beginning 1 [.text 0 (last + 1)] [.text 0 last]

section Text

variable {R : Token → Token → Prop} {ts ts' : Array Token} (h : Matched R 1 ts ts')
  (hR : ∀ t t', R t t' → t.isBlank = t'.isBlank) (hx : Indexed ts) (hx' : Indexed ts')
  {g g' u : OffsetGraph} (hg : OffsetGraph.Shifted 1 0 ts ts' g g')
include h hR hx hx' hg

/-- **Text may begin with the root or with blanks before the root**: to pin it is the same. -/
theorem pin_root_shifted (hsig : Significant ts' 0) {m : Nat}
    (hu : g.pin 1 ↑(m + 1) = .ok u) :
    ∃ u', g'.pin 1 m = .ok u' ∧ OffsetGraph.Shifted 1 0 ts ts' u u' := by
  obtain ⟨u', h1, h2⟩ : ∃ u', g'.pin ↑(0 : Nat) m = .ok u' ∧ OffsetGraph.Shifted 1 0 ts ts' u u' :=
    OffsetGraph.pin_shifted h hg hR hx hx' hu
  refine ⟨u', ?_, h2⟩
  obtain ⟨t, ht, hb⟩ := hsig
  have hbetween : g'.heads.between ↑(0 : Nat) m = t :: g'.heads.between ↑(1 : Nat) m := by
    rw [hg.heads', between_eq, between_eq]
    cases hlist : ts'.toList with
    | nil =>
      rw [← Array.getElem?_toList, hlist] at ht
      cases ht
    | cons u rest =>
      rw [← Array.getElem?_toList, hlist] at ht
      cases ht
      simp [hlist, Token.isSignificant, hb]
  have hskip : g'.declare (.own t.index) (.own t.index) .pinned 0 = .ok g' := by
    have hlt := (Array.getElem?_eq_some_iff.mp ht).1
    have hown : g'.ownIndex (.own 0) = .ok 0 := by
      rw [OffsetGraph.ownIndex, hg.heads']
      exact if_pos hlt
    rw [hx' 0 t ht]
    simp [OffsetGraph.declare, OffsetGraph.checkRule, hown, hg.root', bind, Except.bind]
  unfold OffsetGraph.pin at h1 ⊢
  rw [hbetween, List.foldlM_cons, hskip] at h1
  exact h1

end Text

/-! ## Graphs of documents -/

/-- The graphs in which only the root is set. -/
theorem setRoot_shifted {R : Token → Token → Prop} {k r : Nat} {ts ts' : Array Token}
    (h : Matched R k ts ts') (hr : r < ts'.size) {g : OffsetGraph}
    (hg : (OffsetGraph.empty (.ofTokens ts)).setRoot (.own (r + k)) = .ok g) :
    ∃ g', (OffsetGraph.empty (.ofTokens ts')).setRoot (.own r) = .ok g' ∧
      OffsetGraph.Shifted k r ts ts' g g' := by
  have hsize := h.size
  have hset : ∀ (xs : Array Token) (i : Nat), i < xs.size →
      (OffsetGraph.empty (.ofTokens xs)).setRoot (.own i) =
        .ok ⟨.ofTokens xs, (Array.replicate xs.size none).setIfInBounds i none, some i⟩ := by
    intro xs i hi
    simp [OffsetGraph.setRoot, OffsetGraph.ownIndex, OffsetGraph.empty, Heads.size, Heads.ofTokens,
      hi, bind, Except.bind]
  have hnone : ∀ (n i j : Nat),
      ((Array.replicate n (none : Option OffsetEntry)).setIfInBounds i none)[j]? =
        if j < n then some none else none := by
    intro n i j
    rw [Array.getElem?_setIfInBounds, Array.getElem?_replicate, Array.size_replicate]
    grind
  rw [hset ts (r + k) (by omega)] at hg
  cases hg
  refine ⟨_, hset ts' r hr, rfl, rfl, by simp, by simp, rfl, rfl, fun i => ?_⟩
  rw [hnone, hnone]
  by_cases hi : i < ts'.size
  · rw [if_pos hi, if_pos (by omega)]
    rfl
  · rw [if_neg hi, if_neg (by omega)]
    rfl

/-- The rules that settings give for another document. -/
theorem ofSettings_on {d d' : Document} {s : Settings} {registry : Registry} {rules : Rules}
    (h : Rules.ofSettings d s registry = .ok rules) :
    Rules.ofSettings d' s registry = .ok (rules.on d') := by
  obtain ⟨unit, hu, h⟩ := bind_eq_ok.mp h
  cases h
  simp only [Rules.ofSettings, hu, bind, Except.bind, Rules.on]

/-- The nodes of a document after those that it begins with are those of another one, over `k` more
tokens. -/
def SameNodes (k : Nat) (base base' : List Node) (d d' : Document) : Prop :=
  ∃ ns, d.nodes = base ++ nodesMoved k ns ∧ d'.nodes = base' ++ nodesMoved 0 ns

section Build

variable {k : Nat} {rules : Rules} {d' : Document} {base base' : List Node}
  (h : rules.Shifted k d') (hraw : rules.RawShifted k d' d'.parts)
  (hnodes : SameNodes k base base' rules.document d') (hbase : Beginning k base base')
include h hraw hnodes hbase

/-- The nodes of a document do to a graph what those of the mended document do. -/
theorem applyNodes_shifted (htile : NodesTile d'.tokens 0 d'.nodes d'.tokens.size) {r : Nat}
    (hr : k = 1 → r = 0 ∧ Significant d'.tokens 0) {g g' u : OffsetGraph}
    (hg : OffsetGraph.Shifted k r rules.document.tokens d'.tokens g g')
    (hu : g.applyAll (rules.ofNodes rules.document.nodes) = .ok u) :
    ∃ u', g'.applyAll ((rules.on d').ofNodes d'.nodes) = .ok u' ∧
      OffsetGraph.Shifted k r rules.document.tokens d'.tokens u u' := by
  have hmatched := h.matched
  have hR : ∀ t t', Counterpart t t' → t.isBlank = t'.isBlank := fun _ _ htt' => htt'.blank
  have hx := h.indexed
  have hx' := h.indexed'
  obtain ⟨ns, hns, hns'⟩ := hnodes
  rw [nodesMoved_zero] at hns'
  have hraw : rules.RawShifted k d' (partsOfNodes ns) := hraw.mono fun p hp => by
    rw [Document.parts, hns', partsOfNodes_append]
    exact List.mem_append_right _ hp
  rw [hns] at hu
  rw [hns'] at htile ⊢
  have hrest : ∀ {lo hi : Nat} {g g' u : OffsetGraph}, NodesTile d'.tokens lo ns hi →
      OffsetGraph.Shifted k r rules.document.tokens d'.tokens g g' →
      g.applyAll (rules.ofNodes (nodesMoved k ns)) = .ok u →
      ∃ u', g'.applyAll ((rules.on d').ofNodes ns) = .ok u' ∧
        OffsetGraph.Shifted k r rules.document.tokens d'.tokens u u' := by
    intro lo hi g g' u htile hg hu
    rw [Rules.ofNodes_shifted h ns lo hi htile hraw] at hu
    exact OffsetGraph.applyAll_shifted hmatched hg hR hx hx' hu
  cases hbase with
  | same => exact hrest htile hg hu
  | gone =>
    rw [List.singleton_append, Rules.ofNodes, Rules.ofNode, OffsetGraph.applyAll,
      List.foldlM_append] at hu
    obtain ⟨v, hv, hu⟩ := bind_eq_ok.mp hu
    have hv : v = g := by
      split at hv
      · obtain ⟨v, hpin, hv⟩ := bind_eq_ok.mp hv
        cases hv
        -- The text has no tokens but the first.
        have hnone : g.pin ↑(0 + 1 : Nat) ↑(0 : Nat) = .ok g := by
          simp only [OffsetGraph.pin, Heads.between]
          simp [pure, Except.pure]
        exact Except.ok.inj (hpin.symm.trans hnone)
      · cases hv
        rfl
    exact hrest htile hg (hv ▸ hu)
  | shorter last =>
    obtain ⟨rfl, hsig⟩ := hr rfl
    rw [List.singleton_append, Rules.ofNodes, Rules.ofNode, OffsetGraph.applyAll,
      List.foldlM_append] at hu ⊢
    obtain ⟨v, hv, hu⟩ := bind_eq_ok.mp hu
    obtain ⟨v', hv', hgv⟩ : ∃ v', (if (rules.on d').ignores "text".toList then
          [Declaration.pin (0 + 1) last] else []).foldlM OffsetGraph.apply g' = .ok v' ∧
        OffsetGraph.Shifted 1 0 rules.document.tokens d'.tokens v v' := by
      rw [Rules.on_ignores]
      split at hv
      · next htext =>
        obtain ⟨v, hpin, hv⟩ := bind_eq_ok.mp hv
        cases hv
        obtain ⟨v', h1, h2⟩ := pin_root_shifted hmatched hR hx hx' hg hsig hpin
        rw [if_pos htext]
        exact ⟨v', bind_eq_ok.mpr ⟨v', h1, rfl⟩, h2⟩
      · next htext =>
        cases hv
        rw [if_neg htext]
        exact ⟨g', rfl, hg⟩
    obtain ⟨u', h1, h2⟩ := hrest htile.2.2 hgv hu
    exact ⟨u', bind_eq_ok.mpr ⟨v', hv', h1⟩, h2⟩

/-- **The graph is built again**, with the same entries. -/
theorem build_shifted {s : Settings} {registry : Registry}
    (hrules : Rules.ofSettings rules.document s registry = .ok rules) {root : Token}
    (hroot : (Heads.ofTokens rules.document.tokens).first? = some root)
    (hr : k = 1 → root.index = 1)
    (htile : NodesTile d'.tokens 0 d'.nodes d'.tokens.size) {g : OffsetGraph}
    (hg : OffsetGraph.build rules.document s registry = .ok g) :
    ∃ r g', OffsetGraph.build d' s registry = .ok g' ∧
      OffsetGraph.Shifted k r rules.document.tokens d'.tokens g g' := by
  have hmatched := h.matched
  have hR : ∀ t t', Counterpart t t' → t.isBlank = t'.isBlank := fun _ _ htt' => htt'.blank
  have hx := h.indexed
  have hx' := h.indexed'
  have hsize := hmatched.size
  obtain ⟨root', hroot', hindex⟩ := first?_shifted h.matched hx hx' h.first hroot
  obtain ⟨i, hi, hb, -⟩ := first?_spec hroot'
  obtain rfl := hx' i root' hi
  have hlt := (Array.getElem?_eq_some_iff.mp hi).1
  have hheads := h.grounded.heads
  simp only [OffsetGraph.build, hrules, hheads, hroot, bind, Except.bind] at hg
  split at hg
  · cases hg
  next g₀ hg₀ =>
  rw [hindex] at hg₀
  obtain ⟨g₀', h1, hg₀⟩ := setRoot_shifted hmatched hlt hg₀
  rw [OffsetGraph.applyAll, Rules.below, List.foldlM_cons] at hg
  obtain ⟨g₁, hrange, hg⟩ := bind_eq_ok.mp hg
  have hrange' : g₀.apply (Declaration.moved k (.range (root'.index + 1) (d'.tokens.size - 1)
      root'.index .same 0)) = .ok g₁ := by
    rw [← hrange, hheads, hindex]
    simp only [Declaration.moved, Heads.size, Heads.ofTokens, hsize]
    congr 2 <;> omega
  obtain ⟨g₁', h2, hg₁⟩ := OffsetGraph.apply_shifted hmatched hg₀ hR hx hx' hrange'
  obtain ⟨g', h3, hg'⟩ := applyNodes_shifted h hraw hnodes hbase htile (r := root'.index)
    (fun hk => by
      have := hr hk
      subst hk
      have h0 : root'.index = 0 := by omega
      exact ⟨h0, h0 ▸ ⟨root', hi, hb⟩⟩) hg₁ hg
  refine ⟨root'.index, g', ?_, hg'⟩
  simp only [OffsetGraph.build, ofSettings_on hrules, Rules.on_heads, hroot', h1, bind, Except.bind]
  rw [OffsetGraph.applyAll, Rules.below, List.foldlM_cons]
  exact bind_eq_ok.mpr ⟨g₁', h2, h3⟩

end Build

/-- **The same settings give both documents the same layout**, if they leave the rules of raw blocks
as they are. -/
theorem ofSettings_shifted {k : Nat} {d d' : Document} {base base' : List Node}
    {text text' : List Char} {s : Settings} {registry : Registry}
    (hd : Document.read text = .ok d) (hd' : Document.read text' = .ok d')
    (hr : registry.Descends) (hmatched : Matched Counterpart k d.tokens d'.tokens)
    (hfirst : ∀ (i : Nat) (t : Token), i < k → d.tokens[i]? = some t → t.isBlank = true)
    (hnodes : SameNodes k base base' d d') (hbase : Beginning k base base')
    (hraw : ∀ rules : Rules, rules.document = d → rules.registry = registry →
      rules.Shifted k d' → rules.RawShifted k d' d'.parts)
    {root : Token} (hroot : (Heads.ofTokens d.tokens).first? = some root)
    (hk : k = 1 → root.index = 1) {l : Layout} (h : Layout.ofSettings d s registry = .ok l) :
    ∃ l' r, Layout.ofSettings d' s registry = .ok l' ∧ l'.unit = l.unit ∧
      OffsetGraph.Shifted k r d.tokens d'.tokens l.graph l'.graph := by
  obtain ⟨unit, hu, h⟩ := bind_eq_ok.mp h
  split at h
  · cases h
  next hlimit =>
  obtain ⟨g, hg, h⟩ := bind_eq_ok.mp h
  cases h
  obtain ⟨rules, hrules, hregistry⟩ : ∃ rules, Rules.ofSettings d s registry = .ok rules ∧
      rules.registry = registry := by
    simp only [Rules.ofSettings, hu, bind, Except.bind]
    exact ⟨_, rfl, rfl⟩
  obtain ⟨rfl, hgrounded⟩ := grounded_of_settings hd hr hrules
  have htok' := tokenized_of_read hd'
  obtain rfl := text_of_read hd'
  have hshifted : rules.Shifted k d' := ⟨hgrounded, htok', hmatched, hfirst⟩
  obtain ⟨r, g', hg', hgraph⟩ := build_shifted hshifted (hraw rules rfl hregistry hshifted) hnodes
    hbase hrules hroot hk (tile_of_read hd') hg
  have hsize := hmatched.size
  refine ⟨⟨g', d', unit⟩, r, ?_, rfl, hgraph⟩
  simp only [Layout.ofSettings, hu, hg', bind, Except.bind]
  exact if_neg (by omega)

/-- **Layouts with graphs of each other are twins**, if what is aligned is as far from its head in
both, and if lines begin alike where the graph does not decide over them. -/
theorem Layout.twin_of_shifted {k r root root' : Nat} {l l' : Layout} (hl : l.Grounded root)
    (hl' : l'.Grounded root') (hunit : l.unit = l'.unit)
    (hgraph : OffsetGraph.Shifted k r l.document.tokens l'.document.tokens l.graph l'.graph)
    (hmatched : Matched Counterpart k l.document.tokens l'.document.tokens)
    (hfirst : ∀ (i : Nat) (t : Token), i < k → l.document.tokens[i]? = some t → t.isBlank = true)
    (hcolumn : ∀ (i : Nat) (e : OffsetEntry) (g : Nat) (t t' h h' : Token),
      l'.graph.entries[i]? = some (some e) → e.kind = .align → Partners k l l' e.base t t' →
        Partners k l l' g h h' → h.line = t.line →
          (t.column : Int) - h.column = t'.column - h'.column)
    (hmargin : ∀ (g : Nat) (h h' : Token), Partners k l l' g h h' →
      Leads l.document.tokens.toList (g + k) → l.isChecked h = .ok false →
        l.leadingText h = l'.leadingText h') : Layout.Twin k l l' := by
  have hleads := leads_matched (hmatched.mono fun _ _ _ _ htt' => htt'.toSameLines) hfirst
  have hpartners : ∀ {i : Nat} {t t' : Token}, Partners k l l' i t t' → Counterpart t t' :=
    fun ht => hmatched.related ht.first ht.second
  refine ⟨hunit, hl.graph.heads, hl'.graph.heads, hl.indexed, hl'.indexed, fun i => ?_,
    hgraph.entry, fun i e he => ?_, hleads, fun i g t t' u u' ht hu _ => ?_,
    fun i e g t t' u u' he hk ht hu _ _ hsame => ?_, fun g u u' hu hlead hc _ => ?_⟩
  · rw [hgraph.root, hgraph.root', Option.some.injEq, Option.some.injEq, Nat.add_right_cancel_iff]
  · obtain ⟨base', hbase', hb'⟩ := (hl'.graph.entry i e he).2.onBase
    obtain ⟨base, hbase, hsame⟩ := hmatched.token _ base' hbase'
    exact ⟨base, base', ⟨hbase, hbase'⟩, hsame.blank.trans hb', hb'⟩
  · rw [(hpartners ht).line, (hpartners hu).line]
  · refine hcolumn i e g t t' u u' he hk ht hu ?_
    rw [(hpartners ht).line, (hpartners hu).line, hsame]
  · exact hmargin g u u' hu ((hleads g).mpr hlead) hc

end MarkupIndent.Margin
