import MarkupIndent.Proofs.TabMargins
import MarkupIndent.Proofs.Wrapping

/-!
# Aligned attributes

Where attributes are aligned, a later attribute of a tag hangs on the first one: it is to stand as
far to the right of its line as the first one does, when the line of the first one has the margin
that it gets. Mending moves that line as a whole, so the first attribute stays as far from the head
of its line as it was, and with spaces both come to stand in the same column.

The line of the first attribute need not have a head. If a token goes over its beginning, what
governs the line is a head on an earlier line, and the distance from that head is no distance on the
line: the rule leaves it out, and the later attributes come to stand below that head.

* `Indentation.Plain`: an indentation by spaces alone; `plain_of_resolves`: with spaces, all are.
* `lastRule?_aligned`: what a tag says of its later attributes.
* `Layout.Stands`: the margin that a line comes to have; `column_of_stands`.
* `column_of_aligned`: where an aligned head comes to stand; `column_of_firstAndLater`: a later
  attribute.
* `aligned_of_mended`: **later attributes stand below the first one**, if its line has a head.
* `aligned_of_mended_split`: and not always if it has none.
-/

namespace MarkupIndent.Margin

open Markup Settings Text

/-! ## Indentations by spaces -/

/-- An indentation by some number of indent characters, without alignment. -/
structure Indentation.Plain (x : Indentation) : Prop where
  nonneg : 0 ≤ x.width
  unaligned : x.align = 0

namespace Layout

section Spaces

variable {l : Layout} {n : Nat} (hspaces : l.unit.style = .spaces n)
include hspaces

theorem plain_measure (blanks : List Char) : (l.unit.measure blanks).Plain := by
  rw [IndentUnit.measure_of_spaces hspaces]
  exact ⟨Int.natCast_nonneg _, rfl⟩

/-- No rule takes anything away or adds alignment. -/
theorem plain_adjust {e : OffsetEntry} {base head : Token} {x y : Indentation} (hw : 0 ≤ e.weight)
    (hx : x.Plain) (h : l.adjust e base head x = .ok y) : y.Plain := by
  obtain ⟨h1, h2⟩ := hx
  unfold adjust at h
  split at h
  · cases h
    exact ⟨Int.add_nonneg h1 (Int.mul_nonneg hw (Int.natCast_nonneg _)), h2⟩
  · cases h
    exact ⟨h1, h2⟩
  · cases h
    split
    · by_cases hc : (0 : Int) ≤ (base.column : Int) - head.column
      · rw [IndentUnit.shift_of_spaces hspaces x hc]
        exact ⟨by simp only; omega, h2⟩
      · rw [IndentUnit.shift, if_pos (by omega)]
        exact ⟨h1, h2⟩
    · exact ⟨h1, h2⟩
  · cases h

/-- **With spaces, a checked head resolves to spaces**: every line of its chain has them, and every
rule on the way keeps them. -/
theorem plain_of_resolves {root : Nat} (hl : l.Grounded root) {head : Token} {x : Indentation}
    (h : l.Resolves head x) (hc : l.isChecked head = .ok true) : x.Plain := by
  have hweight : ∀ {head other base : Token} {e : OffsetEntry}, l.HangsBy head e base other →
      0 ≤ e.weight := by
    intro head other base e hby
    have he := hby.entry
    unfold OffsetGraph.entry at he
    split at he
    · next he' =>
      rw [Except.ok.inj he] at he'
      exact (hl.graph.entry _ e he').2.nonneg
    · cases he
  induction h with
  | root => exact ⟨Int.le_refl 0, rfl⟩
  | settled hroot hlink =>
    obtain ⟨e, base, other, hby, ⟨-, h⟩ | ⟨-, y, z, hy, hz, h⟩⟩ := link_cases hroot hc hlink
    · cases h
    · cases h
      obtain ⟨blanks, -, hy⟩ := bind_eq_ok.mp hy
      cases hy
      exact plain_adjust hspaces (hweight hby) (plain_measure hspaces blanks) hz
  | hop hroot hlink _ hadjust ih =>
    obtain ⟨e, base, other, hby, ⟨hother, h⟩ | ⟨-, y, z, -, -, h⟩⟩ := link_cases hroot hc hlink
    · cases h
      exact plain_adjust hspaces (hweight hby) (ih hother) hadjust
    · cases h

omit hspaces in
theorem length_render {x : Indentation} (hx : x.Plain) :
    ((l.unit.render x).length : Int) = x.width := by
  obtain ⟨h1, h2⟩ := hx
  rw [IndentUnit.render, h2]
  simp [h1]

end Spaces

/-! ## Aligned heads -/

/-- The line of a head comes to be this deep: as deep as it resolves if it is checked, and as deep
as it is otherwise. -/
inductive Stands (l : Layout) (head : Token) (x : Indentation) : Prop
  | checked : l.isChecked head = .ok true → l.Resolves head x → Stands l head x
  | kept : l.isChecked head = .ok false → l.actual head = .ok x → Stands l head x

/-- **An aligned head** resolves to the depth of the line of its base, and to the distance of the
base from the head of the line if that stands on the line. -/
theorem stands_of_align {l : Layout} {t : Token} {base : Nat} {y : Indentation}
    (hroot : l.graph.root ≠ some t.index)
    (he : l.graph.entry t.index = .ok (some (.hang t.index base .align 0)))
    (hc : l.isChecked t = .ok true) (h : l.Resolves t y) :
    ∃ b head x, l.graph.heads.token base = .ok b ∧ l.graph.heads.headOf b = .ok head ∧
      l.Stands head x ∧
      y = if head.line = b.line then l.unit.shift x ((b.column : Int) - head.column) else x := by
  have hentry : ∀ {e : OffsetEntry} {b head : Token}, l.HangsBy t e b head →
      e = .hang t.index base .align 0 := fun hby =>
    Option.some.inj (Except.ok.inj (hby.entry.symm.trans he))
  cases h with
  | root h => exact absurd h hroot
  | settled _ hlink =>
    obtain ⟨e, b, head, hby, ⟨-, h⟩ | ⟨hother, x, z, hx, hz, h⟩⟩ := link_cases hroot hc hlink
    · cases h
    · cases h
      obtain rfl := hentry hby
      exact ⟨b, head, x, hby.onBase, hby.onLine, .kept hother hx, (Except.ok.inj hz).symm⟩
  | hop _ hlink hx hadjust =>
    obtain ⟨e, b, head, hby, ⟨hother, h⟩ | ⟨-, y, z, -, -, h⟩⟩ := link_cases hroot hc hlink
    · cases h
      obtain rfl := hentry hby
      exact ⟨_, _, _, hby.onBase, hby.onLine, .checked hother hx, (Except.ok.inj hadjust).symm⟩
    · cases h

end Layout

/-! ## Aligned attributes -/

/-- **A later attribute of a tag** is aligned with the first one, if that stands on the line where
the tag begins. -/
theorem Rules.lastRule?_aligned {rules : Rules} (hg : rules.Grounded) {tag : StartTag}
    (hf : tag.Fits rules.document.tokens) (hi : ¬ rules.Ignored (.startTag tag))
    (halign : rules.alignAttributes = true) {first a : Attribute} {rest : List Attribute}
    (hattributes : tag.attributes = first :: rest)
    (hline : rules.line first.first = rules.line tag.first) (ha : a ∈ rest) :
    lastRule? a.first (rules.ofStartTag tag) = some (.hang a.first first.first .align 0) := by
  have hne : rules.ignores "start-tag".toList ≠ true := fun h => hi ⟨_, rfl, h⟩
  have hmem : a ∈ tag.attributes := hattributes ▸ List.mem_cons_of_mem first ha
  obtain ⟨hfits, -, hlt⟩ := hf.attributes.bounds a hmem
  have hle := hfits.le
  have haligned : lastRule? a.first (rules.ofAlignment tag) =
      some (.hang a.first first.first .align 0) := by
    rw [ofAlignment, hattributes]
    simp only [halign, hline, beq_self_eq_true, Bool.and_self, if_true]
    refine lastRule?_map (fun b _ e he => ?_) ha (if_pos rfl)
    rw [Declaration.rule?] at he
    split at he <;> cases he
    rfl
  rw [ofStartTag, if_neg hne, lastRule?_cons, lastRule?_append, lastRule?_append,
    lastRule?_ofAttributes_first hg hf.attributes hmem, lastRule?_ofClosing_of_lt (by omega),
    haligned, Option.none_or, Option.none_or, Option.some_or]

/-- A later attribute hangs on the first one, so its line is checked. -/
theorem Layout.Follows.entry_of_aligned {l : Layout} {rules : Rules} (h : l.Follows rules)
    (hfree : rules.ignored = []) (halign : rules.alignAttributes = true) {tag : StartTag}
    (hp : .startTag tag ∈ rules.document.parts) {first a : Attribute} {rest : List Attribute}
    (hattributes : tag.attributes = first :: rest) (ha : a ∈ rest)
    (hline : rules.line first.first = rules.line tag.first) {t : Token}
    (ht : rules.document.tokens[a.first]? = some t) :
    Significant rules.document.tokens first.first ∧ l.graph.root ≠ some t.index ∧
      l.graph.entry t.index = .ok (some (.hang t.index first.first .align 0)) ∧
      l.isChecked t = .ok true := by
  have hf : tag.Fits rules.document.tokens :=
    Part.fits_of_mem h.tile (p := .startTag tag) trivial hp
  have htile := hf.attributes
  rw [hattributes] at htile
  obtain ⟨-, hfirst, hrest⟩ := htile
  obtain ⟨hfits, hlt, -⟩ := hrest.bounds a ha
  have hle := hfirst.le
  have hle' := hfits.le
  have hbase := significant_of_marked hfirst.marked (Nat.le_refl _) (by omega)
  have hsig := significant_of_marked hfits.marked (Nat.le_refl _) (by omega)
  have hb : t.isBlank = false := by
    obtain ⟨u, hu, hub⟩ := hsig
    rw [ht] at hu
    rwa [Option.some.inj hu]
  have hrule := Rules.lastRule?_free h.grounded h.registered h.tile hfree hp trivial (by simp) rfl
    (Rules.lastRule?_aligned h.grounded hf (Rules.not_ignored hfree _) halign hattributes hline ha)
  obtain ⟨hroot, he⟩ := h.entry_of_rule ht hb hrule hbase (by omega)
  rw [← h.indexed _ t ht] at he
  exact ⟨hbase, hroot, he, (h.expects_of_rule ht hb hrule (by simp) hbase (by omega)).1⟩

/-- The opening sign of a tag, the first token of its first attribute on the same line, and that of
a later attribute, which is the head of its line. -/
def FirstAndLater (d : Document) (opening first later : Token) : Prop :=
  ∃ (tag : StartTag) (a : Attribute) (rest : List Attribute), .startTag tag ∈ d.parts ∧
    tag.attributes = a :: rest ∧ d.tokens[tag.first]? = some opening ∧
    d.tokens[a.first]? = some first ∧ first.line = opening.line ∧
    ∃ b ∈ rest, d.tokens[b.first]? = some later ∧ Leads d.tokens.toList b.first

/-! ## Mending -/

/-- A piece of a mended document, other than a node, is a piece of the document. -/
theorem mem_parts_moved {k : Nat} {base base' : List Node} {d d' : Document}
    (hbase : Beginning k base base') (hnodes : SameNodes k base base' d d') {p : Part}
    (hp : p ∈ d'.parts) (hne : ∀ n, p ≠ .node n) : p.moved k ∈ d.parts := by
  obtain ⟨ns, h1, h2⟩ := hnodes
  rw [Document.parts, h2, nodesMoved_zero, partsOfNodes_append] at hp
  rw [Document.parts, h1, partsOfNodes_append, partsOfNodes_moved]
  rcases List.mem_append.mp hp with hp | hp
  · cases hbase <;> simp [partsOfNodes, Node.parts, hne] at hp
  · exact List.mem_append_right _ (List.mem_map_of_mem hp)

section Mended

variable {l : Layout} {root n : Nat} (hl : l.Grounded root) (hspaces : l.unit.style = .spaces n)
  {records : List LineRecord} (hrec : ∀ r ∈ records, l.Recorded r)
  (hcomplete : ∀ t ∈ l.graph.heads.lineHeads, l.isChecked t = .ok true →
    ∃ r ∈ records, r.token = t)
  {es : List Edit}
  (hes : ∀ e, e ∈ es ↔ ∃ r ∈ records, r.expected ≠ r.actual ∧ e = r.mismatch.edit)
  {k : Nat} {d' : Document} (hdocs : Remargined es k l.document d')
include hl hspaces hrec hcomplete hes hdocs

/-- **The head of a line comes to stand** where the margin of the line ends. -/
theorem column_of_stands {g : Nat} {h h' : Token} {x : Indentation}
    (hg : l.document.tokens[g + k]? = some h) (hg' : d'.tokens[g]? = some h')
    (hlead : Leads l.document.tokens.toList (g + k)) (hx : l.Stands h x) :
    x.Plain ∧ (h'.column : Int) = x.width := by
  have hkin := hdocs.matched.related hg hg'
  rw [(hdocs.tokens'.token g h' hg').column]
  cases hx with
  | checked hc hres =>
    have hplain := Layout.plain_of_resolves hspaces hl hres hc
    have hmem : h ∈ l.graph.heads.lineHeads := by
      rw [hl.graph.heads]
      exact (mem_lineHeads hdocs.indexed).mpr ⟨_, hg, hlead⟩
    rw [margin_of_recorded hl hrec hes hdocs hg hkin hlead (hcomplete h hmem hc) hres,
      Layout.length_render hplain]
    exact ⟨hplain, rfl⟩
  | kept hc hactual =>
    rw [hl.actual hg] at hactual
    obtain rfl := Except.ok.inj hactual
    rw [margin_of_unchecked hl hrec hes hdocs hg hkin hlead hc, IndentUnit.measure_of_spaces hspaces]
    exact ⟨⟨Int.natCast_nonneg _, rfl⟩, rfl⟩

/-- **An aligned head comes to stand below its base**, if the line of the base has a head, and below
the head that governs the base otherwise. -/
theorem column_of_aligned {i j : Nat} {t t' b b' : Token}
    (ht : l.document.tokens[i + k]? = some t) (ht' : d'.tokens[i]? = some t')
    (hb : l.document.tokens[j + k]? = some b) (hb' : d'.tokens[j]? = some b')
    (hlead : Leads l.document.tokens.toList (i + k)) (hsig : b.isBlank = false)
    (hroot : l.graph.root ≠ some t.index)
    (he : l.graph.entry t.index = .ok (some (.hang t.index (j + k) .align 0)))
    (hc : l.isChecked t = .ok true) :
    ∃ g h h', l.document.tokens[g + k]? = some h ∧ d'.tokens[g]? = some h' ∧
      Governs l.document.tokens.toList (g + k) (j + k) ∧
      t'.column = if h.line = b.line then b'.column else h'.column := by
  obtain ⟨y, hy⟩ := Layout.exists_resolves hl ht
  obtain ⟨b₀, head, x, hb₀, hhead, hx, hyx⟩ := Layout.stands_of_align hroot he hc hy
  obtain rfl := Except.ok.inj ((hl.token hb).symm.trans hb₀)
  obtain ⟨g, h, hh, hg, hgov⟩ := hl.headOf hb hsig
  obtain rfl := Except.ok.inj (hh.symm.trans hhead)
  obtain ⟨g, rfl⟩ : ∃ m, g = m + k := ⟨g - k, by
    by_contra
    have := hdocs.first g h (by omega) hg
    rw [hgov.leads.significant hg] at this
    cases this⟩
  obtain ⟨h', hg', hkin⟩ := hdocs.matched.of_first hg
  have hbkin := hdocs.matched.related hb hb'
  obtain ⟨-, hcolumn⟩ :=
    column_of_stands hl hspaces hrec hcomplete hes hdocs hg hg' hgov.leads hx
  obtain ⟨-, hcolumn'⟩ :=
    column_of_stands hl hspaces hrec hcomplete hes hdocs ht ht' hlead (.checked hc hy)
  refine ⟨g, h, h', hg, hg', hgov, ?_⟩
  split
  · next hline =>
    have hkept := column_kin hdocs.tokens hdocs.tokens' hdocs.edits hb hg hb' hg' hbkin hkin
      hline.symm
    have hstarts := start_sub_column (hl.tokens.token _ h hg) (hl.tokens.token _ b hb) hline
    have hle := start_le_of_le hl.tokens hgov.le hg hb
    rw [hyx, if_pos hline, IndentUnit.shift_of_spaces hspaces _ (by omega)] at hcolumn'
    simp only at hcolumn'
    omega
  · next hline =>
    rw [hyx, if_neg hline] at hcolumn'
    omega

/-- **The later attributes of a tag come to stand below the first one**, if the line on which the
tag begins has a head. -/
theorem column_of_firstAndLater {rules : Rules} (hfollows : l.Follows rules)
    (hfree : rules.ignored = []) (halign : rules.alignAttributes = true) {base base' : List Node}
    (hbase : Beginning k base base') (hnodes : SameNodes k base base' l.document d')
    {o b t head : Token} (h : FirstAndLater d' o b t)
    (hhead : head ∈ (Heads.ofTokens l.document.tokens).lineHeads) (hheadline : head.line = o.line) :
    t.column = b.column := by
  obtain ⟨tag, first, rest, htag, hattributes, ho, hb, hline, a, ha, ht, hlead⟩ := h
  -- The tag and its tokens before the margins were mended.
  obtain ⟨o₀, ho₀, hokin⟩ := hdocs.matched.token _ o ho
  obtain ⟨b₀, hb₀, hbkin⟩ := hdocs.matched.token _ b hb
  obtain ⟨t₀, ht₀, -⟩ := hdocs.matched.token _ t ht
  have holine := line_kin hdocs.tokens hdocs.tokens' ho₀ ho hokin
  have hbline := line_kin hdocs.tokens hdocs.tokens' hb₀ hb hbkin
  have hpart := mem_parts_moved hbase hnodes htag (by simp)
  have hdoc := hfollows.document
  have hline₀ : rules.line (first.moved k).first = rules.line (tag.moved k).first := by
    simp only [Rules.line, ← hdoc, StartTag.moved, Attribute.moved, ho₀, hb₀, Option.elim_some]
    omega
  obtain ⟨hfirst, hroot, he, hc⟩ := hfollows.entry_of_aligned hfree halign (hdoc ▸ hpart)
    (by rw [StartTag.moved, hattributes, List.map_cons]) (List.mem_map_of_mem ha) hline₀
    (hdoc ▸ ht₀)
  obtain ⟨u, hu, hsig⟩ : Significant l.document.tokens (first.first + k) := hdoc ▸ hfirst
  obtain rfl := Option.some.inj (hb₀.symm.trans hu)
  obtain ⟨g, h, h', hg, -, hgov, hcolumn⟩ := column_of_aligned hl hspaces hrec hcomplete hes hdocs
    ht₀ ht hb₀ hb (hdocs.leads_of hlead) hsig hroot he hc
  rw [hcolumn, if_pos (line_of_governs hl.tokens hb₀ hsig hg hgov hhead (by omega))]

end Mended

/-- **Later attributes stand below the first one.** Where the unit is spaces, attributes are aligned
and nothing is ignored, the edits of an analysis can be carried out and the mended text is read
again. In it, if the first attribute of a tag begins on the line on which the tag begins, every
later one that is the head of its line stands in the column of the first one, unless a token goes
over the beginning of the line of the tag: unless, that is, the line has no head in the text. -/
theorem aligned_of_mended {text : List Char} {d : Document} {s : Settings} {n : Nat}
    (hd : Document.read text = .ok d)
    (hspaces : IndentUnit.styleOf? s.indentUnit = some (.spaces n))
    (hsize : d.tokens.size ≤ s.maxTokens) (halign : s.alignAttributes = true)
    (hignored : s.ignoredNodes = []) :
    ∃ result mended d', check d s .default = .ok result ∧ result.settingsFault = false ∧
      applyEdits text result.edits = .ok mended ∧ Document.read mended = .ok d' ∧
      ∀ opening first later, FirstAndLater d' opening first later →
        (∃ head ∈ (Heads.ofTokens d.tokens).lineHeads, head.line = opening.line) →
          later.column = first.column := by
  have hu : IndentUnit.ofValue s.indentUnit s.mixedAlignment =
      .ok ⟨.spaces n, s.mixedAlignment⟩ := by rw [IndentUnit.ofValue, hspaces]
  obtain ⟨rules, l, hrules, hlayout, hdoc, hunit, hl⟩ := exists_follows_of_size hd hu hsize
  obtain ⟨records, hrecords, hrec, hsub, hcomplete⟩ := records_spec hd descends_default hlayout
  have hcheck := check_of_records hlayout hrecords
  generalize hresult : CheckResult.mk _ _ _ = result at hcheck
  have hreports : result.reports = (mismatches records).map (Mismatch.report l.unit) := by
    rw [← hresult]
  have hv : result.settingsFault = false := by rw [← hresult]
  rcases root_or_nil hd descends_default hlayout hsub with ⟨rfl, hnone⟩ | ⟨_, m, -, hground⟩
  · have hedits : result.edits = [] := by
      rw [CheckResult.edits, hreports]
      rfl
    refine ⟨result, text, d, hcheck, hv, by simp [hedits, applyEdits, inOrder, applyFrom], hd, ?_⟩
    rintro opening first later ⟨_, _, _, -, -, -, -, -, a, -, ht, hlead⟩
    exact absurd ⟨later, ht, hlead.significant ht⟩ (hnone a.first)
  · obtain ⟨mended, d', k, base, base', hmended, hd', hbase, hnodes, hdocs, -⟩ :=
      exists_remargined hd descends_default hlayout hground hrec hsub hreports
    obtain ⟨hfree, -, unit, hu', haligned⟩ := options_of_settings hrules
    rw [hignored, LooseText.wholes_nil, List.map_nil] at hfree
    obtain rfl := Except.ok.inj (hu.symm.trans hu')
    rw [halign] at haligned
    subst hdoc
    refine ⟨result, mended, d', hcheck, hv, hmended, hd', ?_⟩
    rintro opening first later h ⟨head, hhead, hheadline⟩
    exact column_of_firstAndLater hground (by rw [hunit]) hrec hcomplete
      (fun _ => mem_edits hreports) hdocs hl hfree haligned hbase hnodes h hhead hheadline

/-- Tokens of some indices are the opening sign and the attributes of a tag, as a check. -/
def firstAndLater (d : Document) (opening first later : Nat) : Bool :=
  (d.parts.any fun
    | .startTag tag => tag.first == opening && tag.attributes.map Attribute.first == [first, later]
    | _ => false) &&
  (d.tokens[opening]?.map Token.line == d.tokens[first]?.map Token.line) &&
  (Heads.ofTokens d.tokens).lineHeads.any fun t => t.index == later

theorem exists_firstAndLater {text : List Char} {d : Document} {i j m : Nat}
    (hd : Document.read text = .ok d) (h : firstAndLater d i j m = true) :
    ∃ opening first later, d.tokens[i]? = some opening ∧ d.tokens[j]? = some first ∧
      d.tokens[m]? = some later ∧ FirstAndLater d opening first later := by
  have htok := tokenized_of_read hd
  have hx := indexed_of_tokenized htok
  rw [firstAndLater, Bool.and_eq_true, Bool.and_eq_true, List.any_eq_true, List.any_eq_true,
    beq_iff_eq] at h
  obtain ⟨⟨⟨p, hp, hmatch⟩, hline⟩, later, hlater, hindex⟩ := h
  rw [beq_iff_eq] at hindex
  obtain ⟨i', hi', hlead⟩ := (mem_lineHeads hx).mp hlater
  obtain rfl : i' = m := (hx i' later hi').symm.trans hindex
  split at hmatch
  · next tag =>
    rw [Bool.and_eq_true, beq_iff_eq, beq_iff_eq] at hmatch
    obtain ⟨rfl, hattributes⟩ := hmatch
    obtain ⟨a, rest, hcons, rfl, hrest⟩ := List.map_eq_cons_iff.mp hattributes
    obtain ⟨b, _, rfl, rfl, -⟩ := List.map_eq_cons_iff.mp hrest
    have hf : tag.Fits d.tokens :=
      Part.fits_of_mem (tile_of_read hd) (p := .startTag tag) trivial hp
    obtain ⟨opening, ho, -⟩ := (significant_startTag hf).1
    rw [ho, Option.map_some] at hline
    obtain ⟨first, hfirst, hline⟩ := Option.map_eq_some_iff.mp hline.symm
    exact ⟨opening, first, later, ho, hfirst, hi', tag, a, _, hp, hcons, ho, hfirst, hline, b,
      List.mem_cons_self, hi', hlead⟩
  · cases hmatch

/-- A list item that is moved takes its attributes along. -/
theorem aligned_of_mended_item :
    ∃ (d d' : Document) (result : CheckResult) (opening first later : Token),
      Document.read "<ul>\n<li a\nb></li></ul>".toList = .ok d ∧
      check d { alignAttributes := true, ignoredNodes := [] } .default = .ok result ∧
      applyEdits "<ul>\n<li a\nb></li></ul>".toList result.edits =
        .ok "<ul>\n  <li a\n      b></li></ul>".toList ∧
      Document.read "<ul>\n  <li a\n      b></li></ul>".toList = .ok d' ∧
      FirstAndLater d' opening first later ∧ opening.line = 2 ∧ later.column = first.column := by
  have hedits : Lint.edits? { alignAttributes := true, ignoredNodes := [] }
      "<ul>\n<li a\nb></li></ul>".toList =
      some [⟨5, 5, [' ', ' ']⟩, ⟨11, 11, [' ', ' ', ' ', ' ', ' ', ' ']⟩] := by decide +kernel
  obtain ⟨d, result, hd, hc, hv, hes⟩ := Lint.exists_of_edits? hedits
  have hmended : applyEdits "<ul>\n<li a\nb></li></ul>".toList result.edits =
      .ok "<ul>\n  <li a\n      b></li></ul>".toList := by
    rw [← Lint.fixText_eq hd hc hv, Lint.fixText_of_edits? hedits (by decide)]
    decide +kernel
  have htext : (Document.read "<ul>\n<li a\nb></li></ul>".toList).map (fun d =>
      (d.tokens.size, (Heads.ofTokens d.tokens).lineHeads.map Token.line)) =
      .ok (15, [1, 2, 3]) := by decide +kernel
  have hagain : (Document.read "<ul>\n  <li a\n      b></li></ul>".toList).map (fun d =>
      (firstAndLater d 4 6 7, d.tokens[4]?.map Token.line)) = .ok (true, some 2) := by
    decide +kernel
  rw [hd] at htext
  obtain ⟨hsize, hlines⟩ := Prod.mk.inj (Except.ok.inj htext)
  obtain ⟨result', mended, d', hc', -, hmended', hd', hall⟩ :=
    aligned_of_mended (s := { alignAttributes := true, ignoredNodes := [] }) hd rfl
      (by rw [hsize]; decide) rfl rfl
  obtain rfl := Except.ok.inj (hc.symm.trans hc')
  obtain rfl := Except.ok.inj (hmended.symm.trans hmended')
  rw [hd'] at hagain
  obtain ⟨hmatch, hopening⟩ := Prod.mk.inj (Except.ok.inj hagain)
  obtain ⟨opening, first, later, ho, -, -, h⟩ := exists_firstAndLater hd' hmatch
  rw [ho] at hopening
  have hline : opening.line = 2 := Option.some.inj hopening
  obtain ⟨head, hhead, hheadline⟩ := List.mem_map.mp
    (show 2 ∈ (Heads.ofTokens d.tokens).lineHeads.map Token.line by rw [hlines]; decide)
  exact ⟨d, d', result, opening, first, later, hd, hc, hmended, hd', h, hline,
    hall _ _ _ h ⟨head, hhead, hheadline.trans hline.symm⟩⟩

/-- A comment goes over the beginning of the line of a tag: the later attribute stays at the margin,
and the first one is elsewhere. -/
theorem aligned_of_mended_split :
    ∃ (d : Document) (result : CheckResult) (opening first later : Token),
      Document.read "<!-- a\n--><br b\nc>".toList = .ok d ∧
      check d { alignAttributes := true, ignoredNodes := [] } .default = .ok result ∧
      result.settingsFault = false ∧
      applyEdits "<!-- a\n--><br b\nc>".toList result.edits =
        .ok "<!-- a\n--><br b\nc>".toList ∧
      FirstAndLater d opening first later ∧ first.column = 7 ∧ later.column = 0 := by
  have hedits : Lint.edits? { alignAttributes := true, ignoredNodes := [] }
      "<!-- a\n--><br b\nc>".toList = some [] := by decide +kernel
  obtain ⟨d, result, hd, hc, hv, -⟩ := Lint.exists_of_edits? hedits
  have hmended : applyEdits "<!-- a\n--><br b\nc>".toList result.edits =
      .ok "<!-- a\n--><br b\nc>".toList := by
    rw [← Lint.fixText_eq hd hc hv, Lint.fixText_of_edits? hedits (by decide)]
    decide +kernel
  have htext : (Document.read "<!-- a\n--><br b\nc>".toList).map (fun d =>
      (firstAndLater d 1 3 4, d.tokens[3]?.map Token.column, d.tokens[4]?.map Token.column)) =
      .ok (true, some 7, some 0) := by decide +kernel
  rw [hd] at htext
  obtain ⟨hmatch, hcolumns⟩ := Prod.mk.inj (Except.ok.inj htext)
  obtain ⟨opening, first, later, -, hfirst, hlater, h⟩ := exists_firstAndLater hd hmatch
  rw [hfirst, hlater] at hcolumns
  obtain ⟨hcolumn, hcolumn'⟩ := Prod.mk.inj hcolumns
  exact ⟨d, result, opening, first, later, hd, hc, hv, hmended, h, Option.some.inj hcolumn,
    Option.some.inj hcolumn'⟩

end MarkupIndent.Margin
