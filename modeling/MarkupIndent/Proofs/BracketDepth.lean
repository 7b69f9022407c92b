import MarkupIndent.Proofs.Layouts
import MarkupIndent.Proofs.Measures
import MarkupIndent.Proofs.Verbatim

/-!
# Script and style lines at their bracket depth

Embedded source has a token for each line that is not blank, so each of them after the first is a
line head: nothing before it touches its line. Its record in the scan of the content says how many
brackets are open where the line starts and with how many closing ones it begins. The line hangs by
the difference on the first line of the content, which is one level below the block where it is a
line head of its own and goes by the line of the start tag otherwise.

* `leads_of_content`: the tokens of embedded source are line heads, the first one apart.
* `exists_record`: each of them has its record.
* `rule?_bracketRule`: the rule of a line by its record.
* `Open.lastRule?_line`, `Open.lastRule?_firstLine`: it is the last word.
* `expects_of_brackets`: **script and style lines are as deep as their brackets.**
-/

namespace MarkupIndent.Margin

open Markup Settings Text

/-! ## Records -/

/-- A line goes on with a literal or with an unfinished statement. -/
def LineScan.goesOn (r : LineScan) : Bool :=
  r.continuesLiteral || r.continuesStatement

/-- The number of levels of a line: the brackets that stay open. -/
def LineScan.levels (r : LineScan) : Nat :=
  r.depth - r.leadingClosers

/-- The rule of a line by its record. -/
theorem rule?_bracketRule {root t : Token} {scans : List LineScan} {r : LineScan}
    (h : scans[t.line - root.line]? = some r) :
    (bracketRule root scans.toArray t).rule? t.index = some
      (if r.goesOn then .pin t.index
        else .hang t.index root.index (if r.levels = 0 then .same else .relative) r.levels) := by
  rw [bracketRule, List.getElem?_toArray, h]
  simp only [LineScan.goesOn, LineScan.levels, Nat.sub_eq_zero_iff_le]
  split
  · exact if_pos rfl
  split
  · simp [Declaration.rule?, OffsetEntry.hang]
  · exact if_pos rfl

namespace Rules

/-! ## The lines of a block -/

section Block

variable {rules : Rules} (hg : rules.Grounded) (hl : rules.registry.Local)
  (htile : NodesTile rules.document.tokens 0 rules.document.nodes rules.document.tokens.size)
  {kind : RawKind} {tag : StartTag} {content : List Nat} {endTag : EndTag} {language : List Char}
  {first : Token} {rest : List Token} (hlist : rules.tokensAt content = first :: rest)

include hg htile hlist

/-- The tokens of embedded source lie within their lines. -/
theorem inline_of_content (hmem : .node (.raw kind tag content endTag language) ∈
    rules.document.parts) {t : Token} (ht : t ∈ first :: rest) : Inline t.text := by
  obtain ⟨lo, n, rfl, -⟩ := content_raw hg htile hmem
  obtain ⟨-, -, -, h4, -⟩ := fits_raw htile hmem
  obtain ⟨hrange, hti⟩ := (mem_tokensAt hg).mp (hlist ▸ ht)
  obtain ⟨u, hu, hkind⟩ := h4 t.index (List.mem_range'_1.mpr hrange)
  rw [hti] at hu
  obtain rfl := Option.some.inj hu
  have hadmits := (hg.tokens.token _ _ hti).admits
  rwa [hkind] at hadmits

/-- **The tokens of embedded source are line heads**, the first one apart. -/
theorem leads_of_content (hmem : .node (.raw kind tag content endTag language) ∈
    rules.document.parts) {t : Token} (ht : t ∈ rest) :
    rules.document.tokens[t.index]? = some t ∧
      Leads rules.document.tokens.toList t.index := by
  obtain ⟨lo, n, rfl, -, -, hc⟩ := content_raw hg htile hmem
  rw [hlist] at hc
  obtain ⟨hti, htb, -⟩ := hc.mem t (List.mem_cons_of_mem _ ht)
  obtain ⟨hfi, -⟩ := hc.mem first List.mem_cons_self
  refine ⟨hti, t, by rwa [Array.getElem?_toList], htb, fun j u hj hu _ => ?_⟩
  rw [Array.getElem?_toList] at hu
  have hat := hg.tokens.token j u hu
  rcases Nat.lt_or_ge j first.index with hbefore | hge
  · -- What is before the content ends where the content begins, or earlier.
    have hstop := hg.tokens.ordered _ _ _ _ hbefore hu hfi
    have hline := line_lt_of_content hg htile hmem hlist ht
      ((List.pairwise_cons.mp hc.ordered).1 t ht) hfi
    have hcount := count_take_le rules.document.text (show u.stop - 1 ≤ first.start by omega)
    rw [(hg.tokens.token _ _ hfi).line] at hline
    rw [endLine_eq hat]
    omega
  · have hmemu : u ∈ first :: rest := by
      have hf := ((mem_tokensAt hg).mp (hlist ▸ List.mem_cons_self)).1
      have ht' := ((mem_tokensAt hg).mp (hlist ▸ List.mem_cons_of_mem first ht)).1
      rw [← hlist, mem_tokensAt hg, hat.index]
      exact ⟨by omega, hu⟩
    have hnewline := (inline_of_content hg htile hlist hmem hmemu).2
    have hend : u.endLine = u.line := by
      rw [Token.endLine, List.count_eq_zero.mpr fun h => hnewline (List.dropLast_subset _ h),
        Nat.add_zero]
    rw [hend]
    exact line_lt_of_content hg htile hmem hlist ht hj hu

include hl

/-- The content of a block by bracket depth has its region, and in its scan a record for each of
its lines. -/
theorem exists_record (hmem : .node (.raw kind tag content endTag language) ∈
    rules.document.parts) {name : String} {languages : List String} {lexical : LexicalRules}
    (hsel : rules.registry.select language = .ok (.bracketDepth name languages lexical)) :
    ∃ region, contentRegion? rules.document first (rest.getLastD first) = some region ∧
      ∀ t ∈ rest, ∃ r, (scan lexical region)[t.line - first.line]? = some r ∧
        r.leadingClosers ≤ r.depth := by
  obtain ⟨lo, n, rfl, -, -, hc⟩ := content_raw hg htile hmem
  rw [hlist] at hc
  -- An indenter of the registry speaks of its block only, so it refuses nothing.
  have hwithin : AllWithin tag.first (rest.getLastD first).index
      (bracketDeclarations lexical (first :: rest) tag.first rules.document) :=
    hl language _ hsel rules.document tag.first _ _ _ hg.tokens hc fun t ht =>
      ⟨(hc.mem t ht).2.2, (index_le_getLastD hc.ordered ht).2⟩
  rw [bracketDeclarations] at hwithin
  have hwithin := (List.forall_mem_cons.mp hwithin).2
  cases hregion : contentRegion? rules.document first (rest.getLastD first) with
  | none =>
    rw [hregion] at hwithin
    exact (hwithin _ (List.mem_singleton_self _)).elim
  | some region =>
    rw [hregion] at hwithin
    refine ⟨region, rfl, fun t ht => ?_⟩
    have hline := hwithin _ (List.mem_map_of_mem ht)
    rw [bracketRule, List.getElem?_toArray] at hline
    cases hrecord : (scan lexical region)[t.line - first.line]? with
    | none =>
      rw [hrecord] at hline
      exact hline.elim
    | some r => exact ⟨r, rfl, leadingClosers_le (List.mem_of_getElem? hrecord)⟩

end Block

/-! ## The last word -/

section Open

variable {rules : Rules} (hg : rules.Grounded) (hl : rules.registry.Local)
  (htile : NodesTile rules.document.tokens 0 rules.document.nodes rules.document.tokens.size)
  {kind : RawKind} {tag : StartTag} {content : List Nat} {endTag : EndTag} {language : List Char}
  (hopen : rules.Open (.raw kind tag content endTag language))
include hg hl htile hopen

/-- What an open block says of its content is the last word. -/
theorem Open.lastRule?_ofContent {i : Nat} {e : OffsetEntry} (hi : i ∈ content)
    (he : Margin.lastRule? i (rules.ofContent content tag.first language) = some e) :
    Margin.lastRule? i (rules.ofNodes rules.document.nodes) = some e := by
  obtain ⟨-, h2, h3, -, h5, -⟩ := fits_raw htile hopen.1
  have hasked : ¬ rules.Ignored (.node (.raw kind tag content endTag language)) :=
    (hopen.asked (by rintro m ⟨⟩)).2
  rw [h3, List.mem_range'_1] at hi
  have hend : AllWithin (endTag.first - 1) endTag.last
      (.offset endTag.first tag.first .same 0 :: rules.ofEndTag endTag) :=
    allWithin_cons ⟨by omega, by have := h5.last; omega⟩
      ((within_ofEndTag h5).mono (by omega) (Nat.le_refl _))
  refine hopen.lastRule? hg hl htile (by rintro m ⟨⟩) ?_
  rw [ofNode_raw hasked, hend.lastRule?_append (by omega)]
  exact lastRule?_of_right he

variable {name : String} {languages : List String} {lexical : LexicalRules} {first : Token}
  {rest : List Token} {region : List Char} (hraw : rules.indentRaw = true)
  (hsel : rules.registry.select language = .ok (.bracketDepth name languages lexical))
  (hlist : rules.tokensAt content = first :: rest)
  (hregion : contentRegion? rules.document first (rest.getLastD first) = some region)
include hraw hsel hlist hregion

/-- **The first line of embedded source** is one level below its block. -/
theorem Open.lastRule?_firstLine :
    Margin.lastRule? first.index (rules.ofNodes rules.document.nodes) =
      some (.hang first.index tag.first .relative 1) := by
  obtain ⟨lo, n, rfl, -, -, hc⟩ := content_raw hg htile hopen.1
  have hfirst := (mem_tokensAt hg).mp (hlist ▸ List.mem_cons_self (a := first) (l := rest))
  refine hopen.lastRule?_ofContent hg hl htile (List.mem_range'_1.mpr hfirst.1) ?_
  rw [ofContent_brackets hraw hsel hlist hregion]
  rw [hlist] at hc
  have hrest : Margin.lastRule? first.index
      (rest.map (bracketRule first (scan lexical region).toArray)) = none := by
    by_contra hsome
    obtain ⟨e, he⟩ := Option.ne_none_iff_exists'.mp hsome
    obtain ⟨d, hd, hde⟩ := exists_of_lastRule? he
    obtain ⟨t, ht, rfl⟩ := List.mem_map.mp hd
    have hlt := (List.pairwise_cons.mp hc.ordered).1 t ht
    rw [index_of_bracketRule hde] at hlt
    omega
  rw [lastRule?_cons, hrest, Option.none_or]
  exact if_pos rfl

/-- **A later line of embedded source** goes by its record. -/
theorem Open.lastRule?_line {t : Token} {r : LineScan} (ht : t ∈ rest)
    (hr : (scan lexical region)[t.line - first.line]? = some r) :
    Margin.lastRule? t.index (rules.ofNodes rules.document.nodes) = some
      (if r.goesOn then .pin t.index
        else .hang t.index first.index (if r.levels = 0 then .same else .relative) r.levels) := by
  obtain ⟨lo, n, rfl, -, -, hc⟩ := content_raw hg htile hopen.1
  have hmem := (mem_tokensAt hg).mp (hlist ▸ List.mem_cons_of_mem first ht)
  exact hopen.lastRule?_ofContent hg hl htile (List.mem_range'_1.mpr hmem.1)
    (lastRule?_ofContent_line hc hraw hsel hlist hregion ht (rule?_bracketRule hr))

end Open

end Rules

/-! ## Lines -/

/-- A line of a block is not checked if it goes on with what the line before began, and otherwise as
deep as its brackets say. -/
structure Layout.Levelled (l : Layout) (opener first t : Token) (r : LineScan) : Prop where
  onHead : t ∈ l.graph.heads.lineHeads
  closers_le : r.leadingClosers ≤ r.depth
  unchecked : r.goesOn = true → l.isChecked t = .ok false
  checked : r.goesOn = false → l.isChecked t = .ok true
  below : r.goesOn = false → first ∈ l.graph.heads.lineHeads → ∃ x, l.Anchors opener x ∧
    l.Expects t (l.unit.indent x (1 + (r.depth - r.leadingClosers)))
  beside : r.goesOn = false → first ∉ l.graph.heads.lineHeads → ∃ y, l.Anchors first y ∧
    l.Expects t (l.unit.indent y (r.depth - r.leadingClosers))

section Levelled

variable {rules : Rules} {l : Layout} (hl : l.Follows rules) {kind : RawKind} {tag : StartTag}
  {content : List Nat} {endTag : EndTag} {language : List Char}
  (hopen : rules.Open (.raw kind tag content endTag language)) {name : String}
  {languages : List String} {lexical : LexicalRules} {first : Token} {rest : List Token}
  {region : List Char} (hraw : rules.indentRaw = true)
  (hsel : rules.registry.select language = .ok (.bracketDepth name languages lexical))
  (hlist : rules.tokensAt content = first :: rest)
  (hregion : contentRegion? rules.document first (rest.getLastD first) = some region)
include hl hopen hraw hsel hlist hregion

/-- A line that goes on with nothing hangs on the line of the first one by its levels. -/
theorem expects_of_line {t : Token} {r : LineScan} (ht : t ∈ rest)
    (hr : (scan lexical region)[t.line - first.line]? = some r) (hgoes : r.goesOn = false) :
    l.isChecked t = .ok true ∧ ∃ y, l.Anchors first y ∧ l.Expects t (l.unit.indent y r.levels) := by
  obtain ⟨lo, n, rfl, -, -, hc⟩ := Rules.content_raw hl.grounded hl.tile hopen.1
  have hrule := hopen.lastRule?_line hl.grounded hl.registered hl.tile hraw hsel hlist hregion ht hr
  rw [hlist] at hc
  obtain ⟨hti, htb, -⟩ := hc.mem t (List.mem_cons_of_mem _ ht)
  obtain ⟨hfi, hfb, -⟩ := hc.mem first List.mem_cons_self
  have hlt := (List.pairwise_cons.mp hc.ordered).1 t ht
  rw [hgoes, if_neg Bool.false_ne_true] at hrule
  obtain ⟨hchecked, b, head, y, hb, hy, hexpects⟩ :=
    hl.expects_of_rule hti htb hrule (by split <;> simp) ⟨first, hfi, hfb⟩ hlt
  rw [hfi] at hb
  cases hb
  refine ⟨hchecked, y, hy, hexpects _ ?_⟩
  by_cases hzero : r.levels = 0
  · simp [hzero, Layout.adjust, OffsetEntry.hang, IndentUnit.indent_zero]
  · simp [hzero, Layout.adjust, OffsetEntry.hang]

/-- The first line of content that is a line head is one level deeper than its block. -/
theorem anchors_first (hhead : first ∈ l.graph.heads.lineHeads) :
    ∃ opener x, rules.document.tokens[tag.first]? = some opener ∧ l.Anchors opener x ∧
      l.Anchors first (l.unit.indent x 1) := by
  have hrule := hopen.lastRule?_firstLine hl.grounded hl.registered hl.tile hraw hsel hlist hregion
  obtain ⟨lo, n, rfl, -, -, hc⟩ := Rules.content_raw hl.grounded hl.tile hopen.1
  rw [hlist] at hc
  obtain ⟨hchecked, opener, x, hopener, hx, hexpects⟩ :=
    hl.expects_deeper hhead hrule hc.onOpener (hc.mem first List.mem_cons_self).2.2
  exact ⟨opener, x, hopener, hx,
    Layout.anchors_of_checked (hl.headOf_head hhead) hchecked hexpects⟩

/-- **A line of embedded source is as deep as its brackets say.** -/
theorem levelled_of_record {opener t : Token} {r : LineScan}
    (hopener : rules.document.tokens[tag.first]? = some opener) (ht : t ∈ rest)
    (hr : (scan lexical region)[t.line - first.line]? = some r) :
    l.Levelled opener first t r := by
  have hle := leadingClosers_le (List.mem_of_getElem? hr)
  have hlevels : ((r.levels : Nat) : Int) = (r.depth : Int) - r.leadingClosers := Int.ofNat_sub hle
  have hline := fun hgoes => expects_of_line hl hopen hraw hsel hlist hregion ht hr hgoes
  have hlead := Rules.leads_of_content hl.grounded hl.tile hlist hopen.1 ht
  refine ⟨hl.mem_lineHeads.mpr hlead, hle, fun hgoes => ?_, fun hgoes => (hline hgoes).1,
    fun hgoes hhead => ?_, fun hgoes _ => ?_⟩
  · have hrule :=
      hopen.lastRule?_line hl.grounded hl.registered hl.tile hraw hsel hlist hregion ht hr
    obtain ⟨lo, n, rfl, -, -, hc⟩ := Rules.content_raw hl.grounded hl.tile hopen.1
    rw [hlist] at hc
    rw [if_pos hgoes] at hrule
    exact hl.unchecked_of_pin hlead.1 (hlead.2.significant hlead.1) hrule hc.onOpener
      (hc.mem t (List.mem_cons_of_mem _ ht)).2.2
  · obtain ⟨-, y, hy, hexpects⟩ := hline hgoes
    obtain ⟨opener', x, hopener', hx, hfirst⟩ :=
      anchors_first hl hopen hraw hsel hlist hregion hhead
    rw [hopener] at hopener'
    cases hopener'
    rw [hy.eq hfirst, IndentUnit.indent_indent, hlevels] at hexpects
    exact ⟨x, hx, hexpects⟩
  · obtain ⟨-, y, hy, hexpects⟩ := hline hgoes
    rw [hlevels] at hexpects
    exact ⟨y, hy, hexpects⟩

end Levelled

/-- **Script and style lines are at their bracket depth.** In an open block of a language that is
indented by brackets, every line after the first is as deep as its record in the scan of the content
says, and the end tag, if it is a line head, is as deep as the line on which the block begins. -/
theorem expects_of_brackets {text : List Char} {d : Document} {s : Settings} {unit : IndentUnit}
    (hd : Document.read text = .ok d)
    (hu : IndentUnit.ofValue s.indentUnit s.mixedAlignment = .ok unit)
    (hraw : s.indentRaw = true) :
    ∃ (rules : Rules) (l : Layout), Rules.ofSettings d s .default = .ok rules ∧
      OffsetGraph.build d s .default = .ok l.graph ∧ l.document = d ∧ l.unit = unit ∧
      ∀ kind tag content endTag language name languages lexical,
        rules.Open (.raw kind tag content endTag language) →
        Registry.default.select language = .ok (.bracketDepth name languages lexical) →
        ∃ opener, d.tokens[tag.first]? = some opener ∧
          (∀ t ∈ l.graph.heads.lineHeads, t.index = endTag.first → l.isChecked t = .ok true ∧
            ∃ x, l.Anchors opener x ∧ l.Expects t x) ∧
          ∀ first rest, rules.tokensAt content = first :: rest →
            ∃ region, contentRegion? d first (rest.getLastD first) = some region ∧
              ∀ t ∈ rest, ∃ r, (scan lexical region)[t.line - first.line]? = some r ∧
                l.Levelled opener first t r := by
  obtain ⟨rules, l, hrules, hbuild, hdoc, rfl, hl⟩ := exists_follows hd hu
  have hindented := (options_of_settings hrules).2.1.trans hraw
  obtain rfl : rules.document = d := hl.document.symm.trans hdoc
  refine ⟨rules, l, hrules, hbuild, hdoc, rfl, ?_⟩
  intro kind tag content endTag language name languages lexical hopen hsel
  rw [← hl.registry] at hsel
  obtain ⟨hrule, hlt, opener, hopener, hb⟩ :=
    (Rules.AsDeep.rawEndTag hopen).lastRule? hl.grounded hl.registered hl.tile
  refine ⟨opener, hopener, fun t ht hti => ?_, fun first rest hlist => ?_⟩
  · rw [← hti] at hrule hlt
    obtain ⟨hchecked, b, x, hb', hx, hexpects⟩ :=
      hl.expects_asDeep ht hrule ⟨opener, hopener, hb⟩ hlt
    rw [hopener] at hb'
    cases hb'
    exact ⟨hchecked, x, hx, hexpects⟩
  · obtain ⟨region, hregion, hrecords⟩ := Rules.exists_record hl.grounded hl.registered hl.tile
      hlist hopen.1 hsel
    refine ⟨region, hregion, fun t ht => ?_⟩
    obtain ⟨r, hr, -⟩ := hrecords t ht
    exact ⟨r, hr, levelled_of_record hl hopen hindented hsel hlist hregion hopener ht hr⟩

/-- A part is a block of script source with an opening sign and some content, as a check. -/
def scriptAt (opener : Nat) (content : List Nat) : Part → Bool
  | .node (.raw _ tag content' _ language) =>
    tag.first == opener && content' == content && language == "js".toList
  | _ => false

theorem raw_of_scriptAt {opener : Nat} {content : List Nat} {p : Part}
    (h : scriptAt opener content p = true) : ∃ kind tag endTag,
      p = .node (.raw kind tag content endTag "js".toList) ∧ tag.first = opener := by
  unfold scriptAt at h
  split at h
  · next kind tag content' endTag language =>
    simp only [Bool.and_eq_true, beq_iff_eq] at h
    obtain ⟨⟨h1, rfl⟩, rfl⟩ := h
    exact ⟨kind, tag, endTag, rfl, h1⟩
  · cases h

/-- A call with a string over two lines: the line in the string stays as it is, and the line that
closes one of two brackets is two levels deep. -/
theorem expects_of_brackets_call :
    ∃ (d : Document) (l : Layout) (t u : Token),
      Document.read "<script>\nf(\x7b\n'a\n'\n\x7d, 1)\n</script>".toList = .ok d ∧
      OffsetGraph.build d {} .default = .ok l.graph ∧ l.document = d ∧
      (d.tokens[5]? = some t ∧ l.isChecked t = .ok false) ∧
      d.tokens[6]? = some u ∧ u ∈ l.graph.heads.lineHeads ∧ l.isChecked u = .ok true ∧
        l.Expects u ⟨4, 0⟩ := by
  obtain ⟨d, hd⟩ := exists_of_isOk (show (Document.read
    "<script>\nf(\x7b\n'a\n'\n\x7d, 1)\n</script>".toList).isOk = true by decide +kernel)
  have hscript : (Document.read "<script>\nf(\x7b\n'a\n'\n\x7d, 1)\n</script>".toList).map
      (fun d => d.parts.any (scriptAt 0 [3, 4, 5, 6])) = .ok true := by decide +kernel
  have hopen : (Document.read "<script>\nf(\x7b\n'a\n'\n\x7d, 1)\n</script>".toList).map
      (fun d => (Rules.ofSettings d {} .default).toOption.map fun rules =>
        d.parts.all (openAt rules)) = .ok (some true) := by decide +kernel
  have htokens : (Document.read "<script>\nf(\x7b\n'a\n'\n\x7d, 1)\n</script>".toList).map
      (fun d => (d.tokens[0]?.map Token.isBlank,
        [3, 4, 5, 6].map fun i => d.tokens[i]?.map Token.line)) =
      .ok (some false, [some 2, some 3, some 4, some 5]) := by decide +kernel
  have hheads : (Document.read "<script>\nf(\x7b\n'a\n'\n\x7d, 1)\n</script>".toList).map
      (fun d => (Heads.ofTokens d.tokens).lineHeads.map Token.index) =
      .ok [0, 3, 4, 5, 6, 7] := by decide +kernel
  have hregion : (Document.read "<script>\nf(\x7b\n'a\n'\n\x7d, 1)\n</script>".toList).map
      (fun d => (d.tokens[3]?.bind fun first => d.tokens[6]?.bind fun last =>
        contentRegion? d first last)) =
      .ok (some "f(\x7b\n'a\n'\n\x7d, 1)".toList) := by decide +kernel
  have hscan : scan scriptRules "f(\x7b\n'a\n'\n\x7d, 1)".toList =
      [⟨0, 0, false, false⟩, ⟨2, 0, false, false⟩, ⟨2, 0, true, false⟩, ⟨2, 1, false, false⟩] := by
    rw [scan_scriptRules]
    decide +kernel
  rw [hd] at hscript hopen htokens hheads hregion
  obtain ⟨rules, l, hrules, hbuild, hdoc, hunit, hall⟩ := expects_of_brackets (s := {}) hd rfl rfl
  have hl : l.Follows rules := by
    have h := follows_of_build hd hrules hbuild l.unit
    rwa [← hdoc] at h
  obtain ⟨rfl, -⟩ := rules_of_settings hd hrules
  have hopen : (Rules.ofSettings rules.document {} .default).toOption.map _ = some true :=
    Except.ok.inj hopen
  rw [hrules] at hopen
  have htokens := Except.ok.inj htokens
  simp only [List.map_cons, List.map_nil, Prod.mk.injEq, List.cons.injEq, Option.map_eq_some_iff,
    and_true] at htokens
  obtain ⟨⟨o, ho, hob⟩, ⟨t₁, h₁, hline₁⟩, ⟨t₂, h₂, -⟩, ⟨t₃, h₃, hline₃⟩, t₄, h₄, hline₄⟩ := htokens
  obtain ⟨p, hp, hmatch⟩ := List.any_eq_true.mp (Except.ok.inj hscript)
  obtain ⟨kind, tag, endTag, rfl, htag⟩ := raw_of_scriptAt hmatch
  have hblock : rules.Open (.raw kind tag [3, 4, 5, 6] endTag "js".toList) :=
    ⟨hp, fun n hn _ => by
      simpa [openAt] using List.all_eq_true.mp (Option.some.inj hopen) _ hn⟩
  obtain ⟨opener, hopener, -, hlines⟩ := hall _ _ _ _ _ _ _ _ hblock select_script
  obtain ⟨region, hregion', hrecords⟩ := hlines t₁ [t₂, t₃, t₄] (by
    simp only [Rules.tokensAt, List.filterMap_cons, h₁, h₂, h₃, h₄, List.filterMap_nil])
  have hregion := Except.ok.inj hregion
  simp only [h₁, h₄, Option.bind_some] at hregion
  obtain rfl : _ = region := Option.some.inj (hregion.symm.trans hregion')
  rw [hscan] at hrecords
  obtain ⟨r₃, hr₃, hlevelled₃⟩ := hrecords t₃ (by simp)
  obtain ⟨r₄, hr₄, hlevelled₄⟩ := hrecords t₄ (by simp)
  rw [hline₁, hline₃] at hr₃
  rw [hline₁, hline₄] at hr₄
  cases hr₃
  cases hr₄
  -- The block begins with the root of the document, so its line has no indentation.
  rw [htag, ho] at hopener
  cases hopener
  have hanchor : l.Anchors o .none := by
    obtain ⟨root, hroot⟩ := hl.rooted 0 ⟨o, ho, hob⟩
    obtain rfl : root = 0 := Nat.le_zero.mp (hroot.first 0 ⟨o, ho, hob⟩)
    exact Layout.anchors_root hroot.grounded (hdoc ▸ ho) hob (hdoc ▸ hroot.first)
  have hfirst : t₁ ∈ l.graph.heads.lineHeads := by
    have h3 : 3 ∈ (Heads.ofTokens rules.document.tokens).lineHeads.map Token.index := by
      rw [show (Heads.ofTokens rules.document.tokens).lineHeads.map Token.index = [0, 3, 4, 5, 6, 7]
        from Except.ok.inj hheads]
      decide
    obtain ⟨t, ht, hti⟩ := List.mem_map.mp (hl.heads ▸ h3)
    have heq := (hl.mem_lineHeads.mp ht).1
    rw [hti, h₁] at heq
    exact Option.some.inj heq ▸ ht
  obtain ⟨x, hx, hexpects⟩ := hlevelled₄.below rfl hfirst
  rw [hx.eq hanchor, hunit] at hexpects
  exact ⟨_, l, t₃, t₄, hd, hbuild, hdoc, ⟨h₃, hlevelled₃.unchecked rfl⟩, h₄, hlevelled₄.onHead,
    hlevelled₄.checked rfl, hexpects⟩

end MarkupIndent.Margin
