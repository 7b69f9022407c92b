import MarkupIndent.Proofs.LastRule
import MarkupIndent.Proofs.Reanalysis
import MarkupIndent.Proofs.Replaced

/-!
# What an analysis sees of content

Where no attributes are aligned, rules of indentation look at the tokens of character data only for
the lines that they stand on. So a content may be any other one.

* `Unaligned`: declarations that align nothing; `Rules.Declared.unaligned`: those of nodes, if
  attributes are not aligned.
* `counterpart_altered`, `lastLine_altered`: tokens of two texts that differ in a content stand on
  the same lines, and behind the same margins.
* `record?_twin`, `recordsOf_twin`: layouts with the same margins have the same records.
* `check_replaced`: **an analysis finds the same** in a text with another content, if the content
  ends no string that a quote before it began.
-/

namespace MarkupIndent.Markup

/-- A part is a script or style block. -/
def Part.isRaw : Part → Bool
  | .node (.raw ..) => true
  | _ => false

/-- No script or style block is among parts. -/
def Rawless (ps : List Part) : Prop :=
  ∀ p ∈ ps, p.isRaw = false

instance (ps : List Part) : Decidable (Rawless ps) :=
  inferInstanceAs (Decidable (∀ p ∈ ps, p.isRaw = false))

end MarkupIndent.Markup

namespace MarkupIndent.Margin

open Markup Settings Text

/-! ## Declarations that align nothing -/

/-- A declaration hangs no token on the column of another. -/
def Declaration.Unaligned : Declaration → Prop
  | .offset _ _ kind _ | .range _ _ _ kind _ => kind ≠ .align
  | .pin _ _ | .request .. | .refuse _ => True

theorem Declaration.Unaligned.rule? {d : Declaration} (h : d.Unaligned) {i : Nat} {e : OffsetEntry}
    (he : d.rule? i = some e) : e.kind ≠ .align := by
  cases d with
  | offset target base kind weight | range first last base kind weight =>
    rw [Declaration.rule?] at he
    split at he
    · cases he
      exact h
    · cases he
  | pin first last =>
    rw [Declaration.rule?] at he
    split at he
    · cases he
      intro hkind
      cases hkind
    · cases he
  | request target base kind weight | refuse fault => cases he

/-- Declarations hang no token on the column of another. -/
def Unaligned (ds : List Declaration) : Prop :=
  ∀ d ∈ ds, d.Unaligned

theorem Declaration.Owned.unaligned {tokens : Array Token} {lo hi : Nat} {d : Declaration}
    (h : d.Owned tokens false lo hi) : d.Unaligned := by
  cases h with
  | pin => trivial
  | deeper | asDeep => simp [Declaration.Unaligned]
  | aligned h => cases h

/-- The indenters of the default registry align nothing. -/
theorem unaligned_default {language : List Char} {indenter : Indenter}
    (h : Registry.default.select language = .ok indenter) (content : List Token) (opener : Nat)
    (d : Document) : Unaligned (indenter.declarations content opener d) := by
  rcases select_default h with ⟨name, languages, rules, -, rfl, -⟩ | ⟨rfl, -⟩
  · show Unaligned (bracketDeclarations rules content opener d)
    unfold bracketDeclarations
    split
    · simp [Unaligned]
    refine List.forall_mem_cons.mpr ⟨by simp [Declaration.Unaligned], ?_⟩
    split
    · simp [Declaration.Unaligned]
    intro e he
    obtain ⟨t, -, rfl⟩ := List.mem_map.mp he
    unfold bracketRule
    split
    · trivial
    split
    · simp [Declaration.Unaligned]
    split <;> simp [Declaration.Unaligned]
  · intro e he
    obtain ⟨t, -, rfl⟩ := List.mem_map.mp he
    simp [Declaration.Unaligned]

/-- **Nothing that nodes declare aligns anything**, if attributes are not aligned. -/
theorem Rules.Declared.unaligned {rules : Rules} (hregistry : rules.registry = .default)
    (hoff : rules.alignAttributes = false) {lo hi : Nat} {d : Declaration}
    (h : rules.Declared lo hi d) : d.Unaligned := by
  cases h with
  | owned h => exact (hoff ▸ h).unaligned
  | @content opener first n language _ _ _ _ _ hd =>
    unfold Rules.ofContent at hd
    split at hd
    · cases hd
    split at hd
    · split at hd
      · next hsel => exact unaligned_default (hregistry ▸ hsel) _ _ _ d hd
      · rw [List.mem_singleton.mp hd]
        trivial
    · rw [List.mem_singleton.mp hd]
      trivial

/-- **Nothing is aligned** in a document, if attributes are not. -/
theorem kind_ne_align {text : List Char} {d : Document} {s : Settings} {l : Layout} {root : Token}
    (hd : Document.read text = .ok d) (hl : Layout.ofSettings d s .default = .ok l)
    (hoff : s.alignAttributes = false) (hroot : (Heads.ofTokens d.tokens).first? = some root)
    {i : Nat} {e : OffsetEntry} (he : l.graph.entries[i]? = some (some e)) : e.kind ≠ .align := by
  obtain ⟨unit, hu, hl⟩ := bind_eq_ok.mp hl
  split at hl
  · cases hl
  obtain ⟨g, hg, hl⟩ := bind_eq_ok.mp hl
  cases hl
  obtain ⟨rules, hrules⟩ := exists_rules d .default hu
  obtain ⟨-, -, _, -, halign⟩ := options_of_settings hrules
  rw [hoff, Bool.false_and] at halign
  obtain ⟨g', hg', hordered, hentry⟩ := entry_build hd descends_default hrules hroot
  rw [hg] at hg'
  obtain rfl := Except.ok.inj hg'
  obtain ⟨rfl, hgrounded, hregistry, htile⟩ := rules_of_settings hd hrules
  have hne : i ≠ root.index := by
    rintro rfl
    rw [hordered.unhung] at he
    cases he
  have hlast := hentry i (hordered.entry i e he).2.onTarget hne
  have hval : g.entry i = .ok (some e) := by
    unfold OffsetGraph.entry
    rw [he]
  rw [hval] at hlast
  have hlast := Option.some.inj (Except.ok.inj hlast)
  rw [hlast]
  cases hrule : lastRule? i (rules.ofNodes rules.document.nodes) with
  | none =>
    intro hkind
    cases hkind
  | some e' =>
    obtain ⟨decl, hmem, hdecl⟩ := exists_of_lastRule? hrule
    have hdeclared :=
      Rules.declared_ofNodes hgrounded _ _ _ _ htile (Nat.le_succ _) decl hmem
    exact (hdeclared.unaligned hregistry halign).rule? hdecl

/-! ## Tokens of texts that differ in a content -/

section Altered

variable {u old new source mended : List Char} {t t' : Token} {i : Nat}
  (h : Altered u old new source mended t t') (hold : Inline old) (hnew : Inline new)
include h hold hnew

/-- **Tokens of texts that differ in a content stand on the same lines.** -/
theorem counterpart_altered (ht : TokenAt source i t) (ht' : TokenAt mended i t') :
    Counterpart t t' := by
  have hsolid : ∀ {text : List Char}, Inline text →
      (text.all fun c => c == ' ' || c == '\t' || c == '\r' || c == '\n') = false := by
    intro text htext
    obtain ⟨⟨⟨c, hc, hb⟩, -⟩, -⟩ := htext
    refine List.all_eq_false.mpr ⟨c, List.mem_of_head? hc, fun hplain => ?_⟩
    simp only [Bool.or_eq_true, beq_iff_eq] at hplain
    rcases hplain with ((rfl | rfl) | rfl) | rfl <;> cases hb
  have hends : ∀ {text : List Char}, Inline text → text.dropLast.count '\n' = 0 :=
    fun htext => List.count_eq_zero.mpr fun hmem => htext.2 (List.dropLast_subset _ hmem)
  have hline : t.line = t'.line := by
    have hcount : (source.take t.start).count '\n' = (mended.take t'.start).count '\n' := by
      have hstart := h.start
      generalize source.take t.start = x at hstart ⊢
      generalize mended.take t'.start = x' at hstart ⊢
      cases hstart with
      | before => rfl
      | behind x =>
        simp only [List.count_append, List.count_eq_zero.mpr hold.2,
          List.count_eq_zero.mpr hnew.2]
    rw [ht.line, ht'.line, hcount]
  refine ⟨⟨?_, hline, fun _ => ?_⟩, h.kind, fun hk => h.text.resolve_right fun hne => hk hne.1⟩
  · rcases h.text with htext | ⟨-, htext, htext'⟩
    · rw [Token.isBlank, Token.isBlank, h.kind, htext]
    · rw [Token.isBlank, Token.isBlank, htext, htext', hsolid hold, hsolid hnew, h.kind]
  · rcases h.text with htext | ⟨-, htext, htext'⟩
    · rw [Token.endLine, Token.endLine, hline, htext]
    · rw [Token.endLine, Token.endLine, hline, htext, htext', hends hold, hends hnew]

omit hnew in
/-- **The margins before heads are the same**: a head on the line of the content is the content
itself or comes before it. -/
theorem lastLine_altered {tokens : Array Token} (htok : Tokenized source source.length tokens)
    {j : Nat} {c : Token} (hc : tokens[j]? = some c) (hcstart : c.start = u.length)
    (hctext : c.text = old) (hcb : c.isBlank = false) (ht : tokens[i]? = some t)
    (hlead : Leads tokens.toList i) :
    lastLine (source.take t.start) = lastLine (mended.take t'.start) := by
  have hstart := h.start
  generalize hx : source.take t.start = x at hstart
  generalize mended.take t'.start = x' at hstart
  cases hstart with
  | before => rfl
  | behind x =>
    have hat := htok.token i t ht
    have hac := htok.token j c hc
    have hpos : 0 < old.length := List.length_pos_iff.mpr hold.1.ne_nil
    have hlen := congrArg List.length hx
    simp only [List.length_take, List.length_append] at hlen
    have hcstop := hac.lt
    -- The content comes before the head, so its line ends before it.
    have hji : j < i := by
      rcases Nat.lt_trichotomy i j with hij | rfl | hji
      · have := htok.ordered i j t c hij ht hc
        have := hat.lt
        omega
      · rw [ht] at hc
        obtain rfl := Option.some.inj hc
        omega
      · exact hji
    obtain ⟨v, hv, -, hall⟩ := hlead
    rw [Array.getElem?_toList, ht] at hv
    obtain rfl := Option.some.inj hv
    have hends := hall j c hji (by rwa [Array.getElem?_toList]) hcb
    have hline : t.line = u.count '\n' + x.count '\n' + 1 := by
      rw [hat.line, hx]
      simp only [List.count_append, List.count_eq_zero.mpr hold.2]
      omega
    have hcline : c.endLine = u.count '\n' + 1 := by
      have hu : source.take c.start = u := by
        have htake := congrArg (List.take u.length) hx
        rw [List.take_left' rfl, List.take_take, Nat.min_eq_left (by omega)] at htake
        rw [hcstart, htake]
      rw [Token.endLine, hac.line, hu, hctext,
        List.count_eq_zero.mpr fun hmem => hold.2 (List.dropLast_subset _ hmem)]
    have hmem : '\n' ∈ x := List.count_pos_iff.mp (by omega)
    rw [lastLine_append_of_mem (List.mem_append_right _ hmem), lastLine_append_of_mem hmem,
      lastLine_append_of_mem (List.mem_append_right _ hmem), lastLine_append_of_mem hmem]

end Altered

/-! ## Records of twins -/

/-- Records of lines that begin alike and are expected to begin alike. -/
structure SameRecord (r r' : LineRecord) : Prop where
  line : r.line = r'.line
  expected : r.expected = r'.expected
  actual : r.actual = r'.actual

namespace Layout

/-- Heads of the same place, on the same line and behind the same margin. -/
structure SameHead (l l' : Layout) (t t' : Token) : Prop where
  place : ∃ i, Partners 0 l l' i t t' ∧ Leads l'.document.tokens.toList i
  line : t.line = t'.line
  margin : l.leadingText t = l'.leadingText t'

section Twins

variable {l l' : Layout} (hl : Twin 0 l l')
include hl

theorem record?_twin (memo : Memo) {t t' : Token} (ht : l.SameHead l' t t') :
    l'.record? memo t' =
      (l.record? memo t).map fun (r, memo) => (r.map fun r => { r with token := t' }, memo) := by
  obtain ⟨⟨i, hpartners, hlead⟩, hline, hmargin⟩ := ht
  have hresolve : l.resolve memo t = l'.resolve memo t' :=
    resolveFrom_twin hl hpartners hlead memo []
  unfold record?
  rw [← isChecked_twin hl hpartners, ← hmargin, ← hresolve, ← hline, ← hl.unit]
  cases l.isChecked t with
  | error fault => rfl
  | ok checked =>
    cases checked with
    | false => rfl
    | true =>
      simp only [bind, Except.bind, if_true]
      cases l.leadingText t with
      | error fault => rfl
      | ok blanks =>
        simp only
        split
        · cases l.resolve memo t with
          | error fault => rfl
          | ok r => rfl
        · rfl

/-- **Twins with the same margins have the same records.** -/
theorem recordsOf_twin {memo : Memo} {heads heads' : List Token}
    (hheads : List.Forall₂ (l.SameHead l') heads heads') {records : List LineRecord}
    (h : l.recordsOf memo heads = .ok records) :
    ∃ records', l'.recordsOf memo heads' = .ok records' ∧
      List.Forall₂ SameRecord records records' := by
  induction hheads generalizing memo records with
  | nil =>
    cases h
    exact ⟨[], rfl, .nil⟩
  | @cons t t' heads heads' ht _ ih =>
    obtain ⟨⟨r, memo'⟩, h1, h⟩ := bind_eq_ok.mp h
    obtain ⟨rest, h2, h⟩ := bind_eq_ok.mp h
    cases h
    obtain ⟨rest', h3, hrest⟩ := ih h2
    have h4 := record?_twin hl memo ht
    rw [h1] at h4
    refine ⟨(r.map fun r => { r with token := t' }).toList ++ rest', ?_, ?_⟩
    · exact bind_eq_ok.mpr ⟨_, h4, bind_eq_ok.mpr ⟨rest', h3, rfl⟩⟩
    · refine List.rel_append ?_ hrest
      cases r with
      | none => exact .nil
      | some r => exact .cons ⟨rfl, rfl, rfl⟩ .nil

end Twins

/-- The heads of two layouts, if all are behind the same margins. -/
theorem sameHead_lineHeads {l l' : Layout} {root root' : Nat} (hl : l.Grounded root)
    (hl' : l'.Grounded root')
    (hmatched : Matched Counterpart 0 l.document.tokens l'.document.tokens)
    (hmargin : ∀ (i : Nat) (t t' : Token), Partners 0 l l' i t t' →
      Leads l.document.tokens.toList i → l.leadingText t = l'.leadingText t') :
    List.Forall₂ (l.SameHead l') l.graph.heads.lineHeads l'.graph.heads.lineHeads := by
  have hleads : ∀ i, Leads l.document.tokens.toList i ↔ Leads l'.document.tokens.toList i :=
    leads_matched (hmatched.mono fun _ _ _ _ htt' => htt'.toSameLines) fun _ _ hi => by omega
  have hall : Matched (fun t t' => Counterpart t t' ∧ ∃ i, Partners 0 l l' i t t') 0
      l.document.tokens l'.document.tokens :=
    ⟨hmatched.size, fun i t' ht' => (hmatched.token i t' ht').imp fun t ht =>
      ⟨ht.1, ht.2, i, ht.1, ht'⟩⟩
  rw [Heads.lineHeads, Heads.lineHeads, hl.graph.heads, hl'.graph.heads]
  have hdrop := hall.drop
  rw [List.drop_zero] at hdrop
  have hhead : ∀ t t', (Counterpart t t' ∧ ∃ i, Partners 0 l l' i t t') →
      (Heads.ofTokens l.document.tokens).isHead t =
        (Heads.ofTokens l'.document.tokens).isHead t' := by
    rintro t t' ⟨-, i, hpartners⟩
    rw [Bool.eq_iff_iff, isHead_iff hl.indexed hpartners.first,
      isHead_iff hl'.indexed hpartners.second]
    exact hleads i
  refine (filter_forall₂ hdrop hhead).imp fun t t' => ?_
  rintro ⟨⟨hsame, i, hpartners⟩, hlead⟩
  rw [isHead_iff hl.indexed hpartners.first] at hlead
  exact ⟨⟨i, hpartners, (hleads i).mp hlead⟩, hsame.line, hmargin i t t' hpartners hlead⟩

end Layout

/-! ## Reports -/

/-- What a report says of which place, without the edits that mend it. -/
def Report.finding (r : Report) : String × Location :=
  (r.message, r.location)

/-- Records of lines that begin alike have the same findings. -/
theorem findings_of_sameRecords {unit : IndentUnit} {records records' : List LineRecord}
    (h : List.Forall₂ SameRecord records records') :
    ((mismatches records).map (Mismatch.report unit)).map Report.finding =
      ((mismatches records').map (Mismatch.report unit)).map Report.finding := by
  have hagrees : ∀ r r', SameRecord r r' → (!r.agrees) = !r'.agrees := fun r r' hr => by
    rw [LineRecord.agrees, LineRecord.agrees, hr.expected, hr.actual]
  rw [mismatches, mismatches, List.map_map, List.map_map, List.map_map, List.map_map]
  refine map_forall₂ (filter_forall₂ h hagrees) fun r r' hr => ?_
  obtain ⟨hr, -⟩ := hr
  show (Mismatch.message unit ⟨r.line, r.token, r.expected, r.actual⟩,
    (⟨r.line, 0, r.line, r.actual.length⟩ : Location)) = _
  rw [hr.line, hr.expected, hr.actual]
  rfl

/-- Settings that cannot drive the analysis of a document can drive that of no other one of as many
tokens. -/
theorem ofSettings_error {text : List Char} {d d' : Document} {s : Settings} {registry : Registry}
    {fault : Fault} (hd : Document.read text = .ok d) (hr : registry.Descends)
    (hsize : d'.tokens.size = d.tokens.size) (h : Layout.ofSettings d s registry = .error fault) :
    Layout.ofSettings d' s registry = .error fault := by
  cases hu : IndentUnit.ofValue s.indentUnit s.mixedAlignment with
  | error fault' =>
    simp only [Layout.ofSettings, hu, bind, Except.bind] at h ⊢
    exact h
  | ok unit =>
    by_cases hlimit : s.maxTokens < d.tokens.size
    · simp only [Layout.ofSettings, hu, bind, Except.bind, hsize, if_pos hlimit] at h ⊢
      exact h
    · obtain ⟨l, hl, -⟩ := ofSettings_ok hd hr hu (Int.not_lt.mp hlimit)
      rw [h] at hl
      cases hl

/-- **Rules of indentation look at no character data**: documents with the same tokens but for that,
on the same lines and behind the same margins, have the same findings. -/
theorem findings_of_counterparts {text text' : List Char} {d d' : Document} {s : Settings}
    (hd : Document.read text = .ok d) (hd' : Document.read text' = .ok d')
    (hmatched : Matched Counterpart 0 d.tokens d'.tokens) (hnodes : SameNodes 0 [] [] d d')
    (hraw : Rawless d.parts) (hoff : s.alignAttributes = false)
    (hsome : ∃ i, Significant d.tokens i)
    (hmargin : ∀ (i : Nat) (t t' : Token), d.tokens[i]? = some t → d'.tokens[i]? = some t' →
      Leads d.tokens.toList i →
        lastLine (d.text.take t.start) = lastLine (d'.text.take t'.start)) :
    ∃ r r', check d s .default = .ok r ∧ check d' s .default = .ok r' ∧
      r'.linesChecked = r.linesChecked ∧ r'.settingsFault = r.settingsFault ∧
      r'.reports.map Report.finding = r.reports.map Report.finding := by
  have hsize : d'.tokens.size = d.tokens.size := hmatched.size.symm
  rcases ofSettings_total (s := s) hd descends_default with ⟨l, hl⟩ | ⟨fault, hl, hfault⟩
  · have hraw' : Rawless d'.parts := by
      obtain ⟨ns, hns, hns'⟩ := hnodes
      rw [nodesMoved_zero, List.nil_append] at hns hns'
      rwa [Document.parts, hns', ← hns]
    have hfirst : ∀ (i : Nat) (t : Token), i < 0 → d.tokens[i]? = some t → t.isBlank = true :=
      fun i t hi => absurd hi (Nat.not_lt_zero i)
    obtain ⟨root, hroot⟩ : ∃ root, (Heads.ofTokens d.tokens).first? = some root := by
      cases hroot : (Heads.ofTokens d.tokens).first? with
      | none => exact absurd hsome.choose_spec (first?_eq_none hroot)
      | some root => exact ⟨root, rfl⟩
    obtain ⟨l', r, hl', hunit, hgraph⟩ := ofSettings_shifted hd hd' descends_default hmatched hfirst
      hnodes .same (fun rules _ _ _ kind tag content e language hmem => by
        cases hraw' _ hmem) hroot (by omega) hl
    obtain ⟨root', hroot', -⟩ := first?_shifted hmatched
      (indexed_of_tokenized (tokenized_of_read hd)) (indexed_of_tokenized (tokenized_of_read hd'))
      hfirst hroot
    obtain ⟨i', hi', hb', -⟩ := first?_spec hroot'
    obtain ⟨hdoc, -, hground⟩ := ofSettings_spec hd descends_default hl
    obtain ⟨hdoc', -, hground'⟩ := ofSettings_spec hd' descends_default hl'
    obtain ⟨m, hm⟩ := hground.resolve_right fun hnone => hsome.elim hnone
    obtain ⟨m', hm'⟩ := hground'.resolve_right fun hnone => hnone i' ⟨root', hi', hb'⟩
    subst hdoc hdoc'
    have hleading : ∀ (i : Nat) (t t' : Token), Layout.Partners 0 l l' i t t' →
        Leads l.document.tokens.toList i → l.leadingText t = l'.leadingText t' := by
      intro i t t' hpartners hlead
      rw [hm.leadingText hpartners.first, hm'.leadingText hpartners.second,
        hmargin i t t' hpartners.first hpartners.second hlead]
    have htwin : Layout.Twin 0 l l' := Layout.twin_of_shifted hm hm' hunit.symm hgraph hmatched
      hfirst (fun i e g t t' h h' he hk => absurd hk (kind_ne_align hd' hl' hoff hroot' he))
      fun g h h' hpartners hlead _ => hleading g h h' hpartners hlead
    obtain ⟨records, hrecords⟩ := Layout.records_ok hm
    obtain ⟨records', hrecords', hsame⟩ := Layout.recordsOf_twin htwin
      (Layout.sameHead_lineHeads hm hm' hmatched hleading) hrecords
    refine ⟨⟨(mismatches records).map (Mismatch.report l.unit), records.length, false⟩,
      ⟨(mismatches records').map (Mismatch.report l.unit), records'.length, false⟩, ?_, ?_,
      hsame.length_eq.symm, rfl, (findings_of_sameRecords hsame).symm⟩
    · simp only [check, hl]
      exact bind_eq_ok.mpr ⟨records, hrecords, rfl⟩
    · simp only [check, hl']
      exact bind_eq_ok.mpr ⟨records', hrecords', by rw [hunit]⟩
  · have hl' := ofSettings_error hd descends_default hsize hl
    refine ⟨settingsReport fault, settingsReport fault, ?_, ?_, rfl, rfl, rfl⟩
    · simp only [check, hl, if_pos hfault]
    · simp only [check, hl', if_pos hfault]

/-- **Content edits are local.** In a text without script and style blocks, and by settings that
align no attributes, put another content in the place of a token of character data: it begins and
ends with characters that are not blank, and has no line end, `<` or brace in it. If it ends no
string of a quote that opened none before it, then the text can be read, as many lines are checked,
and the same is found at the same places. -/
theorem check_replaced {text new : List Char} {d : Document} {s : Settings} {i : Nat} {t : Token}
    (hd : Document.read text = .ok d) (hraw : Rawless d.parts) (hoff : s.alignAttributes = false)
    (ht : d.tokens[i]? = some t) (hkind : t.kind = .htmlText)
    (hsolid : ∃ c ∈ t.text, isBlank c = false) (hnew : Inline new) (hlt : '<' ∉ new)
    (hbrace : '{' ∉ new)
    (hquotes : ∀ (j : Nat) (quote : Char), j < i → Stands d.tokens j .expression [quote] →
      isQuote quote = true → stringTail? quote new = none) :
    ∃ d' r r', Document.read (text.take t.start ++ (new ++ text.drop t.stop)) = .ok d' ∧
      check d s .default = .ok r ∧ check d' s .default = .ok r' ∧
      r'.linesChecked = r.linesChecked ∧ r'.settingsFault = r.settingsFault ∧
      r'.reports.map Report.finding = r.reports.map Report.finding := by
  have htok := tokenized_of_read hd
  obtain rfl := text_of_read hd
  have hat := htok.token i t ht
  have hlt' := hat.lt
  have hle := hat.le
  have hold : Inline t.text := by
    have hadmits := hat.admits
    rw [hkind] at hadmits
    obtain ⟨c, hc, hb⟩ := hsolid
    refine hadmits.resolve_left fun hblank => ?_
    rw [hblank.2 c hc] at hb
    cases hb
  have hcb : t.isBlank = false := by
    obtain ⟨c, hc, hb⟩ := hsolid
    by_contra hblank
    rw [isBlank_of_mem_blank (by simpa using hblank) hc] at hb
    cases hb
  have hstart : t.start = (d.text.take t.start).length := by
    rw [List.length_take]
    omega
  have hsplit : d.text = d.text.take t.start ++ (t.text ++ d.text.drop t.stop) := by
    rw [hat.slice, ← List.append_assoc, ← List.take_add, Nat.add_sub_cancel' (Nat.le_of_lt hlt'),
      List.take_append_drop]
  obtain ⟨d', hd', hgrown⟩ := read_replaced (hsplit ▸ hd) ht hkind hstart hold hnew hlt hbrace
    hquotes
  have htok' := tokenized_of_read hd'
  have htext' := text_of_read hd'
  rw [← hsplit, ← htext'] at hgrown
  rw [← htext'] at htok'
  have hmatched : Matched (Altered (d.text.take t.start) t.text new d.text d'.text) 0 d.tokens
      d'.tokens := by
    have := hgrown.matched
    rwa [Array.extract_size] at this
  have hcounterparts : Matched Counterpart 0 d.tokens d'.tokens :=
    ⟨hmatched.size, fun j s' hs' => (hmatched.token j s' hs').imp fun s hs =>
      ⟨hs.1, counterpart_altered hs.2 hold hnew (htok.token j s hs.1) (htok'.token j s' hs')⟩⟩
  obtain ⟨r, r', hall⟩ := findings_of_counterparts hd hd' hcounterparts hgrown.nodes hraw hoff
    ⟨i, t, ht, hcb⟩ fun j s s' hs hs' hlead => by
      obtain ⟨v, hv, haltered⟩ := hmatched.token j s' hs'
      rw [Nat.add_zero, hs] at hv
      obtain rfl := Option.some.inj hv
      exact lastLine_altered haltered hold htok ht hstart rfl hcb hs hlead
  exact ⟨d', r, r', hd', hall⟩

/-- A lone quote in an expression, and a content with a quote of the other kind. -/
theorem check_replaced_quote :
    ∃ (d d' : Document) (r r' : CheckResult),
      Document.read "<p>\x7ba'\x7d\nb</p>".toList = .ok d ∧
      Document.read "<p>\x7ba'\x7d\nc \"d</p>".toList = .ok d' ∧
      check d { alignAttributes := false } .default = .ok r ∧
      check d' { alignAttributes := false } .default = .ok r' ∧
      r'.linesChecked = r.linesChecked ∧ r'.settingsFault = r.settingsFault ∧
      r'.reports.map Report.finding = r.reports.map Report.finding := by
  obtain ⟨d, hd⟩ := exists_of_isOk
    (show (Document.read "<p>\x7ba'\x7d\nb</p>".toList).isOk = true by decide +kernel)
  have hraw : (Document.read "<p>\x7ba'\x7d\nb</p>".toList).map (fun d =>
      d.parts.all fun p => !p.isRaw) = .ok true := by decide +kernel
  have htoken : (Document.read "<p>\x7ba'\x7d\nb</p>".toList).map (fun d =>
      d.tokens[8]?.map fun t => (t.kind, t.text, t.start, t.stop)) =
        .ok (some (.htmlText, ['b'], 8, 9)) := by decide +kernel
  have hquotes : (Document.read "<p>\x7ba'\x7d\nb</p>".toList).map (fun d =>
      (d.tokens.toList.filter fun t => t.kind == .expression).map Token.text) =
        .ok [['a'], ['\'']] := by decide +kernel
  rw [hd] at hraw htoken hquotes
  obtain ⟨t, ht, hval⟩ := Option.map_eq_some_iff.mp (Except.ok.inj htoken)
  simp only [Prod.mk.injEq] at hval
  obtain ⟨hkind, htext, hstart, hstop⟩ := hval
  have hquotes : (d.tokens.toList.filter fun t => t.kind == .expression).map Token.text =
      [['a'], ['\'']] := Except.ok.inj hquotes
  have hinline : Inline "c \"d".toList :=
    ⟨⟨⟨'c', rfl, by decide⟩, 'd', rfl, by decide⟩, by decide⟩
  obtain ⟨d', r, r', hd', hr, hr', hall⟩ := check_replaced (s := { alignAttributes := false }) hd
    (fun p hp => by simpa using List.all_eq_true.mp (Except.ok.inj hraw) p hp) rfl ht hkind
    ⟨'b', by simp [htext], by decide⟩ hinline (by decide) (by decide)
    (fun j quote _ hj hquote => by
      obtain ⟨q, hq, hqkind, hqtext⟩ := hj
      have hmem : q.text ∈ (d.tokens.toList.filter fun t => t.kind == .expression).map
          Token.text :=
        List.mem_map_of_mem (List.mem_filter.mpr
          ⟨List.mem_iff_getElem?.mpr ⟨j, by rwa [Array.getElem?_toList]⟩, by simp [hqkind]⟩)
      rw [hquotes, hqtext, List.mem_cons, List.mem_singleton] at hmem
      rcases hmem with hmem | hmem
      · rw [(List.cons.inj hmem).1] at hquote
        cases hquote
      · rw [(List.cons.inj hmem).1]
        decide)
  rw [hstart, hstop] at hd'
  exact ⟨d, d', r, r', hd, hd', hr, hr', hall⟩

/-- **A quote in a content may end a string** that begins at a lone quote of an expression before
it. Then the expression has no end. -/
theorem unread_replaced_quote :
    ∃ (d : Document) (t : Token), Document.read "\x7ba'\x7d b".toList = .ok d ∧
      Rawless d.parts ∧ d.tokens[5]? = some t ∧ t.kind = .htmlText ∧
      (∃ c ∈ t.text, isBlank c = false) ∧ Inline "c'".toList ∧ '<' ∉ "c'".toList ∧
      '{' ∉ "c'".toList ∧
      Document.read ("\x7ba'\x7d b".toList.take t.start ++
        ("c'".toList ++ "\x7ba'\x7d b".toList.drop t.stop)) =
          .error ⟨.unterminatedMustache, 1, 0⟩ := by
  obtain ⟨d, hd⟩ := exists_of_isOk
    (show (Document.read "\x7ba'\x7d b".toList).isOk = true by decide +kernel)
  have hraw : (Document.read "\x7ba'\x7d b".toList).map (fun d =>
      d.parts.all fun p => !p.isRaw) = .ok true := by decide +kernel
  have htoken : (Document.read "\x7ba'\x7d b".toList).map (fun d =>
      d.tokens[5]?.map fun t => (t.kind, t.text, t.start, t.stop)) =
        .ok (some (.htmlText, ['b'], 5, 6)) := by decide +kernel
  rw [hd] at hraw htoken
  obtain ⟨t, ht, hval⟩ := Option.map_eq_some_iff.mp (Except.ok.inj htoken)
  simp only [Prod.mk.injEq] at hval
  obtain ⟨hkind, htext, hstart, hstop⟩ := hval
  refine ⟨d, t, hd, fun p hp => by simpa using List.all_eq_true.mp (Except.ok.inj hraw) p hp, ht,
    hkind, ⟨'b', by simp [htext], by decide⟩, ⟨⟨⟨'c', rfl, by decide⟩, '\'', rfl, by decide⟩,
      by decide⟩, by decide, by decide, ?_⟩
  have herror : (Document.read "\x7ba'\x7d c'".toList).map (fun _ => ()) =
      .error ⟨.unterminatedMustache, 1, 0⟩ := by decide +kernel
  rw [hstart, hstop]
  cases hread : Document.read "\x7ba'\x7d c'".toList with
  | error e =>
    rw [hread] at herror
    cases herror
    exact hread
  | ok d' =>
    rw [hread] at herror
    cases herror

end MarkupIndent.Margin
