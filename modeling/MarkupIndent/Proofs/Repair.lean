import MarkupIndent.Lint.Outcome
import MarkupIndent.Proofs.LineStarts
import MarkupIndent.Proofs.Mending
import MarkupIndent.Proofs.Resolution
import MarkupIndent.Proofs.RuleOrder

/-!
# Mending a document

An analysis reports the lines that are not indented as expected, each with an edit of its margin.
Margins lie between the heads of lines, so the edits are apart from each other and from every
significant token.

* `Layout.Recorded`: what the record of a line says.
* `recordsOf_spec`: the records are those of the checked lines, in order.
* `check_spec`: the reports of an analysis come from such records.
* `edits_of_recorded`, `apart_edits`: the edits of reports are edits of margins, of different lines.
* `fix_rewrites_margins`: what mending changes, line by line.
-/

namespace MarkupIndent.Margin

open Markup Settings Text

/-! ## Records -/

/-- The record of a checked line: its head, the blanks before that, and the blanks of the
indentation that the head's chain gives. -/
structure Layout.Recorded (l : Layout) (r : LineRecord) : Prop where
  head : r.token ∈ l.graph.heads.lineHeads
  line : r.line = r.token.line
  checked : l.isChecked r.token = .ok true
  actual : l.leadingText r.token = .ok r.actual
  expected : ∃ x, l.Resolves r.token x ∧ r.expected = l.unit.render x

namespace Layout

variable {l : Layout} {root : Nat}

/-- A head of the layout is the token of an index that leads its line. -/
theorem Grounded.mem_lineHeads (hl : l.Grounded root) {t : Token}
    (ht : t ∈ l.graph.heads.lineHeads) :
    ∃ i, l.document.tokens[i]? = some t ∧ Leads l.document.tokens.toList i := by
  rw [hl.graph.heads] at ht
  exact (Margin.mem_lineHeads hl.indexed).mp ht

/-- The line of a head begins with blanks. -/
theorem Grounded.margin (hl : l.Grounded root) {t : Token} (ht : t ∈ l.graph.heads.lineHeads) :
    l.leadingText t = .ok (lastLine (l.document.text.take t.start)) ∧
      Margin (lastLine (l.document.text.take t.start)) := by
  obtain ⟨i, hi, hlead⟩ := hl.mem_lineHeads ht
  exact ⟨hl.leadingText hi, head_margin hl.tokens hi hlead⟩

/-- The line of a head begins with blanks, as a record needs. -/
theorem Grounded.beginsBlank (hl : l.Grounded root) {t : Token}
    (ht : t ∈ l.graph.heads.lineHeads) :
    ∃ blanks, l.leadingText t = .ok blanks ∧ blanks.all isBlank = true := by
  obtain ⟨hlead, hmargin⟩ := hl.margin ht
  exact ⟨_, hlead, List.all_eq_true.mpr fun c hc => (hmargin c hc).1⟩

/-- A record says what the layout gives for its line. -/
theorem recorded_of_mem (hl : l.Grounded root) {heads : List Token}
    (hh : ∀ t ∈ heads, t ∈ l.graph.heads.lineHeads) {memo : Memo} (hm : l.Known memo)
    {records : List LineRecord} (h : l.recordsOf memo heads = .ok records) :
    ∀ r ∈ records, l.Recorded r := by
  induction heads generalizing memo records with
  | nil =>
    cases h
    simp
  | cons t rest ih =>
    obtain ⟨⟨record, memo'⟩, hrecord, h⟩ := bind_eq_ok.mp h
    obtain ⟨later, hlater, h⟩ := bind_eq_ok.mp h
    cases h
    have hhead := hh t List.mem_cons_self
    have hrest := fun u hu => hh u (List.mem_cons_of_mem t hu)
    obtain ⟨blanks, hlead, hblank⟩ := hl.beginsBlank hhead
    obtain ⟨-, rfl, rfl⟩ | ⟨hchecked, x, hanswer, rfl⟩ := record?_cases hlead hblank hrecord
    · exact ih hrest hm hlater
    · obtain ⟨i, hi, -⟩ := hl.mem_lineHeads hhead
      have hti := hl.indexed i t hi
      obtain ⟨hresolves, hknown⟩ := resolveFrom_resolves hl (by rw [hti]; exact hi) hm hanswer
      intro r hr
      rcases List.mem_append.mp hr with hr | hr
      · obtain rfl := List.mem_singleton.mp hr
        exact ⟨hhead, rfl, hchecked, hlead, _, hresolves, rfl⟩
      · exact ih hrest hknown hlater r hr

/-- **The records are those of the checked lines**, in the order of their heads. -/
theorem recordsOf_spec (hl : l.Grounded root) {heads : List Token}
    (hh : ∀ t ∈ heads, t ∈ l.graph.heads.lineHeads) {memo : Memo} (hm : l.Known memo)
    {records : List LineRecord} (h : l.recordsOf memo heads = .ok records) :
    (∀ r ∈ records, l.Recorded r) ∧ (records.map LineRecord.token).Sublist heads ∧
      ∀ t ∈ heads, l.isChecked t = .ok true → ∃ r ∈ records, r.token = t := by
  have htokens := token_recordsOf (fun t ht => hl.beginsBlank (hh t ht)) h
  refine ⟨recorded_of_mem hl hh hm h, htokens ▸ List.filter_sublist, fun t ht hc => ?_⟩
  exact List.mem_map.mp (htokens ▸ List.mem_filter.mpr ⟨ht, by rw [hc]⟩)

end Layout

/-! ## Analyses -/

section Check

variable {text : List Char} {d : Document} {s : Settings} {registry : Registry}
  (hd : Document.read text = .ok d) (hr : registry.Descends)
include hd hr

/-- The layout of a document is grounded, or the document has nothing to indent. -/
theorem ofSettings_spec {l : Layout} (h : Layout.ofSettings d s registry = .ok l) :
    l.document = d ∧ l.graph.heads = .ofTokens d.tokens ∧
      ((∃ root, l.Grounded root) ∨ ∀ i, ¬ Significant d.tokens i) := by
  obtain ⟨unit, hu, h⟩ := bind_eq_ok.mp h
  split at h
  · cases h
  obtain ⟨g, hg, h⟩ := bind_eq_ok.mp h
  cases h
  refine ⟨rfl, ?_⟩
  have htext := text_of_read hd
  cases hroot : (Heads.ofTokens d.tokens).first? with
  | none =>
    simp only [OffsetGraph.build, Rules.ofSettings, hu, bind, Except.bind, hroot] at hg
    cases hg
    exact ⟨rfl, .inr fun i => first?_eq_none hroot⟩
  | some root =>
    obtain ⟨g', hg', hord, -⟩ := ordered_build hd hr hu hroot
    rw [hg] at hg'
    cases hg'
    exact ⟨hord.heads, .inl ⟨root.index, by rw [htext]; exact tokenized_of_read hd, hord⟩⟩

omit hr in
/-- The lines of a document without significant tokens have no heads. -/
theorem lineHeads_eq_nil (hnone : ∀ i, ¬ Significant d.tokens i) :
    (Heads.ofTokens d.tokens).lineHeads = [] := by
  have hx := indexed_of_tokenized (tokenized_of_read hd)
  rw [List.eq_nil_iff_forall_not_mem]
  intro t ht
  obtain ⟨i, hi, hlead⟩ := (mem_lineHeads hx).mp ht
  exact hnone i ⟨t, hi, hlead.significant hi⟩

/-- **Every document has a graph that descends**, and records over it in any unit. -/
theorem descends_build {unit : IndentUnit}
    (hu : IndentUnit.ofValue s.indentUnit s.mixedAlignment = .ok unit) :
    ∃ g, OffsetGraph.build d s registry = .ok g ∧ g.Descends d.tokens ∧
      ∀ u : IndentUnit, ∃ records, (⟨g, d, u⟩ : Layout).records = .ok records := by
  have htext := text_of_read hd
  have htok := tokenized_of_read hd
  cases hroot : (Heads.ofTokens d.tokens).first? with
  | none =>
    refine ⟨.empty (.ofTokens d.tokens), ?_, ⟨?_, ?_, ?_⟩, ?_⟩
    · simp only [OffsetGraph.build, Rules.ofSettings, hu, bind, Except.bind, hroot]
    · rw [show d.tokens.find? Token.isSignificant = none from hroot]
      rfl
    · intro i t ht _
      have hi := (Array.getElem?_eq_some_iff.mp ht).1
      simp [OffsetGraph.entry, OffsetGraph.empty, Heads.size, Heads.ofTokens, hi]
    · intro i t ht hb
      exact absurd ⟨t, ht, hb⟩ (first?_eq_none hroot)
    · intro u
      have hnil := lineHeads_eq_nil hd fun i => first?_eq_none hroot
      exact ⟨[], by simp only [Layout.records, OffsetGraph.empty, hnil, Layout.recordsOf]⟩
  | some root =>
    obtain ⟨g, hg, hord, hall⟩ := ordered_build hd hr hu hroot
    refine ⟨g, hg, descends_of_ordered hroot hord hall, fun u => ?_⟩
    exact Layout.records_ok ⟨by rw [htext]; exact htok, hord⟩

/-- Settings that mean something give a layout. -/
theorem ofSettings_ok {unit : IndentUnit}
    (hu : IndentUnit.ofValue s.indentUnit s.mixedAlignment = .ok unit)
    (hsize : d.tokens.size ≤ s.maxTokens) :
    ∃ l, Layout.ofSettings d s registry = .ok l ∧ l.unit = unit := by
  have hlimit : ¬ s.maxTokens < d.tokens.size := by omega
  cases hroot : (Heads.ofTokens d.tokens).first? with
  | none =>
    simp only [Layout.ofSettings, OffsetGraph.build, Rules.ofSettings, hu, bind, Except.bind, hroot,
      if_neg hlimit]
    exact ⟨_, rfl, rfl⟩
  | some root =>
    obtain ⟨g, hg, -⟩ := ordered_build hd hr hu hroot
    simp only [Layout.ofSettings, hu, bind, Except.bind, hg, if_neg hlimit]
    exact ⟨_, rfl, rfl⟩

/-- Settings either give a layout or are at fault. -/
theorem ofSettings_total : (∃ l, Layout.ofSettings d s registry = .ok l) ∨
    ∃ fault, Layout.ofSettings d s registry = .error fault ∧ fault.isConfiguration = true := by
  cases hu : IndentUnit.ofValue s.indentUnit s.mixedAlignment with
  | error fault =>
    refine .inr ⟨fault, by simp only [Layout.ofSettings, hu, bind, Except.bind], ?_⟩
    unfold IndentUnit.ofValue at hu
    split at hu <;> cases hu
    rfl
  | ok unit =>
    by_cases hlimit : s.maxTokens < d.tokens.size
    · refine .inr ⟨.tooManyTokens d.tokens.size s.maxTokens, ?_, rfl⟩
      simp only [Layout.ofSettings, hu, bind, Except.bind, if_pos hlimit]
    · obtain ⟨l, hl, -⟩ := ofSettings_ok hd hr hu (by omega)
      exact .inl ⟨l, hl⟩

/-- **Every layout of a document has records**, one for each checked line, in order. -/
theorem records_spec {l : Layout} (h : Layout.ofSettings d s registry = .ok l) :
    ∃ records, l.records = .ok records ∧ (∀ r ∈ records, l.Recorded r) ∧
      (records.map LineRecord.token).Sublist l.graph.heads.lineHeads ∧
      ∀ t ∈ l.graph.heads.lineHeads, l.isChecked t = .ok true → ∃ r ∈ records, r.token = t := by
  obtain ⟨hdoc, hheads, ⟨root, hl⟩ | hnone⟩ := ofSettings_spec hd hr h
  · obtain ⟨records, hrec⟩ := Layout.records_ok hl
    exact ⟨records, hrec, Layout.recordsOf_spec hl (fun t ht => ht) Layout.known_nil hrec⟩
  · have hnil : l.graph.heads.lineHeads = [] := by
      rw [hheads]
      exact lineHeads_eq_nil hd hnone
    refine ⟨[], ?_, by simp, by simp, ?_⟩
    · rw [Layout.records, hnil]
      rfl
    · rw [hnil]
      simp

/-- An analysis gives up on no document. -/
theorem check_ok : ∃ result, check d s registry = .ok result := by
  unfold check
  rcases ofSettings_total (s := s) hd hr with ⟨l, hl⟩ | ⟨fault, hf, hconf⟩
  · obtain ⟨records, hrec, -⟩ := records_spec hd hr hl
    simp only [hl, hrec, bind, Except.bind]
    exact ⟨_, rfl⟩
  · simp only [hf, hconf, if_true]
    exact ⟨_, rfl⟩

omit hd hr in
/-- The records of a layout are what an analysis goes by. -/
theorem check_of_records {l : Layout} {records : List LineRecord}
    (hl : Layout.ofSettings d s registry = .ok l) (hrecords : l.records = .ok records) :
    check d s registry =
      .ok ⟨(mismatches records).map (Mismatch.report l.unit), records.length, false⟩ := by
  simp only [check, hl, hrecords, bind, Except.bind]

omit hd hr in
/-- **The reports of an analysis** are the records that do not agree. -/
theorem check_spec {result : CheckResult} (h : check d s registry = .ok result)
    (hv : result.settingsFault = false) :
    ∃ l records, Layout.ofSettings d s registry = .ok l ∧ l.records = .ok records ∧
      result.reports = (mismatches records).map (Mismatch.report l.unit) ∧
      result.linesChecked = records.length := by
  unfold check at h
  split at h
  · split at h
    · cases h
      cases hv
    · cases h
  · next l hl =>
    obtain ⟨records, hrec, h⟩ := bind_eq_ok.mp h
    cases h
    exact ⟨l, records, hl, hrec, rfl, rfl⟩

/-- A document with a checked line has a root. -/
theorem grounded_of_recorded {l : Layout} (h : Layout.ofSettings d s registry = .ok l)
    {r : LineRecord} (hrec : l.Recorded r) : ∃ root, l.Grounded root := by
  obtain ⟨-, hheads, hl | hnone⟩ := ofSettings_spec hd hr h
  · exact hl
  · have := hrec.head
    rw [hheads, lineHeads_eq_nil hd hnone] at this
    cases this

end Check

/-! ## Edits of reports -/

/-- The mismatch of a record. -/
def LineRecord.mismatch (r : LineRecord) : Mismatch :=
  ⟨r.line, r.token, r.expected, r.actual⟩

theorem mem_mismatches {records : List LineRecord} {m : Mismatch} :
    m ∈ mismatches records ↔ ∃ r ∈ records, r.expected ≠ r.actual ∧ m = r.mismatch := by
  simp only [mismatches, List.mem_map, List.mem_filter, LineRecord.agrees, Bool.not_eq_true',
    beq_eq_false_iff_ne]
  constructor
  · rintro ⟨r, ⟨h1, h2⟩, rfl⟩
    exact ⟨r, h1, h2, rfl⟩
  · rintro ⟨r, h1, h2, rfl⟩
    exact ⟨r, ⟨h1, h2⟩, rfl⟩

theorem blanks_render (u : IndentUnit) (i : Indentation) :
    ∀ c ∈ u.render i, c = ' ' ∨ c = '\t' := by
  intro c hc
  rcases List.mem_append.mp hc with h | h
  · rw [(List.mem_replicate.mp h).2, IndentUnit.char]
    split
    · exact .inl rfl
    · exact .inr rfl
  · exact .inl (List.mem_replicate.mp h).2

/-- Where the edit of a record stands: from the beginning of its line to its head. -/
structure LineRecord.Edits (text : List Char) (r : LineRecord) (e : Edit) : Prop where
  onMargin : e.OnMargin text
  stop : e.stop = r.token.start
  width : e.stop - e.start = r.token.column
  line : e.line text = r.line
  start : (LineTable.ofText text).start? r.line = some e.start.toNat
  margin : Margin ((text.take r.token.start).drop e.start.toNat)

/-- **The edit of a record replaces the margin of its line.** -/
theorem edits_of_recorded {l : Layout} {root : Nat} (hl : l.Grounded root) {r : LineRecord}
    (hr : l.Recorded r) : r.Edits l.document.text r.mismatch.edit := by
  obtain ⟨i, hi, -⟩ := hl.mem_lineHeads hr.head
  obtain ⟨hlead, hmargin⟩ := hl.margin hr.head
  have hat := hl.tokens.token i _ hi
  have hlt := hat.lt
  have hle := hat.le
  have hstart := line?_of_tokenAt hat
  have hactual : r.actual = lastLine (l.document.text.take r.token.start) := by
    have := hr.actual
    rw [hlead] at this
    exact (Except.ok.inj this).symm
  obtain ⟨before, hsplit, hbefore⟩ := exists_eq_append_lastLine (l.document.text.take r.token.start)
  obtain ⟨x, -, hexpected⟩ := hr.expected
  have hlen := congrArg List.length hsplit
  rw [List.length_append, List.length_take, Nat.min_eq_left (by omega)] at hlen
  have hlast : lastLine before = [] := by
    rcases hbefore with rfl | ⟨a, rfl⟩ <;> simp
  have he : r.mismatch.edit = ⟨before.length, r.token.start, r.expected⟩ := by
    simp only [Mismatch.edit, LineRecord.mismatch, hactual, Edit.mk.injEq, and_true]
    omega
  have htake : l.document.text.take before.length = before := by
    have := congrArg (List.take before.length) hsplit
    rwa [List.take_take, Nat.min_eq_left (by omega), List.take_left' rfl] at this
  have hcount := congrArg (List.count '\n') hsplit
  rw [List.count_append, List.count_eq_zero.mpr hmargin.newline_not_mem, Nat.add_zero] at hcount
  rw [he]
  refine ⟨⟨⟨before, _, l.document.text.drop r.token.start, ?_, hlast, rfl, ?_, hmargin⟩, ?_⟩, rfl,
    ?_, ?_, ?_, ?_⟩
  · rw [← List.append_assoc, ← hsplit, List.take_append_drop]
  · simp only
    omega
  · rw [hexpected]
    exact blanks_render _ _
  · simp only [hat.column]
    omega
  · rw [Edit.line, Int.toNat_natCast, htake, hr.line, hat.line, hcount]
  · rw [LineTable.start?, hr.line, hstart, Option.map_some, Int.toNat_natCast]
    refine congrArg some ?_
    show r.token.start - (lastLine (l.document.text.take r.token.start)).length = before.length
    omega
  · rw [Int.toNat_natCast, hsplit, List.drop_left' rfl]
    exact hmargin

/-- The edits of records are those of different lines, in the order of the text. -/
theorem apart_edits {l : Layout} {records : List LineRecord}
    (hl : ∀ r ∈ records, ∃ root, l.Grounded root) (hrec : ∀ r ∈ records, l.Recorded r)
    (hsub : (records.map LineRecord.token).Sublist l.graph.heads.lineHeads) :
    records.Pairwise fun a b => a.line < b.line ∧ a.mismatch.edit.stop < b.mismatch.edit.start := by
  by_cases hnil : records = []
  · rw [hnil]
    exact .nil
  obtain ⟨q, hq⟩ := List.exists_mem_of_ne_nil records hnil
  obtain ⟨root, hl⟩ := hl q hq
  have hord := lineHeads_ordered hl.tokens
  rw [← hl.graph.heads] at hord
  have hpair := List.pairwise_map.mp (hord.sublist hsub)
  refine hpair.imp_of_mem fun {a b} ha hb hab => ?_
  have ha' := hrec a ha
  have hb' := hrec b hb
  obtain ⟨i, hi, -⟩ := hl.mem_lineHeads ha'.head
  have hline := line_le_endLine a.token
  have hea := edits_of_recorded hl ha'
  have heb := edits_of_recorded hl hb'
  refine ⟨by rw [ha'.line, hb'.line]; omega, ?_⟩
  obtain ⟨before, w, after, htext, -, hstart, -⟩ := heb.onMargin.slice
  have hcount : (l.document.text.take a.token.start).count '\n' <
      (l.document.text.take before.length).count '\n' := by
    have h1 := heb.line
    rw [Edit.line, hstart, Int.toNat_natCast, hb'.line] at h1
    have h2 := (hl.tokens.token i _ hi).line
    omega
  have := lt_of_count_lt hcount
  rw [hea.stop, hstart]
  omega

/-- The edits of reports are those of their records. -/
theorem edits_reports (unit : IndentUnit) (records : List LineRecord) :
    ((mismatches records).map (Mismatch.report unit)).flatMap Report.edits =
      (records.filter fun r => !r.agrees).map fun r => r.mismatch.edit := by
  rw [mismatches, List.map_map, List.flatMap_map]
  exact List.map_eq_flatMap.symm

theorem mem_edits {result : CheckResult} {unit : IndentUnit} {records : List LineRecord}
    (h : result.reports = (mismatches records).map (Mismatch.report unit)) {e : Edit} :
    e ∈ result.edits ↔ ∃ r ∈ records, r.expected ≠ r.actual ∧ e = r.mismatch.edit := by
  rw [CheckResult.edits, h, edits_reports]
  simp only [List.mem_map, List.mem_filter, LineRecord.agrees, Bool.not_eq_true',
    beq_eq_false_iff_ne, and_assoc, eq_comm (a := e)]

theorem nodup_edits {l : Layout} {records : List LineRecord}
    (hl : ∀ r ∈ records, ∃ root, l.Grounded root) (hrec : ∀ r ∈ records, l.Recorded r)
    (hsub : (records.map LineRecord.token).Sublist l.graph.heads.lineHeads) :
    (((mismatches records).map (Mismatch.report l.unit)).flatMap Report.edits).Nodup := by
  rw [edits_reports]
  refine List.pairwise_map.mpr ?_
  refine ((apart_edits hl hrec hsub).sublist List.filter_sublist).imp_of_mem
    fun {a b} ha hb h heq => ?_
  obtain ⟨root, hroot⟩ := hl b (List.mem_of_mem_filter hb)
  have hb := edits_of_recorded hroot (hrec b (List.mem_of_mem_filter hb))
  obtain ⟨before, w, after, -, -, h1, h2, -⟩ := hb.onMargin.slice
  rw [heq] at h
  omega

/-! ## Mending -/

section Edits

variable {l : Layout} {records : List LineRecord} (hl : ∀ r ∈ records, ∃ root, l.Grounded root)
  (hrec : ∀ r ∈ records, l.Recorded r)
  (hsub : (records.map LineRecord.token).Sublist l.graph.heads.lineHeads) {es : List Edit}
  (hes : ∀ e ∈ es, ∃ r ∈ records, e = r.mismatch.edit)
include hl hrec hes

/-- The edits of records are edits of margins. -/
theorem onMargin_records : ∀ e ∈ es, e.OnMargin l.document.text := by
  intro e he
  obtain ⟨r, hr, rfl⟩ := hes e he
  obtain ⟨root, hroot⟩ := hl r hr
  exact (edits_of_recorded hroot (hrec r hr)).onMargin

include hsub

/-- Different edits of records are apart from each other. -/
theorem apart_records : ∀ a ∈ es, ∀ b ∈ es, a ≠ b → a.stop < b.start ∨ b.stop < a.start := by
  intro a ha b hb hab
  obtain ⟨r, hr, rfl⟩ := hes a ha
  obtain ⟨q, hq, rfl⟩ := hes b hb
  have hne : r ≠ q := fun h => hab (h ▸ rfl)
  rcases mem_order (apart_edits hl hrec hsub) hr hq hne with h | h
  · exact .inl h.2
  · exact .inr h.2

/-- An edit is told apart by where it begins. -/
theorem unique_records : ∀ a ∈ es, ∀ b ∈ es, a.start = b.start → a = b := by
  have hle : ∀ e ∈ es, e.start ≤ e.stop := by
    intro e he
    obtain ⟨before, w, after, -, -, h1, h2, -⟩ := (onMargin_records hl hrec hes e he).slice
    omega
  intro a ha b hb hab
  by_contra hne
  have := hle a ha
  have := hle b hb
  rcases apart_records hl hrec hsub hes a ha b hb hne with h | h <;> omega

/-- The edits of a document, any of them: they can be carried out in any order, and then each line
with an edit has another margin. -/
theorem applyEdits_records (hnodup : es.Nodup) :
    ∃ fixed, applyEdits l.document.text es = .ok fixed ∧
      Mended es (-1) ('\n' :: l.document.text) ('\n' :: fixed) ∧
      fixed.splitOn '\n' = (l.document.text.splitOn '\n').mapIdx fun n line =>
        mendLine es l.document.text (n + 1) line := by
  have hon := onMargin_records hl hrec hes
  have hapart := apart_records hl hrec hsub hes
  have hunique := unique_records hl hrec hsub hes
  obtain ⟨fixed, h1, h2⟩ := applyEdits_mended hon hapart hnodup
  refine ⟨fixed, h1, h2, ?_⟩
  obtain ⟨first, rest, h3, h4⟩ := splitOn_mended hon hunique h2 (x := []) rfl (by simp)
  rw [splitOn_newline] at h3 h4
  obtain ⟨rfl, rfl⟩ := List.cons_eq_cons.mp h3
  have := (List.cons_eq_cons.mp h4).2
  rw [this]
  congr 1
  funext n line
  congr 1
  rw [List.count_nil]
  omega

end Edits

/-- **Mending rewrites margins and nothing else.** With settings that mean something, every report
has one edit, from the beginning of its line to the head of the line, of blanks by spaces and tabs.
Any of these edits can be carried out, in any order: a line with an edit is then the expected blanks
and the rest of the line from its head on, and every other line is as it was. -/
theorem fix_rewrites_margins {text : List Char} {d : Document} {s : Settings} {unit : IndentUnit}
    (hd : Document.read text = .ok d)
    (hu : IndentUnit.ofValue s.indentUnit s.mixedAlignment = .ok unit)
    (hsize : d.tokens.size ≤ s.maxTokens) :
    ∃ result l, check d s .default = .ok result ∧ Layout.ofSettings d s .default = .ok l ∧
      result.reports.Pairwise (fun a b => a.location.line < b.location.line) ∧
      (∀ r ∈ result.reports, ∃ (head : Token) (start : Nat) (e : Edit) (x : Indentation),
        head ∈ (Heads.ofTokens d.tokens).lineHeads ∧ head.line = r.location.line ∧
        d.lines.start? r.location.line = some start ∧ r.edits = [e] ∧
        e.start = start ∧ e.stop = head.start ∧
        (∀ c ∈ (text.take head.start).drop start, isBlank c = true ∧ c ≠ '\n') ∧
        (∀ c ∈ e.text, c = ' ' ∨ c = '\t') ∧
        l.Resolves head x ∧ e.text = unit.render x) ∧
      result.edits.Nodup ∧
      ∀ es : List Edit, es.Nodup → es ⊆ result.edits → ∃ fixed, applyEdits text es = .ok fixed ∧
        (fixed.splitOn '\n').length = (text.splitOn '\n').length ∧
        ∀ (n : Nat) (line : List Char), (text.splitOn '\n')[n]? = some line →
          ∃ line', (fixed.splitOn '\n')[n]? = some line' ∧
            ((∀ r ∈ result.reports, r.location.line = n + 1 → ∀ e ∈ r.edits, e ∉ es) →
              line' = line) ∧
            ∀ r ∈ result.reports, r.location.line = n + 1 → ∀ e ∈ r.edits, e ∈ es →
              ∀ head ∈ (Heads.ofTokens d.tokens).lineHeads, head.line = n + 1 →
                line' = e.text ++ line.drop head.column := by
  obtain ⟨l, hl, rfl⟩ := ofSettings_ok hd descends_default hu hsize
  obtain ⟨records, hrecords, hrec, hsub, -⟩ := records_spec hd descends_default hl
  obtain ⟨hdoc, hheads, -⟩ := ofSettings_spec hd descends_default hl
  have htext : d.text = text := by
    obtain ⟨-, -, -, h, -⟩ := grow_of_read hd
    exact h
  subst htext
  subst hdoc
  have hgr : ∀ r ∈ records, ∃ root, l.Grounded root := fun r hr =>
    grounded_of_recorded hd descends_default hl (hrec r hr)
  have hpair := apart_edits hgr hrec hsub
  have hedits : ∀ r ∈ (mismatches records).map (Mismatch.report l.unit),
      ∃ q ∈ records, r.edits = [q.mismatch.edit] ∧ r.location.line = q.line := by
    intro r hr
    obtain ⟨m, hm, rfl⟩ := List.mem_map.mp hr
    obtain ⟨q, hq, -, rfl⟩ := mem_mismatches.mp hm
    exact ⟨q, hq, rfl, rfl⟩
  refine ⟨⟨(mismatches records).map (Mismatch.report l.unit), records.length, false⟩, l, ?_, hl,
    ?_, ?_, nodup_edits hgr hrec hsub, ?_⟩
  · simp only [check, hl, hrecords, bind, Except.bind]
  · refine List.pairwise_map.mpr (List.pairwise_map.mpr ?_)
    exact (hpair.sublist List.filter_sublist).imp fun h => h.1
  · intro r hr
    obtain ⟨q, hq, he, hline⟩ := hedits r hr
    obtain ⟨root, hroot⟩ := hgr q hq
    have hq' := hrec q hq
    obtain ⟨x, hx, hexpected⟩ := hq'.expected
    have hspec := edits_of_recorded hroot hq'
    obtain ⟨before, w, after, -, -, hstart, -⟩ := hspec.onMargin.slice
    refine ⟨q.token, q.mismatch.edit.start.toNat, q.mismatch.edit, x, ?_, ?_, ?_, he, by omega,
      hspec.stop, hspec.margin, hspec.onMargin.blanks, hx, hexpected⟩
    · rw [← hheads]
      exact hq'.head
    · rw [hline, hq'.line]
    · rw [hline, l.document.lines_eq]
      exact hspec.start
  · intro es hnodup hsubset
    have hes : ∀ e ∈ es, ∃ r ∈ (mismatches records).map (Mismatch.report l.unit), e ∈ r.edits ∧
        ∃ q ∈ records, e = q.mismatch.edit ∧ r.location.line = q.line ∧
          e.line l.document.text = q.line := by
      intro e he
      obtain ⟨r, hr, her⟩ := List.mem_flatMap.mp (hsubset he)
      obtain ⟨q, hq, hqe, hline⟩ := hedits r hr
      obtain ⟨root, hroot⟩ := hgr q hq
      obtain rfl : e = q.mismatch.edit := List.mem_singleton.mp (hqe ▸ her)
      exact ⟨r, hr, her, q, hq, rfl, hline, (edits_of_recorded hroot (hrec q hq)).line⟩
    obtain ⟨fixed, h1, -, h2⟩ := applyEdits_records hgr hrec hsub
      (fun e he => by
        obtain ⟨-, -, -, q, hq, heq, -⟩ := hes e he
        exact ⟨q, hq, heq⟩) hnodup
    refine ⟨fixed, h1, by rw [h2, List.length_mapIdx], fun n line hline => ?_⟩
    refine ⟨mendLine es l.document.text (n + 1) line, ?_, ?_, ?_⟩
    · rw [h2, List.getElem?_mapIdx, hline, Option.map_some]
    · intro hnone
      refine mendLine_of_none (fun e he heline => ?_) line
      obtain ⟨r, hr, her, q, -, -, hrq, hq⟩ := hes e he
      exact hnone r hr (by omega) e her he
    · intro r hr hrline e her he head hhead hheadline
      obtain ⟨q, hq, hqe, hqline⟩ := hedits r hr
      obtain ⟨root, hroot⟩ := hgr q hq
      have hspec := edits_of_recorded hroot (hrec q hq)
      obtain rfl : e = q.mismatch.edit := List.mem_singleton.mp (hqe ▸ her)
      have hhq : head = q.token := by
        have hqhead := (hrec q hq).head
        rw [hheads] at hqhead
        have hql := (hrec q hq).line
        exact head_unique hroot.tokens hhead hqhead (by omega)
      rw [mendLine_of_mem he (by rw [hspec.line]; omega), hspec.width, hhq, Int.toNat_natCast]
      -- The line has one edit only.
      intro f hf hfline
      obtain ⟨-, -, -, q', hq', hfq, -, hline'⟩ := hes f hf
      rw [hfq]
      by_contra hne
      have hne : q' ≠ q := fun h => hne (h ▸ rfl)
      rcases mem_order hpair hq' hq hne with h | h <;> omega

/-- A list with a tab, too many blanks and none at all: its edits can be carried out backwards. -/
theorem fix_rewrites_margins_list :
    ∃ (d : Document) (result : CheckResult) (fixed : List Char),
      Document.read "<ul>\n\t<li>\na</li>\n      <br/>\n</ul>".toList = .ok d ∧
      IndentUnit.ofValue (.int 2) false = .ok ⟨.spaces 2, false⟩ ∧
      (d.tokens.size : Int) ≤ Settings.defaultMaxTokens ∧ check d {} .default = .ok result ∧
      applyEdits "<ul>\n\t<li>\na</li>\n      <br/>\n</ul>".toList result.edits.reverse =
        .ok fixed ∧
      (fixed.splitOn '\n').length =
        ("<ul>\n\t<li>\na</li>\n      <br/>\n</ul>".toList.splitOn '\n').length := by
  cases hd : Document.read "<ul>\n\t<li>\na</li>\n      <br/>\n</ul>".toList with
  | error e =>
    have h : (Document.read "<ul>\n\t<li>\na</li>\n      <br/>\n</ul>".toList).isOk = true := by
      decide +kernel
    rw [hd] at h
    cases h
  | ok d =>
    have hsize : (Document.read "<ul>\n\t<li>\na</li>\n      <br/>\n</ul>".toList).map
        (fun d => d.tokens.size) = .ok 20 := by decide +kernel
    rw [hd] at hsize
    have hsize : d.tokens.size = 20 := Except.ok.inj hsize
    have hlimit : (d.tokens.size : Int) ≤ Settings.defaultMaxTokens := by
      rw [hsize]
      decide
    obtain ⟨result, l, hc, -, -, -, hnodup, hes⟩ :=
      fix_rewrites_margins (s := {}) hd rfl hlimit
    obtain ⟨fixed, hfixed, hlines, -⟩ := hes result.edits.reverse
      ((List.reverse_perm _).nodup_iff.mpr hnodup) fun e he => List.mem_reverse.mp he
    exact ⟨d, result, fixed, rfl, rfl, hlimit, hc, hfixed, hlines⟩

end MarkupIndent.Margin
