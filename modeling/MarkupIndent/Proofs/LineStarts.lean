import MarkupIndent.Proofs.LineHeads

/-!
# Clean beginnings of lines

A line begins cleanly if it has a significant token and no significant token from before touches it
or a later line. In a document that was read, the heads are the tokens at these beginnings: the
lines of heads increase, a token has the last head at or before it, and before a head stand only
blanks of its line. So the record of a checked line is never left out for what the line begins with.

* `StartsLine`: a clean beginning; `leads_iff_startsLine`: heads are these.
* `getLast?_lineHeads`, `eq_of_governs`: the head of a token is the last one up to it, and that of
  its own line if there is one.
* `record?_of_checked`, `record?_cases`: the record of a head; `token_recordsOf`: those of a run.
* `Document.Headed`, `headed_of_read`: **heads are the clean beginnings of lines.**
-/

namespace MarkupIndent.Margin

open Markup Text

/-- The token of an index is significant, and no significant token before it begins or ends on its
line or on a later one. -/
structure StartsLine (tokens : Array Token) (i : Nat) (t : Token) : Prop where
  significant : t.isBlank = false
  clean : ∀ (j : Nat) (u : Token), j < i → tokens[j]? = some u → u.isBlank = false →
    u.line < t.line ∧ u.endLine < t.line

/-- Heads are the tokens at clean beginnings. -/
theorem leads_iff_startsLine {tokens : Array Token} {i : Nat} {t : Token}
    (ht : tokens[i]? = some t) : Leads tokens.toList i ↔ StartsLine tokens i t := by
  constructor
  · rintro ⟨t', ht', hb, hall⟩
    rw [Array.getElem?_toList, ht] at ht'
    obtain rfl := Option.some.inj ht'
    refine ⟨hb, fun j u hj hu hub => ?_⟩
    have hend := hall j u hj (by rwa [Array.getElem?_toList]) hub
    exact ⟨Nat.lt_of_le_of_lt (line_le_endLine u) hend, hend⟩
  · rintro ⟨hb, hclean⟩
    refine ⟨t, by rwa [Array.getElem?_toList], hb, fun j u hj hu hub => ?_⟩
    exact (hclean j u hj (by rwa [Array.getElem?_toList] at hu) hub).2

section Heads

variable {text : List Char} {tokens : Array Token} (h : Tokenized text text.length tokens)
include h

/-- **The head of a token is the last one up to it.** -/
theorem getLast?_lineHeads {g i : Nat} {head : Token} (hg : tokens[g]? = some head)
    (hgov : Governs tokens.toList g i) :
    ((Heads.ofTokens tokens).lineHeads.filter (·.index ≤ i)).getLast? = some head := by
  have hx := indexed_of_tokenized h
  have hmem : head ∈ (Heads.ofTokens tokens).lineHeads.filter (·.index ≤ i) :=
    List.mem_filter.mpr ⟨(mem_lineHeads hx).mpr ⟨g, hg, hgov.leads⟩,
      decide_eq_true (hx g head hg ▸ hgov.le)⟩
  obtain ⟨last, hlast⟩ :=
    Option.isSome_iff_exists.mp (List.getLast?_isSome.mpr (List.ne_nil_of_mem hmem))
  obtain ⟨earlier, hsplit⟩ := List.getLast?_eq_some_iff.mp hlast
  rw [hlast]
  have hordered := (lineHeads_ordered h).filter (·.index ≤ i)
  rw [hsplit] at hmem hordered
  rcases List.mem_append.mp hmem with hbefore | hsame
  · -- A later head up to the token would govern it.
    have hlines := (List.pairwise_append.mp hordered).2.2 head hbefore last List.mem_cons_self
    have hup : last ∈ (Heads.ofTokens tokens).lineHeads.filter (·.index ≤ i) := by
      rw [hsplit]
      exact List.mem_append_right _ List.mem_cons_self
    obtain ⟨hhead, hle⟩ := List.mem_filter.mp hup
    obtain ⟨j, hj, hleads⟩ := (mem_lineHeads hx).mp hhead
    have hji : j ≤ i := hx j last hj ▸ of_decide_eq_true hle
    have hjg : j ≤ g := Nat.le_of_not_lt fun hlt => hgov.last j hlt hji hleads
    have hline := line_le_of_le h hjg hj hg
    have := line_le_endLine head
    omega
  · rw [List.mem_singleton.mp hsame]

/-- The head of a line governs the significant tokens that begin on the line. -/
theorem eq_of_governs {g i : Nat} {t head other : Token} (ht : tokens[i]? = some t)
    (hb : t.isBlank = false) (hg : tokens[g]? = some head) (hgov : Governs tokens.toList g i)
    (hother : other ∈ (Heads.ofTokens tokens).lineHeads) (hline : other.line = t.line) :
    other = head := by
  have hhead := (mem_lineHeads (indexed_of_tokenized h)).mpr ⟨g, hg, hgov.leads⟩
  exact head_unique h hother hhead (hline.trans (line_of_governs h ht hb hg hgov hother hline).symm)

end Heads

/-! ## Records -/

namespace Layout

variable {l : Layout}

/-- **A checked head behind blanks has its record**, unless its indentation cannot be resolved. -/
theorem record?_of_checked {head : Token} {blanks : List Char}
    (hchecked : l.isChecked head = .ok true) (hlead : l.leadingText head = .ok blanks)
    (hblank : blanks.all isBlank = true) (memo : Memo) : l.record? memo head =
      (l.resolve memo head).map fun (i, memo) =>
        (some ⟨head.line, head, l.unit.render i, blanks⟩, memo) := by
  simp only [record?, hchecked, hlead, hblank, bind, Except.bind, if_true]
  cases l.resolve memo head <;> rfl

/-- What the record of a head behind blanks can be. -/
theorem record?_cases {memo memo' : Memo} {head : Token} {blanks : List Char}
    {record : Option LineRecord} (hlead : l.leadingText head = .ok blanks)
    (hblank : blanks.all isBlank = true) (h : l.record? memo head = .ok (record, memo')) :
    (l.isChecked head = .ok false ∧ record = none ∧ memo' = memo) ∨
    (l.isChecked head = .ok true ∧ ∃ i, l.resolve memo head = .ok (i, memo') ∧
      record = some ⟨head.line, head, l.unit.render i, blanks⟩) := by
  obtain ⟨checked, hchecked, -⟩ := bind_eq_ok.mp h
  cases checked with
  | false =>
    simp only [record?, hchecked, bind, Except.bind, Bool.false_eq_true, if_false] at h
    cases h
    exact .inl ⟨hchecked, rfl, rfl⟩
  | true =>
    rw [record?_of_checked hchecked hlead hblank] at h
    cases hanswer : l.resolve memo head with
    | error fault =>
      rw [hanswer] at h
      cases h
    | ok answer =>
      rw [hanswer] at h
      cases h
      exact .inr ⟨hchecked, answer.1, rfl, rfl⟩

/-- **The records of heads behind blanks are those of the checked ones**, in order. -/
theorem token_recordsOf {heads : List Token}
    (hlead : ∀ head ∈ heads, ∃ blanks, l.leadingText head = .ok blanks ∧ blanks.all isBlank = true)
    {memo : Memo} {records : List LineRecord} (h : l.recordsOf memo heads = .ok records) :
    records.map LineRecord.token = heads.filter fun head => l.isChecked head matches .ok true := by
  induction heads generalizing memo records with
  | nil =>
    cases h
    rfl
  | cons head rest ih =>
    obtain ⟨⟨record, memo'⟩, hrecord, h⟩ := bind_eq_ok.mp h
    obtain ⟨later, hlater, h⟩ := bind_eq_ok.mp h
    cases h
    have hrest := ih (fun other ho => hlead other (List.mem_cons_of_mem head ho)) hlater
    obtain ⟨blanks, hblanks, hall⟩ := hlead head List.mem_cons_self
    obtain ⟨hchecked, rfl, -⟩ | ⟨hchecked, i, -, rfl⟩ := record?_cases hblanks hall hrecord
    · simp [hchecked, hrest]
    · simp [hchecked, hrest]

end Layout

/-! ## Documents -/

end MarkupIndent.Margin

namespace MarkupIndent.Markup

open Margin Text

/-- The heads of a document are its clean beginnings of lines, on increasing lines. A significant
token has the last head up to it, and it is the head of its own line if there is one. Before a head
stand only blanks of its line, so the records of a layout of the document are those of its checked
heads. -/
structure Document.Headed (d : Document) : Prop where
  mem_lineHeads : ∀ t : Token, t ∈ (Heads.ofTokens d.tokens).lineHeads ↔
    ∃ i, d.tokens[i]? = some t ∧ StartsLine d.tokens i t
  increasing : (Heads.ofTokens d.tokens).lineHeads.Pairwise fun a b => a.line < b.line
  headOf : ∀ (i : Nat) (t : Token), d.tokens[i]? = some t → t.isBlank = false →
    ∃ head, (Heads.ofTokens d.tokens).headOf t = .ok head ∧
      ((Heads.ofTokens d.tokens).lineHeads.filter (·.index ≤ t.index)).getLast? = some head ∧
      ∀ other ∈ (Heads.ofTokens d.tokens).lineHeads, other.line = t.line → other = head
  leadingText : ∀ head ∈ (Heads.ofTokens d.tokens).lineHeads,
    ∃ blanks, d.leadingText? head = some blanks ∧ Margin blanks
  records : ∀ l : Layout, l.document = d → l.graph.heads = .ofTokens d.tokens →
    (∀ head ∈ l.graph.heads.lineHeads, l.isChecked head = .ok true → ∀ memo,
      ∃ blanks, l.record? memo head = (l.resolve memo head).map fun (i, memo) =>
        (some ⟨head.line, head, l.unit.render i, blanks⟩, memo)) ∧
    ∀ records, l.records = .ok records → records.map LineRecord.token =
      l.graph.heads.lineHeads.filter fun head => l.isChecked head matches .ok true

/-- **Heads are the clean beginnings of lines**, in every document that was read, and nothing but
blanks stands before them. -/
theorem headed_of_read {text : List Char} {d : Document} (h : Document.read text = .ok d) :
    d.Headed := by
  have htokens := tokenized_of_read h
  obtain rfl := text_of_read h
  have hx := indexed_of_tokenized htokens
  have hlead : ∀ head ∈ (Heads.ofTokens d.tokens).lineHeads,
      ∃ blanks, d.leadingText? head = some blanks ∧ Margin blanks := by
    intro head hhead
    obtain ⟨i, hi, hleads⟩ := (mem_lineHeads hx).mp hhead
    exact ⟨_, leadingText?_eq (htokens.token i head hi), head_margin htokens hi hleads⟩
  refine ⟨fun t => ?_, ?_, fun i t ht hb => ?_, hlead, fun l hl hheads => ?_⟩
  · rw [mem_lineHeads hx]
    exact exists_congr fun i => and_congr_right leads_iff_startsLine
  · exact (lineHeads_ordered htokens).imp fun {a} _ hline =>
      Nat.lt_of_le_of_lt (line_le_endLine a) hline
  · obtain ⟨g, head, hhead, hg, hgov⟩ := headOf_spec hx ht hb
    exact ⟨head, hhead, hx i t ht ▸ getLast?_lineHeads htokens hg hgov,
      fun other => eq_of_governs htokens ht hb hg hgov⟩
  · have hblanks : ∀ head ∈ l.graph.heads.lineHeads,
        ∃ blanks, l.leadingText head = .ok blanks ∧ blanks.all isBlank = true := by
      intro head hhead
      obtain ⟨blanks, hread, hmargin⟩ := hlead head (hheads ▸ hhead)
      rw [← hl] at hread
      exact ⟨blanks, by rw [Layout.leadingText, hread],
        List.all_eq_true.mpr fun c hc => (hmargin c hc).1⟩
    refine ⟨fun head hhead hchecked memo => ?_, fun records => Layout.token_recordsOf hblanks⟩
    obtain ⟨blanks, hread, hall⟩ := hblanks head hhead
    exact ⟨blanks, Layout.record?_of_checked hchecked hread hall memo⟩

/-- A comment and a string over two lines each, and a no-break space behind a line end, which makes
a token of its own: the lines behind them have no head. -/
theorem headed_of_read_ragged :
    ∃ d : Document,
      Document.read "<!-- a\n b --> <p\n  x=\x7b`1\n2`\x7d>\n\u00a0 hi\n</p>\n".toList = .ok d ∧
      (Heads.ofTokens d.tokens).lineHeads.map Token.line = [1, 3, 6] ∧ d.Headed := by
  obtain ⟨d, hd⟩ := exists_of_isOk (show (Document.read
    "<!-- a\n b --> <p\n  x=\x7b`1\n2`\x7d>\n\u00a0 hi\n</p>\n".toList).isOk = true by
      decide +kernel)
  have hlines : (Document.read
      "<!-- a\n b --> <p\n  x=\x7b`1\n2`\x7d>\n\u00a0 hi\n</p>\n".toList).map
      (fun d => (Heads.ofTokens d.tokens).lineHeads.map Token.line) = .ok [1, 3, 6] := by
    decide +kernel
  rw [hd] at hlines
  exact ⟨d, hd, Except.ok.inj hlines, headed_of_read hd⟩

end MarkupIndent.Markup
