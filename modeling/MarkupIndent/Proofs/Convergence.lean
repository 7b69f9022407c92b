import MarkupIndent.Proofs.MarginEdits
import MarkupIndent.Proofs.Reanalysis

/-!
# Mending once is enough

A mended text is read again over tokens of each other, its graph has the same entries, so its heads
are expected to stand where the edits have put them. For this the edits have to leave every line its
head: blanks that are put right behind a significant token become part of the token, which then
reaches the line. Only text of white space other than spaces, tabs and line ends is such a token.

* `remargined_of_mended`: a mended text is read again, without the blanks before the root.
* `margin_of_recorded`, `margin_of_unchecked`: what becomes of the margin of a line.
* `Layout.Mended`: a layout and that of the mended text; `Layout.Mended.twin`.
* `Layout.Mended.agrees`: every line of the mended text agrees.
* `clear_of_plain`: where all white space is plain, no edit takes a line its head.
* `check_mended`: what an analysis of the mended text finds; `fix_settles`: what mending it does.
-/

namespace MarkupIndent.Margin

open Markup Settings Text

/-! ## Reading again -/

/-- The edit of the first line takes away all blanks before the root, if there are any. -/
def Flush (es : List Edit) : Prop :=
  ∀ e ∈ es, e.start = 0 → e.text = [] ∧ e.stop ≠ 0

theorem beginning_of_leadingText (m : Nat) :
    Beginning 1 (leadingText (m + 1)) (leadingText m) := by
  cases m with
  | zero => exact .gone
  | succ l => exact .shorter l

section Read

variable {es : List Edit} {source mended : List Char} {d : Document}
  (hd : Document.read source = .ok d) (hes : HeadEdits d es)
include hd hes

/-- A head that stands behind blanks at the beginning of a text is its second token, and nothing
that is significant stands before it. -/
theorem second_of_margin {e : Edit} (he : e ∈ es) (hstart : e.start = 0) {w a : List Char}
    (hsource : source = w ++ a) (hw : Margin w) (hne : w ≠ []) (hstop : e.stop = w.length) :
    (∀ c, a.head? = some c → Text.isBlank c = false) ∧
      (∀ t, d.tokens[0]? = some t → t.isBlank = true) ∧
      ∃ h, d.tokens[1]? = some h ∧ h.isBlank = false := by
  obtain rfl := text_of_read hd
  have htok := tokenized_of_read hd
  obtain ⟨j, h, hj, hlead, hhead, hwidth⟩ := hes.head e he
  have hah := htok.token j h hj
  have hpos := List.length_pos_of_ne_nil hne
  have hblank : ∀ c ∈ w ++ a.takeWhile Text.isBlank, Text.isBlank c = true := by
    intro c hc
    exact (List.mem_append.mp hc).elim (fun hc => (hw c hc).1) List.mem_takeWhile_imp
  have hrest : ∀ c, (a.dropWhile Text.isBlank).head? = some c → Text.isBlank c = false := by
    intro c hc
    have := List.head?_dropWhile_not Text.isBlank a
    rw [hc] at this
    simpa using this
  have hsplit : w ++ a = (w ++ a.takeWhile Text.isBlank) ++ a.dropWhile Text.isBlank := by
    rw [List.append_assoc, List.takeWhile_append_dropWhile]
  obtain ⟨t, ht, htstart, htstop⟩ := first_of_margin hblank hrest
    (by rw [← hsplit, ← hsource]; exact hd) (by simp [hne])
  rw [List.length_append] at htstop
  have hat := htok.token 0 t ht
  -- The head comes after the token that the text begins with, and right after it.
  have hj0 : j ≠ 0 := by
    rintro rfl
    rw [ht] at hj
    obtain rfl := Option.some.inj hj
    omega
  have hord := htok.ordered 0 j t h (by omega) ht hj
  have hnil : a.takeWhile Text.isBlank = [] := List.length_eq_zero_iff.mp (by omega)
  have hj1 : j = 1 := by
    by_contra hj1
    obtain ⟨u, hu⟩ : ∃ u, d.tokens[1]? = some u := by
      have := (Array.getElem?_eq_some_iff.mp hj).1
      exact ⟨_, Array.getElem?_eq_getElem (show 1 < d.tokens.size by omega)⟩
    have h1 := htok.ordered 0 1 t u (by omega) ht hu
    have h2 := htok.ordered 1 j u h (by omega) hu hj
    have := (htok.token 1 u hu).lt
    omega
  subst hj1
  refine ⟨?_, ?_, h, hj, hlead.significant hj⟩
  · have := List.takeWhile_append_dropWhile (p := Text.isBlank) (l := a)
    rw [hnil, List.nil_append] at this
    rwa [this] at hrest
  · intro u hu
    rw [ht] at hu
    obtain rfl := Option.some.inj hu
    by_contra hb
    obtain ⟨v, hv, -, hall⟩ := hlead
    rw [Array.getElem?_toList, hj] at hv
    obtain rfl := Option.some.inj hv
    have hbefore := hall 0 t (by omega) (by rwa [Array.getElem?_toList]) (by simpa using hb)
    -- The head stands on the first line.
    have hline : h.line = 1 := by
      have hw0 : (d.text.take h.start).count '\n' = 0 := by
        rw [hsource, List.take_left' (by omega)]
        exact List.count_eq_zero.mpr hw.newline_not_mem
      rw [hah.line, hw0]
    have := line_le_endLine t
    have := hat.line
    omega

/-- **A mended text is read again**, over the tokens of the text but for the blanks before the
root. -/
theorem remargined_of_mended (hflush : Flush es)
    (h : Mended es (-1) ('\n' :: source) ('\n' :: mended)) :
    ∃ d' k base base', Document.read mended = .ok d' ∧ Beginning k base base' ∧
      SameNodes k base base' d d' ∧ Remargined es k d d' ∧
      (k = 1 → ∀ root, (Heads.ofTokens d.tokens).first? = some root → root.index = 1) := by
  have hall : ∀ {d' : Document} {k : Nat} {base base' : List Node},
      Document.read mended = .ok d' → Regrown (Kin es source mended) k 0 base base' d d' →
      (∀ (i : Nat) (t : Token), i < k → d.tokens[i]? = some t → t.isBlank = true) →
      Remargined es k d d' := by
    intro d' k base base' hd' hgrown hfirst
    have htok := tokenized_of_read hd
    have htok' := tokenized_of_read hd'
    have hmatched := hgrown.matched
    rw [Array.extract_size] at hmatched
    obtain rfl := text_of_read hd
    obtain rfl := text_of_read hd'
    exact ⟨htok, htok', hmatched, hes, hfirst⟩
  cases h with
  | char hc => exact absurd rfl hc
  | line hno h =>
    obtain ⟨d', h1, h2⟩ := read_mended hd hno h
    exact ⟨d', 0, [], [], h1, .same, h2.nodes,
      hall h1 h2 fun i t hi => absurd hi (Nat.not_lt_zero i), by simp⟩
  | @mend _ e w a b he hstart hstop hw ht h =>
    obtain ⟨htext, hnonzero⟩ := hflush e he (by omega)
    have hne : w ≠ [] := by
      rintro rfl
      rw [List.length_nil] at hstop
      omega
    obtain ⟨hrest, hblank, u, hu, hub⟩ := second_of_margin hd hes he (by omega) rfl hw hne
      (by omega)
    have hxx : Mended es (-1) ('\n' :: w) ('\n' :: []) := by
      have := Mended.mend he hstart hstop hw ht .nil
      rwa [htext, List.append_nil, List.append_nil] at this
    obtain ⟨d', m, h1, h2⟩ := read_past hxx (by convert h using 1; omega) hd
      (fun c hc => (hw c hc).1) (by simp) hrest
    have hleading : leading w = 1 := if_neg hne
    rw [hleading, show leading [] = 0 from rfl, Nat.add_zero] at h2
    rw [htext]
    rw [htext] at hall
    refine ⟨d', 1, _, _, h1, beginning_of_leadingText m, h2.nodes, hall h1 h2 ?_, ?_⟩
    · intro i t hi ht
      obtain rfl : i = 0 := by omega
      exact hblank t ht
    · intro _ root hroot
      obtain ⟨i, hi, hib, hbefore⟩ := first?_spec hroot
      have hx := indexed_of_tokenized (tokenized_of_read hd)
      rw [hx i root hi]
      rcases Nat.lt_trichotomy i 1 with hlt | rfl | hgt
      · obtain rfl : i = 0 := by omega
        rw [hblank root hi] at hib
        cases hib
      · rfl
      · rw [hbefore 1 u hgt hu] at hub
        cases hub

end Read

/-! ## Mended margins -/

section Margins

variable {l : Layout} {root : Nat} (hl : l.Grounded root) {records : List LineRecord}
  (hrec : ∀ r ∈ records, l.Recorded r) {es : List Edit}
  (hes : ∀ e, e ∈ es ↔ ∃ r ∈ records, r.expected ≠ r.actual ∧ e = r.mismatch.edit)
include hl hrec hes

/-- The edit that ends at a token is that of the token's record. -/
theorem record_of_stop {i : Nat} {t : Token} (ht : l.document.tokens[i]? = some t) {e : Edit}
    (he : e ∈ es) (hstop : e.stop = t.start) :
    ∃ r ∈ records, r.token = t ∧ e = r.mismatch.edit := by
  obtain ⟨r, hr, -, rfl⟩ := (hes e).mp he
  have hr' := hrec r hr
  obtain ⟨j, hj, -⟩ := hl.mem_lineHeads hr'.head
  have hstart := (edits_of_recorded hl hr').stop
  have hlt := (hl.tokens.token i t ht).lt
  have hlt' := (hl.tokens.token j _ hj).lt
  refine ⟨r, hr, ?_, rfl⟩
  rcases Nat.lt_trichotomy i j with hij | rfl | hij
  · have := hl.tokens.ordered i j _ _ hij ht hj
    omega
  · rw [ht] at hj
    exact (Option.some.inj hj).symm
  · have := hl.tokens.ordered j i _ _ hij hj ht
    omega

variable {k : Nat} {d' : Document} (hdocs : Remargined es k l.document d') {i : Nat} {t t' : Token}
  (ht : l.document.tokens[i]? = some t) (hkin : Kin es l.document.text d'.text t t')
  (hlead : Leads l.document.tokens.toList i)
include hdocs ht hkin hlead

/-- **A recorded line gets the blanks that its head expects**, by an edit or because it has them. -/
theorem margin_of_recorded (hr : ∃ r ∈ records, r.token = t) {x : Indentation}
    (hx : l.Resolves t x) : lastLine (d'.text.take t'.start) = l.unit.render x := by
  obtain ⟨r, hr, rfl⟩ := hr
  have hexpected : ∀ q ∈ records, q.token = r.token → q.expected = l.unit.render x := by
    intro q hq hqr
    obtain ⟨y, hy, hexpected⟩ := (hrec q hq).expected
    rw [hqr] at hy
    rwa [hy.eq hx] at hexpected
  rcases margin_kin hdocs.tokens hdocs.edits ht hkin hlead with ⟨hno, heq⟩ | ⟨e, he, hstop, heq⟩
  · have hagree : r.expected = r.actual := by
      by_contra hne
      exact hno _ ((hes _).mpr ⟨r, hr, hne, rfl⟩) (edits_of_recorded hl (hrec r hr)).stop
    have hactual := (hrec r hr).actual
    rw [hl.leadingText ht] at hactual
    rw [heq, Except.ok.inj hactual, ← hagree, hexpected r hr rfl]
  · obtain ⟨q, hq, hqr, rfl⟩ := record_of_stop hl hrec hes ht he hstop
    rw [heq, show q.mismatch.edit.text = q.expected from rfl, hexpected q hq hqr]

/-- A line that is not checked keeps its blanks. -/
theorem margin_of_unchecked (hc : l.isChecked t = .ok false) :
    lastLine (d'.text.take t'.start) = lastLine (l.document.text.take t.start) := by
  rcases margin_kin hdocs.tokens hdocs.edits ht hkin hlead with ⟨-, heq⟩ | ⟨e, he, hstop, -⟩
  · exact heq
  · obtain ⟨r, hr, rfl, -⟩ := record_of_stop hl hrec hes ht he hstop
    rw [(hrec r hr).checked] at hc
    cases hc

end Margins

/-! ## The mended layout -/

/-- A layout with its records, and the layout of the document that the edits of these records make,
where no edit takes a line its head. -/
structure Layout.Mended (es : List Edit) (k : Nat) (records : List LineRecord) (l l' : Layout) :
    Prop where
  grounded : ∃ root, l.Grounded root
  grounded' : ∃ root, l'.Grounded root
  unit : l.unit = l'.unit
  graph : ∃ r, OffsetGraph.Shifted k r l.document.tokens l'.document.tokens l.graph l'.graph
  documents : Remargined es k l.document l'.document
  clear : Clear l.document es
  recorded : ∀ r ∈ records, l.Recorded r
  complete : ∀ t ∈ l.graph.heads.lineHeads, l.isChecked t = .ok true → ∃ r ∈ records, r.token = t
  edits : ∀ e, e ∈ es ↔ ∃ r ∈ records, r.expected ≠ r.actual ∧ e = r.mismatch.edit

namespace Layout.Mended

variable {es : List Edit} {k : Nat} {records : List LineRecord} {l l' : Layout}
  (h : Layout.Mended es k records l l')
include h

theorem kin {i : Nat} {t t' : Token} (ht : Partners k l l' i t t') :
    Kin es l.document.text l'.document.text t t' :=
  h.documents.matched.related ht.first ht.second

/-- **The layouts are twins**: only checked lines are mended. -/
theorem twin : Layout.Twin k l l' := by
  obtain ⟨root, hl⟩ := h.grounded
  obtain ⟨root', hl'⟩ := h.grounded'
  obtain ⟨r, hgraph⟩ := h.graph
  have hdocs := h.documents
  refine twin_of_shifted hl hl' h.unit hgraph (hdocs.counterparts h.clear) hdocs.first
    (fun _ e g t t' u u' _ _ ht hu hsame => ?_) fun g u u' hu hlead hc => ?_
  · exact column_kin hdocs.tokens hdocs.tokens' hdocs.edits ht.first hu.first ht.second hu.second
      (h.kin ht) (h.kin hu) hsame.symm
  · rw [hl.leadingText hu.first, hl'.leadingText hu.second]
    rw [margin_of_unchecked hl h.recorded h.edits hdocs hu.first (h.kin hu) hlead hc]

/-- **Every line of the mended text agrees**: a line with an edit has the blanks that its head
expects, a line without one had them before, and the head expects the same as before. -/
theorem agrees {r' : LineRecord} (hr' : l'.Recorded r') : r'.agrees = true := by
  obtain ⟨root, hl⟩ := h.grounded
  obtain ⟨root', hl'⟩ := h.grounded'
  have hdocs := h.documents
  obtain ⟨i, hi', hlead'⟩ := hl'.mem_lineHeads hr'.head
  obtain ⟨t, hi, hkin⟩ := hdocs.matched.token i _ hi'
  have hpair : Partners k l l' i t r'.token := ⟨hi, hi'⟩
  have hlead := (hdocs.leads h.clear i).mpr hlead'
  have hhead : t ∈ l.graph.heads.lineHeads := by
    rw [hl.graph.heads]
    exact (mem_lineHeads hdocs.indexed).mpr ⟨_, hi, hlead⟩
  have hr := h.complete t hhead ((isChecked_twin h.twin hpair).trans hr'.checked)
  obtain ⟨x, hx⟩ : ∃ x, l.Resolves t x := by
    obtain ⟨r, hr, rfl⟩ := hr
    exact (h.recorded r hr).expected.imp fun _ hx => hx.1
  obtain ⟨x', hx', hexpected'⟩ := hr'.expected
  obtain rfl := hx'.eq (resolves_twin h.twin hpair hlead' hx)
  have hactual := hr'.actual
  rw [hl'.leadingText hi', margin_of_recorded hl h.recorded h.edits hdocs hi hkin hlead hr hx,
    h.unit] at hactual
  rw [LineRecord.agrees, beq_iff_eq, hexpected', Except.ok.inj hactual]

end Layout.Mended

/-! ## Mending once -/

/-- All white space is spaces, tabs and line ends. -/
def PlainBlanks (text : List Char) : Prop :=
  ∀ c ∈ text, Text.isBlank c = true → c = ' ' ∨ c = '\t' ∨ c = '\r' ∨ c = '\n'

instance (text : List Char) : Decidable (PlainBlanks text) :=
  List.decidableBAll
    (fun c => Text.isBlank c = true → c = ' ' ∨ c = '\t' ∨ c = '\r' ∨ c = '\n') text

/-- **Where all white space is plain, every line keeps its head**: the only tokens that end with a
line end are blank. -/
theorem clear_of_plain {d : Document} {es : List Edit}
    (htok : Tokenized d.text d.text.length d.tokens) (hes : HeadEdits d es)
    (hplain : PlainBlanks d.text) : Clear d es := by
  intro e he _ i t ht hb hstart
  obtain ⟨x, hx⟩ := hes.ends_of_start htok he ht hstart
  have hat := htok.token i t ht
  have hadmits := hat.admits
  by_cases hk : t.kind = .htmlText
  · rw [hk] at hadmits
    rcases hadmits with ⟨-, hblank⟩ | hinline
    · have hall : t.isBlank = true := by
        rw [Token.isBlank, hk, List.all_eq_true.mpr fun c hc => ?_]
        · rfl
        · have hmem : c ∈ d.text := by
            rw [hat.slice] at hc
            exact List.mem_of_mem_drop (List.mem_of_mem_take hc)
          rcases hplain c hmem (hblank c hc) with rfl | rfl | rfl | rfl <;> rfl
      rw [hall] at hb
      cases hb
    · exact hinline.2 (by simp [hx])
  · obtain ⟨-, c, hc, hcb⟩ := hadmits.solid hk
    rw [hx, List.getLast?_append, List.getLast?_singleton, Option.some_or] at hc
    rw [← Option.some.inj hc, isBlank_newline] at hcb
    cases hcb

section Records

variable {l : Layout} {records : List LineRecord} {root : Nat} (hl : l.Grounded root)
  (hrec : ∀ r ∈ records, l.Recorded r)
  (hsub : (records.map LineRecord.token).Sublist l.graph.heads.lineHeads) {es : List Edit}
  (hes : ∀ e ∈ es, ∃ r ∈ records, r.expected ≠ r.actual ∧ e = r.mismatch.edit)
include hl hrec hes

include hsub in
/-- The edits of records are edits of margins before heads. -/
theorem headEdits_records : HeadEdits l.document es := by
  have hes' : ∀ e ∈ es, ∃ r ∈ records, e = r.mismatch.edit := fun e he =>
    (hes e he).imp fun r hr => ⟨hr.1, hr.2.2⟩
  have hgr : ∀ r ∈ records, ∃ root, l.Grounded root := fun _ _ => ⟨root, hl⟩
  refine ⟨fun e he => ?_, fun e he => (onMargin_records hgr hrec hes' e he).blanks,
    unique_records hgr hrec hsub hes'⟩
  obtain ⟨r, hr, rfl⟩ := hes' e he
  obtain ⟨i, hi, hlead⟩ := hl.mem_lineHeads (hrec r hr).head
  have hspec := edits_of_recorded hl (hrec r hr)
  exact ⟨i, r.token, hi, hlead, hspec.stop, hspec.width⟩

omit hrec hes in
/-- A checked head on the first line is the root: what it would hang on stands on an earlier one. -/
theorem root_of_first_line {t : Token} (ht : t ∈ l.graph.heads.lineHeads) (hline : t.line = 1)
    (hc : l.isChecked t = .ok true) : l.graph.root = some t.index := by
  by_contra hroot
  obtain ⟨i, hi, u, hu, -, hall⟩ := hl.mem_lineHeads ht
  rw [Array.getElem?_toList, hi] at hu
  obtain rfl := Option.some.inj hu
  rw [Layout.isChecked, if_neg hroot] at hc
  rcases hl.entry hi with h | ⟨e, base, g, other, h1, hangs, h2, hbase, h3, -⟩
  · simp only [h, bind, Except.bind] at hc
    cases hc
  · simp only [h1, bind, Except.bind] at hc
    split at hc
    · cases hc
    · next hkind =>
      obtain ⟨b, hb, hbb⟩ := hangs.onBase
      have hbefore := hall e.base b (hangs.lt hkind) (by rwa [Array.getElem?_toList]) hbb
      have := line_le_endLine b
      have := (hl.tokens.token _ b hb).line
      omega

/-- **The edit of the first line takes away all its blanks**: the root is not indented. -/
theorem flush_records : Flush es := by
  intro e he hstart
  obtain ⟨r, hr, hne, rfl⟩ := hes e he
  have hr := hrec r hr
  have hspec := edits_of_recorded hl hr
  have hline : r.token.line = 1 := by
    have := hspec.line
    rw [Edit.line, hstart, Int.toNat_zero, List.take_zero, List.count_nil, hr.line] at this
    exact this.symm
  have hroot := root_of_first_line hl hr.head hline hr.checked
  obtain ⟨x, hx, hexpected⟩ := hr.expected
  obtain rfl := hx.eq (.root hroot)
  have hnil : r.expected = [] := by
    rw [hexpected]
    rfl
  refine ⟨hnil, fun hstop => hne ?_⟩
  have hwidth : r.mismatch.edit.stop - r.mismatch.edit.start = r.actual.length := by
    simp only [Mismatch.edit, LineRecord.mismatch]
    omega
  rw [hnil, eq_comm, ← List.length_eq_zero_iff]
  omega

end Records

/-- Where all records agree there is nothing to report. -/
theorem check_of_agrees {d : Document} {s : Settings} {registry : Registry} {l : Layout}
    {records : List LineRecord} (hl : Layout.ofSettings d s registry = .ok l)
    (hrecords : l.records = .ok records) (h : ∀ r ∈ records, r.agrees = true) :
    check d s registry = .ok ⟨[], records.length, false⟩ := by
  have hnil : mismatches records = [] := by
    rw [mismatches, List.filter_eq_nil_iff.mpr fun r hr => by simp [h r hr], List.map_nil]
  rw [check_of_records hl hrecords, hnil, List.map_nil]

section Check

variable {text : List Char} {d : Document} {s : Settings} {registry : Registry}
  (hd : Document.read text = .ok d) (hr : registry.Descends) (hs : registry.Steady)
include hd hr

/-- A document without significant tokens has no records, and one with a root has a grounded
layout. -/
theorem root_or_nil {l : Layout} {records : List LineRecord}
    (hl : Layout.ofSettings d s registry = .ok l)
    (hsub : (records.map LineRecord.token).Sublist l.graph.heads.lineHeads) :
    (records = [] ∧ ∀ i, ¬ Significant d.tokens i) ∨
      ∃ (root : Token) (m : Nat), (Heads.ofTokens d.tokens).first? = some root ∧ l.Grounded m := by
  obtain ⟨-, hheads, hground⟩ := ofSettings_spec hd hr hl
  cases hfirst : (Heads.ofTokens d.tokens).first? with
  | none =>
    rw [hheads, lineHeads_eq_nil hd fun i => first?_eq_none hfirst, List.sublist_nil,
      List.map_eq_nil_iff] at hsub
    exact .inl ⟨hsub, fun i => first?_eq_none hfirst⟩
  | some root =>
    obtain ⟨n, hn, hnb, -⟩ := first?_spec hfirst
    obtain ⟨m, hm⟩ := hground.resolve_right fun hnone => hnone n ⟨root, hn, hnb⟩
    exact .inr ⟨root, m, rfl, hm⟩

/-- **The edits of an analysis can be carried out, and the mended text is read again**, over the
tokens of the text but for the blanks before the root. -/
theorem exists_remargined {l : Layout} {records : List LineRecord} {result : CheckResult} {m : Nat}
    (hl : Layout.ofSettings d s registry = .ok l) (hground : l.Grounded m)
    (hrec : ∀ r ∈ records, l.Recorded r)
    (hsub : (records.map LineRecord.token).Sublist l.graph.heads.lineHeads)
    (hreports : result.reports = (mismatches records).map (Mismatch.report l.unit)) :
    ∃ mended d' k base base', applyEdits text result.edits = .ok mended ∧
      Document.read mended = .ok d' ∧ Beginning k base base' ∧ SameNodes k base base' d d' ∧
      Remargined result.edits k d d' ∧
      (k = 1 → ∀ root, (Heads.ofTokens d.tokens).first? = some root → root.index = 1) := by
  have hmem : ∀ e ∈ result.edits, ∃ r ∈ records, r.expected ≠ r.actual ∧ e = r.mismatch.edit :=
    fun _ => (mem_edits hreports).mp
  obtain ⟨hdoc, -⟩ := ofSettings_spec hd hr hl
  have htok := tokenized_of_read hd
  obtain rfl := text_of_read hd
  subst hdoc
  have hes := headEdits_records hground hrec hsub hmem
  have hnodup : result.edits.Nodup := by
    rw [CheckResult.edits, hreports]
    exact nodup_edits (fun _ _ => ⟨m, hground⟩) hrec hsub
  obtain ⟨mended, hmended, hall⟩ := hes.applyEdits htok hnodup
  obtain ⟨d', k, base, base', hd', hbase, hnodes, hdocs, hk⟩ :=
    remargined_of_mended hd hes (flush_records hground hrec hmem) hall
  exact ⟨mended, d', k, base, base', hmended, hd', hbase, hnodes, hdocs, hk⟩

section Again

variable {es : List Edit} {k : Nat} {base base' : List Node} {d' : Document} {mended : List Char}
  (hd' : Document.read mended = .ok d') (hbase : Beginning k base base')
  (hnodes : SameNodes k base base' d d') (hdocs : Remargined es k d d') (hclear : Clear d es)
  {root : Token} (hroot : (Heads.ofTokens d.tokens).first? = some root)
  (hk : k = 1 → ∀ root, (Heads.ofTokens d.tokens).first? = some root → root.index = 1)
include hs hd' hbase hnodes hdocs hclear hroot hk

/-- **An analysis of the mended document has nothing to report.** -/
theorem check_again {l : Layout} {records : List LineRecord} {m : Nat}
    (hl : Layout.ofSettings d s registry = .ok l) (hground : l.Grounded m)
    (hrec : ∀ r ∈ records, l.Recorded r)
    (hcomplete : ∀ t ∈ l.graph.heads.lineHeads, l.isChecked t = .ok true →
      ∃ r ∈ records, r.token = t)
    (hes : ∀ e, e ∈ es ↔ ∃ r ∈ records, r.expected ≠ r.actual ∧ e = r.mismatch.edit) :
    ∃ again, check d' s registry = .ok again ∧ again.reports = [] ∧
      again.settingsFault = false := by
  have hmatched := hdocs.counterparts hclear
  obtain ⟨l', r, hl', hunit, hgraph⟩ := ofSettings_shifted hd hd' hr hmatched hdocs.first hnodes
    hbase (fun rules hdoc hregistry h => Rules.rawShifted_of_remargined h (hdoc ▸ hdocs)
      (hregistry ▸ hs) d'.parts) hroot (fun h1 => hk h1 root hroot) hl
  obtain ⟨records', hrecords', hrec', -⟩ := records_spec hd' hr hl'
  obtain ⟨hdoc, -⟩ := ofSettings_spec hd hr hl
  obtain ⟨hdoc', -, hground'⟩ := ofSettings_spec hd' hr hl'
  obtain ⟨root', hroot', -⟩ :=
    first?_shifted hmatched hdocs.indexed hdocs.indexed' hdocs.first hroot
  obtain ⟨n, hn, hnb, -⟩ := first?_spec hroot'
  have hrooted := hground'.resolve_right fun hnone => hnone n ⟨root', hn, hnb⟩
  subst hdoc hdoc'
  have hmended : Layout.Mended es k records l l' :=
    ⟨⟨m, hground⟩, hrooted, hunit.symm, ⟨r, hgraph⟩, hdocs, hclear, hrec, hcomplete, hes⟩
  exact ⟨_, check_of_agrees hl' hrecords' fun q hq => hmended.agrees (hrec' q hq), rfl, rfl⟩

end Again

/-- **Mending once is enough.** The mended text can be read, and if no edit takes a line its head
then an analysis of it has nothing to report. An edit that does so leaves a line that was reported
without a head. -/
theorem check_mended {result : CheckResult} (hs : registry.Steady)
    (hc : check d s registry = .ok result) (hv : result.settingsFault = false) :
    ∃ mended d', applyEdits text result.edits = .ok mended ∧ Document.read mended = .ok d' ∧
      (Clear d result.edits → ∃ again, check d' s registry = .ok again ∧ again.reports = [] ∧
        again.settingsFault = false) ∧
      (¬ Clear d result.edits → ∃ r ∈ result.reports,
        ∀ head ∈ (Heads.ofTokens d'.tokens).lineHeads, head.line ≠ r.location.line) ∧
      (PlainBlanks text → Clear d result.edits) := by
  obtain ⟨l, records, hl, hrecords, hreports, -⟩ := check_spec hc hv
  obtain ⟨records', hrecords', hrec, hsub, hcomplete⟩ := records_spec hd hr hl
  rw [hrecords] at hrecords'
  obtain rfl := Except.ok.inj hrecords'
  have hmem : ∀ e, e ∈ result.edits ↔ ∃ r ∈ records, r.expected ≠ r.actual ∧ e = r.mismatch.edit :=
    fun _ => mem_edits hreports
  rcases root_or_nil hd hr hl hsub with ⟨rfl, -⟩ | ⟨root, m, hroot, hground⟩
  · have hedits : result.edits = [] := by
      rw [CheckResult.edits, hreports]
      rfl
    have hclear : Clear d result.edits := by simp [Clear, hedits]
    exact ⟨text, d, by simp [hedits, applyEdits, inOrder, applyFrom], hd,
      fun _ => ⟨result, hc, hreports, hv⟩, fun hnot => absurd hclear hnot, fun _ => hclear⟩
  · obtain ⟨hdoc, -⟩ := ofSettings_spec hd hr hl
    have htok := tokenized_of_read hd
    obtain ⟨mended, d', k, base, base', hmended, hd', hbase, hnodes, hdocs, hk⟩ :=
      exists_remargined hd hr hl hground hrec hsub hreports
    obtain rfl := text_of_read hd
    subst hdoc
    refine ⟨mended, d', hmended, hd', fun hclear => ?_, fun hclear => ?_,
      clear_of_plain htok hdocs.edits⟩
    · exact check_again hd hr hs hd' hbase hnodes hdocs hclear hroot hk hl hground hrec hcomplete
        hmem
    · obtain ⟨e, he, i, t, ht, hstop, -, hno⟩ := hdocs.not_clear hclear
      obtain ⟨r, hr, hne, rfl⟩ := (hmem e).mp he
      obtain ⟨j, hj, -⟩ := hground.mem_lineHeads (hrec r hr).head
      have hstart : r.token.start = t.start := by
        have := (edits_of_recorded hground (hrec r hr)).stop
        omega
      refine ⟨Mismatch.report l.unit r.mismatch, ?_, fun head hhead hline => ?_⟩
      · rw [hreports]
        exact List.mem_map_of_mem (mem_mismatches.mpr ⟨r, hr, hne, rfl⟩)
      · obtain ⟨q, hq, hlead⟩ := (mem_lineHeads hdocs.indexed').mp hhead
        refine hno q head hq ?_ hlead
        rw [hline, (htok.token i t ht).line, ← hstart, ← (htok.token j _ hj).line]
        exact (hrec r hr).line

end Check

end MarkupIndent.Margin

namespace MarkupIndent.Lint

open Margin Markup Settings

theorem fixText_eq {s : Settings} {text : List Char} {d : Document} {result : CheckResult}
    (hd : Document.read text = .ok d) (hc : check d s .default = .ok result)
    (hv : result.settingsFault = false) : fixText s text = applyEdits text result.edits := by
  have hall : result.reports.filter (fun _ => !false) = result.reports :=
    List.filter_eq_self.mpr fun _ _ => rfl
  simp only [fixText, lintText, hd, hc, Job.outcome, hv, Bool.false_eq_true, if_false, if_true,
    hall, CheckResult.edits, bind, Except.bind]
  cases applyEdits text (result.reports.flatMap Report.edits) <;> rfl

/-- **Mending settles a text, unless it takes a line its head.** For every text that can be read
and all settings that mean something, the mended text can be read again. If no edit puts blanks
right behind a significant token, the mended text has nothing to report and is mended to itself.
This is so wherever all white space is spaces, tabs and line ends. Otherwise such an edit makes its
blanks part of a token of the line before, and its own line, which was reported, has no head. -/
theorem fix_settles {text : List Char} {d : Document} {s : Settings} {result : CheckResult}
    (hd : Document.read text = .ok d) (hc : check d s .default = .ok result)
    (hv : result.settingsFault = false) :
    ∃ fixed d', fixText s text = .ok fixed ∧ Document.read fixed = .ok d' ∧
      (Clear d result.edits →
        (∃ again, check d' s .default = .ok again ∧ again.reports = [] ∧
          again.settingsFault = false) ∧
        fixText s fixed = .ok fixed) ∧
      (¬ Clear d result.edits → ∃ r ∈ result.reports,
        ∀ head ∈ (Heads.ofTokens d'.tokens).lineHeads, head.line ≠ r.location.line) ∧
      (PlainBlanks text → Clear d result.edits) := by
  obtain ⟨fixed, d', hfixed, hd', hagain, hlost, hplain⟩ :=
    check_mended hd descends_default steady_default hc hv
  refine ⟨fixed, d', by rw [fixText_eq hd hc hv, hfixed], hd', fun hclear => ?_, hlost, hplain⟩
  obtain ⟨again, hc', hreports, hv'⟩ := hagain hclear
  refine ⟨⟨again, hc', hreports, hv'⟩, ?_⟩
  rw [fixText_eq hd' hc' hv', CheckResult.edits, hreports]
  simp [applyEdits, inOrder, applyFrom]

/-- The edits of a text, if it can be read and the settings mean something. -/
def edits? (s : Settings) (text : List Char) : Option (List Edit) :=
  match Document.read text with
  | .error _ => none
  | .ok d =>
    match check d s .default with
    | .error _ => none
    | .ok result => if result.settingsFault then none else some result.edits

theorem exists_of_edits? {s : Settings} {text : List Char} {es : List Edit}
    (h : edits? s text = some es) : ∃ d result, Document.read text = .ok d ∧
      check d s .default = .ok result ∧ result.settingsFault = false ∧ result.edits = es := by
  unfold edits? at h
  split at h
  · cases h
  next d hd =>
  split at h
  · cases h
  next result hc =>
  split at h
  · cases h
  next hv => exact ⟨d, result, hd, hc, by simpa using hv, Option.some.inj h⟩

/-- Edits that are given in the order of the text are carried out in that order. -/
theorem fixText_of_edits? {s : Settings} {text : List Char} {es : List Edit}
    (h : edits? s text = some es)
    (hsorted : es.Pairwise fun a b =>
      (a.start < b.start || (a.start == b.start && a.stop ≤ b.stop)) = true) :
    fixText s text = applyFrom text.length 0 text es := by
  obtain ⟨d, result, hd, hc, hv, rfl⟩ := exists_of_edits? h
  rw [fixText_eq hd hc hv, applyEdits, inOrder, List.mergeSort_of_pairwise hsorted]

/-- A list with blanks before the root, a tab and no indentation at all. -/
theorem fix_settles_list :
    ∃ (d : Document) (result : CheckResult) (fixed : List Char),
      Document.read "  <ul>\n\t<li>\na\r\n</li></ul>".toList = .ok d ∧
      check d {} .default = .ok result ∧ result.settingsFault = false ∧
      fixText {} "  <ul>\n\t<li>\na\r\n</li></ul>".toList = .ok fixed ∧
      fixText {} fixed = .ok fixed := by
  have hsome : (edits? {} "  <ul>\n\t<li>\na\r\n</li></ul>".toList).isSome = true := by
    decide +kernel
  obtain ⟨es, hes⟩ := Option.isSome_iff_exists.mp hsome
  obtain ⟨d, result, hd, hc, hv, -⟩ := exists_of_edits? hes
  obtain ⟨fixed, d', hfixed, -, hsettled, -, hplain⟩ := fix_settles hd hc hv
  exact ⟨d, result, fixed, hd, hc, hv, hfixed, (hsettled (hplain (by decide +kernel))).2⟩

/-- A no-break space at the end of a line takes the next line its head: the second time, the lines
that hang on it are moved again. -/
theorem fix_unsettled_no_break_space :
    (∃ (d : Document) (result : CheckResult),
      Document.read "<div>\u00a0\n<p>\nfoo\n</p>\n</div>".toList = .ok d ∧
      check d {} .default = .ok result ∧ result.settingsFault = false) ∧
    fixText {} "<div>\u00a0\n<p>\nfoo\n</p>\n</div>".toList =
      .ok "<div>\u00a0\n  <p>\n    foo\n  </p>\n</div>".toList ∧
    fixText {} "<div>\u00a0\n  <p>\n    foo\n  </p>\n</div>".toList =
      .ok "<div>\u00a0\n  <p>\n  foo\n</p>\n</div>".toList ∧
    "<div>\u00a0\n  <p>\n  foo\n</p>\n</div>".toList ≠
      "<div>\u00a0\n  <p>\n    foo\n  </p>\n</div>".toList := by
  have h1 : edits? {} "<div>\u00a0\n<p>\nfoo\n</p>\n</div>".toList =
      some [⟨7, 7, [' ', ' ']⟩, ⟨11, 11, [' ', ' ', ' ', ' ']⟩, ⟨15, 15, [' ', ' ']⟩] := by
    decide +kernel
  have h2 : edits? {} "<div>\u00a0\n  <p>\n    foo\n  </p>\n</div>".toList =
      some [⟨13, 17, [' ', ' ']⟩, ⟨21, 23, []⟩] := by
    decide +kernel
  obtain ⟨d, result, hd, hc, hv, -⟩ := exists_of_edits? h1
  refine ⟨⟨d, result, hd, hc, hv⟩, ?_, ?_, by decide⟩
  · rw [fixText_of_edits? h1 (by decide)]
    decide +kernel
  · rw [fixText_of_edits? h2 (by decide)]
    decide +kernel

end MarkupIndent.Lint
