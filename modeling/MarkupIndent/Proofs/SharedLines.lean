import MarkupIndent.Proofs.BracketDepth

/-!
# Source that shares its first line with markup

A scan of embedded source begins where the line of its first token begins, so whatever stands before
the source on this line is scanned as well. A quote there opens a string, a bracket counts for the
depth, and a word leaves a statement unfinished. If two beginnings of a line leave the same of the
source, the same depth and the same kind of end, then the lines after the first have the same
records, and their tokens the same rules. Beginnings that are blank always do.

The tokens of source are told by the source: one for each of its lines that is not blank.

* `LexicalRules.before`, `LexicalRules.behind`: what is left of a beginning, and of the source
  behind.
* `LexicalRules.Alike`: beginnings that make no difference to the lines after; `alike_of_margin`.
* `tail_scan_alike`: the records of these lines.
* `mem_contentLines`: the lines of content, by the source.
* `entries_of_alike`: **embedded source is indented by itself** behind beginnings that are alike.
* `entries_differ_quote`: a quote before the source makes a difference.
-/

namespace MarkupIndent.Margin

open Markup Settings Text

/-! ## The end of a line -/

/-- A statement goes on behind a line that ends in this character. -/
def isUnfinished : Option Char → Bool
  | some c => !isBoundary c
  | none => false

/-- The last character of a text that is not blank. -/
theorem getLast?_trim (text : List Char) :
    (trim text).getLast? = text.reverse.find? fun c => !isBlank c := by
  have hblank : (text.takeWhile isBlank).reverse.find? (fun c => !isBlank c) = none := by
    rw [List.find?_eq_none]
    intro c hc
    simp [List.mem_takeWhile_imp (List.mem_reverse.mp hc)]
  conv_rhs => rw [← List.takeWhile_append_dropWhile (p := isBlank) (l := text), List.reverse_append,
    List.find?_append, hblank, Option.or_none]
  rw [trim, trimRight, trimLeft, List.getLast?_reverse, List.find?_eq_head?_dropWhile_not]
  simp only [Bool.not_not]

theorem getLast?_trim_append (a b : List Char) :
    (trim (a ++ b)).getLast? = (trim b).getLast?.or (trim a).getLast? := by
  simp only [getLast?_trim, List.reverse_append, List.find?_append]

/-- Of the character before a line it counts only whether a statement goes on behind it. -/
theorem scanFrom_previous {continuations : List (List Char)} {depth : Nat}
    {previous previous' : Option Char} (h : isUnfinished previous = isUnfinished previous')
    (lines : List MaskedLine) :
    scanFrom continuations depth previous lines = scanFrom continuations depth previous' lines := by
  induction lines generalizing depth previous previous' with
  | nil => rfl
  | cons line rest ih =>
    have hline : ∀ previous, scanLine continuations depth previous line =
        { depth := depth
          leadingClosers := min ((trim line.text).takeWhile isCloser).length depth
          continuesLiteral := line.literal
          continuesStatement := !(trim line.text).isEmpty &&
            ((trim line.text).takeWhile isCloser).length == 0 &&
              (isUnfinished previous ||
                continuations.any fun m => m.isPrefixOf (trim line.text)) } :=
      fun _ => rfl
    rw [scanFrom, scanFrom, hline, hline, h]
    congr 1
    cases (trim line.text).getLast? with
    | none => exact ih (by simpa using h)
    | some c => rfl

/-! ## Beginnings of a line -/

namespace LexicalRules

variable (rules : LexicalRules)

/-- What is left of the beginning of a line, with the source behind it. -/
def before (beginning source : List Char) : List Char :=
  ((rules.blanked (beginning ++ source)).take beginning.length).map MaskedChar.char

/-- What is left of a source behind the beginning of its line. -/
def behind (beginning source : List Char) : List MaskedChar :=
  (rules.blanked (beginning ++ source)).drop beginning.length

/-- Two beginnings of a line make no difference to the lines after it: they leave the same of the
source behind them and the same number of open brackets, and a statement goes on behind both or
neither, unless the source has something left on this line. -/
structure Alike (a b source : List Char) : Prop where
  behind : rules.behind a source = rules.behind b source
  depth : (rules.before a source).foldl depthAfter 0 = (rules.before b source).foldl depthAfter 0
  unfinished : isUnfinished (trim (rules.before a source)).getLast? =
      isUnfinished (trim (rules.before b source)).getLast? ∨
    (trim (maskedLines false (rules.behind a source)).1.text).getLast? ≠ none

variable {rules}

theorem scan_beginning {beginning : List Char} (hline : '\n' ∉ beginning) (source : List Char) :
    (scan rules (beginning ++ source)).tail = scanFrom rules.continuations
      ((rules.before beginning source ++
        (maskedLines false (rules.behind beginning source)).1.text).foldl depthAfter 0)
      (trim (rules.before beginning source ++
        (maskedLines false (rules.behind beginning source)).1.text)).getLast?
      (maskedLines false (rules.behind beginning source)).2 := by
  have hsplit : rules.blanked (beginning ++ source) =
      (rules.blanked (beginning ++ source)).take beginning.length ++
        rules.behind beginning source := (List.take_append_drop _ _).symm
  have hout : ∀ m ∈ (rules.blanked (beginning ++ source)).take beginning.length, m.char ≠ '\n' :=
    take_blanked beginning source ▸ Spot.newline_not_mem_walk hline .start source
  rw [scan]
  show (scanFrom rules.continuations 0 none
    ((maskedLines false (rules.blanked (beginning ++ source))).1 ::
      (maskedLines false (rules.blanked (beginning ++ source))).2)).tail = _
  rw [hsplit, maskedLines_append hout]
  simp only [scanFrom, List.tail_cons, Option.or_none]
  rfl

/-- **Beginnings that make no difference** leave the records of the later lines as they are. -/
theorem tail_scan_alike {a b source : List Char} (ha : '\n' ∉ a) (hb : '\n' ∉ b)
    (h : rules.Alike a b source) :
    (scan rules (a ++ source)).tail = (scan rules (b ++ source)).tail := by
  rw [scan_beginning ha, scan_beginning hb, h.behind, List.foldl_append, List.foldl_append, h.depth]
  refine scanFrom_previous ?_ _
  rw [getLast?_trim_append, getLast?_trim_append]
  cases hlast : (trim (maskedLines false (rules.behind b source)).1.text).getLast? with
  | some c => rfl
  | none =>
    rw [Option.none_or, Option.none_or]
    exact h.unfinished.resolve_right fun hne => hne (h.behind ▸ hlast)

/-- A margin leaves nothing but blanks, and the source as it is by itself. -/
theorem beginning_of_margin (hr : rules.Plain) {a : List Char} (ha : Margin a)
    (source : List Char) : Margin (rules.before a source) ∧
      rules.behind a source = rules.blanked source := by
  obtain ⟨out, hout, hmask⟩ := mask_margin hr.openers hr.escape plain_code ha source
  have hmask : rules.blanked (a ++ source) = out ++ rules.blanked source := hmask
  have hlen : out.length = a.length := by
    have h := congrArg List.length hmask
    rw [length_blanked, List.length_append, List.length_append, length_blanked] at h
    omega
  unfold before behind
  rw [hmask, ← hlen, List.take_left, List.drop_left]
  exact ⟨hout, rfl⟩

theorem getLast?_trim_margin {a : List Char} (ha : Margin a) : (trim a).getLast? = none := by
  rw [getLast?_trim, List.find?_eq_none]
  intro c hc
  simp [(ha c (List.mem_reverse.mp hc)).1]

/-- **Blank beginnings make no difference.** -/
theorem alike_of_margin (hr : rules.Plain) {a b : List Char} (ha : Margin a) (hb : Margin b)
    (source : List Char) : rules.Alike a b source := by
  obtain ⟨ha, ha'⟩ := beginning_of_margin hr ha source
  obtain ⟨hb, hb'⟩ := beginning_of_margin hr hb source
  refine ⟨ha'.trans hb'.symm, ?_, .inl ?_⟩
  · have hzero := fun {a : List Char} (ha : Margin a) => foldl_depthAfter_margin ha [] 0
    simp only [List.append_nil, List.foldl_nil] at hzero
    rw [hzero ha, hzero hb]
  · rw [getLast?_trim_margin ha, getLast?_trim_margin hb]

end LexicalRules

/-! ## The lines of content -/

/-- The source of some tokens, from the beginning of the first to the end of the last. -/
def sourceOf (d : Document) (first : Token) (rest : List Token) : List Char :=
  (d.text.drop first.start).take ((rest.getLastD first).stop - first.start)

/-- The lines of tokens, counted from that of the first one. -/
def contentLines (first : Token) (rest : List Token) : List Nat :=
  (first :: rest).map fun t => t.line - first.line

/-- A line of a source that is not blank. -/
def HasInk (source : List Char) (line : Nat) : Prop :=
  ∃ o c, source[o]? = some c ∧ isBlank c = false ∧ (source.take o).count '\n' = line

/-- The line ends before a place of the source, in the text and in the source. -/
theorem count_source (d : Document) (first : Token) (rest : List Token) {o : Nat}
    (ho : o ≤ (rest.getLastD first).stop - first.start) :
    (d.text.take (first.start + o)).count '\n' =
      (d.text.take first.start).count '\n' + ((sourceOf d first rest).take o).count '\n' := by
  rw [List.take_add, List.count_append, sourceOf, List.take_take, Nat.min_eq_left ho]

namespace Rules

section Block

variable {rules : Rules} (hg : rules.Grounded)
  (htile : NodesTile rules.document.tokens 0 rules.document.nodes rules.document.tokens.size)
  {kind : RawKind} {tag : StartTag} {content : List Nat} {endTag : EndTag} {language : List Char}
  {first : Token} {rest : List Token} (hlist : rules.tokensAt content = first :: rest)
  (hmem : .node (.raw kind tag content endTag language) ∈ rules.document.parts)
include hg htile hlist hmem

/-- The content of a block has its tokens on later and later lines. -/
theorem pairwise_contentLines : (contentLines first rest).Pairwise (· < ·) := by
  obtain ⟨lo, n, rfl, -, -, hc⟩ := content_raw hg htile hmem
  rw [hlist] at hc
  have hline : ∀ t ∈ rest, first.line < t.line := fun t ht =>
    line_lt_of_content hg htile hmem hlist ht ((List.pairwise_cons.mp hc.ordered).1 t ht)
      (hc.mem first List.mem_cons_self).1
  rw [contentLines, List.pairwise_map]
  refine hc.ordered.imp_of_mem fun {s t} hs ht hlt => ?_
  rcases List.mem_cons.mp ht with rfl | ht
  · have := (index_le_getLastD hc.ordered hs).1
    omega
  · have hst := line_lt_of_content hg htile hmem hlist ht hlt (hc.mem s hs).1
    rcases List.mem_cons.mp hs with rfl | hs
    · omega
    · have := hline s hs
      omega

/-- A token of content begins in the source. -/
theorem start_of_content {t : Token} (ht : t ∈ first :: rest) :
    rules.document.tokens[t.index]? = some t ∧ first.start ≤ t.start ∧
      t.start < (rest.getLastD first).stop := by
  obtain ⟨lo, n, rfl, -, -, hc⟩ := content_raw hg htile hmem
  rw [hlist] at hc
  have hlast := List.getLastD_mem_cons (a := first) (l := rest)
  obtain ⟨h1, h2⟩ := index_le_getLastD hc.ordered ht
  have hti := (hc.mem t ht).1
  have hfi := (hc.mem first List.mem_cons_self).1
  have hli := (hc.mem _ hlast).1
  have hlt := (hg.tokens.token _ _ hli).lt
  have := start_le_of_le hg.tokens h2 hti hli
  exact ⟨hti, start_le_of_le hg.tokens h1 hfi hti, by omega⟩

/-- A character of the source that is not blank is in a token of content. -/
theorem covered_of_source {o : Nat} {c : Char}
    (ho : (sourceOf rules.document first rest)[o]? = some c) (hc : isBlank c = false) :
    o < (rest.getLastD first).stop - first.start ∧
      ∃ t ∈ first :: rest, t.start ≤ first.start + o ∧ first.start + o < t.stop := by
  have hfi := (start_of_content hg htile hlist hmem List.mem_cons_self).1
  have hli := (start_of_content hg htile hlist hmem
    (List.getLastD_mem_cons (a := first) (l := rest))).1
  have hend := (hg.tokens.token _ _ hli).le
  have hlt : o < (rest.getLastD first).stop - first.start := by
    by_contra hge
    rw [sourceOf, List.getElem?_take_eq_none (by omega)] at ho
    cases ho
  rw [sourceOf, List.getElem?_take_of_lt hlt, List.getElem?_drop] at ho
  obtain ⟨i, t, hti, hin⟩ : ∃ (i : Nat) (t : Token), rules.document.tokens[i]? = some t ∧
      t.start ≤ first.start + o ∧ first.start + o < t.stop := by
    by_contra hnone
    have hblank := hg.tokens.gaps (first.start + o) c (by omega) ho
      fun i t ht hin => hnone ⟨i, t, ht, hin⟩
    rw [hc] at hblank
    cases hblank
  obtain rfl := indexed_of_tokenized hg.tokens i t hti
  obtain ⟨lo, n, rfl, -⟩ := content_raw hg htile hmem
  have htokens : ∀ u, u ∈ first :: rest ↔
      (lo ≤ u.index ∧ u.index < lo + n) ∧ rules.document.tokens[u.index]? = some u := fun u =>
    hlist ▸ mem_tokensAt hg
  have hf := (htokens first).mp List.mem_cons_self
  have hl := (htokens _).mp (List.getLastD_mem_cons (a := first) (l := rest))
  have h1 : ¬ t.index < first.index := fun hlt' => by
    have := hg.tokens.ordered _ _ _ _ hlt' hti hfi
    omega
  have h2 : ¬ (rest.getLastD first).index < t.index := fun hlt' => by
    have := hg.tokens.ordered _ _ _ _ hlt' hli hti
    omega
  exact ⟨hlt, t, (htokens t).mpr ⟨by omega, hti⟩, hin⟩

/-- **The lines of content are those of its source that are not blank.** -/
theorem mem_contentLines {line : Nat} :
    line ∈ contentLines first rest ↔ HasInk (sourceOf rules.document first rest) line := by
  have hfi := (start_of_content hg htile hlist hmem List.mem_cons_self).1
  have hfirst := (hg.tokens.token _ _ hfi).line
  rw [contentLines, List.mem_map]
  constructor
  · rintro ⟨t, ht, rfl⟩
    obtain ⟨hti, h1, h2⟩ := start_of_content hg htile hlist hmem ht
    have hat := hg.tokens.token _ _ hti
    obtain ⟨⟨c, hhead, hc⟩, -⟩ := (inline_of_content hg htile hlist hmem ht).1
    refine ⟨t.start - first.start, c, ?_, hc, ?_⟩
    · rw [sourceOf, List.getElem?_take_of_lt (by omega), List.getElem?_drop,
        Nat.add_sub_cancel' h1, ← hhead, hat.slice, List.head?_eq_getElem?,
        List.getElem?_take_of_lt (by have := hat.lt; omega), List.getElem?_drop, Nat.add_zero]
    · have hcount := count_source rules.document first rest (o := t.start - first.start) (by omega)
      rw [Nat.add_sub_cancel' h1] at hcount
      rw [hat.line, hfirst]
      omega
  · rintro ⟨o, c, ho, hc, rfl⟩
    obtain ⟨hlt, t, ht, hin⟩ := covered_of_source hg htile hlist hmem ho hc
    obtain ⟨hti, h1, -⟩ := start_of_content hg htile hlist hmem ht
    have hat := hg.tokens.token _ _ hti
    have hcount := count_source rules.document first rest (Nat.le_of_lt hlt)
    -- No line ends between the beginning of the token and the character.
    have hsplit : rules.document.text.take (first.start + o) =
        rules.document.text.take t.start ++ t.text.take (first.start + o - t.start) := by
      rw [hat.slice, List.take_take, Nat.min_eq_left (by omega), ← List.take_add,
        Nat.add_sub_cancel' hin.1]
    rw [hsplit, List.count_append, List.count_eq_zero.mpr fun h =>
      (inline_of_content hg htile hlist hmem ht).2 (List.mem_of_mem_take h), Nat.add_zero] at hcount
    refine ⟨t, ht, ?_⟩
    rw [hat.line, hfirst]
    omega

end Block

end Rules

/-- Lists that rise and have the same members are the same. -/
theorem eq_of_pairwise_lt {a b : List Nat} (ha : a.Pairwise (· < ·)) (hb : b.Pairwise (· < ·))
    (h : ∀ n, n ∈ a ↔ n ∈ b) : a = b :=
  ((List.perm_ext_iff_of_nodup (ha.imp Nat.ne_of_lt) (hb.imp Nat.ne_of_lt)).mpr h).eq_of_pairwise
    (fun _ _ _ _ h1 h2 => absurd h2 (Nat.lt_asymm h1)) ha hb

/-! ## Two documents -/

/-- Embedded source of a language in a document with its graph: the tokens of a block that is
neither ignored nor inside an ignored node. -/
structure Embedded (d : Document) (s : Settings) (g : OffsetGraph) (language : List Char)
    (first : Token) (rest : List Token) : Prop where
  graph : OffsetGraph.build d s .default = .ok g
  block : ∃ rules kind tag content endTag, Rules.ofSettings d s .default = .ok rules ∧
    rules.Open (.raw kind tag content endTag language) ∧ rules.tokensAt content = first :: rest

/-- Two tokens have entries of the same kind and weight. -/
def SameOffset (g g' : OffsetGraph) (t t' : Token) : Prop :=
  ∃ e e', g.entry t.index = .ok (some e) ∧ g'.entry t'.index = .ok (some e') ∧
    e.kind = e'.kind ∧ e.weight = e'.weight

section Embedded

variable {text : List Char} {d : Document} {s : Settings} {g : OffsetGraph} {language : List Char}
  {first : Token} {rest : List Token} (hd : Document.read text = .ok d)
  (h : Embedded d s g language first rest)
include hd h

/-- The lines of embedded source are told by the source. -/
theorem Embedded.contentLines : (contentLines first rest).Pairwise (· < ·) ∧
    ∀ line, line ∈ Margin.contentLines first rest ↔ HasInk (sourceOf d first rest) line := by
  obtain ⟨rules, kind, tag, content, endTag, hrules, hopen, hlist⟩ := h.block
  obtain ⟨rfl, hg, -, htile⟩ := rules_of_settings hd hrules
  exact ⟨Rules.pairwise_contentLines hg htile hlist hopen.1, fun line =>
    Rules.mem_contentLines hg htile hlist hopen.1⟩

/-- A line of embedded source has its entry by its record. -/
theorem Embedded.entry {name : String} {languages : List String} {marks : LexicalRules}
    (hraw : s.indentRaw = true)
    (hsel : Registry.default.select language = .ok (.bracketDepth name languages marks))
    {t : Token} (ht : t ∈ rest) : ∃ r,
      (scan marks (lastLine (d.text.take first.start) ++ sourceOf d first rest)).tail[
        t.line - first.line - 1]? = some r ∧
      g.entry t.index = .ok (some (if r.goesOn then .pin t.index
        else .hang t.index first.index (if r.levels = 0 then .same else .relative) r.levels)) := by
  obtain ⟨rules, kind, tag, content, endTag, hrules, hopen, hlist⟩ := h.block
  have hindented := (options_of_settings hrules).2.1.trans hraw
  have hl := follows_of_build hd hrules h.graph ⟨.tabs, false⟩
  obtain rfl : rules.document = d := hl.document.symm
  rw [← hl.registry] at hsel
  have hlead := Rules.leads_of_content hl.grounded hl.tile hlist hopen.1 ht
  have hline : first.line < t.line := by
    have hpair := (Rules.pairwise_contentLines hl.grounded hl.tile hlist hopen.1)
    have := (List.pairwise_cons.mp hpair).1 _ (List.mem_map_of_mem ht)
    omega
  obtain ⟨region, hregion, hrecords⟩ := Rules.exists_record hl.grounded hl.registered hl.tile hlist
    hopen.1 hsel
  obtain ⟨r, hr, -⟩ := hrecords t ht
  have hrule :=
    hopen.lastRule?_line hl.grounded hl.registered hl.tile hindented hsel hlist hregion ht hr
  obtain ⟨hfi, -⟩ := Rules.start_of_content hl.grounded hl.tile hlist hopen.1 List.mem_cons_self
  have hlast := (Rules.start_of_content hl.grounded hl.tile hlist hopen.1
    (List.getLastD_mem_cons (a := first) (l := rest))).2.1
  have hle : first.start ≤ (rest.getLastD first).stop := by
    have := (Rules.start_of_content hl.grounded hl.tile hlist hopen.1
      (List.getLastD_mem_cons (a := first) (l := rest))).2.2
    omega
  have heq : region = lastLine (rules.document.text.take first.start) ++
      sourceOf rules.document first rest :=
    Option.some.inj (hregion.symm.trans
      (contentRegion?_eq (hl.grounded.tokens.token _ _ hfi) hle))
  refine ⟨r, ?_, ?_⟩
  · rw [← heq, List.getElem?_tail, show t.line - first.line - 1 + 1 = t.line - first.line by omega]
    exact hr
  · have hs : Significant rules.document.tokens t.index :=
      ⟨t, hlead.1, hlead.2.significant hlead.1⟩
    obtain ⟨root, hroot⟩ := hl.rooted t.index hs
    obtain ⟨lo, n, rfl, -, -, hc⟩ := Rules.content_raw hl.grounded hl.tile hopen.1
    rw [hlist] at hc
    have hbefore := hroot.first _ hc.onOpener
    have hafter := (hc.mem t (List.mem_cons_of_mem _ ht)).2.2
    have he := hroot.entry t.index hs (by omega)
    rw [hrule] at he
    exact he

end Embedded

/-- **Embedded source is indented by itself.** If the beginnings of the lines where two equal
sources begin are alike, then the later tokens of both have entries of the same kinds and weights,
whatever else stands around them. -/
theorem entries_of_alike {text text' : List Char} {d d' : Document} {s : Settings}
    {g g' : OffsetGraph} {language : List Char} {name : String} {languages : List String}
    {marks : LexicalRules} {first first' : Token} {rest rest' : List Token}
    (hd : Document.read text = .ok d) (hd' : Document.read text' = .ok d')
    (hraw : s.indentRaw = true)
    (hsel : Registry.default.select language = .ok (.bracketDepth name languages marks))
    (h : Embedded d s g language first rest) (h' : Embedded d' s g' language first' rest')
    (hsource : sourceOf d first rest = sourceOf d' first' rest')
    (halike : marks.Alike (lastLine (d.text.take first.start))
      (lastLine (d'.text.take first'.start)) (sourceOf d first rest)) :
    List.Forall₂ (SameOffset g g') rest rest' := by
  obtain ⟨hrise, hlines⟩ := h.contentLines hd
  obtain ⟨hrise', hlines'⟩ := h'.contentLines hd'
  have hsame : contentLines first rest = contentLines first' rest' :=
    eq_of_pairwise_lt hrise hrise' fun line => by rw [hlines, hlines', hsource]
  have hforall :
      List.Forall₂ (fun t t' => t.line - first.line = t'.line - first'.line) rest rest' := by
    have h := (List.cons.inj hsame).2
    rw [← List.forall₂_eq_eq_eq, List.forall₂_map_left_iff, List.forall₂_map_right_iff] at h
    exact h
  have hscan := LexicalRules.tail_scan_alike (newline_not_mem_lastLine _)
    (newline_not_mem_lastLine _) halike
  rw [List.forall₂_iff_zip] at hforall ⊢
  refine ⟨hforall.1, fun {t t'} hzip => ?_⟩
  obtain ⟨ht, ht'⟩ := List.of_mem_zip hzip
  obtain ⟨r, hr, he⟩ := h.entry hd hraw hsel ht
  obtain ⟨r', hr', he'⟩ := h'.entry hd' hraw hsel ht'
  rw [← hsource, ← hscan, ← hforall.2 hzip, hr] at hr'
  obtain rfl := Option.some.inj hr'
  refine ⟨_, _, he, he', ?_⟩
  split
  · exact ⟨rfl, rfl⟩
  · exact ⟨rfl, rfl⟩

/-- A text has a script of two lines, with the offset where the first of them begins and the offset
where the second ends, and none of its nodes is ignored, as a check. -/
def hasScriptAt (text : List Char) (start stop : Nat) : Bool :=
  match Document.read text with
  | .ok d => match Rules.ofSettings d {} .default with
    | .ok rules => d.parts.all (openAt rules) && d.parts.any fun p => match p with
      | .node (.raw _ _ content _ language) => language == "js".toList &&
        match rules.tokensAt content with
        | [first, t] => first.start == start && t.stop == stop && t.line == first.line + 1
        | _ => false
      | _ => false
    | .error _ => false
  | .error _ => false

theorem embedded_of_hasScriptAt {text : List Char} {start stop : Nat}
    (h : hasScriptAt text start stop = true) :
    ∃ d g first t, Document.read text = .ok d ∧ Embedded d {} g "js".toList first [t] ∧
      lastLine (d.text.take first.start) = lastLine (text.take start) ∧
      sourceOf d first [t] = (text.drop start).take (stop - start) ∧ t.line = first.line + 1 := by
  unfold hasScriptAt at h
  split at h
  · next d hd =>
    split at h
    · next rules hrules =>
      obtain ⟨hopen, hany⟩ := Bool.and_eq_true_iff.mp h
      obtain ⟨p, hp, hmatch⟩ := List.any_eq_true.mp hany
      split at hmatch
      · next kind tag content endTag language =>
        obtain ⟨hlanguage, hmatch⟩ := Bool.and_eq_true_iff.mp hmatch
        obtain rfl := beq_iff_eq.mp hlanguage
        split at hmatch
        · next first t hlist =>
          simp only [Bool.and_eq_true, beq_iff_eq] at hmatch
          obtain ⟨-, ⟨rfl, rfl⟩, hline⟩ := hmatch
          obtain ⟨g, hbuild, -⟩ := descends_build hd descends_default (s := {}) rfl
          obtain ⟨rfl, -⟩ := rules_of_settings hd hrules
          have hblock : rules.Open (.raw kind tag content endTag "js".toList) :=
            ⟨hp, fun n hn _ => by simpa [openAt] using List.all_eq_true.mp hopen _ hn⟩
          have htext := text_of_read hd
          exact ⟨_, g, first, t, hd,
            ⟨hbuild, rules, kind, tag, content, endTag, hrules, hblock, hlist⟩, by rw [htext],
            by rw [← htext]; rfl, hline⟩
        · cases hmatch
      · cases hmatch
    · cases h
  · cases h

/-- **Source on a line of its own is indented alike**, whatever stands on the lines before. And
behind a tag with a string that is closed it is indented as behind the tag alone. -/
theorem entries_of_alike_call :
    (∃ d d' g g' first first' rest rest', rest ≠ [] ∧
      Document.read "it's\n<script>\nf(\n1)\n</script>".toList = .ok d ∧
      Document.read "<script>\n  f(\n1)</script>".toList = .ok d' ∧
      Embedded d {} g "js".toList first rest ∧ Embedded d' {} g' "js".toList first' rest' ∧
      List.Forall₂ (SameOffset g g') rest rest') ∧
    ∃ d d' g g' first first' rest rest', rest ≠ [] ∧
      Document.read "<br a='x'><script>f(\n1)</script>".toList = .ok d ∧
      Document.read "<script>f(\n1)</script>".toList = .ok d' ∧
      Embedded d {} g "js".toList first rest ∧ Embedded d' {} g' "js".toList first' rest' ∧
      List.Forall₂ (SameOffset g g') rest rest' := by
  constructor
  · obtain ⟨d, g, first, t, hd, h, hlead, hsource, -⟩ := embedded_of_hasScriptAt (show hasScriptAt
      "it's\n<script>\nf(\n1)\n</script>".toList 14 19 = true by decide +kernel)
    obtain ⟨d', g', first', t', hd', h', hlead', hsource', -⟩ := embedded_of_hasScriptAt (show
      hasScriptAt "<script>\n  f(\n1)</script>".toList 11 16 = true by decide +kernel)
    refine ⟨d, d', g, g', first, first', [t], [t'], by simp, hd, hd', h, h',
      entries_of_alike hd hd' rfl select_script h h' (hsource.trans ?_) ?_⟩
    · rw [hsource']
      decide +kernel
    · rw [hlead, hlead']
      exact LexicalRules.alike_of_margin plain_scriptRules (by decide +kernel) (by decide +kernel) _
  · obtain ⟨d, g, first, t, hd, h, hlead, hsource, -⟩ := embedded_of_hasScriptAt (show hasScriptAt
      "<br a='x'><script>f(\n1)</script>".toList 18 23 = true by decide +kernel)
    obtain ⟨d', g', first', t', hd', h', hlead', hsource', -⟩ := embedded_of_hasScriptAt (show
      hasScriptAt "<script>f(\n1)</script>".toList 8 13 = true by decide +kernel)
    refine ⟨d, d', g, g', first, first', [t], [t'], by simp, hd, hd', h, h',
      entries_of_alike hd hd' rfl select_script h h' (hsource.trans ?_) ?_⟩
    · rw [hsource']
      decide +kernel
    · rw [hlead, hlead', hsource]
      refine ⟨?_, ?_, .inr ?_⟩ <;>
        simp only [LexicalRules.behind, LexicalRules.before, LexicalRules.blanked,
          openers_scriptRules] <;> decide +kernel

/-- **A quote before the source makes a difference.** In the first text it opens a string that
reaches into the second line of the source, which is then pinned; in the second text the same line is
as deep as the first one. -/
theorem entries_differ_quote :
    ∃ d d' g g' first first' rest rest',
      Document.read "it's <script>a;\nb;</script>".toList = .ok d ∧
      Document.read "<script>a;\nb;</script>".toList = .ok d' ∧
      Embedded d {} g "js".toList first rest ∧ Embedded d' {} g' "js".toList first' rest' ∧
      sourceOf d first rest = sourceOf d' first' rest' ∧
      ¬ List.Forall₂ (SameOffset g g') rest rest' := by
  obtain ⟨d, g, first, t, hd, h, hlead, hsource, hline⟩ := embedded_of_hasScriptAt (show hasScriptAt
    "it's <script>a;\nb;</script>".toList 13 18 = true by decide +kernel)
  obtain ⟨d', g', first', t', hd', h', hlead', hsource', hline'⟩ := embedded_of_hasScriptAt (show
    hasScriptAt "<script>a;\nb;</script>".toList 8 13 = true by decide +kernel)
  refine ⟨d, d', g, g', first, first', [t], [t'], hd, hd', h, h', hsource.trans ?_, fun hsame => ?_⟩
  · rw [hsource']
    decide +kernel
  obtain ⟨r, hr, he⟩ := h.entry hd rfl select_script (List.mem_singleton_self t)
  obtain ⟨r', hr', he'⟩ := h'.entry hd' rfl select_script (List.mem_singleton_self t')
  have hscan : scan scriptRules "it's <script>a;\nb;".toList =
      [⟨0, 0, false, false⟩, ⟨0, 0, true, false⟩] := by
    rw [scan_scriptRules]
    decide +kernel
  have hscan' : scan scriptRules "<script>a;\nb;".toList =
      [⟨0, 0, false, false⟩, ⟨0, 0, false, false⟩] := by
    rw [scan_scriptRules]
    decide +kernel
  rw [hlead, hsource, hline, Nat.add_sub_cancel_left,
    show lastLine ("it's <script>a;\nb;</script>".toList.take 13) ++
      ("it's <script>a;\nb;</script>".toList.drop 13).take (18 - 13) =
        "it's <script>a;\nb;".toList by decide +kernel, hscan] at hr
  rw [hlead', hsource', hline', Nat.add_sub_cancel_left,
    show lastLine ("<script>a;\nb;</script>".toList.take 8) ++
      ("<script>a;\nb;</script>".toList.drop 8).take (13 - 8) =
        "<script>a;\nb;".toList by decide +kernel, hscan'] at hr'
  cases hr
  cases hr'
  obtain ⟨⟨e, e', h1, h2, hkind, -⟩, -⟩ := List.forall₂_cons.mp hsame
  rw [he] at h1
  rw [he'] at h2
  cases h1
  cases h2
  cases hkind

end MarkupIndent.Margin
