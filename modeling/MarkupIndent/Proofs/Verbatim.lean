import MarkupIndent.Proofs.Ignored
import MarkupIndent.Proofs.MarginEdits

/-!
# What edits leave as it is

Edits replace the margins of lines that the graph is in charge of, and it is in charge of no line
whose head is pinned. A stretch of pinned tokens is left as it is from the token before it to its
end, since the margins of other lines lie before or after it.

* `Edit.Spares`: an edit that changes nothing between two offsets.
* `spares_of_pinned`, `spares_line_of_pinned`: what the edit of a record leaves as it is.
* `pinned_ofContent`, `pinned_ofContent_continued`: embedded source that is pinned.
* `edits_spare_verbatim`: **ignored parts, embedded source that no indenter knows, and lines of
  source that go on with a literal or a statement** are left as they are.
* `edits_meet_text`: the blanks at the ends of an ignored text are not.
-/

namespace MarkupIndent.Margin

open Markup Settings Text

/-- The edit changes nothing between two offsets. -/
def Edit.Spares (e : Edit) (start stop : Nat) : Prop :=
  e.stop ≤ start ∨ stop ≤ e.start

/-! ## Records and pinned tokens -/

section Records

variable {l : Layout} {root : Nat} (hl : l.Grounded root) {r : LineRecord} (hr : l.Recorded r)
include hl hr

theorem leads_of_recorded :
    l.document.tokens[r.token.index]? = some r.token ∧
      Leads l.document.tokens.toList r.token.index := by
  obtain ⟨i, hi, hlead⟩ := hl.mem_lineHeads hr.head
  rw [hl.indexed i _ hi]
  exact ⟨hi, hlead⟩

omit hl in
/-- The graph is not in charge of the line of a pinned token. -/
theorem entry_ne_pin (hroot : l.graph.root ≠ some r.token.index) :
    l.graph.entry r.token.index ≠ .ok (some (.pin r.token.index)) := by
  intro he
  have hchecked := hr.checked
  simp only [Layout.isChecked, if_neg hroot, he, bind, Except.bind] at hchecked
  cases hchecked

/-- The edit of a record begins where all tokens before its head have ended. -/
theorem stop_le_start {k : Nat} {t : Token} (hk : k < r.token.index)
    (ht : l.document.tokens[k]? = some t) (hb : t.isBlank = false) :
    (t.stop : Int) ≤ r.mismatch.edit.start := by
  obtain ⟨hi, u, hu, -, hlead⟩ := leads_of_recorded hl hr
  rw [Array.getElem?_toList, hi] at hu
  cases hu
  have hline := hlead k t hk (by rwa [Array.getElem?_toList]) hb
  have hspec := edits_of_recorded hl hr
  obtain ⟨before, w, after, -, -, hstart, -⟩ := hspec.onMargin.slice
  by_contra hlt
  have hcover := line_le_endLine_of_covers (hl.tokens.token k t ht)
    (show r.mismatch.edit.start.toNat < t.stop by omega)
  have hon := hspec.line
  rw [Edit.line, hr.line] at hon
  omega

/-- **A stretch of pinned tokens is left as it is**, together with the token before it. -/
theorem spares_of_pinned {f k : Nat} {first last : Token}
    (hf : l.document.tokens[f]? = some first) (hk : l.document.tokens[k]? = some last)
    (hb : last.isBlank = false)
    (hpinned : ∀ i, f < i → i ≤ k → Significant l.document.tokens i →
      l.graph.entry i = .ok (some (.pin i)) ∧ l.graph.root ≠ some i) :
    r.mismatch.edit.Spares first.start last.stop := by
  obtain ⟨hi, hlead⟩ := leads_of_recorded hl hr
  have hstop := (edits_of_recorded hl hr).stop
  rcases Nat.lt_or_ge f r.token.index with hlt | hge
  · rcases Nat.lt_or_ge k r.token.index with hgt | hle
    · exact .inr (stop_le_start hl hr hgt hk hb)
    · obtain ⟨he, hroot⟩ := hpinned _ hlt hle ⟨_, hi, hlead.significant hi⟩
      exact absurd he (entry_ne_pin hr hroot)
  · refine .inl ?_
    rw [hstop, Int.ofNat_le]
    exact start_le_of_le hl.tokens hge hi hf

/-- **The line of a pinned token is left as it is**, if all tokens before it begin on earlier
lines. -/
theorem spares_line_of_pinned {k start : Nat} {t : Token} (hk : l.document.tokens[k]? = some t)
    (hb : t.isBlank = false) (hstart : l.document.lines.start? t.line = some start)
    (hpinned : l.graph.entry k = .ok (some (.pin k)) ∧ l.graph.root ≠ some k)
    (hbefore : ∀ (i : Nat) (u : Token), i < k → l.document.tokens[i]? = some u →
      u.isBlank = false → u.line < t.line) :
    r.mismatch.edit.line l.document.text ≠ t.line ∧ r.mismatch.edit.Spares start t.stop := by
  obtain ⟨hi, hlead⟩ := leads_of_recorded hl hr
  have hspec := edits_of_recorded hl hr
  rw [hspec.line, hr.line]
  rcases Nat.lt_trichotomy r.token.index k with hlt | heq | hgt
  · have hline := hbefore _ _ hlt hi (hlead.significant hi)
    refine ⟨by omega, .inl ?_⟩
    have hat := hl.tokens.token k t hk
    have hlt' := start_lt_of_line_lt hl.tokens hi hk hline
    rw [start?_of_tokenAt hat, ← hat.column, Option.some.injEq] at hstart
    rw [hspec.stop, Int.ofNat_le]
    omega
  · rw [← heq] at hpinned
    exact absurd hpinned.1 (entry_ne_pin hr hpinned.2)
  · refine ⟨?_, .inr (stop_le_start hl hr hgt hk hb)⟩
    obtain ⟨u, hu, -, hall⟩ := hlead
    rw [Array.getElem?_toList, hi] at hu
    cases hu
    have := hall k t hgt (by rwa [Array.getElem?_toList]) hb
    have := line_le_endLine t
    omega

end Records

/-! ## Embedded source that is pinned -/

/-- If all declarations that speak of a token say the same, then so does the last of them. -/
theorem lastRule?_map {α : Type} {i : Nat} {e : OffsetEntry} {xs : List α} {f : α → Declaration}
    (hall : ∀ x ∈ xs, ∀ e', (f x).rule? i = some e' → e' = e) {x : α} (hx : x ∈ xs)
    (h : (f x).rule? i = some e) : lastRule? i (xs.map f) = some e := by
  rw [List.map_eq_flatMap]
  refine lastRule?_flatMap (fun y hy e' he' => hall y hy e' ?_) hx ?_
  · rwa [lastRule?_single] at he'
  · rwa [lastRule?_single]

theorem rule?_pinSelf {i : Nat} {t : Token} {e : OffsetEntry}
    (h : (Declaration.offset t.index t.index .pinned 0).rule? i = some e) : e = .pin i := by
  rw [Declaration.rule?] at h
  split at h
  · next heq =>
    cases h
    rw [heq]
    rfl
  · cases h

theorem rule?_pinSelf_self (t : Token) :
    (Declaration.offset t.index t.index .pinned 0).rule? t.index = some (.pin t.index) :=
  if_pos rfl

/-- The rule of a line of content is about its token. -/
theorem index_of_bracketRule {root t : Token} {scans : Array LineScan} {i : Nat} {e : OffsetEntry}
    (h : (bracketRule root scans t).rule? i = some e) : t.index = i := by
  unfold bracketRule at h
  split at h
  · cases h
  · split at h
    · exact (Option.ite_none_right_eq_some.mp h).1
    split at h
    · exact (Option.ite_none_right_eq_some.mp h).1
    · exact (Option.ite_none_right_eq_some.mp h).1

/-- A list of tokens in order lies between its first and its last. -/
theorem index_le_getLastD {first t : Token} {rest : List Token}
    (h : (first :: rest).Pairwise fun s t => s.index < t.index) (ht : t ∈ first :: rest) :
    first.index ≤ t.index ∧ t.index ≤ (rest.getLastD first).index := by
  induction rest generalizing first t with
  | nil =>
    obtain rfl := List.mem_singleton.mp ht
    exact ⟨Nat.le_refl _, Nat.le_refl _⟩
  | cons next rest ih =>
    obtain ⟨h1, h2⟩ := List.pairwise_cons.mp h
    rw [List.getLastD_cons]
    have hnext := h1 next List.mem_cons_self
    rcases List.mem_cons.mp ht with rfl | ht
    · have := (ih h2 List.mem_cons_self).2
      exact ⟨Nat.le_refl _, by omega⟩
    · have := ih h2 ht
      exact ⟨by omega, this.2⟩

namespace Rules

theorem mem_tokensAt {rules : Rules} (hg : rules.Grounded) {lo n : Nat} {t : Token} :
    t ∈ rules.tokensAt (List.range' lo n) ↔
      (lo ≤ t.index ∧ t.index < lo + n) ∧ rules.document.tokens[t.index]? = some t := by
  rw [tokensAt, List.mem_filterMap]
  constructor
  · rintro ⟨i, hi, ht⟩
    rw [indexed_of_tokenized hg.tokens i t ht]
    exact ⟨List.mem_range'_1.mp hi, ht⟩
  · rintro ⟨hi, ht⟩
    exact ⟨_, List.mem_range'_1.mpr hi, ht⟩

section Content

variable {rules : Rules} {opener lo n : Nat} {language : List Char}
  (hc : Content rules.document.tokens opener (rules.tokensAt (List.range' lo n)))
include hc

/-- **Embedded source keeps its lines** if the settings leave it alone or no indenter but the
fallback knows its language. -/
theorem pinned_ofContent (hregistry : rules.registry = .default)
    (hleft : rules.indentRaw = false ∨
      ∀ indenter ∈ Registry.default.indenters, indenter.supports language = false)
    {t : Token} (ht : t ∈ rules.tokensAt (List.range' lo n)) :
    lastRule? t.index (rules.ofContent (List.range' lo n) opener language) =
      some (.pin t.index) := by
  unfold ofContent
  split
  · next hnil =>
    rw [hnil] at ht
    cases ht
  · next first rest hlist =>
    rw [hlist] at hc ht
    split
    · next hraw =>
      have hsel : rules.registry.select language = .ok (.pinned "pinned") := by
        have hfind : Registry.default.indenters.find?
            (fun indenter => indenter.supports language) = none := by
          refine List.find?_eq_none.mpr fun indenter hi => ?_
          rw [(hleft.resolve_left (by simp [hraw])) indenter hi]
          exact Bool.false_ne_true
        rw [hregistry, Registry.select, hfind]
        rfl
      rw [hsel]
      exact lastRule?_map (fun _ _ _ he => rule?_pinSelf he) ht (rule?_pinSelf_self t)
    · obtain ⟨h1, h2⟩ := index_le_getLastD hc.ordered ht
      exact lastRule?_pin h1 h2

section Brackets

variable {name : String} {languages : List String} {lexical : LexicalRules} {first : Token}
  {rest : List Token} {region : List Char} (hraw : rules.indentRaw = true)
  (hsel : rules.registry.select language = .ok (.bracketDepth name languages lexical))
  (hlist : rules.tokensAt (List.range' lo n) = first :: rest)
  (hregion : contentRegion? rules.document first (rest.getLastD first) = some region)
include hraw hsel hlist hregion

omit hc in
/-- The rules of embedded source by bracket depth: one for its first line, and one for every line
below by its record. -/
theorem ofContent_brackets : rules.ofContent (List.range' lo n) opener language =
    .offset first.index opener .relative 1 ::
      rest.map (bracketRule first (scan lexical region).toArray) := by
  unfold ofContent
  rw [hlist]
  simp only [hraw, if_true, hsel]
  show bracketDeclarations lexical (first :: rest) opener rules.document = _
  rw [bracketDeclarations, hregion]

/-- **A line of embedded source goes by its record**, below the first line of its block. -/
theorem lastRule?_ofContent_line {t : Token} {e : OffsetEntry} (ht : t ∈ rest)
    (he : (bracketRule first (scan lexical region).toArray t).rule? t.index = some e) :
    lastRule? t.index (rules.ofContent (List.range' lo n) opener language) = some e := by
  rw [ofContent_brackets hraw hsel hlist hregion]
  rw [hlist] at hc
  refine lastRule?_of_right (a := [_]) (lastRule?_map (fun u hu e' he' => ?_) ht he)
  have hut : u = t := by
    have h1 := (hc.mem u (List.mem_cons_of_mem _ hu)).1
    rw [index_of_bracketRule he', (hc.mem t (List.mem_cons_of_mem _ ht)).1] at h1
    exact (Option.some.inj h1).symm
  rw [hut, he] at he'
  exact (Option.some.inj he').symm

/-- **A line that goes on with a literal or a statement keeps its margin**, below the first line of
its block. -/
theorem pinned_ofContent_continued {t : Token} {record : LineScan} (ht : t ∈ rest)
    (hrecord : (scan lexical region)[t.line - first.line]? = some record)
    (hgoes : (record.continuesLiteral || record.continuesStatement) = true) :
    lastRule? t.index (rules.ofContent (List.range' lo n) opener language) =
      some (.pin t.index) := by
  refine lastRule?_ofContent_line hc hraw hsel hlist hregion ht ?_
  rw [bracketRule, List.getElem?_toArray, hrecord]
  simp only [hgoes, if_true]
  exact rule?_pinSelf_self t

end Brackets

end Content

section Raw

variable {rules : Rules} (hg : rules.Grounded) (hl : rules.registry.Local)
  (htile : NodesTile rules.document.tokens 0 rules.document.nodes rules.document.tokens.size)
  {kind : RawKind} {tag : StartTag} {content : List Nat} {endTag : EndTag} {language : List Char}
  (hmem : .node (.raw kind tag content endTag language) ∈ rules.document.parts)

omit hg hl in
include htile hmem in
/-- A raw block fits. -/
theorem fits_raw : (Node.raw kind tag content endTag language).Fits rules.document.tokens :=
  Part.fits_of_mem (p := .node (.raw kind tag content endTag language)) htile trivial hmem

include hg hl htile hmem

omit hl in
/-- The content of a raw block stands in order after its first token. -/
theorem content_raw : ∃ lo n, content = List.range' lo n ∧ tag.last < lo ∧ lo + n = endTag.first ∧
    Content rules.document.tokens tag.first (rules.tokensAt (List.range' lo n)) := by
  obtain ⟨h1, h2, h3, h4, -⟩ := fits_raw htile hmem
  have hlt := h1.lt
  rw [h3] at h4
  exact ⟨_, _, h3, Nat.lt_succ_self _, by omega, content_tokensAt hg
    (significant_of_marked h1.marked (Nat.le_refl tag.first) (by omega)) (by omega) h4⟩

/-- **What a raw block pins of its content stays pinned**, wherever the block is. -/
theorem lastRule?_raw {i : Nat} (hi : i ∈ content)
    (he : lastRule? i (rules.ofContent content tag.first language) = some (.pin i)) :
    lastRule? i (rules.ofNodes rules.document.nodes) = some (.pin i) := by
  obtain ⟨h1, h2, h3, h4, h5, -⟩ := fits_raw htile hmem
  have hlt := h1.lt
  have hlast := h5.last
  rw [h3, List.mem_range'_1] at hi
  refine lastRule?_pinned hg hl (p := .node (.raw kind tag content endTag language)) trivial hmem
    rfl htile ?_ (show tag.first < i by omega) (show i ≤ endTag.last by omega) rfl ?_
  · rintro a - - hholds
    cases hholds
  unfold ofNode
  split
  · exact lastRule?_pin (by omega) (by omega)
  · have hend : AllWithin (endTag.first - 1) endTag.last
        (.offset endTag.first tag.first .same 0 :: rules.ofEndTag endTag) :=
      allWithin_cons ⟨by omega, by omega⟩ ((within_ofEndTag h5).mono (by omega) (Nat.le_refl _))
    rw [hend.lastRule?_append (by omega)]
    exact lastRule?_of_right he

omit hl in
/-- All tokens before a line of content begin on earlier lines, below the first line of its
block. -/
theorem line_lt_of_content {first t u : Token} {rest : List Token} {i : Nat}
    (hlist : rules.tokensAt content = first :: rest) (ht : t ∈ rest) (hi : i < t.index)
    (hu : rules.document.tokens[i]? = some u) : u.line < t.line := by
  obtain ⟨lo, n, rfl, -, -, hc⟩ := content_raw hg htile hmem
  obtain ⟨-, -, -, -, -, -, -, -, -, hrise⟩ := fits_raw htile hmem
  rw [hlist] at hc
  have hmemt := List.mem_cons_of_mem first ht
  have hfirst := (mem_tokensAt hg).mp (hlist ▸ List.mem_cons_self)
  have hlast := (mem_tokensAt hg).mp (hlist ▸ hmemt)
  have hlt : first.index < t.index := (List.pairwise_cons.mp hc.ordered).1 t ht
  rcases Nat.lt_or_ge i first.index with hbefore | hge
  · -- A token before the content begins no later than the content does.
    have hstart := hg.tokens.ordered _ _ _ _ hbefore hu hfirst.2
    have hat := hg.tokens.token _ _ hu
    have hcount := count_take_le rules.document.text
      (show u.start ≤ first.start by have := hat.lt; omega)
    have hline := hrise.line_lt hfirst.1.1 hlt hlast.1.2 hfirst.2 hlast.2
    rw [(hg.tokens.token _ _ hfirst.2).line] at hline
    rw [hat.line]
    omega
  · exact hrise.line_lt (by omega) hi hlast.1.2 hu hlast.2

end Raw

end Rules

/-! ## What is to stay -/

namespace Rules

/-- A stretch of the text that is to stay as it is, from one offset to another. -/
inductive Verbatim (rules : Rules) : (start stop : Nat) → Prop where
  /-- An ignored part that is no text, from its first token to its last. -/
  | ignored {p : Part} {span : Span} {first last : Token} : rules.Asked p → rules.Ignored p →
      p.span? = some span → (∀ i j, p ≠ .node (.text i j)) →
      rules.document.tokens[span.first]? = some first →
      rules.document.tokens[span.last]? = some last → Verbatim rules first.start last.stop
  /-- An ignored text, from the first significant token of the document at the earliest to a token
  that is not blank. -/
  | ignoredText {i j f k r : Nat} {first last : Token} : rules.Asked (.node (.text i j)) →
      rules.Ignored (.node (.text i j)) → i ≤ f → f ≤ k → k ≤ j → r ≤ f →
      Significant rules.document.tokens r → rules.document.tokens[f]? = some first →
      rules.document.tokens[k]? = some last → last.isBlank = false →
      Verbatim rules first.start last.stop
  /-- Embedded source that the settings leave alone, or whose language no indenter but the
  fallback knows, from its first token to its last. -/
  | source {kind : RawKind} {tag : StartTag} {content : List Nat} {endTag : EndTag}
      {language : List Char} {first : Token} {rest : List Token} :
      .node (.raw kind tag content endTag language) ∈ rules.document.parts →
      rules.tokensAt content = first :: rest →
      (rules.indentRaw = false ∨
        ∀ indenter ∈ rules.registry.indenters, indenter.supports language = false) →
      Verbatim rules first.start (rest.getLastD first).stop

/-- A line of embedded source, after the first of its block, that goes on with a literal or a
statement by the scan of an indenter by bracket depth. -/
structure GoesOn (rules : Rules) (t : Token) (kind : RawKind) (tag : StartTag)
    (content : List Nat) (endTag : EndTag) (language : List Char) : Prop where
  mem : .node (.raw kind tag content endTag language) ∈ rules.document.parts
  indented : rules.indentRaw = true
  record : ∃ name languages lexical first rest region record,
    rules.registry.select language = .ok (.bracketDepth name languages lexical) ∧
    rules.tokensAt content = first :: rest ∧ t ∈ rest ∧
    contentRegion? rules.document first (rest.getLastD first) = some region ∧
    (scan lexical region)[t.line - first.line]? = some record ∧
    (record.continuesLiteral || record.continuesStatement) = true

end Rules

/-- Tokens of which all but the first are pinned, from the root of the document at the earliest. -/
structure Rules.Stretch (rules : Rules) (f k : Nat) (first last : Token) : Prop where
  onFirst : rules.document.tokens[f]? = some first
  onLast : rules.document.tokens[k]? = some last
  significant : last.isBlank = false
  rooted : ∃ r ≤ f, Significant rules.document.tokens r
  pinned : ∀ i, f < i → i ≤ k → Significant rules.document.tokens i →
    lastRule? i (rules.ofNodes rules.document.nodes) = some (.pin i)

namespace Rules

section Stays

variable {rules : Rules} (hg : rules.Grounded) (hregistry : rules.registry = .default)
  (htile : NodesTile rules.document.tokens 0 rules.document.nodes rules.document.tokens.size)
include hg hregistry htile

/-- **What is to stay is a stretch of pinned tokens.** -/
theorem Verbatim.stretch {start stop : Nat} (h : rules.Verbatim start stop) :
    ∃ f k first last, rules.Stretch f k first last ∧ start = first.start ∧ stop = last.stop := by
  have hl : rules.registry.Local := hregistry ▸ local_default
  cases h with
  | @ignored p span first last hasked hi hspan hne hf hk =>
    have hlabel : p.IsLabelled := by
      obtain ⟨label, h, -⟩ := hi
      exact isLabelled_of_partLabel h
    obtain ⟨h1, u, hu, hb⟩ :=
      significant_part (Part.fits_of_mem htile hlabel hasked.mem_parts) hspan hne
    rw [hk] at hu
    cases hu
    exact ⟨_, _, _, _, ⟨hf, hk, hb, ⟨_, Nat.le_refl _, h1⟩, fun i hi1 hi2 _ =>
      lastRule?_ignored hg hl hasked hi hspan htile hi1 hi2⟩, rfl, rfl⟩
  | @ignoredText i j f k r first last hasked hi h1 h2 h3 h4 hr hf hk hb =>
    exact ⟨_, _, _, _, ⟨hf, hk, hb, ⟨r, h4, hr⟩, fun m hm1 hm2 _ =>
      lastRule?_ignored hg hl hasked hi rfl htile (show i < m by omega) (show m ≤ j by omega)⟩,
      rfl, rfl⟩
  | @source kind tag content endTag language first rest hmem hlist hleft =>
    obtain ⟨lo, n, rfl, -, -, hc⟩ := content_raw hg htile hmem
    rw [hregistry] at hleft
    have hfirst := hlist ▸ List.mem_cons_self (a := first) (l := rest)
    have hlast := hlist ▸ List.getLastD_mem_cons (a := first) (l := rest)
    have hf := (mem_tokensAt hg).mp hfirst
    have hk := (mem_tokensAt hg).mp hlast
    refine ⟨_, _, _, _, ⟨hf.2, hk.2, (hc.mem _ hlast).2.1,
      ⟨_, Nat.le_refl _, _, hf.2, (hc.mem _ hfirst).2.1⟩, fun i hi1 hi2 hi => ?_⟩, rfl, rfl⟩
    obtain ⟨t, ht, -⟩ := hi
    have hti := indexed_of_tokenized hg.tokens i t ht
    rw [← hti] at ht hi1 hi2 ⊢
    have hin : t.index ∈ List.range' lo n := List.mem_range'_1.mpr (by omega)
    exact lastRule?_raw hg hl htile hmem hin (pinned_ofContent hc hregistry hleft
      ((mem_tokensAt hg).mpr ⟨List.mem_range'_1.mp hin, ht⟩))

/-- **A line that goes on is a pinned token**, not the first of the document, and all tokens before
it begin on earlier lines. -/
theorem GoesOn.pinned {t : Token} {kind : RawKind} {tag : StartTag} {content : List Nat}
    {endTag : EndTag} {language : List Char}
    (h : rules.GoesOn t kind tag content endTag language) :
    rules.document.tokens[t.index]? = some t ∧ t.isBlank = false ∧
      (∃ r < t.index, Significant rules.document.tokens r) ∧
      lastRule? t.index (rules.ofNodes rules.document.nodes) = some (.pin t.index) ∧
      ∀ (i : Nat) (u : Token), i < t.index → rules.document.tokens[i]? = some u →
        u.isBlank = false → u.line < t.line := by
  obtain ⟨name, languages, lexical, first, rest, region, record, hsel, hlist, ht, hregion,
    hrecord, hgoes⟩ := h.record
  have hbefore := fun i u hi hu (_ : u.isBlank = false) =>
    line_lt_of_content hg htile h.mem (i := i) (u := u) hlist ht hi hu
  obtain ⟨lo, n, rfl, -, -, hc⟩ := content_raw hg htile h.mem
  have hmem := hlist ▸ List.mem_cons_of_mem first ht
  obtain ⟨hin, -⟩ := (mem_tokensAt hg).mp hmem
  obtain ⟨hat, hblank, hlt⟩ := hc.mem t hmem
  exact ⟨hat, hblank, ⟨_, hlt, hc.onOpener⟩,
    lastRule?_raw hg (hregistry ▸ local_default) htile h.mem (List.mem_range'_1.mpr hin)
      (pinned_ofContent_continued hc h.indented hsel hlist hregion ht hrecord hgoes), hbefore⟩

end Stays

end Rules

/-! ## Analyses -/

section Check

variable {text : List Char} {d : Document} {s : Settings} {rules : Rules} {l : Layout}
  (hd : Document.read text = .ok d) (hrules : Rules.ofSettings d s .default = .ok rules)
  (hl : Layout.ofSettings d s .default = .ok l)
include hd hrules hl

/-- A token that the rules pin last has this entry in the graph of the layout, unless it is the
first of the document. -/
theorem entry_of_pinned {r i : Nat} (hr : Significant d.tokens r) (hlt : r < i)
    (hi : Significant d.tokens i) (h : lastRule? i (rules.ofNodes d.nodes) = some (.pin i)) :
    l.graph.entry i = .ok (some (.pin i)) ∧ l.graph.root ≠ some i := by
  obtain ⟨unit, -, hl⟩ := bind_eq_ok.mp hl
  split at hl
  · cases hl
  obtain ⟨g, hbuild, hl⟩ := bind_eq_ok.mp hl
  cases hl
  cases hfirst : (Heads.ofTokens d.tokens).first? with
  | none => exact absurd hi (first?_eq_none hfirst)
  | some root =>
    obtain ⟨g', hbuild', hord, hentry⟩ := entry_build hd descends_default hrules hfirst
    rw [hbuild] at hbuild'
    cases hbuild'
    have hne : i ≠ root.index := by
      obtain ⟨j, hj, -, hblank⟩ := first?_spec hfirst
      rw [indexed_of_tokenized (tokenized_of_read hd) j root hj]
      rintro rfl
      obtain ⟨u, hu, hb⟩ := hr
      rw [hblank r u hlt hu] at hb
      cases hb
    refine ⟨(hentry i hi hne).trans (by rw [h]; rfl), ?_⟩
    show g.root ≠ some i
    rw [hord.hasRoot]
    exact fun heq => hne (Option.some.inj heq).symm

end Check

/-- Every edit of an analysis is that of a record of its layout. -/
theorem recorded_of_mem_edits {text : List Char} {d : Document} {s : Settings}
    {registry : Registry} (hd : Document.read text = .ok d) (hr : registry.Descends)
    {result : CheckResult} (h : check d s registry = .ok result) {e : Edit}
    (he : e ∈ result.edits) :
    ∃ l root r, Layout.ofSettings d s registry = .ok l ∧ l.document = d ∧ l.Grounded root ∧
      l.Recorded r ∧ e = r.mismatch.edit := by
  cases hv : result.settingsFault with
  | true =>
    unfold check at h
    split at h
    · split at h
      · cases h
        cases he
      · cases h
    · obtain ⟨records, -, h⟩ := bind_eq_ok.mp h
      cases h
      cases hv
  | false =>
    obtain ⟨l, records, hl, hrecords, hreports, -⟩ := check_spec h hv
    obtain ⟨records', hrecords', hrec, -⟩ := records_spec hd hr hl
    rw [hrecords] at hrecords'
    cases hrecords'
    obtain ⟨r, hmem, -, rfl⟩ := (mem_edits hreports).mp he
    obtain ⟨root, hground⟩ := grounded_of_recorded hd hr hl (hrec r hmem)
    exact ⟨l, root, r, hl, (ofSettings_spec hd hr hl).1, hground, hrec r hmem, rfl⟩

/-- **Edits leave alone what is to stay as it is**: ignored parts, embedded source that is left
alone, and lines of embedded source that go on with a literal or a statement. -/
theorem edits_spare_verbatim {text : List Char} {d : Document} {s : Settings} {unit : IndentUnit}
    (hd : Document.read text = .ok d)
    (hu : IndentUnit.ofValue s.indentUnit s.mixedAlignment = .ok unit) :
    ∃ rules result, Rules.ofSettings d s .default = .ok rules ∧
      check d s .default = .ok result ∧ ∀ e ∈ result.edits,
        (∀ start stop, rules.Verbatim start stop → e.Spares start stop) ∧
        ∀ t kind tag content endTag language,
          rules.GoesOn t kind tag content endTag language →
            e.line d.text ≠ t.line ∧
              ∃ start, d.lines.start? t.line = some start ∧ e.Spares start t.stop := by
  obtain ⟨rules, hrules⟩ := exists_rules d .default hu
  obtain ⟨result, hresult⟩ := check_ok (s := s) hd descends_default
  refine ⟨rules, result, hrules, hresult, fun e he => ?_⟩
  obtain ⟨rfl, hg, hregistry, htile⟩ := rules_of_settings hd hrules
  obtain ⟨l, root, r, hl, hdoc, hground, hrec, rfl⟩ :=
    recorded_of_mem_edits hd descends_default hresult he
  rw [← hdoc]
  constructor
  · intro start stop h
    obtain ⟨f, k, first, last, hs, rfl, rfl⟩ := h.stretch hg hregistry htile
    obtain ⟨r', hle, hr'⟩ := hs.rooted
    refine spares_of_pinned hground hrec (hdoc ▸ hs.onFirst) (hdoc ▸ hs.onLast) hs.significant ?_
    intro i h1 h2 hi
    rw [hdoc] at hi
    exact entry_of_pinned hd hrules hl hr' (by omega) hi (hs.pinned i h1 h2 hi)
  · intro t kind tag content endTag language h
    obtain ⟨ht, hb, ⟨r', hlt, hr'⟩, hpin, hbefore⟩ := h.pinned hg hregistry htile
    have hentry := entry_of_pinned hd hrules hl hr' hlt ⟨t, ht, hb⟩ hpin
    rw [← hdoc] at ht hbefore
    have hstart := start?_of_tokenAt (hground.tokens.token _ _ ht)
    obtain ⟨h1, h2⟩ := spares_line_of_pinned hground hrec ht hb hstart hentry hbefore
    exact ⟨h1, _, hstart, h2⟩

/-- A line of a block of script goes on by its scan, as a check. -/
def goesOnAt (scans : List Char → List LineScan) (i : Nat) (d : Document) (p : Part) : Bool :=
  match p with
  | .node (.raw _ _ content _ language) =>
    language == "js".toList && match content.filterMap (d.tokens[·]?), d.tokens[i]? with
    | first :: rest, some t => rest.contains t &&
      (contentRegion? d first (rest.getLastD first)).any fun region =>
        ((scans region)[t.line - first.line]?).any fun record =>
          record.continuesLiteral || record.continuesStatement
    | _, _ => false
  | _ => false

/-- Script source goes by its marks. -/
theorem select_script : Registry.default.select "js".toList = .ok (.bracketDepth "script"
    ["js", "javascript", "ts", "typescript", "mjs", "jsx", "tsx"] scriptRules) := by
  have hsup : (Indenter.bracketDepth "script"
      ["js", "javascript", "ts", "typescript", "mjs", "jsx", "tsx"] scriptRules).supports
        "js".toList = true := by decide +kernel
  simp only [Registry.select, Registry.default, List.find?_cons, hsup]
  rfl

theorem goesOn_of_at {rules : Rules} {i : Nat} {t : Token} {p : Part}
    (hp : p ∈ rules.document.parts) (hraw : rules.indentRaw = true)
    (hregistry : rules.registry = .default) (ht : rules.document.tokens[i]? = some t)
    (h : goesOnAt (scan scriptRules) i rules.document p = true) :
    ∃ kind tag content endTag language, rules.GoesOn t kind tag content endTag language := by
  have hsel := hregistry ▸ select_script
  unfold goesOnAt at h
  split at h
  · next kind tag content endTag language =>
    simp only [Bool.and_eq_true, beq_iff_eq] at h
    obtain ⟨rfl, h⟩ := h
    split at h
    · next first rest t' hlist ht' =>
      rw [ht] at ht'
      cases ht'
      simp only [Bool.and_eq_true, List.contains_iff_mem, Option.any_eq_true] at h
      obtain ⟨hmem, region, hregion, record, hrecord, hgoes⟩ := h
      exact ⟨kind, tag, content, endTag, _, hp, hraw, _, _, _, _, _, _, _, hsel, hlist, hmem,
        hregion, hrecord, hgoes⟩
    · cases h
  · cases h

/-- A preformatted element before an element that is moved, and a literal of a script that goes
over lines. -/
theorem edits_spare_verbatim_literal :
    (∃ d result, Document.read "<pre>\n x</pre>\n <b></b>".toList = .ok d ∧
      check d {} .default = .ok result ∧ result.edits = [⟨15, 16, []⟩] ∧
      ∀ e ∈ result.edits, e.Spares 0 14) ∧
    ∃ d result, Document.read "<script>\nlet a = \"\n x\"\n</script>".toList = .ok d ∧
      check d {} .default = .ok result ∧
      ∀ e ∈ result.edits, e.line d.text ≠ 3 ∧ e.Spares 19 22 := by
  constructor
  · obtain ⟨d, hd⟩ := exists_of_isOk
      (show (Document.read "<pre>\n x</pre>\n <b></b>".toList).isOk = true by decide +kernel)
    have hpre : (Document.read "<pre>\n x</pre>\n <b></b>".toList).map (fun d =>
        d.nodes.any (closedAt "pre".toList 0 7)) = .ok true := by decide +kernel
    have htokens : (Document.read "<pre>\n x</pre>\n <b></b>".toList).map (fun d =>
        (d.tokens[0]?.map Token.start, d.tokens[7]?.map Token.stop)) =
      .ok (some 0, some 14) := by decide +kernel
    have hedits : (Document.read "<pre>\n x</pre>\n <b></b>".toList).map (fun d =>
        (check d {} .default).toOption.map CheckResult.edits) = .ok (some [⟨15, 16, []⟩]) := by
      decide +kernel
    rw [hd] at hpre htokens hedits
    obtain ⟨rules, result, hrules, hresult, hall⟩ := edits_spare_verbatim (s := {}) hd rfl
    obtain ⟨rfl, -⟩ := rules_of_settings hd hrules
    have hedits : (check rules.document {} .default).toOption.map CheckResult.edits =
      some [⟨15, 16, []⟩] := Except.ok.inj hedits
    rw [hresult] at hedits
    have htokens := Except.ok.inj htokens
    simp only [Prod.mk.injEq, Option.map_eq_some_iff] at htokens
    obtain ⟨⟨first, hfirst, hstart⟩, last, hlast, hstop⟩ := htokens
    refine ⟨_, result, hd, hresult, Option.some.inj hedits, fun e he => ?_⟩
    obtain ⟨n, hn, h⟩ := List.any_eq_true.mp (Except.ok.inj hpre)
    obtain ⟨tag, children, e', rfl, h0, h7⟩ := element_of_closedAt h
    have hmem : .whole (String.ofList (lower "pre".toList)) ∈ ({} : Settings).ignoredNodes := by
      decide +kernel
    have hignored : rules.Ignored (.node (.element "pre".toList tag children (some e'))) :=
      ⟨_, rfl, ignores_of_mem hrules (lower_lower _) hmem⟩
    have hspares := (hall e he).1 _ _ (.ignored (.top hn) hignored rfl (by rintro _ _ ⟨⟩)
      (show rules.document.tokens[tag.first]? = some first by rw [h0, hfirst])
      (show rules.document.tokens[e'.last]? = some last by rw [h7, hlast]))
    rwa [hstart, hstop] at hspares
  · obtain ⟨d, hd⟩ := exists_of_isOk (show (Document.read
      "<script>\nlet a = \"\n x\"\n</script>".toList).isOk = true by decide +kernel)
    have hscan : scan scriptRules = fun source =>
        let lines := maskedLines false (mask [("//".toList, .lineComment),
          ("/*".toList, .blockComment "*/".toList), ("'".toList, .string "'".toList),
          ("\"".toList, .string "\"".toList), ([Char.ofNat 0x60], .string [Char.ofNat 0x60])]
            scriptRules.escape .code 0 0 source)
        scanFrom scriptRules.continuations 0 none (lines.1 :: lines.2) := by
      funext source
      rw [scan, openers_scriptRules]
    have hscript : (Document.read "<script>\nlet a = \"\n x\"\n</script>".toList).map (fun d =>
        d.parts.any (goesOnAt (scan scriptRules) 4 d)) = .ok true := by
      rw [hscan]
      decide +kernel
    have htokens : (Document.read "<script>\nlet a = \"\n x\"\n</script>".toList).map (fun d =>
        (d.tokens[4]?.map fun t => (t.line, t.stop), d.lines.start? 3)) =
      .ok (some (3, 22), some 19) := by decide +kernel
    rw [hd] at hscript htokens
    obtain ⟨rules, result, hrules, hresult, hall⟩ := edits_spare_verbatim (s := {}) hd rfl
    have hraw : rules.indentRaw = true := by
      obtain ⟨unit, -, h⟩ := bind_eq_ok.mp hrules
      rw [← Except.ok.inj h]
    obtain ⟨rfl, -, hregistry, -⟩ := rules_of_settings hd hrules
    have htokens := Except.ok.inj htokens
    simp only [Prod.mk.injEq, Option.map_eq_some_iff] at htokens
    obtain ⟨⟨t, ht, hline, hstop⟩, hstart⟩ := htokens
    refine ⟨_, result, hd, hresult, fun e he => ?_⟩
    obtain ⟨p, hp, h⟩ := List.any_eq_true.mp (Except.ok.inj hscript)
    obtain ⟨kind, tag, content, endTag, language, hgoes⟩ := goesOn_of_at hp hraw hregistry ht h
    obtain ⟨h1, start, h2, h3⟩ := (hall e he).2 t kind tag content endTag language hgoes
    rw [hline] at h1 h2
    obtain rfl : 19 = start := Option.some.inj (hstart.symm.trans h2)
    rw [hstop] at h3
    exact ⟨h1, h3⟩

/-! ## The ends of an ignored text -/

/-- An edit of an analysis changes something between the ends of an ignored text at the top of the
document. -/
def MeetsText (d : Document) (s : Settings) : Prop :=
  ∃ rules result, Rules.ofSettings d s .default = .ok rules ∧ check d s .default = .ok result ∧
    ∃ i j first last, .text i j ∈ d.nodes ∧ rules.Ignored (.node (.text i j)) ∧
      d.tokens[i]? = some first ∧ d.tokens[j]? = some last ∧
      ∃ e ∈ result.edits, ¬ e.Spares first.start last.stop

/-- The same as a check. -/
def meetsTextAt (d : Document) (s : Settings) : Bool :=
  match Rules.ofSettings d s .default, check d s .default with
  | .ok rules, .ok result => rules.ignores "text".toList && d.nodes.any fun n => match n with
    | .text i j => match d.tokens[i]?, d.tokens[j]? with
      | some first, some last => result.edits.any fun e =>
        (first.start : Int) < e.stop && e.start < (last.stop : Int)
      | _, _ => false
    | _ => false
  | _, _ => false

theorem meetsText_of_at {d : Document} {s : Settings} (h : meetsTextAt d s = true) :
    MeetsText d s := by
  unfold meetsTextAt at h
  split at h
  · next rules result hrules hresult =>
    simp only [Bool.and_eq_true, List.any_eq_true] at h
    obtain ⟨hi, n, hn, h⟩ := h
    split at h
    · next i j =>
      split at h
      · next first last hfirst hlast =>
        simp only [List.any_eq_true, Bool.and_eq_true, decide_eq_true_eq] at h
        obtain ⟨e, he, h1, h2⟩ := h
        have hdoc : rules.document = d := by
          obtain ⟨unit, -, h⟩ := bind_eq_ok.mp hrules
          cases h
          rfl
        refine ⟨rules, result, hrules, hresult, i, j, first, last, hn, ⟨_, rfl, hi⟩, hfirst, hlast,
          e, he, ?_⟩
        rw [Edit.Spares]
        omega
      · cases h
    · cases h
  · cases h

/-- **The blanks at the ends of an ignored text do not stay.** Those before the first significant
token of the document are the margin of its root, and those at the end of a text are the margin of
what follows it. -/
theorem edits_meet_text :
    (∃ d, Document.read "\n  foo".toList = .ok d ∧ MeetsText d { ignoredNodes := ["text"] }) ∧
    ∃ d, Document.read "foo\n   <b></b>".toList = .ok d ∧
      MeetsText d { ignoredNodes := ["text"] } := by
  have key : ∀ text : String, (Document.read text.toList).map
      (meetsTextAt · { ignoredNodes := ["text"] }) = .ok true →
        ∃ d, Document.read text.toList = .ok d ∧ MeetsText d { ignoredNodes := ["text"] } := by
    intro text h
    cases hd : Document.read text.toList with
    | error e =>
      rw [hd] at h
      cases h
    | ok d =>
      rw [hd] at h
      exact ⟨d, rfl, meetsText_of_at (Except.ok.inj h)⟩
  exact ⟨key _ (by decide +kernel), key _ (by decide +kernel)⟩

end MarkupIndent.Margin
