import MarkupIndent.Proofs.GraphOrder
import MarkupIndent.Proofs.ScanLines

/-!
# What nodes declare

Every node declares offsets on its own tokens, and its tokens lie in the places that the tree gives
them. So a base is always before its targets, whichever node speaks: the opening sign before what
it opens, the key before its value, the first attribute before the others, the first line of
embedded source before the lines after it.

There are few sorts of declarations. They are told apart once, tag by tag and node by node, and
what holds of each sort holds of all that is declared.

* `Indenter.Descends`: an indenter that only looks back, as those of the default registry do.
* `Declaration.Owned`, `Rules.Declared`: what tags declare about a stretch of tokens, and nodes.
* `declared_ofNode`: **what a node declares is about its own tokens.**
* `Declared.descends`: what is declared descends.
-/

namespace MarkupIndent.Margin

open Markup Settings Text

/-- Declarations that all descend. -/
def AllDescend (tokens : Array Token) (ds : List Declaration) : Prop :=
  ∀ d ∈ ds, d.Descends tokens

section Lists

variable {tokens : Array Token} {a : List Declaration}

theorem allDescend_nil : AllDescend tokens [] := by simp [AllDescend]

theorem allDescend_cons {d : Declaration} (hd : d.Descends tokens) (h : AllDescend tokens a) :
    AllDescend tokens (d :: a) :=
  List.forall_mem_cons.mpr ⟨hd, h⟩

end Lists

theorem descends_relative {tokens : Array Token} {first last base : Nat} (h : base < first)
    (hb : Significant tokens base) :
    (Declaration.range first last base .relative 1).Descends tokens :=
  ⟨h, hb, by simp, by simp, by decide⟩

theorem descends_same {tokens : Array Token} {target base : Nat} (h : base < target)
    (ht : Significant tokens target) (hb : Significant tokens base) :
    (Declaration.offset target base .same 0).Descends tokens :=
  ⟨ht, hb, by simp, Int.le_refl 0, by simp, fun _ => h⟩

/-! ## Embedded source -/

/-- The tokens of embedded source stand in order after the token that opens it. -/
structure Content (tokens : Array Token) (opener : Nat) (content : List Token) : Prop where
  onOpener : Significant tokens opener
  mem : ∀ t ∈ content, tokens[t.index]? = some t ∧ t.isBlank = false ∧ opener < t.index
  ordered : content.Pairwise fun s t => s.index < t.index

/-- An indenter hangs embedded source on tokens before it or pins it. -/
def Indenter.Descends (indenter : Indenter) : Prop :=
  ∀ (d : Document) (opener : Nat) (content : List Token),
    Tokenized d.text d.text.length d.tokens → Content d.tokens opener content →
      AllDescend d.tokens (indenter.declarations content opener d)

theorem descends_pinSelf {tokens : Array Token} {t : Token} (ht : tokens[t.index]? = some t)
    (hb : t.isBlank = false) :
    (Declaration.offset t.index t.index .pinned 0).Descends tokens :=
  ⟨⟨t, ht, hb⟩, ⟨t, ht, hb⟩, by simp, Int.le_refl 0, fun _ => rfl, by simp⟩

theorem descends_pinned (name : String) : (Indenter.pinned name).Descends := by
  intro d opener content _ hc e he
  obtain ⟨t, ht, rfl⟩ := List.mem_map.mp he
  exact descends_pinSelf (hc.mem t ht).1 (hc.mem t ht).2.1

/-- The last token of a list ends where all its tokens have ended. -/
theorem start_le_stop_getLastD {text : List Char} {tokens : Array Token} {root t : Token}
    {rest : List Token} (htok : Tokenized text text.length tokens)
    (hmem : ∀ t ∈ root :: rest, tokens[t.index]? = some t)
    (hord : (root :: rest).Pairwise fun s t => s.index < t.index) (ht : t ∈ root :: rest) :
    t.start ≤ (rest.getLastD root).stop ∧ tokens[(rest.getLastD root).index]? =
      some (rest.getLastD root) := by
  induction rest generalizing root t with
  | nil =>
    obtain rfl := List.mem_singleton.mp ht
    have := (htok.token _ _ (hmem t (by simp))).lt
    exact ⟨Nat.le_of_lt this, hmem t (by simp)⟩
  | cons next rest ih =>
    have hrest := List.pairwise_cons.mp hord
    rw [List.getLastD_cons]
    rcases List.mem_cons.mp ht with rfl | ht
    · obtain ⟨h1, h2⟩ := ih (fun u hu => hmem u (List.mem_cons_of_mem _ hu)) hrest.2
        List.mem_cons_self
      have h3 := (htok.token _ _ (hmem t (by simp))).lt
      have h4 := htok.ordered _ _ _ _ (hrest.1 next List.mem_cons_self) (hmem t (by simp))
        (hmem next (by simp))
      exact ⟨by omega, h2⟩
    · exact ih (fun u hu => hmem u (List.mem_cons_of_mem _ hu)) hrest.2 ht

/-- The region of embedded source: the margin of its first line, and the text to its end. -/
theorem contentRegion?_eq {d : Document} {i : Nat} {first last : Token}
    (h : TokenAt d.text i first) (hle : first.start ≤ last.stop) :
    contentRegion? d first last = some (lastLine (d.text.take first.start) ++
      (d.text.drop first.start).take (last.stop - first.start)) := by
  have hlt := h.lt
  have hlen := h.le
  have hfirst : (d.text.take first.start).length = first.start := by
    rw [List.length_take, Nat.min_eq_left (by omega)]
  have := upTo_line (d.text.take first.start) (d.text.drop first.start)
    (last.stop - first.start)
  rw [hfirst, Nat.add_sub_cancel' hle] at this
  rw [contentRegion?, d.lines_eq, line?_of_tokenAt h, Option.map_some, this]

/-- The region of embedded source has a line for each of its tokens. -/
theorem line_lt_of_region {text : List Char} {i j : Nat} {first t : Token} {stop : Nat}
    (hf : TokenAt text i first) (ht : TokenAt text j t) (h1 : first.start ≤ t.start)
    (h2 : t.start ≤ stop) :
    t.line - first.line < (lastLine (text.take first.start) ++
      (text.drop first.start).take (stop - first.start)).count '\n' + 1 := by
  have hlast := List.count_eq_zero.mpr (newline_not_mem_lastLine (text.take first.start))
  have hsplit : text.take t.start = text.take first.start ++
      (text.drop first.start).take (t.start - first.start) := by
    rw [← List.take_add, Nat.add_sub_cancel' h1]
  have hle := count_take_le (text.drop first.start)
    (show t.start - first.start ≤ stop - first.start by omega)
  rw [hf.line, ht.line, hsplit, List.count_append, List.count_append, hlast]
  omega

theorem descends_bracketDeclarations {rules : LexicalRules} (hr : rules.Plain) {d : Document}
    {opener : Nat} {content : List Token} (htok : Tokenized d.text d.text.length d.tokens)
    (hc : Content d.tokens opener content) :
    AllDescend d.tokens (bracketDeclarations rules content opener d) := by
  cases content with
  | nil => exact allDescend_nil
  | cons root rest =>
    obtain ⟨hroot, hrb, hopen⟩ := hc.mem root List.mem_cons_self
    have hmem : ∀ t ∈ root :: rest, d.tokens[t.index]? = some t := fun t ht => (hc.mem t ht).1
    have hfirst : (Declaration.offset root.index opener .relative 1).Descends d.tokens :=
      ⟨⟨root, hroot, hrb⟩, hc.onOpener, by simp, by decide, by simp, fun _ => hopen⟩
    refine allDescend_cons hfirst ?_
    have hle := (start_le_stop_getLastD htok hmem hc.ordered List.mem_cons_self).1
    rw [contentRegion?_eq (htok.token _ _ hroot) hle]
    intro e he
    obtain ⟨t, ht, rfl⟩ := List.mem_map.mp he
    obtain ⟨hti, htb, -⟩ := hc.mem t (List.mem_cons_of_mem _ ht)
    have hlt := (List.pairwise_cons.mp hc.ordered).1 t ht
    have hstart := htok.ordered _ _ _ _ hlt hroot hti
    have hrlt := (htok.token _ _ hroot).lt
    have hstop := (start_le_stop_getLastD htok hmem hc.ordered (List.mem_cons_of_mem _ ht)).1
    have hline := line_lt_of_region (htok.token _ _ hroot) (htok.token _ _ hti) (by omega) hstop
    rw [← length_scan hr.marksOf] at hline
    rw [bracketRule, List.getElem?_toArray, List.getElem?_eq_getElem hline]
    simp only
    split
    · exact descends_pinSelf hti htb
    split
    · exact descends_same hlt ⟨t, hti, htb⟩ ⟨root, hroot, hrb⟩
    · exact ⟨⟨t, hti, htb⟩, ⟨root, hroot, hrb⟩, by simp, by omega, by simp, fun _ => hlt⟩

/-- The registry has an indenter for every language, and all of them look back only. -/
def Registry.Descends (registry : Registry) : Prop :=
  ∀ language, ∃ indenter, registry.select language = .ok indenter ∧ indenter.Descends

theorem descends_default : Registry.default.Descends := by
  intro language
  have hb : ∀ name languages rules, rules.Plain →
      (Indenter.bracketDepth name languages rules).Descends :=
    fun _ _ _ hr _ _ _ htok hc => descends_bracketDeclarations hr htok hc
  have hall : ∀ i ∈ Registry.default.indenters, i.Descends := by
    intro i hi
    simp only [Registry.default, List.mem_cons, List.not_mem_nil, or_false] at hi
    rcases hi with rfl | rfl | rfl
    · exact hb _ _ _ plain_scriptRules
    · exact hb _ _ _ plain_styleRules
    · exact hb _ _ _ plain_sassRules
  unfold Registry.select
  cases hf : Registry.default.indenters.find? fun i => i.supports language with
  | none => exact ⟨_, rfl, descends_pinned "pinned"⟩
  | some i => exact ⟨i, rfl, hall i (List.mem_of_find?_eq_some hf)⟩

/-! ## What is declared -/

/-- What parts of the tree declare about the tokens after `lo` up to `hi`: some of them keep their
lines as they are, or hang on a token before them, from `lo` on. Tokens are aligned if `align` is
set, and only then. -/
inductive Declaration.Owned (tokens : Array Token) (align : Bool) (lo hi : Nat) :
    Declaration → Prop where
  | pin {first last : Nat} : lo < first → last ≤ hi → Owned tokens align lo hi (.pin first last)
  | deeper {first last base : Nat} : Significant tokens base → lo ≤ base → base < first →
      last ≤ hi → Owned tokens align lo hi (.range first last base .relative 1)
  | asDeep {target base : Nat} : Significant tokens base → Significant tokens target →
      lo ≤ base → base < target → target ≤ hi →
      Owned tokens align lo hi (.offset target base .same 0)
  | aligned {target base : Nat} : align = true → Significant tokens base →
      Significant tokens target → lo ≤ base → base < target → target ≤ hi →
      Owned tokens align lo hi (.offset target base .align 0)

namespace Declaration.Owned

variable {tokens : Array Token} {align : Bool} {lo hi : Nat} {d : Declaration}

theorem mono {lo' hi' : Nat} (h : d.Owned tokens align lo hi) (hlo : lo' ≤ lo) (hhi : hi ≤ hi') :
    d.Owned tokens align lo' hi' := by
  cases h with
  | pin h1 h2 => exact .pin (Nat.lt_of_le_of_lt hlo h1) (h2.trans hhi)
  | deeper hb h1 h2 h3 => exact .deeper hb (hlo.trans h1) h2 (h3.trans hhi)
  | asDeep hb ht h1 h2 h3 => exact .asDeep hb ht (hlo.trans h1) h2 (h3.trans hhi)
  | aligned ha hb ht h1 h2 h3 => exact .aligned ha hb ht (hlo.trans h1) h2 (h3.trans hhi)

theorem descends (h : d.Owned tokens align lo hi) : d.Descends tokens := by
  cases h with
  | pin => trivial
  | deeper hb _ h _ => exact descends_relative h hb
  | asDeep hb ht _ h _ => exact descends_same h ht hb
  | aligned _ hb ht _ h _ => exact ⟨ht, hb, by simp, Int.le_refl 0, by simp, fun _ => h⟩

end Declaration.Owned

namespace Rules

/-- The rules are about the tokens of a text, and their registry looks back only. -/
structure Grounded (rules : Rules) : Prop where
  heads : rules.heads = .ofTokens rules.document.tokens
  tokens : Tokenized rules.document.text rules.document.text.length rules.document.tokens
  registry : rules.registry.Descends

/-- Declarations that tags and expressions make about a stretch of tokens. -/
def AllOwned (rules : Rules) (lo hi : Nat) (ds : List Declaration) : Prop :=
  ∀ d ∈ ds, d.Owned rules.document.tokens rules.alignAttributes lo hi

/-- What a node declares about a stretch of tokens: as tags and expressions do, or about the content
of a script or style block in it. -/
inductive Declared (rules : Rules) (lo hi : Nat) (d : Declaration) : Prop where
  | owned : d.Owned rules.document.tokens rules.alignAttributes lo hi → Declared rules lo hi d
  | content {opener first n : Nat} {language : List Char} :
      Significant rules.document.tokens opener → lo ≤ opener → opener < first →
      first + n ≤ hi + 1 → (∀ i ∈ List.range' first n, ∃ t,
        rules.document.tokens[i]? = some t ∧ t.kind = .rawText) →
      d ∈ rules.ofContent (List.range' first n) opener language → Declared rules lo hi d

/-- Declarations that nodes make about a stretch of tokens. -/
def AllDeclared (rules : Rules) (lo hi : Nat) (ds : List Declaration) : Prop :=
  ∀ d ∈ ds, rules.Declared lo hi d

section Lists

variable {rules : Rules} {lo hi lo' hi' : Nat} {a b : List Declaration}

theorem allOwned_nil : rules.AllOwned lo hi [] := by simp [AllOwned]

theorem allOwned_cons {d : Declaration}
    (hd : d.Owned rules.document.tokens rules.alignAttributes lo hi) (h : rules.AllOwned lo hi a) :
    rules.AllOwned lo hi (d :: a) :=
  List.forall_mem_cons.mpr ⟨hd, h⟩

theorem allOwned_single {d : Declaration}
    (hd : d.Owned rules.document.tokens rules.alignAttributes lo hi) : rules.AllOwned lo hi [d] :=
  allOwned_cons hd allOwned_nil

theorem allOwned_append (ha : rules.AllOwned lo hi a) (hb : rules.AllOwned lo hi b) :
    rules.AllOwned lo hi (a ++ b) :=
  List.forall_mem_append.mpr ⟨ha, hb⟩

theorem allOwned_flatMap {α : Type} {xs : List α} {f : α → List Declaration}
    (h : ∀ x ∈ xs, rules.AllOwned lo hi (f x)) : rules.AllOwned lo hi (xs.flatMap f) := by
  intro d hd
  obtain ⟨x, hx, hdx⟩ := List.mem_flatMap.mp hd
  exact h x hx d hdx

theorem AllOwned.mono (h : rules.AllOwned lo hi a) (hlo : lo' ≤ lo) (hhi : hi ≤ hi') :
    rules.AllOwned lo' hi' a :=
  fun d hd => (h d hd).mono hlo hhi

theorem AllOwned.declared (h : rules.AllOwned lo hi a) (hlo : lo' ≤ lo) (hhi : hi ≤ hi') :
    rules.AllDeclared lo' hi' a :=
  fun d hd => .owned ((h d hd).mono hlo hhi)

theorem allDeclared_append (ha : rules.AllDeclared lo hi a) (hb : rules.AllDeclared lo hi b) :
    rules.AllDeclared lo hi (a ++ b) :=
  List.forall_mem_append.mpr ⟨ha, hb⟩

theorem AllDeclared.mono (h : rules.AllDeclared lo hi a) (hlo : lo' ≤ lo) (hhi : hi ≤ hi') :
    rules.AllDeclared lo' hi' a := by
  intro d hd
  cases h d hd with
  | owned hd => exact .owned (hd.mono hlo hhi)
  | content ho h1 h2 h3 hraw hd => exact .content ho (hlo.trans h1) h2 (by omega) hraw hd

end Lists

/-! ## Tags -/

section Tags

variable {rules : Rules} (hg : rules.Grounded)
include hg

theorem owned_ofBraces {first last : Nat} (hm : Marked rules.document.tokens first (last + 1))
    (hlt : first < last) : rules.AllOwned first last (rules.ofBraces first last) := by
  have hbase := significant_of_marked hm (Nat.le_refl first) (by omega)
  unfold ofBraces
  split
  · refine allOwned_cons
      (.deeper hbase (Nat.le_refl first) (Nat.lt_succ_self first) (Nat.le_refl last)) fun e he => ?_
    obtain ⟨t, ht, rfl⟩ := List.mem_map.mp he
    rw [hg.heads, List.mem_filter, mem_between] at ht
    obtain ⟨⟨i, h1, h2, hi, hb⟩, -⟩ := ht
    rw [indexed_of_tokenized hg.tokens i t hi]
    exact .asDeep hbase ⟨t, hi, hb⟩ (Nat.le_refl first) (by omega) (by omega)
  · exact allOwned_nil

theorem owned_ofMustache {m : Mustache} (hm : m.Fits rules.document.tokens) :
    rules.AllOwned m.first m.last (rules.ofMustache m) := by
  unfold ofMustache
  split
  · exact allOwned_single (.pin (Nat.lt_succ_self _) (Nat.le_refl _))
  · exact owned_ofBraces hg hm.marked hm.lt

theorem owned_ofAttribute {a : Attribute} (ha : a.Fits rules.document.tokens) :
    rules.AllOwned a.first a.last (rules.ofAttribute a) := by
  have hvalues : rules.AllOwned a.first a.last (a.values.flatMap rules.ofMustache) :=
    allOwned_flatMap fun m hm => by
      obtain ⟨h1, h2, h3⟩ := ha.values m hm
      exact (owned_ofMustache hg h1).mono h2 h3
  unfold ofAttribute
  split
  · exact allOwned_single (.pin (Nat.lt_succ_self _) (Nat.le_refl _))
  split
  · exact hvalues
  · next key hkey =>
    have hle := ha.le
    obtain rfl := ha.key key hkey
    have hbase := significant_of_marked ha.marked (Nat.le_refl a.first) (by omega)
    refine allOwned_cons
      (.deeper hbase (Nat.le_refl _) (Nat.lt_succ_self _) (Nat.le_refl _)) ?_
    split
    · exact hvalues
    · exact allOwned_nil

omit hg in
/-- Attributes are aligned with one that stands before them. -/
theorem owned_ofAlignment {tag : StartTag} (ht : tag.Fits rules.document.tokens) :
    rules.AllOwned tag.first tag.last (rules.ofAlignment tag) := by
  have hattributes := ht.attributes
  unfold ofAlignment
  split
  · next first rest hlist =>
    rw [hlist] at hattributes
    obtain ⟨hf, hfirst, hrest⟩ := hattributes
    have hle := hfirst.le
    have hstop := hrest.le
    split
    · next halign =>
      intro e he
      obtain ⟨a, ha, rfl⟩ := List.mem_map.mp he
      obtain ⟨h1, h2, h3⟩ := hrest.bounds a ha
      have h4 := h1.le
      exact .aligned (Bool.and_eq_true_iff.mp halign).1
        (significant_of_marked hfirst.marked (Nat.le_refl first.first) (by omega))
        (significant_of_marked h1.marked (Nat.le_refl a.first) (by omega))
        (by omega) (by omega) (by omega)
    · exact allOwned_nil
  · exact allOwned_nil

theorem owned_ofStartTag {tag : StartTag} (ht : tag.Fits rules.document.tokens) :
    rules.AllOwned tag.first tag.last (rules.ofStartTag tag) := by
  have hlt := ht.lt
  have hfirst := significant_of_marked ht.marked (Nat.le_refl tag.first) (by omega)
  have hlast := significant_of_marked ht.marked (i := tag.last) (by omega) (by omega)
  unfold ofStartTag
  split
  · exact allOwned_single (.pin (Nat.lt_succ_self _) (Nat.le_refl _))
  · refine allOwned_cons (.deeper hfirst (Nat.le_refl _) (Nat.lt_succ_self _) (Nat.le_refl _))
      (allOwned_append (allOwned_append (owned_ofAlignment ht) ?_) ?_)
    · split
      · exact allOwned_single (.asDeep hfirst hlast (Nat.le_refl _) (by omega) (Nat.le_refl _))
      · exact allOwned_nil
    · refine allOwned_flatMap fun a ha => ?_
      obtain ⟨h1, h2, h3⟩ := ht.attributes.bounds a ha
      exact (owned_ofAttribute hg h1).mono (by omega) (by omega)

omit hg in
theorem owned_ofEndTag {tag : EndTag} (ht : tag.Fits rules.document.tokens) :
    rules.AllOwned tag.first tag.last (rules.ofEndTag tag) := by
  have hlt := ht.last
  have hfirst := significant_of_marked ht.marked (Nat.le_refl tag.first) (by omega)
  have hlast := significant_of_marked ht.marked (i := tag.last) (by omega) (by omega)
  unfold ofEndTag
  split
  · exact allOwned_single (.pin (Nat.lt_succ_self _) (Nat.le_refl _))
  · refine allOwned_cons (.deeper hfirst (Nat.le_refl _) (Nat.lt_succ_self _) (by omega)) ?_
    split
    · exact allOwned_single (.asDeep hfirst hlast (Nat.le_refl _) (by omega) (Nat.le_refl _))
    · exact allOwned_nil

omit hg in
theorem owned_ofBranchTag {opener hi : Nat} {tag following : BlockTag}
    (ho : Significant rules.document.tokens opener) (hle : opener ≤ tag.first)
    (ht : tag.Fits rules.document.tokens) (hlast : tag.last ≤ hi) (hhi : following.first ≤ hi) :
    rules.AllOwned opener hi (ofBranchTag opener tag following) := by
  have hlt := ht.lt
  have hfirst := significant_of_marked ht.marked (Nat.le_refl tag.first) (by omega)
  refine allOwned_append ?_ (allOwned_single (.deeper hfirst hle (by omega) (by omega)))
  split
  · exact allOwned_nil
  · exact allOwned_single (.asDeep ho hfirst (Nat.le_refl _) (by omega) (by omega))

omit hg in
theorem owned_ofBranchTags {opener hi : Nat} {tags : List BlockTag}
    (ho : Significant rules.document.tokens opener)
    (htags : ∀ tag ∈ tags, opener ≤ tag.first ∧ tag.last ≤ hi ∧ tag.Fits rules.document.tokens) :
    rules.AllOwned opener hi (ofBranchTags opener tags) := by
  fun_induction ofBranchTags opener tags with
  | case1 tag following rest ih =>
    obtain ⟨h1, h2, h3⟩ := htags tag (by simp)
    obtain ⟨-, h4, h5⟩ := htags following (by simp)
    have := h5.lt
    exact allOwned_append (owned_ofBranchTag ho h1 h3 h2 (by omega))
      (ih fun t ht => htags t (List.mem_cons_of_mem _ ht))
  | case2 => exact allOwned_nil

/-- The content of a raw block stands in order after the tag that opens it. -/
theorem content_tokensAt {opener lo n : Nat} (ho : Significant rules.document.tokens opener)
    (hlo : opener < lo) (hraw : ∀ i ∈ List.range' lo n, ∃ t,
      rules.document.tokens[i]? = some t ∧ t.kind = .rawText) :
    Content rules.document.tokens opener (rules.tokensAt (List.range' lo n)) where
  onOpener := ho
  mem := by
    intro t ht
    obtain ⟨i, hi, hti⟩ := List.mem_filterMap.mp ht
    obtain ⟨u, hu, hk⟩ := hraw i hi
    rw [hti] at hu
    cases hu
    rw [indexed_of_tokenized hg.tokens i t hti]
    refine ⟨hti, by simp [Token.isBlank, hk], ?_⟩
    have := (List.mem_range'_1.mp hi).1
    omega
  ordered := by
    refine (List.pairwise_lt_range' (s := lo) (n := n)).filterMap _ fun i j hij t ht u hu => ?_
    rw [indexed_of_tokenized hg.tokens i t ht, indexed_of_tokenized hg.tokens j u hu]
    exact hij

theorem descends_ofContent {opener lo n : Nat} {language : List Char}
    (ho : Significant rules.document.tokens opener) (hlo : opener < lo)
    (hraw : ∀ i ∈ List.range' lo n, ∃ t,
      rules.document.tokens[i]? = some t ∧ t.kind = .rawText) :
    AllDescend rules.document.tokens (rules.ofContent (List.range' lo n) opener language) := by
  have hc := content_tokensAt hg ho hlo hraw
  unfold ofContent
  split
  · exact allDescend_nil
  · next first rest hlist =>
    rw [hlist] at hc
    split
    · obtain ⟨indenter, hsel, hind⟩ := hg.registry language
      rw [hsel]
      exact hind _ _ _ hg.tokens hc
    · exact allDescend_cons trivial allDescend_nil

/-- **What is declared descends.** -/
theorem Declared.descends {lo hi : Nat} {d : Declaration} (h : rules.Declared lo hi d) :
    d.Descends rules.document.tokens := by
  cases h with
  | owned h => exact h.descends
  | content ho _ hlt _ hraw hd => exact descends_ofContent hg ho hlt hraw d hd

end Tags

/-! ## Nodes -/

/-- The tags of the branches of a block stand in order. -/
theorem tags_of_branchesTile {tokens : Array Token} {lo hi : Nat} {branches : List Branch}
    (h : BranchesTile tokens lo branches hi) :
    ∀ tag ∈ branches.map Branch.tag, lo ≤ tag.first ∧ tag.last < hi ∧ tag.Fits tokens := by
  induction branches generalizing lo with
  | nil => simp
  | cons b rest ih =>
    cases b with
    | mk tag children =>
      obtain ⟨h1, h2, mid, h3, h4⟩ := h
      have hle := h3.le
      have hlt := h2.lt
      have hrest := BranchesTile.le _ rest _ h4
      intro u hu
      rcases List.mem_cons.mp hu with rfl | hu
      · exact ⟨Nat.le_of_eq h1.symm, Nat.lt_of_lt_of_le (Nat.lt_of_succ_le hle) hrest, h2⟩
      · obtain ⟨h5, h6, h7⟩ := ih h4 u hu
        exact ⟨by omega, h6, h7⟩

/-- The tags of a control block lie in it. -/
theorem tags_of_control {tokens : Array Token} {openTag closeTag : BlockTag} {mid : Nat}
    {branches : List Branch} (ho : openTag.Fits tokens) (hmid : openTag.last < mid)
    (h : BranchesTile tokens mid branches closeTag.first) (hc : closeTag.Fits tokens) :
    ∀ tag ∈ openTag :: (branches.map Branch.tag ++ [closeTag]),
      openTag.first ≤ tag.first ∧ tag.last ≤ closeTag.last ∧ tag.Fits tokens := by
  have hlt := ho.lt
  have hclt := hc.lt
  have hle := BranchesTile.le _ branches _ h
  intro tag htag
  rcases List.mem_cons.mp htag with rfl | htag
  · exact ⟨Nat.le_refl _, by omega, ho⟩
  rcases List.mem_append.mp htag with htag | htag
  · obtain ⟨h1, h2, h3⟩ := tags_of_branchesTile h tag htag
    exact ⟨by omega, by omega, h3⟩
  · obtain rfl := List.mem_singleton.mp htag
    exact ⟨by omega, Nat.le_refl _, hc⟩

mutual

/-- **What a node declares is about its own tokens**: about those after its first one, on bases from
that one on. -/
theorem declared_ofNode {rules : Rules} (hg : rules.Grounded) :
    (n : Node) → n.Fits rules.document.tokens → rules.AllDeclared n.first n.last (rules.ofNode n)
  | .text _ _, _ | .comment _ _, _ => by
    refine AllOwned.declared ?_ (Nat.le_refl _) (Nat.le_refl _)
    unfold ofNode
    split
    · exact allOwned_single (.pin (Nat.lt_succ_self _) (Nat.le_refl _))
    · exact allOwned_nil
  | .mustache _, h => by
    unfold ofNode
    exact (owned_ofMustache hg h).declared (Nat.le_refl _) (Nat.le_refl _)
  | .element _ tag children none, h => by
    obtain ⟨h1, rfl, -⟩ := h
    refine AllOwned.declared ?_ (Nat.le_refl _) (Nat.le_refl _)
    unfold ofNode
    split
    · exact allOwned_single (.pin (Nat.lt_succ_self _) (Nat.le_refl _))
    · simp only [List.nil_append, Option.toList_none, List.flatMap_nil, List.append_nil, ofNodes]
      exact owned_ofStartTag hg h1
  | .element _ tag children (some e), h => by
    obtain ⟨h1, h2, h3, -⟩ := h
    have hlt := h1.lt
    have hle := h2.le
    have hlast := h3.last
    have hfirst := significant_of_marked h1.marked (Nat.le_refl tag.first) (by omega)
    have hend := significant_of_marked h3.marked (Nat.le_refl e.first) (by omega)
    unfold ofNode
    split
    · exact (allOwned_single (.pin (Nat.lt_succ_self _) (Nat.le_refl _))).declared
        (Nat.le_refl _) (Nat.le_refl _)
    · show rules.AllDeclared tag.first e.last _
      refine allDeclared_append (allDeclared_append (allDeclared_append ?_
        ((owned_ofStartTag hg h1).declared (Nat.le_refl _) (by omega))) ?_)
        ((declared_ofNodes hg children _ _ e.last h2 (by omega)).mono (by omega) (Nat.le_refl _))
      · exact (allOwned_cons (.deeper hfirst (Nat.le_refl _) (by omega) (by omega))
          (allOwned_single (.asDeep hfirst hend (Nat.le_refl _) (by omega)
            (by omega)))).declared (Nat.le_refl tag.first) (Nat.le_refl e.last)
      · simp only [Option.toList_some, List.flatMap_cons, List.flatMap_nil, List.append_nil]
        exact (owned_ofEndTag h3).declared (by omega) (Nat.le_refl _)
  | .raw _ tag content e _, h => by
    obtain ⟨h1, h2, h3, h4, h5, -⟩ := h
    have hlt := h1.lt
    have hlast := h5.last
    have hfirst := significant_of_marked h1.marked (Nat.le_refl tag.first) (by omega)
    have hend := significant_of_marked h5.marked (Nat.le_refl e.first) (by omega)
    rw [h3] at h4
    unfold ofNode
    split
    · exact (allOwned_single (.pin (Nat.lt_succ_self _) (Nat.le_refl _))).declared
        (Nat.le_refl _) (Nat.le_refl _)
    · show rules.AllDeclared tag.first e.last _
      rw [h3]
      refine allDeclared_append (allDeclared_append
        ((owned_ofStartTag hg h1).declared (Nat.le_refl _) (by omega)) fun d hd =>
          .content hfirst (Nat.le_refl _) (by omega) (by omega) h4 hd) ?_
      exact (allOwned_cons (.asDeep hfirst hend (Nat.le_refl _) (by omega) (by omega))
        ((owned_ofEndTag h5).mono (by omega) (Nat.le_refl _))).declared (Nat.le_refl tag.first)
          (Nat.le_refl e.last)
  | .control openTag children branches closeTag, h => by
    obtain ⟨h1, ⟨mid, h2, h3⟩, h4, -⟩ := h
    have hlt := h1.lt
    have hclt := h4.lt
    have hle := h2.le
    have hble := BranchesTile.le _ branches _ h3
    have hfirst := significant_of_marked h1.marked (Nat.le_refl openTag.first) (by omega)
    have hclose := significant_of_marked h4.marked (Nat.le_refl closeTag.first) (by omega)
    have htags := owned_ofBranchTags hfirst (tags_of_control h1 hle h3 h4)
    unfold ofNode
    split
    · exact (allOwned_single (.pin (Nat.lt_succ_self _) (Nat.le_refl _))).declared
        (Nat.le_refl _) (Nat.le_refl _)
    · show rules.AllDeclared openTag.first closeTag.last _
      refine allDeclared_append (htags.declared (Nat.le_refl _) (Nat.le_refl _))
        (List.forall_mem_cons.mpr
          ⟨.owned (.asDeep hfirst hclose (Nat.le_refl _) (by omega) (by omega)), ?_⟩)
      refine allDeclared_append (allDeclared_append (allDeclared_append
        ((owned_ofBraces hg h1.marked hlt).declared (Nat.le_refl _) (by omega)) ?_) ?_)
        ((owned_ofBraces hg h4.marked hclt).declared (by omega) (Nat.le_refl _))
      · exact (declared_ofNodes hg children _ _ closeTag.last h2 (by omega)).mono (by omega)
          (Nat.le_refl _)
      · exact (declared_ofBranches hg branches _ _ closeTag.last h3 (by omega)).mono (by omega)
          (Nat.le_refl _)

theorem declared_ofNodes {rules : Rules} (hg : rules.Grounded) :
    (nodes : List Node) → (lo hi top : Nat) → NodesTile rules.document.tokens lo nodes hi →
      hi ≤ top + 1 → rules.AllDeclared lo top (rules.ofNodes nodes)
  | [], _, _, _, _, _ => by
    unfold ofNodes
    exact allOwned_nil.declared (Nat.le_refl _) (Nat.le_refl _)
  | n :: rest, lo, hi, top, h, htop => by
    obtain ⟨h1, h2, h3⟩ := h
    have hle := h2.le
    have hrest := h3.le
    unfold ofNodes
    exact allDeclared_append ((declared_ofNode hg n h2).mono (by omega) (by omega))
      ((declared_ofNodes hg rest _ _ top h3 htop).mono (by omega) (Nat.le_refl _))

theorem declared_ofBranches {rules : Rules} (hg : rules.Grounded) :
    (branches : List Branch) → (lo hi top : Nat) →
      BranchesTile rules.document.tokens lo branches hi → hi ≤ top + 1 →
        rules.AllDeclared lo top (rules.ofBranches branches)
  | [], _, _, _, _, _ => by
    unfold ofBranches
    exact allOwned_nil.declared (Nat.le_refl _) (Nat.le_refl _)
  | .mk tag children :: rest, lo, hi, top, h, htop => by
    obtain ⟨h1, h2, mid, h3, h4⟩ := h
    have hlt := h2.lt
    have hle := h3.le
    have hrest := BranchesTile.le _ rest _ h4
    unfold ofBranches
    exact allDeclared_append (allDeclared_append
      ((owned_ofBraces hg h2.marked hlt).declared (by omega) (by omega))
      ((declared_ofNodes hg children _ _ top h3 (by omega)).mono (by omega) (Nat.le_refl _)))
      ((declared_ofBranches hg rest _ _ top h4 htop).mono (by omega) (Nat.le_refl _))

end

end Rules

end MarkupIndent.Margin
