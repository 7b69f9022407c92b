import MarkupIndent.Proofs.Kinship
import MarkupIndent.Proofs.Resolution
import MarkupIndent.Proofs.RuleOrder
import MarkupIndent.Proofs.ShiftedGraph

/-!
# The rules of a mended document

Rules of indentation look at lines and heads, at names and brackets, and at embedded source up to
its margins. When margins before heads are mended and no edit takes a line its head, all of these
stay, so a node of the mended document has the rules that it had.

* `Rules.Shifted`: rules for a document and its mended form.
* `ofBraces_shifted`, `ofStartTag_shifted` and the like: the declarations of tags.
* `ofContent_shifted`: those of embedded source.
* `ofNode_shifted`, `ofNodes_shifted`: those of nodes.
-/

namespace MarkupIndent.Margin

open Markup Settings Text

/-! ## Embedded source -/

/-- **Embedded source is the same up to margins**, so its scan is the same. -/
theorem scan_region {es : List Edit} {k : Nat} {d d' : Document} (h : Remargined es k d d')
    {rules : LexicalRules} (hr : rules.Plain) {first first' last last' : Token}
    (hf : Facing k d.tokens d'.tokens first first') (hl : Facing k d.tokens d'.tokens last last')
    (hle : first.start ≤ last.stop) (hle' : first'.start ≤ last'.stop) :
    scan rules (lastLine (d.text.take first.start) ++
      (d.text.drop first.start).take (last.stop - first.start)) =
    scan rules (lastLine (d'.text.take first'.start) ++
      (d'.text.drop first'.start).take (last'.stop - first'.start)) := by
  obtain ⟨i, hi, hi'⟩ := hf
  obtain ⟨j, hj, hj'⟩ := hl
  have hkf := h.matched.related hi hi'
  have hkl := h.matched.related hj hj'
  have hai := h.tokens.token _ _ hi
  have haj := h.tokens.token _ _ hj
  have haj' := h.tokens'.token _ _ hj'
  have hlt := haj.lt
  have hlt' := haj'.lt
  have hlen := haj.le
  have hend : ∀ {text : List Char} {n : Nat} {t : Token}, TokenAt text n t →
      text.take t.stop = text.take t.start ++ t.text := by
    intro text n t ht
    have := ht.lt
    rw [ht.slice, ← List.take_add, Nat.add_sub_cancel' (by omega)]
  have hsplit : ∀ {text : List Char} {s e : Nat}, s ≤ e →
      text.take e = text.take s ++ (text.drop s).take (e - s) := by
    intro text s e hse
    rw [← List.take_add, Nat.add_sub_cancel' hse]
  -- Both texts up to the end of the region, with and without the region.
  have hslice : Mended es (-1 + ('\n' :: d.text.take last.start).length) last.text last'.text := by
    convert hkl.slice using 1
    rw [List.length_cons, List.length_take]
    omega
  have hall := hkl.start.append hslice
  rw [List.cons_append, List.cons_append, ← hend haj, ← hend haj', hsplit hle, hsplit hle'] at hall
  have hregion := (mended_of_append h.edits.unique hkf.start hall).reindented
  have hstart := lineStart_kin h.tokens hi hkf
  generalize lastLine (d.text.take first.start) = a at hstart ⊢
  generalize lastLine (d'.text.take first'.start) = a' at hstart ⊢
  cases hstart with
  | kept =>
    have := (Reindented.refl a).append hregion
    exact scan_reindented hr (v := []) (w := []) margin_nil margin_nil this
  | @edited e w line _ _ _ hw ht =>
    have := (Reindented.refl line).append hregion
    rw [List.append_assoc, List.append_assoc]
    exact scan_reindented hr hw ht this

/-- An indenter does not look at margins. -/
def Indenter.Steady (indenter : Indenter) : Prop :=
  ∀ (es : List Edit) (k : Nat) (d d' : Document) (opener : Nat) (content content' : List Token),
    Remargined es k d d' → List.Forall₂ (Facing k d.tokens d'.tokens) content content' →
      Content d.tokens (opener + k) content → Content d'.tokens opener content' →
        indenter.declarations content (opener + k) d =
          (indenter.declarations content' opener d').map (Declaration.moved k)

theorem steady_pinned (name : String) : (Indenter.pinned name).Steady := by
  intro es k d d' opener content content' h hfacing _ _
  show content.map _ = (content'.map _).map _
  rw [List.map_map]
  refine map_forall₂ hfacing fun t t' htt' => ?_
  rw [Function.comp_apply, Declaration.moved,
    OffsetGraph.index_facing h.indexed h.indexed' htt']

theorem getLastD_forall₂ {α β : Type} {R : α → β → Prop} {xs : List α} {ys : List β}
    (h : List.Forall₂ R xs ys) {x : α} {y : β} (hxy : R x y) :
    R (xs.getLastD x) (ys.getLastD y) := by
  induction h generalizing x y with
  | nil => exact hxy
  | cons hxy' _ ih =>
    rw [List.getLastD_cons, List.getLastD_cons]
    exact ih hxy'

theorem steady_bracketDeclarations {rules : LexicalRules} (hr : rules.Plain) {es : List Edit}
    {k : Nat} {d d' : Document} {opener : Nat} {content content' : List Token}
    (h : Remargined es k d d')
    (hfacing : List.Forall₂ (Facing k d.tokens d'.tokens) content content')
    (hc : Content d.tokens (opener + k) content) (hc' : Content d'.tokens opener content') :
    bracketDeclarations rules content (opener + k) d =
      (bracketDeclarations rules content' opener d').map (Declaration.moved k) := by
  have hindex : ∀ t t', Facing k d.tokens d'.tokens t t' → t.index = t'.index + k :=
    fun t t' => OffsetGraph.index_facing h.indexed h.indexed'
  have hline : ∀ t t', Facing k d.tokens d'.tokens t t' → t.line = t'.line := by
    rintro t t' ⟨i, hi, hi'⟩
    exact line_kin h.tokens h.tokens' hi hi' (h.matched.related hi hi')
  cases hfacing with
  | nil => rfl
  | @cons root root' rest rest' hroot hrest =>
    have hmem : ∀ t ∈ root :: rest, d.tokens[t.index]? = some t := fun t ht => (hc.mem t ht).1
    have hmem' : ∀ t ∈ root' :: rest', d'.tokens[t.index]? = some t :=
      fun t ht => (hc'.mem t ht).1
    have hle := (start_le_stop_getLastD h.tokens hmem hc.ordered List.mem_cons_self).1
    have hle' := (start_le_stop_getLastD h.tokens' hmem' hc'.ordered List.mem_cons_self).1
    have hat := h.tokens.token _ _ (hmem root List.mem_cons_self)
    have hat' := h.tokens'.token _ _ (hmem' root' List.mem_cons_self)
    simp only [bracketDeclarations, contentRegion?_eq hat hle, contentRegion?_eq hat' hle']
    rw [scan_region h hr hroot (getLastD_forall₂ hrest hroot) hle hle', List.map_cons,
      Declaration.moved, hindex _ _ hroot, List.map_map]
    congr 1
    refine map_forall₂ hrest fun t t' htt' => ?_
    rw [Function.comp_apply, bracketRule, bracketRule, hline _ _ htt', hline _ _ hroot,
      hindex _ _ htt', hindex _ _ hroot]
    split
    · rfl
    · split
      · rfl
      split <;> rfl

/-- No indenter of a registry looks at margins. -/
def Registry.Steady (registry : Registry) : Prop :=
  ∀ language indenter, registry.select language = .ok indenter → indenter.Steady

theorem steady_default : Registry.default.Steady := by
  intro language indenter h
  have hb : ∀ name languages rules, rules.Plain →
      (Indenter.bracketDepth name languages rules).Steady :=
    fun _ _ _ hr _ _ _ _ _ _ _ h hf hc hc' => steady_bracketDeclarations hr h hf hc hc'
  have hall : ∀ i ∈ Registry.default.indenters, i.Steady := by
    intro i hi
    simp only [Registry.default, List.mem_cons, List.not_mem_nil, or_false] at hi
    rcases hi with rfl | rfl | rfl
    · exact hb _ _ _ plain_scriptRules
    · exact hb _ _ _ plain_styleRules
    · exact hb _ _ _ plain_sassRules
  unfold Registry.select at h
  cases hf : Registry.default.indenters.find? fun i => i.supports language with
  | none =>
    rw [hf] at h
    cases h
    exact steady_pinned "pinned"
  | some i =>
    rw [hf] at h
    cases h
    exact hall _ (List.mem_of_find?_eq_some hf)

/-- The rules for another document. -/
def Rules.on (rules : Rules) (d : Document) : Rules :=
  { rules with document := d, heads := .ofTokens d.tokens }

section On

variable (rules : Rules) (d : Document)

@[simp] theorem Rules.on_document : (rules.on d).document = d := rfl

@[simp] theorem Rules.on_heads : (rules.on d).heads = .ofTokens d.tokens := rfl

@[simp] theorem Rules.on_ignores (label : List Char) :
    (rules.on d).ignores label = rules.ignores label := rfl

@[simp] theorem Rules.on_alignAttributes :
    (rules.on d).alignAttributes = rules.alignAttributes := rfl

@[simp] theorem Rules.on_expressionsFirst :
    (rules.on d).expressionsFirst = rules.expressionsFirst := rfl

@[simp] theorem Rules.on_indentRaw : (rules.on d).indentRaw = rules.indentRaw := rfl

@[simp] theorem Rules.on_registry : (rules.on d).registry = rules.registry := rfl

end On

theorem partsOfNodes_append (a b : List Node) :
    partsOfNodes (a ++ b) = partsOfNodes a ++ partsOfNodes b := by
  induction a with
  | nil => rfl
  | cons n a ih => rw [List.cons_append, partsOfNodes, partsOfNodes, ih, List.append_assoc]

/-- Rules for a document, and another one with the same tokens but for their places and for
character data. The first document may have `k` more tokens, which are blank, at its beginning. -/
structure Rules.Shifted (k : Nat) (rules : Rules) (d' : Document) : Prop where
  grounded : rules.Grounded
  tokens' : Tokenized d'.text d'.text.length d'.tokens
  matched : Matched Counterpart k rules.document.tokens d'.tokens
  first : ∀ (i : Nat) (t : Token), i < k → rules.document.tokens[i]? = some t → t.isBlank = true

namespace Rules

section Tags

variable {k : Nat} {rules : Rules} {d' : Document} (h : rules.Shifted k d')
include h

theorem Shifted.indexed : Indexed rules.document.tokens := indexed_of_tokenized h.grounded.tokens

theorem Shifted.indexed' : Indexed d'.tokens := indexed_of_tokenized h.tokens'

theorem Shifted.leads (i : Nat) :
    Leads rules.document.tokens.toList (i + k) ↔ Leads d'.tokens.toList i :=
  leads_matched (h.matched.mono fun _ _ _ _ htt' => htt'.toSameLines) h.first i

/-! ## Lines and brackets -/

theorem line_shifted (i : Nat) : rules.line (i + k) = (rules.on d').line i := by
  show (rules.document.tokens[i + k]?).elim 0 Token.line = (d'.tokens[i]?).elim 0 Token.line
  rcases h.matched.cases i with ⟨h1, h2⟩ | ⟨t, t', h1, h2, htt'⟩
  · rw [h1, h2]
  · rw [h1, h2]
    exact htt'.line

theorem endLine_shifted {i : Nat} (hi : Significant d'.tokens i) :
    rules.endLine (i + k) = (rules.on d').endLine i := by
  show (rules.document.tokens[i + k]?).elim 0 Token.endLine = (d'.tokens[i]?).elim 0 Token.endLine
  obtain ⟨t', ht', hb⟩ := hi
  obtain ⟨t, ht, htt'⟩ := h.matched.token i t' ht'
  rw [ht, ht']
  exact htt'.endLine (htt'.blank ▸ hb)

theorem spansLines_shifted {first last : Nat} (hlast : Significant d'.tokens last) :
    rules.spansLines (first + k) (last + k) = (rules.on d').spansLines first last := by
  rw [spansLines, spansLines, line_shifted h, endLine_shifted h hlast]

theorem isHead_shifted {t t' : Token} (htt' : Facing k rules.document.tokens d'.tokens t t') :
    rules.heads.isHead t = (rules.on d').heads.isHead t' := by
  obtain ⟨i, ht, ht'⟩ := htt'
  rw [h.grounded.heads, Bool.eq_iff_iff, isHead_iff h.indexed ht]
  exact (h.leads i).trans (isHead_iff h.indexed' ht').symm

theorem isClosingHead_shifted {t t' : Token}
    (htt' : Facing k rules.document.tokens d'.tokens t t') :
    rules.isClosingHead t = (rules.on d').isClosingHead t' := by
  have hhead := isHead_shifted h htt'
  obtain ⟨i, ht, ht'⟩ := htt'
  obtain ⟨u, hu, hut'⟩ := h.matched.token i t' ht'
  rw [ht] at hu
  obtain rfl := Option.some.inj hu
  rw [isClosingHead, isClosingHead, hhead, ← hut'.kind]
  by_cases hk : t.kind = .punctuator
  · rw [← hut'.text (by rw [hk]; decide)]
  · rw [beq_eq_false_iff_ne.mpr hk]
    rfl

theorem ofBraces_shifted {first last : Nat} (hm : Marked d'.tokens first (last + 1))
    (hle : first ≤ last) : rules.ofBraces (first + k) (last + k) =
      ((rules.on d').ofBraces first last).map (Declaration.moved k) := by
  have hlast := significant_of_marked hm hle (Nat.lt_succ_self last)
  have hbetween := between_facing h.matched (fun _ _ htt' => htt'.blank) (first + 1) last
  have hfilter := List.rel_filter (R := Facing k rules.document.tokens d'.tokens)
    (p := rules.isClosingHead) (q := (rules.on d').isClosingHead)
    (fun t t' htt' => by simp only [isClosingHead_shifted h htt']) hbetween
  unfold ofBraces
  rw [spansLines_shifted h hlast]
  split
  · rw [List.map_cons, Declaration.moved, Nat.add_right_comm first k 1, h.grounded.heads,
      List.map_map]
    congr 1
    refine map_forall₂ hfilter fun t t' htt' => ?_
    rw [Function.comp_apply, Declaration.moved,
      OffsetGraph.index_facing h.indexed h.indexed' htt']
  · rfl

/-! ## Tags -/

theorem ofMustache_shifted {m : Mustache} (hm : m.Fits d'.tokens) :
    rules.ofMustache (m.moved k) = ((rules.on d').ofMustache m).map (Declaration.moved k) := by
  have hlt := hm.lt
  unfold ofMustache
  rw [on_ignores]
  split
  · rw [List.map_singleton, Declaration.moved, Nat.add_right_comm]
    rfl
  · exact ofBraces_shifted h hm.marked (Nat.le_of_lt hlt)

theorem attributeLabel_shifted {a : Attribute} (ha : a.Fits d'.tokens) :
    attributeLabel rules.document.tokens (a.moved k) = attributeLabel d'.tokens a := by
  unfold attributeLabel
  cases hkey : a.key with
  | none => simp only [Attribute.moved, hkey, Option.map_none]
  | some key =>
    obtain ⟨t', ht', hname⟩ := ha.named key hkey
    obtain ⟨t, ht, htt'⟩ := h.matched.token key t' ht'
    simp only [Attribute.moved, hkey, Option.map_some, ht, ht', Option.elim_some]
    rw [htt'.text (by rw [htt'.kind, hname]; decide)]

theorem ofAttribute_shifted {a : Attribute} (ha : a.Fits d'.tokens) :
    rules.ofAttribute (a.moved k) = ((rules.on d').ofAttribute a).map (Declaration.moved k) := by
  have hvalues : (a.moved k).values.flatMap rules.ofMustache =
      (a.values.flatMap (rules.on d').ofMustache).map (Declaration.moved k) :=
    flatMap_moved fun m hm => ofMustache_shifted h (ha.values m hm).1
  unfold ofAttribute
  rw [attributeLabel_shifted h ha, on_ignores, on_expressionsFirst, on_document]
  split
  · rw [List.map_singleton, Declaration.moved, Nat.add_right_comm]
    rfl
  · cases hkey : a.key with
    | none =>
      rw [show (a.moved k).key = none by rw [Attribute.moved, hkey]; rfl]
      exact hvalues
    | some key =>
      rw [show (a.moved k).key = some (key + k) by rw [Attribute.moved, hkey]; rfl]
      simp only
      rw [List.map_cons, Declaration.moved, Nat.add_right_comm key k 1, hvalues]
      split <;> rfl

theorem ofAlignment_shifted {tag : StartTag} :
    rules.ofAlignment (tag.moved k) =
      ((rules.on d').ofAlignment tag).map (Declaration.moved k) := by
  unfold ofAlignment
  cases hlist : tag.attributes with
  | nil => simp only [StartTag.moved, hlist, List.map_nil]
  | cons first rest =>
    have hline : rules.line (first.moved k).first = (rules.on d').line first.first :=
      line_shifted h first.first
    have hline' : rules.line (tag.moved k).first = (rules.on d').line tag.first :=
      line_shifted h tag.first
    rw [show (tag.moved k).attributes = first.moved k :: rest.map (Attribute.moved k) by
      rw [StartTag.moved, hlist]; rfl]
    simp only [hline, hline']
    rw [← on_alignAttributes rules d']
    split
    · rw [List.map_map, List.map_map]
      rfl
    · rfl

theorem ofStartTag_shifted {tag : StartTag} (ht : tag.Fits d'.tokens) :
    rules.ofStartTag (tag.moved k) = ((rules.on d').ofStartTag tag).map (Declaration.moved k) := by
  have hlt := ht.lt
  have hlast := significant_of_marked ht.marked (i := tag.last) (by omega) (by omega)
  have hspans : rules.spansLines (tag.moved k).first (tag.moved k).last =
      (rules.on d').spansLines tag.first tag.last := spansLines_shifted h hlast
  have hattributes : (tag.moved k).attributes.flatMap rules.ofAttribute =
      (tag.attributes.flatMap (rules.on d').ofAttribute).map (Declaration.moved k) :=
    flatMap_moved fun a ha => ofAttribute_shifted h (ht.attributes.bounds a ha).1
  unfold ofStartTag
  rw [on_ignores, hspans, hattributes, ofAlignment_shifted h]
  split
  · rw [List.map_singleton, Declaration.moved, Nat.add_right_comm]
    rfl
  · rw [List.map_cons, Declaration.moved, Nat.add_right_comm tag.first 1 k, List.map_append,
      List.map_append]
    congr 3
    split <;> rfl

theorem ofEndTag_shifted {tag : EndTag} (ht : tag.Fits d'.tokens) :
    rules.ofEndTag (tag.moved k) = ((rules.on d').ofEndTag tag).map (Declaration.moved k) := by
  have hlt := ht.last
  have hlast := significant_of_marked ht.marked (i := tag.last) (by omega) (by omega)
  have hspans : rules.spansLines (tag.moved k).first (tag.moved k).last =
      (rules.on d').spansLines tag.first tag.last := spansLines_shifted h hlast
  unfold ofEndTag
  rw [on_ignores, hspans]
  split
  · rw [List.map_singleton, Declaration.moved, Nat.add_right_comm]
    rfl
  · rw [List.map_cons, Declaration.moved, Nat.add_right_comm tag.first 1 k,
      show tag.last - 1 + k = (tag.moved k).last - 1 by simp only [EndTag.moved]; omega]
    congr 1
    split <;> rfl

/-! ## Content -/

theorem Shifted.grounded' : (rules.on d').Grounded :=
  ⟨rfl, h.tokens', h.grounded.registry⟩

theorem significant_shifted {i : Nat} (hi : Significant d'.tokens i) :
    Significant rules.document.tokens (i + k) := by
  obtain ⟨t', ht', hb⟩ := hi
  obtain ⟨t, ht, htt'⟩ := h.matched.token i t' ht'
  exact ⟨t, ht, htt'.blank ▸ hb⟩

theorem tokensAt_shifted (indices : List Nat) :
    List.Forall₂ (Facing k rules.document.tokens d'.tokens)
      (rules.tokensAt (indices.map (· + k))) ((rules.on d').tokensAt indices) := by
  unfold tokensAt
  rw [on_document, List.filterMap_map]
  induction indices with
  | nil => exact .nil
  | cons i indices ih =>
    rcases h.matched.cases i with ⟨h1, h2⟩ | ⟨t, t', h1, h2, -⟩
    · rwa [List.filterMap_cons_none (by simpa using h1), List.filterMap_cons_none h2]
    · rw [List.filterMap_cons_some (b := t) (by simpa using h1), List.filterMap_cons_some h2]
      exact .cons ⟨i, h1, h2⟩ ih

theorem ofContent_shifted {es : List Edit} (hdocs : Remargined es k rules.document d')
    (hregistry : rules.registry.Steady) {opener lo n : Nat} (language : List Char)
    (ho : Significant d'.tokens opener) (hlo : opener < lo)
    (hraw : ∀ i ∈ List.range' lo n, ∃ t, d'.tokens[i]? = some t ∧ t.kind = .rawText) :
    rules.ofContent ((List.range' lo n).map (· + k)) (opener + k) language =
      ((rules.on d').ofContent (List.range' lo n) opener language).map (Declaration.moved k) := by
  have hindices : (List.range' lo n).map (· + k) = List.range' (lo + k) n := by
    simp only [Nat.add_comm _ k, List.map_add_range']
  have hfacing := tokensAt_shifted h (List.range' lo n)
  have hc' := content_tokensAt h.grounded' ho hlo hraw
  have hc := content_tokensAt h.grounded (n := n) (significant_shifted h ho)
    (Nat.add_lt_add_right hlo k) (by
      rw [← hindices]
      intro i hi
      obtain ⟨j, hj, rfl⟩ := List.mem_map.mp hi
      obtain ⟨t', ht', hk⟩ := hraw j hj
      obtain ⟨t, ht, htt'⟩ := h.matched.token j t' ht'
      exact ⟨t, ht, htt'.kind.trans hk⟩)
  rw [← hindices] at hc
  unfold ofContent
  rw [on_indentRaw, on_registry]
  generalize rules.tokensAt ((List.range' lo n).map (· + k)) = content at hfacing hc ⊢
  generalize (rules.on d').tokensAt (List.range' lo n) = content' at hfacing hc' ⊢
  have hall := hfacing
  cases hfacing with
  | nil => rfl
  | @cons first first' rest rest' hfirst hrest =>
    simp only
    split
    · cases hsel : rules.registry.select language with
      | error fault => rfl
      | ok indenter => exact hregistry language indenter hsel _ _ _ _ _ _ _ hdocs hall hc hc'
    · have hindex : ∀ t t', Facing k rules.document.tokens d'.tokens t t' →
          t.index = t'.index + k :=
        fun t t' => OffsetGraph.index_facing h.indexed h.indexed'
      rw [List.map_singleton, Declaration.moved, hindex _ _ hfirst,
        hindex _ _ (getLastD_forall₂ hrest hfirst)]

end Tags

/-! ## Nodes -/

/-- The content of the raw blocks among parts has the rules that it had. -/
def RawShifted (k : Nat) (rules : Rules) (d' : Document) (ps : List Part) : Prop :=
  ∀ kind tag content e language, Part.node (.raw kind tag content e language) ∈ ps →
    (Node.raw kind tag content e language).Fits d'.tokens →
      rules.ofContent (content.map (· + k)) (tag.first + k) language =
        ((rules.on d').ofContent content tag.first language).map (Declaration.moved k)

theorem RawShifted.mono {k : Nat} {rules : Rules} {d' : Document} {ps qs : List Part}
    (h : rules.RawShifted k d' ps) (hsub : qs ⊆ ps) : rules.RawShifted k d' qs :=
  fun kind tag content e language hmem => h kind tag content e language (hsub hmem)

/-- Other margins leave the rules of raw blocks as they are. -/
theorem rawShifted_of_remargined {es : List Edit} {k : Nat} {rules : Rules} {d' : Document}
    (h : rules.Shifted k d') (hdocs : Remargined es k rules.document d')
    (hregistry : rules.registry.Steady) (ps : List Part) : rules.RawShifted k d' ps := by
  intro kind tag content e language _ hfits
  obtain ⟨h1, -, rfl, h2, -⟩ := hfits
  have hlt := h1.lt
  exact ofContent_shifted h hdocs hregistry language
    (significant_of_marked h1.marked (Nat.le_refl tag.first) (by omega)) (by omega) h2

theorem ofBranchTag_moved {k opener : Nat} {tag following : BlockTag} (hf : 0 < following.first) :
    ofBranchTag (opener + k) (tag.moved k) (following.moved k) =
      (ofBranchTag opener tag following).map (Declaration.moved k) := by
  unfold ofBranchTag
  have hiff : (tag.moved k).first = opener + k ↔ tag.first = opener := Nat.add_right_cancel_iff
  rw [List.map_append, List.map_singleton, Declaration.moved, Nat.add_right_comm tag.last 1 k,
    show following.first - 1 + k = (following.moved k).first - 1 by
      simp only [BlockTag.moved]; omega]
  congr 1
  by_cases heq : tag.first = opener
  · rw [if_pos heq, if_pos (hiff.mpr heq)]
    rfl
  · rw [if_neg heq, if_neg (mt hiff.mp heq)]
    rfl

theorem ofBranchTags_moved {k opener : Nat} {tag : BlockTag} {tags : List BlockTag}
    (htags : ∀ t ∈ tags, 0 < t.first) :
    ofBranchTags (opener + k) ((tag :: tags).map (BlockTag.moved k)) =
      (ofBranchTags opener (tag :: tags)).map (Declaration.moved k) := by
  induction tags generalizing tag with
  | nil => rfl
  | cons following rest ih =>
    have := @ih following fun t ht => htags t (List.mem_cons_of_mem _ ht)
    rw [List.map_cons] at this
    rw [List.map_cons, List.map_cons, ofBranchTags, ofBranchTags, this, List.map_append,
      ofBranchTag_moved (htags following List.mem_cons_self)]

theorem tags_branchesMoved (k : Nat) (branches : List Branch) :
    (branchesMoved k branches).map Branch.tag =
      (branches.map Branch.tag).map (BlockTag.moved k) := by
  induction branches with
  | nil => rfl
  | cons b rest ih =>
    cases b with
    | mk tag children =>
      rw [branchesMoved, List.map_cons, List.map_cons, List.map_cons, ih]
      rfl

theorem last_moved (k : Nat) (n : Node) : (n.moved k).last = n.last + k := by
  cases n with
  | text | comment | mustache | raw | control => rfl
  | element name tag children endTag => cases endTag <;> rfl

theorem pin_moved (k first last : Nat) : [Declaration.pin (first + k + 1) (last + k)] =
    [Declaration.pin (first + 1) last].map (Declaration.moved k) := by
  rw [List.map_singleton, Declaration.moved, Nat.add_right_comm]

mutual

/-- **A node has the rules that it had.** -/
theorem ofNode_shifted {k : Nat} {rules : Rules} {d' : Document} (h : rules.Shifted k d') :
    (n : Node) → n.Fits d'.tokens → rules.RawShifted k d' n.parts →
    rules.ofNode (n.moved k) = ((rules.on d').ofNode n).map (Declaration.moved k)
  | .text first last, _, _ | .comment first last, _, _ => by
    unfold Node.moved ofNode
    rw [on_ignores]
    split
    · exact pin_moved k first last
    · rfl
  | .mustache m, hn, _ => by
    unfold Node.moved ofNode
    exact ofMustache_shifted h hn
  | .element name tag children none, hn, _ => by
    obtain ⟨h1, rfl, -⟩ := hn
    have hlast := last_moved k (.element name tag [] none)
    unfold Node.moved at hlast ⊢
    unfold ofNode
    rw [on_ignores, hlast]
    split
    · exact pin_moved k tag.first _
    · simp only [List.nil_append, Option.map_none, Option.toList_none, List.flatMap_nil,
        List.append_nil, nodesMoved, ofNodes]
      exact ofStartTag_shifted h h1
  | .element name tag children (some e), hn, hraw => by
    obtain ⟨h1, h2, h3, -⟩ := hn
    have hchildren : rules.RawShifted k d' (partsOfNodes children) := hraw.mono fun p hp => by
      simp [Node.parts, hp]
    have hlt := h1.lt
    have hle := h2.le
    have hlast := last_moved k (.element name tag children (some e))
    unfold Node.moved at hlast ⊢
    unfold ofNode
    rw [on_ignores, hlast]
    split
    · exact pin_moved k tag.first _
    · simp only [Option.map_some, Option.toList_some, List.flatMap_cons, List.flatMap_nil,
        List.append_nil, List.map_append, ofStartTag_shifted h h1, ofEndTag_shifted h h3,
        ofNodes_shifted h children _ _ h2 hchildren]
      congr 3
      simp only [List.map_cons, List.map_nil, Declaration.moved, Nat.add_right_comm tag.last 1 k,
        show e.first - 1 + k = (e.moved k).first - 1 by simp only [EndTag.moved]; omega]
      rfl
  | .raw kind tag content e language, hn, hraw => by
    have hcontent : rules.ofContent (content.map (· + k)) (tag.moved k).first language =
        ((rules.on d').ofContent content tag.first language).map (Declaration.moved k) :=
      hraw kind tag content e language (by simp [Node.parts]) hn
    obtain ⟨h1, -, -, -, h5, -⟩ := hn
    unfold Node.moved ofNode
    rw [on_ignores]
    split
    · exact pin_moved k tag.first e.last
    · rw [hcontent, ofStartTag_shifted h h1, ofEndTag_shifted h h5, List.map_append,
        List.map_append, List.map_cons]
      rfl
  | .control openTag children branches closeTag, hn, hraw => by
    obtain ⟨h1, ⟨mid, h2, h3⟩, h4, -⟩ := hn
    have hchildren : rules.RawShifted k d' (partsOfNodes children) := hraw.mono fun p hp => by
      simp [Node.parts, hp]
    have hbranches : rules.RawShifted k d' (partsOfBranches branches) := hraw.mono fun p hp => by
      simp [Node.parts, hp]
    have hlt := h1.lt
    have hclt := h4.lt
    have hle := h2.le
    have hble := BranchesTile.le _ branches _ h3
    have htags : ∀ t ∈ branches.map Branch.tag ++ [closeTag], 0 < t.first := by
      intro t ht
      rcases List.mem_append.mp ht with ht | ht
      · have := (tags_of_branchesTile h3 t ht).1
        omega
      · rw [List.mem_singleton.mp ht]
        omega
    have hbranchTags := @ofBranchTags_moved k openTag.first openTag _ htags
    rw [List.map_cons, List.map_append, List.map_singleton, ← tags_branchesMoved] at hbranchTags
    have hopen := ofBraces_shifted h h1.marked (Nat.le_of_lt hlt)
    have hclose := ofBraces_shifted h h4.marked (Nat.le_of_lt hclt)
    have hlabel : nodeLabel (.control (openTag.moved k) (nodesMoved k children)
        (branchesMoved k branches) (closeTag.moved k)) =
          nodeLabel (.control openTag children branches closeTag) := rfl
    unfold Node.moved ofNode
    rw [on_ignores, hlabel]
    split
    · exact pin_moved k openTag.first closeTag.last
    · rw [List.map_append, ← hbranchTags, List.map_cons, List.map_append, List.map_append,
        List.map_append, ← hopen, ← hclose, ← ofNodes_shifted h children _ _ h2 hchildren,
        ← ofBranches_shifted h branches _ _ h3 hbranches]
      rfl

theorem ofNodes_shifted {k : Nat} {rules : Rules} {d' : Document} (h : rules.Shifted k d') :
    (nodes : List Node) → (lo hi : Nat) → NodesTile d'.tokens lo nodes hi →
    rules.RawShifted k d' (partsOfNodes nodes) →
    rules.ofNodes (nodesMoved k nodes) = ((rules.on d').ofNodes nodes).map (Declaration.moved k)
  | [], _, _, _, _ => rfl
  | n :: rest, _, _, hn, hraw => by
    have hfirst : rules.RawShifted k d' n.parts := hraw.mono fun p hp => by simp [partsOfNodes, hp]
    have hrest : rules.RawShifted k d' (partsOfNodes rest) := hraw.mono fun p hp => by simp [partsOfNodes, hp]
    rw [nodesMoved, ofNodes, ofNodes, List.map_append, ofNode_shifted h n hn.2.1 hfirst,
      ofNodes_shifted h rest _ _ hn.2.2 hrest]

theorem ofBranches_shifted {k : Nat} {rules : Rules} {d' : Document} (h : rules.Shifted k d') :
    (branches : List Branch) → (lo hi : Nat) → BranchesTile d'.tokens lo branches hi →
    rules.RawShifted k d' (partsOfBranches branches) → rules.ofBranches (branchesMoved k branches) =
      ((rules.on d').ofBranches branches).map (Declaration.moved k)
  | [], _, _, _, _ => rfl
  | .mk tag children :: rest, _, _, hn, hraw => by
    obtain ⟨h1, h2, mid, h3, h4⟩ := hn
    have hchildren : rules.RawShifted k d' (partsOfNodes children) := hraw.mono fun p hp => by
      simp [partsOfBranches, hp]
    have hrest : rules.RawShifted k d' (partsOfBranches rest) := hraw.mono fun p hp => by simp [partsOfBranches, hp]
    rw [branchesMoved, ofBranches, ofBranches, List.map_append, List.map_append,
      ofNodes_shifted h children _ _ h3 hchildren, ofBranches_shifted h rest _ _ h4 hrest,
      ← ofBraces_shifted h h2.marked (Nat.le_of_lt h2.lt)]
    rfl

end

end Rules

end MarkupIndent.Margin
