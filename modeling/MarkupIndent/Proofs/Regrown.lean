import MarkupIndent.Proofs.Abreast
import MarkupIndent.Proofs.Tiling

/-!
# The tree of a mended text

A mended text has the tree of the text, over tokens of each other. Both trees grow in step: the
same constructs are open, and the same nodes are complete, up to the tokens that only one of the two
has at its beginning.

* `Node.moved`, `Part.moved`: a node after more tokens, and its parts.
* `Stacked`, `OpenTree.Mates`: open constructs and growing trees of each other.
* `mates_step`, `mates_grow`: growing goes in step.
* `OpenTree.begun`: the tree after the blanks that a text begins with and the text around them.
* `read_mended`, `read_past`: a mended text can be read if its beginning stays, and if blanks there
  are mended.
* `read_of_mended`: so **every mended text can be read**, with the same tree over tokens of each
  other.
-/

namespace MarkupIndent.Markup

open Margin Text

/-! ## Nodes after more tokens -/

mutual

/-- The node after `k` more tokens. -/
def Node.moved (k : Nat) : Node → Node
  | .text first last => .text (first + k) (last + k)
  | .comment first last => .comment (first + k) (last + k)
  | .mustache tag => .mustache (tag.moved k)
  | .element name tag children endTag =>
    .element name (tag.moved k) (nodesMoved k children) (endTag.map (EndTag.moved k))
  | .raw kind tag content endTag language =>
    .raw kind (tag.moved k) (content.map (· + k)) (endTag.moved k) language
  | .control openTag children branches closeTag =>
    .control (openTag.moved k) (nodesMoved k children) (branchesMoved k branches)
      (closeTag.moved k)

/-- The nodes after `k` more tokens. -/
def nodesMoved (k : Nat) : List Node → List Node
  | [] => []
  | n :: rest => n.moved k :: nodesMoved k rest

/-- The branches after `k` more tokens. -/
def branchesMoved (k : Nat) : List Branch → List Branch
  | [] => []
  | .mk tag children :: rest => .mk (tag.moved k) (nodesMoved k children) :: branchesMoved k rest

end

mutual

theorem Node.moved_zero : (n : Node) → n.moved 0 = n
  | .text _ _ | .comment _ _ | .mustache _ => rfl
  | .element _ _ children _ => by
    rw [Node.moved, StartTag.moved_zero, nodesMoved_zero children, EndTag.moved_zero,
      Option.map_id_fun, id]
  | .raw _ _ _ _ _ => by
    simp [Node.moved, StartTag.moved_zero, EndTag.moved_zero]
  | .control _ children branches _ => by
    rw [Node.moved, nodesMoved_zero children, branchesMoved_zero branches, BlockTag.moved_zero,
      BlockTag.moved_zero]

theorem nodesMoved_zero : (ns : List Node) → nodesMoved 0 ns = ns
  | [] => rfl
  | n :: rest => by rw [nodesMoved, n.moved_zero, nodesMoved_zero rest]

theorem branchesMoved_zero : (bs : List Branch) → branchesMoved 0 bs = bs
  | [] => rfl
  | .mk _ children :: rest => by
    rw [branchesMoved, BlockTag.moved_zero, nodesMoved_zero children, branchesMoved_zero rest]

end

/-- The branch after `k` more tokens. -/
def Branch.moved (k : Nat) : Branch → Branch
  | .mk tag children => .mk (tag.moved k) (nodesMoved k children)

/-- The part after `k` more tokens. -/
def Part.moved (k : Nat) : Part → Part
  | .node n => .node (n.moved k)
  | .attribute a => .attribute (a.moved k)
  | .startTag tag => .startTag (tag.moved k)
  | .endTag tag => .endTag (tag.moved k)
  | .blockTag tag => .blockTag (tag.moved k)
  | .branch b => .branch (b.moved k)
  | .document => .document

theorem StartTag.parts_moved (k : Nat) (tag : StartTag) :
    (tag.moved k).parts = tag.parts.map (Part.moved k) := by
  simp [StartTag.parts, StartTag.moved, Attribute.parts, Attribute.moved, Part.moved, Node.moved,
    List.map_flatMap, List.flatMap_map, Function.comp_def]

mutual

theorem Node.parts_moved (k : Nat) : (n : Node) → (n.moved k).parts = n.parts.map (Part.moved k)
  | .text _ _ | .comment _ _ | .mustache _ => by simp [Node.moved, Node.parts, Part.moved]
  | .element _ tag children endTag => by
    cases endTag <;>
      simp [Node.moved, Node.parts, Part.moved, tag.parts_moved, partsOfNodes_moved k children]
  | .raw _ tag _ _ _ => by simp [Node.moved, Node.parts, Part.moved, tag.parts_moved]
  | .control _ children branches _ => by
    simp [Node.moved, Node.parts, Part.moved, Branch.moved, partsOfNodes_moved k children,
      partsOfBranches_moved k branches]

/-- **The parts of nodes after more tokens** are their parts, after more tokens. -/
theorem partsOfNodes_moved (k : Nat) : (ns : List Node) →
    partsOfNodes (nodesMoved k ns) = (partsOfNodes ns).map (Part.moved k)
  | [] => rfl
  | n :: rest => by
    rw [nodesMoved, partsOfNodes, partsOfNodes, n.parts_moved, partsOfNodes_moved k rest,
      List.map_append]

theorem partsOfBranches_moved (k : Nat) : (bs : List Branch) →
    partsOfBranches (branchesMoved k bs) = (partsOfBranches bs).map (Part.moved k)
  | [] => rfl
  | .mk _ children :: rest => by
    simp [branchesMoved, partsOfBranches, Part.moved, Branch.moved, partsOfNodes_moved k children,
      partsOfBranches_moved k rest]

end

theorem nodesMoved_eq (k : Nat) (ns : List Node) : nodesMoved k ns = ns.map (Node.moved k) := by
  induction ns with
  | nil => rfl
  | cons n rest ih => rw [nodesMoved, ih, List.map_cons]

theorem nodesMoved_reverse (k : Nat) (ns : List Node) :
    (nodesMoved k ns).reverse = nodesMoved k ns.reverse := by
  rw [nodesMoved_eq, nodesMoved_eq, List.map_reverse]

theorem closeBlock_moved (k : Nat) (closeTag tag : BlockTag) (children : List Node)
    (later finished : List Branch) :
    closeBlock (closeTag.moved k) (tag.moved k) (nodesMoved k children) (branchesMoved k later)
      (branchesMoved k finished) = (closeBlock closeTag tag children later finished).moved k := by
  induction finished generalizing tag children later with
  | nil => rfl
  | cons b earlier ih =>
    cases b with
    | mk t c => exact ih t c (.mk tag children :: later)

/-! ## Growing in step -/

/-- The open constructs of each other with the nodes that are complete at the innermost level. At
the outermost level there may be other nodes before all of these. -/
inductive Stacked (k k' : Nat) (base base' : List Node) :
    List Frame → List Node → List Frame → List Node → Prop
  | bottom (ns : List Node) :
      Stacked k k' base base' [] (nodesMoved k ns ++ base) [] (nodesMoved k' ns ++ base')
  | element (name : List Char) (tag : StartTag) (opened opened' : Cursor) (ns : List Node)
      {frames frames' : List Frame} {before before' : List Node}
      (outer : Stacked k k' base base' frames before frames' before') :
      Stacked k k' base base' (.element name (tag.moved k) opened before :: frames)
        (nodesMoved k ns) (.element name (tag.moved k') opened' before' :: frames')
        (nodesMoved k' ns)
  | block (keyword : List Char) (opened opened' : Cursor) (finished : List Branch) (tag : BlockTag)
      (ns : List Node) {frames frames' : List Frame} {before before' : List Node}
      (outer : Stacked k k' base base' frames before frames' before') :
      Stacked k k' base base'
        (.block keyword opened (branchesMoved k finished) (tag.moved k) before :: frames)
        (nodesMoved k ns)
        (.block keyword opened' (branchesMoved k' finished) (tag.moved k') before' :: frames')
        (nodesMoved k' ns)

theorem Stacked.push {k k' : Nat} {base base' done done' : List Node} {frames frames' : List Frame}
    (h : Stacked k k' base base' frames done frames' done') (n : Node) :
    Stacked k k' base base' frames (n.moved k :: done) frames' (n.moved k' :: done') := by
  cases h with
  | bottom ns => exact .bottom (n :: ns)
  | element name tag opened opened' ns h => exact .element name tag opened opened' (n :: ns) h
  | block keyword opened opened' finished tag ns h =>
    exact .block keyword opened opened' finished tag (n :: ns) h

/-- Growing trees of a text and its mended form. -/
structure OpenTree.Mates {es : List Edit} {source mended : List Char}
    (p : Pairing es source mended) (k k' : Nat) (base base' : List Node) (t t' : OpenTree) :
    Prop where
  stacked : Stacked k k' base base' t.frames t.done t'.frames t'.done
  reading : Abreast p k k' t.reading t'.reading

/-- A run of character data that begins with a character. -/
theorem cut_text {es : List Edit} {o : Int} {c : Char} {a b : List Char}
    (h : Mended es o (c :: a) (c :: b)) :
    Cut es o (c :: a) (c :: b) (textTail a + 1) (textTail b + 1) := by
  by_cases hc : isBlank c = true
  · have key : ∀ x : List Char, textTail x + 1 =
        (search? endsText (c :: x)).getD (c :: x).length := by
      intro x
      have := steady_endsText.blank c x hc
      rw [← textTail_eq, textTail]
      rw [endsText] at this
      rw [if_neg (by simp [this])]
    rw [key, key]
    exact cut_search_getD steady_endsText h
  · cases h with
    | char hne h =>
      rw [textTail_eq, textTail_eq]
      exact (cut_search_getD steady_endsText h).char hne
    | line | mend => exact absurd isBlank_newline hc

/-- Character data becomes at least one token. -/
theorem next_lt_stretches {r : Reading} {text after : List Char} (hr : r.rest = text ++ after)
    (hne : text ≠ []) : r.next <
      (Reading.readStretches (some .htmlText) .htmlText (stretches text) r).next := by
  obtain ⟨ts, h1, -, h2⟩ := @Reading.reads_readStretches (some .htmlText) .htmlText (by simp)
    (fun _ h => .inr h) text after r hr
  have hlen : 0 < ts.length := List.length_pos_iff.mpr (h2 hne rfl)
  rw [h1.next]
  omega

namespace OpenTree

variable {es : List Edit} {source mended : List Char} {p : Pairing es source mended} {k k' : Nat}
  {base base' : List Node} {t t' u : OpenTree} (h : t.Mates p k k' base base' t')
include h

theorem Mates.push {r r' : Reading} (hr : Abreast p k k' r r') {n n' : Node}
    (n₀ : Node) (hn : n = n₀.moved k) (hn' : n' = n₀.moved k') :
    (t.push n r).Mates p k k' base base' (t'.push n' r') := by
  subst hn hn'
  exact ⟨h.stacked.push n₀, hr⟩

theorem mates_comment (hs : t.reading.startsWith ['<', '!', '-', '-'] = true)
    (hu : t.comment = .ok u) :
    ∃ u', t'.comment = .ok u' ∧ u.Mates p k k' base base' u' := by
  have hpre : ['<', '!', '-', '-'] <+: t.reading.rest := List.isPrefixOf_iff_prefix.mp hs
  have hopen : Cut es t.reading.place.offset t.reading.rest t'.reading.rest 4 4 :=
    (cut_inline h.reading.rest hpre.length_le (by
      rw [← List.prefix_iff_eq_take.mp hpre]
      decide)).1
  unfold comment at hu ⊢
  rcases cut_search (steady_isPrefixOf (by decide) (show Word ['-', '-', '>'] by decide))
    hopen.after with ⟨h1, h2⟩ | ⟨m, n, h1, h2, hcut⟩ <;> rw [← commentEnd?_eq] at h1 h2
  · rw [h1] at hu
    cases hu
  · rw [h1] at hu
    rw [h2]
    cases hu
    obtain ⟨hle, hsign⟩ := commentEnd?_spec h1
    have hclose := (cut_inline hcut.after (n := 3) (by rw [List.length_drop]; omega)
      (by rw [hsign]; decide)).1
    have hall := hopen.trans (hcut.trans hclose)
    rw [show 4 + (m + 3) = m + 7 by omega, show 4 + (n + 3) = n + 7 by omega] at hall
    obtain ⟨first, hf, hf'⟩ := h.reading.next
    refine ⟨_, rfl,
      h.push (Reading.abreast_emit h.reading .comment hall) (.comment first first) ?_ ?_⟩
    · rw [Node.moved, hf]
    · rw [Node.moved, hf']

theorem mates_text (hr : t.reading.rest ≠ []) :
    t.text.Mates p k k' base base' t'.text := by
  have hlt : t.reading.next < t.text.reading.next :=
    next_lt_stretches (List.take_append_drop _ _).symm (by simp [hr])
  have hrest := h.reading.rest
  obtain ⟨c, rest, hc⟩ := List.exists_cons_of_ne_nil hr
  rw [hc] at hrest
  obtain ⟨rest', hc'⟩ := hrest.exists_cons
  rw [hc'] at hrest
  have hcut := cut_text hrest
  rw [← hc, ← hc'] at hcut
  have hrun := Reading.abreast_run h.reading (some .htmlText) .htmlText hcut
  have htail : t.reading.rest.tail = rest := by rw [hc, List.tail_cons]
  have htail' : t'.reading.rest.tail = rest' := by rw [hc', List.tail_cons]
  rw [← htail, ← htail'] at hrun
  obtain ⟨first, last, hf, hf', hl, hl'⟩ := Reading.ends_abreast h.reading hrun hlt
  refine h.push hrun (.text first last) ?_ ?_
  · rw [Node.moved, hf, hl]
  · rw [Node.moved, hf', hl']

theorem mates_mustache (hs : t.reading.startsWith ['{'] = true) (hu : t.mustache = .ok u) :
    ∃ u', t'.mustache = .ok u' ∧ u.Mates p k k' base base' u' := by
  obtain ⟨⟨m, r⟩, h1, hu⟩ := bind_eq_ok.mp hu
  cases hu
  obtain ⟨m₀, r', h2, rfl, h3⟩ := Reading.abreast_readMustache h.reading hs h1
  exact ⟨_, bind_eq_ok.mpr ⟨_, h2, rfl⟩, h.push h3 (.mustache m₀) (by rw [Node.moved])
    (by rw [Node.moved])⟩

theorem mates_raw {kind : RawKind} {tag : StartTag} {name : List Char} {r r' : Reading}
    (hname : Inline name) (hr : Abreast p k k' r r')
    (hlanguage : Reading.language kind r.tokens (tag.moved k).attributes =
      Reading.language kind r'.tokens (tag.moved k').attributes)
    (hu : t.raw kind (tag.moved k) name r = .ok u) :
    ∃ u', t'.raw kind (tag.moved k') name r' = .ok u' ∧
      u.Mates p k k' base base' u' := by
  unfold raw at hu ⊢
  rcases cut_search (steady_closesRaw kind) hr.rest with ⟨h1, h2⟩ | ⟨m, n, h1, h2, hcut⟩ <;>
    rw [← rawEnd?_eq] at h1 h2
  · rw [h1] at hu
    cases hu
  · rw [h1] at hu
    rw [h2]
    obtain ⟨⟨endTag, v⟩, h3, hu⟩ := bind_eq_ok.mp hu
    cases hu
    have hrun := Reading.abreast_run hr none .rawText hcut
    obtain ⟨endTag₀, v', h4, rfl, h5⟩ :=
      Reading.abreast_readEndTag hname hrun (Reading.startsWith_run h1) h3
    obtain ⟨first, hf, hf'⟩ := hr.next
    obtain ⟨stop, hs, hs'⟩ := hrun.next
    have hcontent : ∀ i, List.range' (first + i) (stop + i - (first + i)) =
        (List.range' first (stop - first)).map (· + i) := by
      intro i
      rw [Nat.add_sub_add_right]
      simp only [Nat.add_comm _ i, List.map_add_range']
    refine ⟨_, bind_eq_ok.mpr ⟨_, h4, rfl⟩,
      h.push h5 (.raw kind tag (List.range' first (stop - first)) endTag₀
        (Reading.language kind r.tokens (tag.moved k).attributes)) ?_ ?_⟩
    · rw [Node.moved, hf, hs, hcontent]
    · rw [Node.moved, hf', hs', hcontent, hlanguage]

theorem mates_openElement (hr : t.reading.startsWith ['<'] = true)
    (hn : tagNameLength t.reading.rest.tail ≠ 0) (hr' : t'.reading.startsWith ['<'] = true)
    (hn' : tagNameLength t'.reading.rest.tail ≠ 0) (hsrc : Tracks source t.reading)
    (hu : t.openElement = .ok u) :
    ∃ u', t'.openElement = .ok u' ∧ u.Mates p k k' base base' u' := by
  obtain ⟨⟨tag, name, r⟩, h1, hu⟩ := bind_eq_ok.mp hu
  obtain ⟨tag₀, r', h2, rfl, h3⟩ := Reading.abreast_readStartTag h.reading hr hn h1
  obtain ⟨⟨hreads, -, -, hfits⟩, hname, -⟩ := Reading.reads_readStartTag hr hn h1
  obtain ⟨⟨-, -, -, hfits'⟩, -⟩ := Reading.reads_readStartTag hr' hn' h2
  have htracks := tracks_of_reads hreads.choose_spec.1 hsrc
  have hclosing : ∀ i, (tag₀.moved i).selfClosing = tag₀.selfClosing := fun _ => rfl
  have hvoid : ∀ i, Node.element name (tag₀.moved i) [] none =
      (Node.element name tag₀ [] none).moved i :=
    fun i => by simp only [Node.moved, nodesMoved, Option.map_none]
  unfold openElement
  simp only [hclosing] at hu
  split at hu
  · next kind hkind =>
    split at hu
    · next hc =>
      cases hu
      refine ⟨_, bind_eq_ok.mpr ⟨_, h2, ?_⟩, h.push h3 _ (hvoid k) (hvoid k')⟩
      simp only [hkind, hclosing, if_pos hc]
    · next hc =>
      obtain ⟨n, -, hsize⟩ := h3.next
      have hwords := h3.matched.mono fun i x x' hx hpair =>
        p.word hpair (htracks.tokens.token _ x hx).admits
      have hextract : Matched SameWord k' r'.tokens (r'.tokens.extract k') :=
        matched_extract SameWord.refl (by
          show k' ≤ r'.next
          omega)
      have hlanguage := (language_matched hwords
        (fun a ha => (hfits.attributes.bounds _ (List.mem_map_of_mem ha)).1) kind).trans
          (language_matched hextract
            (fun a ha => (hfits'.attributes.bounds _ (List.mem_map_of_mem ha)).1) kind).symm
      obtain ⟨u', h4, h5⟩ := mates_raw h hname h3 hlanguage hu
      refine ⟨u', bind_eq_ok.mpr ⟨_, h2, ?_⟩, h5⟩
      simp only [hkind, hclosing, if_neg hc]
      exact h4
  · next hkind =>
    split at hu
    · next hc =>
      cases hu
      refine ⟨_, bind_eq_ok.mpr ⟨_, h2, ?_⟩, h.push h3 _ (hvoid k) (hvoid k')⟩
      simp only [hkind, hclosing, if_pos hc]
    · next hc =>
      cases hu
      refine ⟨⟨.element name (tag₀.moved k') t'.reading.place t'.done :: t'.frames, [], r'⟩,
        bind_eq_ok.mpr ⟨_, h2, ?_⟩, ⟨.element name tag₀ _ _ [] h.stacked, h3⟩⟩
      simp only [hkind, hclosing, if_neg hc]

theorem mates_closeElement (hs : t.reading.startsWith ['<', '/'] = true) (hfits : t.Fits)
    (hu : t.closeElement = .ok u) :
    ∃ u', t'.closeElement = .ok u' ∧ u.Mates p k k' base base' u' := by
  obtain ⟨lo, hframes, -⟩ := hfits
  have hst := h.stacked
  unfold closeElement at hu ⊢
  generalize hf : t.frames = frames at hst hu hframes
  generalize hd : t.done = done at hst hu
  generalize hf' : t'.frames = frames' at hst ⊢
  generalize hd' : t'.done = done' at hst ⊢
  cases hst with
  | bottom => cases hu
  | element name tag opened opened' ns outer =>
    obtain ⟨⟨endTag, r⟩, h1, hu⟩ := bind_eq_ok.mp hu
    cases hu
    obtain ⟨endTag₀, r', h2, rfl, h3⟩ := Reading.abreast_readEndTag hframes.1 h.reading hs h1
    refine ⟨_, bind_eq_ok.mpr ⟨_, h2, rfl⟩, ⟨?_, h3⟩⟩
    have := outer.push (.element name tag ns.reverse (some endTag₀))
    rwa [Node.moved, Node.moved, ← nodesMoved_reverse, ← nodesMoved_reverse, Option.map_some,
      Option.map_some] at this
  | block => cases hu

theorem mates_openBlock (hs : t.reading.startsWith ['{', '#'] = true) (hu : t.openBlock = .ok u) :
    ∃ u', t'.openBlock = .ok u' ∧ u.Mates p k k' base base' u' := by
  obtain ⟨⟨tag, r⟩, h1, hu⟩ := bind_eq_ok.mp hu
  cases hu
  obtain ⟨tag₀, r', h2, rfl, h3⟩ := Reading.abreast_readBlockTag rfl h.reading hs h1
  exact ⟨_, bind_eq_ok.mpr ⟨_, h2, rfl⟩, ⟨.block tag₀.keyword _ _ [] tag₀ [] h.stacked, h3⟩⟩

theorem mates_nextBranch (hs : t.reading.startsWith ['{', ':'] = true) (hu : t.nextBranch = .ok u) :
    ∃ u', t'.nextBranch = .ok u' ∧ u.Mates p k k' base base' u' := by
  have hst := h.stacked
  unfold nextBranch at hu ⊢
  generalize hf : t.frames = frames at hst hu
  generalize hd : t.done = done at hst hu
  generalize hf' : t'.frames = frames' at hst ⊢
  generalize hd' : t'.done = done' at hst ⊢
  cases hst with
  | bottom => cases hu
  | element => cases hu
  | block keyword opened opened' finished tag ns outer =>
    obtain ⟨⟨following, r⟩, h1, hu⟩ := bind_eq_ok.mp hu
    cases hu
    obtain ⟨following₀, r', h2, rfl, h3⟩ := Reading.abreast_readBlockTag rfl h.reading hs h1
    refine ⟨_, bind_eq_ok.mpr ⟨_, h2, rfl⟩, ⟨?_, h3⟩⟩
    have := Stacked.block keyword opened opened' (.mk tag ns.reverse :: finished) following₀ []
      outer
    rwa [branchesMoved, branchesMoved, ← nodesMoved_reverse, ← nodesMoved_reverse] at this

theorem mates_endBlock (hs : t.reading.startsWith ['{', '/'] = true) (hu : t.endBlock = .ok u) :
    ∃ u', t'.endBlock = .ok u' ∧ u.Mates p k k' base base' u' := by
  have hst := h.stacked
  unfold endBlock at hu ⊢
  generalize hf : t.frames = frames at hst hu
  generalize hd : t.done = done at hst hu
  generalize hf' : t'.frames = frames' at hst ⊢
  generalize hd' : t'.done = done' at hst ⊢
  cases hst with
  | bottom => cases hu
  | element => cases hu
  | block keyword opened opened' finished tag ns outer =>
    obtain ⟨⟨closeTag, r⟩, h1, hu⟩ := bind_eq_ok.mp hu
    obtain ⟨closeTag₀, r', h2, rfl, h3⟩ := Reading.abreast_readBlockTag rfl h.reading hs h1
    have hkeyword : ∀ i, (closeTag₀.moved i).keyword = closeTag₀.keyword := fun _ => rfl
    simp only [hkeyword] at hu
    split at hu
    · cases hu
    · next heq =>
      cases hu
      refine ⟨_, bind_eq_ok.mpr ⟨_, h2, if_neg heq⟩, ⟨?_, h3⟩⟩
      have := outer.push (closeBlock closeTag₀ tag ns.reverse [] finished)
      rwa [← closeBlock_moved, ← closeBlock_moved, branchesMoved, branchesMoved,
        ← nodesMoved_reverse, ← nodesMoved_reverse] at this

/-- **Every step goes in step**: the piece of markup that comes next is in both. -/
theorem mates_step (hr : t.reading.rest ≠ []) (hfits : t.Fits)
    (hsrc : Tracks source t.reading) (hu : t.step = .ok u) :
    ∃ u', t'.step = .ok u' ∧ u.Mates p k k' base base' u' := by
  have sign : ∀ word : List Char, Word word →
      t.reading.startsWith word = t'.reading.startsWith word :=
    fun word hw => Reading.startsWith_abreast h.reading hw
  have htag : (t.reading.startsWith ['<'] && tagNameLength t.reading.rest.tail != 0) =
      (t'.reading.startsWith ['<'] && tagNameLength t'.reading.rest.tail != 0) := by
    rw [← sign _ (show Word ['<'] by decide)]
    by_cases hs : t.reading.startsWith ['<'] = true
    · obtain ⟨x, hx⟩ := List.isPrefixOf_iff_prefix.mp hs
      have hrest := h.reading.rest
      rw [← hx, List.singleton_append] at hrest
      obtain ⟨y, hy⟩ := hrest.exists_cons
      rw [hy] at hrest
      cases hrest with
      | char _ hxy =>
        rw [← hx, hy, List.singleton_append, List.tail_cons, List.tail_cons,
          tagNameLength_reindented hxy.reindented]
    · rw [Bool.eq_false_iff.mpr hs, Bool.false_and, Bool.false_and]
  unfold step at hu ⊢
  rw [← sign _ (show Word ['<', '/'] by decide), ← sign _ (show Word ['{', ':'] by decide),
    ← sign _ (show Word ['{', '/'] by decide), ← sign _ (show Word ['<', '!', '-', '-'] by decide),
    ← htag, ← sign _ (show Word ['{', '#'] by decide), ← sign _ (show Word ['{'] by decide)]
  by_cases h1 : t.reading.startsWith ['<', '/'] = true
  · rw [if_pos h1] at hu ⊢
    exact mates_closeElement h h1 hfits hu
  rw [if_neg h1] at hu ⊢
  by_cases h2 : t.reading.startsWith ['{', ':'] = true
  · rw [if_pos h2] at hu ⊢
    exact mates_nextBranch h h2 hu
  rw [if_neg h2] at hu ⊢
  by_cases h3 : t.reading.startsWith ['{', '/'] = true
  · rw [if_pos h3] at hu ⊢
    exact mates_endBlock h h3 hu
  rw [if_neg h3] at hu ⊢
  by_cases h4 : t.reading.startsWith ['<', '!', '-', '-'] = true
  · rw [if_pos h4] at hu ⊢
    exact mates_comment h h4 hu
  rw [if_neg h4] at hu ⊢
  by_cases h5 : (t.reading.startsWith ['<'] && tagNameLength t.reading.rest.tail != 0) = true
  · rw [if_pos h5] at hu ⊢
    rw [h5] at htag
    simp only [Bool.and_eq_true, bne_iff_ne, eq_comm (a := true)] at h5 htag
    exact mates_openElement h h5.1 h5.2 htag.1 htag.2 hsrc hu
  rw [if_neg h5] at hu ⊢
  by_cases h6 : t.reading.startsWith ['{', '#'] = true
  · rw [if_pos h6] at hu ⊢
    exact mates_openBlock h h6 hu
  rw [if_neg h6] at hu ⊢
  by_cases h7 : t.reading.startsWith ['{'] = true
  · rw [if_pos h7] at hu ⊢
    exact mates_mustache h h7 hu
  rw [if_neg h7] at hu ⊢
  cases hu
  exact ⟨_, rfl, mates_text h hr⟩

omit h in
theorem grow_cons {c : Char} {rest : List Char} (hr : t.reading.rest = c :: rest) :
    t.grow = t.step >>= grow := by
  rw [grow]
  split
  · next h' =>
    rw [hr] at h'
    cases h'
  · cases ht : t.step with
    | error e | ok u => simp only [bind, Except.bind]

/-- **Trees grow in step** to the ends of both texts. -/
theorem mates_grow (hfits : t.Fits) (hsrc : Tracks source t.reading) (hu : t.grow = .ok u) :
    ∃ u', t'.grow = .ok u' ∧ u.Mates p k k' base base' u' := by
  fun_induction grow t generalizing t' with
  | case1 t hr =>
    cases hu
    have hr' := h.reading.rest.nil_iff.mp hr
    refine ⟨t', ?_, h⟩
    rw [grow]
    split
    · rfl
    · next h' =>
      rw [hr'] at h'
      cases h'
  | case2 => cases hu
  | case3 t c rest hr v hv =>
    rename_i ih
    have hne : t.reading.rest ≠ [] := by simp [hr]
    obtain ⟨v', h1, h2⟩ := mates_step h hne hfits hsrc hv
    have hgrows := grows_step hne hv hfits
    obtain ⟨u', h3, h4⟩ := ih h2 (hgrows.2 hfits) (tracks_of_reads hgrows.1.choose_spec hsrc) hu
    have hrest := h.reading.rest
    rw [hr] at hrest
    obtain ⟨rest', hr'⟩ := hrest.exists_cons
    exact ⟨u', by rw [grow_cons hr']; exact bind_eq_ok.mpr ⟨_, h1, h3⟩, h4⟩

end OpenTree

/-! ## The beginning of a text -/

/-- Where no sign stands, character data begins. -/
theorem step_text {t : OpenTree} (h : endsText t.reading.rest = false) : t.step = .ok t.text := by
  have none_of : ∀ word : List Char, (∀ rest, endsText (word ++ rest) = true) →
      t.reading.startsWith word = false := by
    intro word hword
    rw [Bool.eq_false_iff]
    intro hs
    obtain ⟨rest, hrest⟩ := List.isPrefixOf_iff_prefix.mp hs
    rw [← hrest, hword] at h
    cases h
  have htag : (t.reading.startsWith ['<'] && tagNameLength t.reading.rest.tail != 0) = false := by
    rw [Bool.eq_false_iff]
    intro hs
    rw [Bool.and_eq_true, bne_iff_ne] at hs
    obtain ⟨rest, hrest⟩ := List.isPrefixOf_iff_prefix.mp hs.1
    rw [← hrest, List.singleton_append] at h hs
    cases rest with
    | nil => exact hs.2 rfl
    | cons c rest =>
      simp only [endsText, opensMarkup_cons, Bool.or_eq_false_iff, Bool.and_eq_false_iff] at h
      rcases h.2 with h | h
      · cases h
      · exact hs.2 (by simp [tagNameLength, h.2])
  have hbrace : ∀ word : List Char, ∀ rest, endsText (('{' :: word) ++ rest) = true :=
    fun _ _ => rfl
  unfold OpenTree.step
  rw [none_of ['<', '/'] (fun _ => rfl), none_of ['{', ':'] (hbrace _),
    none_of ['{', '/'] (hbrace _), none_of ['<', '!', '-', '-'] (fun _ => rfl), htag,
    none_of ['{', '#'] (hbrace _), none_of ['{'] (hbrace _)]
  rfl

theorem textTail_tail {text : List Char} (hne : text ≠ []) (h : endsText text = false) :
    textTail text.tail + 1 = textTail text := by
  cases text with
  | nil => exact absurd rfl hne
  | cons c rest =>
    rw [endsText] at h
    rw [textTail, if_neg (by simp [h]), List.tail_cons]

/-- A text of blanks and more, as stretches: the blanks are the first of them. -/
theorem stretches_margin {w text : List Char} (hne : w ≠ []) (hw : ∀ c ∈ w, isBlank c = true)
    (htext : ∀ c, text.head? = some c → isBlank c = false) :
    stretches (w ++ text) = .blank w.length :: stretches text := by
  cases w with
  | nil => exact absurd rfl hne
  | cons c w =>
    have htake : ((w ++ text).takeWhile isBlank).length = w.length := by
      rw [List.takeWhile_append_of_pos fun d hd => hw d (List.mem_cons_of_mem c hd)]
      cases text with
      | nil => simp
      | cons d rest =>
        rw [List.takeWhile_cons_of_neg (by simp [htext d rfl]), List.append_nil]
    rw [List.cons_append, stretches, if_pos (hw c List.mem_cons_self)]
    simp only [htake, List.drop_left', List.length_cons]

/-- A text that begins with blanks, as far as character data goes. -/
theorem textTail_margin {x rest : List Char} (hx : ∀ c ∈ x, isBlank c = true) :
    textTail (x ++ rest) = x.length + textTail rest := by
  induction x with
  | nil => simp
  | cons c x ih =>
    have := steady_endsText.blank c (x ++ rest) (hx c List.mem_cons_self)
    rw [endsText] at this
    rw [List.cons_append, textTail, if_neg (by simp [this]),
      ih fun d hd => hx d (List.mem_cons_of_mem c hd), List.length_cons]
    omega

/-- The number of tokens that the blanks at the beginning of a text make. -/
def leading (x : List Char) : Nat :=
  if x = [] then 0 else 1

/-- What reading knows after the blanks at the beginning of a text. -/
def Reading.past (x rest : List Char) : Reading :=
  if x = [] then .start rest else (Reading.start (x ++ rest)).emit .htmlText x.length

/-- The text that a document begins with, if that is its first `n` tokens. -/
def leadingText (n : Nat) : List Node :=
  if n = 0 then [] else [.text 0 (n - 1)]

theorem leadingText_reverse (n : Nat) : (leadingText n).reverse = leadingText n := by
  unfold leadingText
  split <;> rfl

/-- The tree of a text that begins with blanks, after its first run of character data. -/
def OpenTree.begun (x rest : List Char) : OpenTree :=
  let r := Reading.readStretches (some .htmlText) .htmlText
    (stretches (rest.take (textTail rest))) (.past x rest)
  ⟨[], leadingText r.next, r⟩

section Past

variable (x rest : List Char)

@[simp] theorem Reading.rest_past : (Reading.past x rest).rest = rest := by
  unfold Reading.past
  split
  · rfl
  · simp [Reading.start]

theorem Reading.next_past : (Reading.past x rest).next = leading x := by
  unfold Reading.past leading
  split <;> rfl

theorem Reading.place_past : (Reading.past x rest).place = Cursor.start.over x := by
  unfold Reading.past
  split
  · next h =>
    rw [h]
    rfl
  · simp [Reading.emit, Reading.skip, Reading.start]

end Past

section Begun

variable {x rest : List Char} (hx : ∀ c ∈ x, isBlank c = true)
  (hrest : ∀ c, rest.head? = some c → isBlank c = false)
include hx hrest

/-- The blanks at the beginning of a text are the first stretch of its first run. -/
theorem readStretches_past : Reading.readStretches (some .htmlText) .htmlText
      (stretches ((x ++ rest).take (textTail (x ++ rest)))) (.start (x ++ rest)) =
    Reading.readStretches (some .htmlText) .htmlText
      (stretches (rest.take (textTail rest))) (.past x rest) := by
  by_cases hne : x = []
  · rw [Reading.past, if_pos hne, hne, List.nil_append]
  · rw [Reading.past, if_neg hne, textTail_margin hx, List.take_length_add_append,
      stretches_margin hne hx]
    · rfl
    · intro c hc
      refine hrest c ?_
      cases rest with
      | nil => simp at hc
      | cons d rest =>
        cases htail : textTail (d :: rest) with
        | zero => simp [htail] at hc
        | succ n => simpa [htail] using hc

/-- **A text has begun** when its first run of character data, if it has one, is read. -/
theorem begun_spec : OpenTree.begun x rest = .start (x ++ rest) ∨
    x ++ rest ≠ [] ∧ (OpenTree.start (x ++ rest)).step = .ok (.begun x rest) := by
  by_cases hends : endsText (x ++ rest) = true ∨ x ++ rest = []
  · left
    have hnil : x = [] := by
      cases x with
      | nil => rfl
      | cons c x =>
        rcases hends with h | h
        · rw [List.cons_append, steady_endsText.blank c _ (hx c List.mem_cons_self)] at h
          cases h
        · cases h
    subst hnil
    have htail : textTail rest = 0 := by
      cases rest with
      | nil => rfl
      | cons c rest =>
        rcases hends with h | h
        · exact if_pos h
        · cases h
    simp only [OpenTree.begun, htail, List.take_zero, stretches, Reading.readStretches,
      Reading.past, if_true, OpenTree.start]
    rfl
  · rw [not_or, Bool.not_eq_true] at hends
    obtain ⟨hends, hne⟩ := hends
    refine .inr ⟨hne, ?_⟩
    have hread : (OpenTree.start (x ++ rest)).text.reading = (OpenTree.begun x rest).reading := by
      show Reading.run _ _ (textTail (x ++ rest).tail + 1) (Reading.start (x ++ rest)) = _
      rw [textTail_tail hne hends, Reading.run]
      exact readStretches_past hx hrest
    have hlt : 0 < (OpenTree.begun x rest).reading.next := by
      rw [← hread]
      exact next_lt_stretches (r := .start (x ++ rest)) (List.take_append_drop _ _).symm
        (by simpa [OpenTree.start, Reading.start] using hne)
    rw [step_text hends]
    refine congrArg Except.ok ?_
    show OpenTree.mk [] [.text 0 (OpenTree.start (x ++ rest)).text.reading.last]
      (OpenTree.start (x ++ rest)).text.reading = _
    rw [hread]
    show _ = OpenTree.mk [] (leadingText (OpenTree.begun x rest).reading.next) _
    rw [leadingText, if_neg (by omega)]
    rfl

/-- The tree of a text grows through its beginning. -/
theorem grow_begun : (OpenTree.start (x ++ rest)).grow = (OpenTree.begun x rest).grow ∧
    (OpenTree.begun x rest).Fits ∧ Tracks (x ++ rest) (OpenTree.begun x rest).reading := by
  rcases begun_spec hx hrest with h | ⟨hne, h⟩
  · rw [h]
    exact ⟨rfl, fits_start _, tracks_start _⟩
  · obtain ⟨c, y, hy⟩ := List.exists_cons_of_ne_nil hne
    have hgrows := OpenTree.grows_step (t := .start (x ++ rest)) hne h (fits_start _)
    refine ⟨?_, hgrows.2 (fits_start _), tracks_of_reads hgrows.1.choose_spec (tracks_start _)⟩
    rw [OpenTree.grow_cons (show (OpenTree.start (x ++ rest)).reading.rest = c :: y from hy), h]
    rfl

/-- The first token of a text that begins with blanks. -/
theorem first_of_margin {d : Document} (hd : Document.read (x ++ rest) = .ok d) (hne : x ≠ []) :
    ∃ t, d.tokens[0]? = some t ∧ t.start = 0 ∧ t.stop = x.length := by
  obtain ⟨hgrow, hfits, -⟩ := grow_begun hx hrest
  obtain ⟨u, hu, -, -, htokens, -⟩ := grow_of_read hd
  rw [hgrow] at hu
  obtain ⟨⟨⟨us, hus⟩, -⟩, -⟩ := OpenTree.grows_grow hu hfits
  obtain ⟨ts, hts, -⟩ := @Reading.reads_readStretches (some .htmlText) .htmlText (by simp)
    (fun _ h => .inr h) (rest.take (textTail rest)) (rest.drop (textTail rest)) (.past x rest)
    (by rw [Reading.rest_past, List.take_append_drop])
  have hfirst : (Reading.past x rest).tokens[0]? =
      some ((Reading.start (x ++ rest)).token .htmlText x.length) := by
    rw [Reading.past, if_neg hne]
    simp [Reading.start]
  refine ⟨_, htokens ▸ hus.getElem? (hts.getElem? hfirst), rfl, ?_⟩
  simp [Reading.token, Reading.start, Cursor.start]

end Begun

/-! ## Mended documents -/

/-- A document that can be read has a tree that is grown to its end. -/
theorem read_of_grow {text : List Char} {t : OpenTree} (h : (OpenTree.start text).grow = .ok t)
    (hf : t.frames = []) : ∃ d, Document.read text = .ok d ∧ d.text = text ∧
      d.tokens = t.reading.tokens ∧ d.nodes = t.done.reverse := by
  refine ⟨{ text := text, tokens := t.reading.tokens, nodes := t.done.reverse }, ?_, rfl, rfl, rfl⟩
  rw [Document.read, h]
  simp only [bind, Except.bind, hf]

/-- A document and its mended form: after the first `k` and `k'` tokens the tokens are of each
other, and so are the nodes, but for the text that either may begin with. -/
structure Regrown (R : Token → Token → Prop) (k k' : Nat) (base base' : List Node)
    (d d' : Document) : Prop where
  matched : Matched R k d.tokens (d'.tokens.extract k')
  nodes : ∃ ns, d.nodes = base ++ nodesMoved k ns ∧ d'.nodes = base' ++ nodesMoved k' ns

/-- If trees are of each other at some time, then so are the documents. -/
theorem regrown_of_mates {es : List Edit} {source mended : List Char}
    {p : Pairing es source mended} {k k' : Nat} {base base' : List Node} {t t' : OpenTree}
    {d : Document} (hd : Document.read source = .ok d)
    (hsource : (OpenTree.start source).grow = t.grow)
    (hmended : (OpenTree.start mended).grow = t'.grow)
    (h : t.Mates p k k' base base' t') (hfits : t.Fits)
    (htracks : Tracks source t.reading) :
    ∃ d', Document.read mended = .ok d' ∧ Regrown p.token k k' base.reverse base'.reverse d d' := by
  obtain ⟨u, h1, h2, h3, h4, h5, -⟩ := grow_of_read hd
  rw [hsource] at h1
  obtain ⟨u', h6, h7⟩ := OpenTree.mates_grow h hfits htracks h1
  rw [← hmended] at h6
  have hst := h7.stacked
  rw [h2] at hst
  generalize hdone : u.done = done at hst
  generalize hframes' : u'.frames = frames' at hst
  generalize hdone' : u'.done = done' at hst
  cases hst with
  | bottom ns =>
    obtain ⟨d', h8, h9, h10, h11⟩ := read_of_grow h6 hframes'
    refine ⟨d', h8, ?_, ns.reverse, ?_, ?_⟩
    · rw [h4, h10]
      exact h7.reading.matched
    · rw [h5, hdone, List.reverse_append, nodesMoved_reverse]
    · rw [h11, hdone', List.reverse_append, nodesMoved_reverse]

/-- **A mended text can be read**, if no edit stands at its beginning: over tokens of each other the
tree is the same. -/
theorem read_mended {es : List Edit} {source mended : List Char} {d : Document}
    (hd : Document.read source = .ok d) (hno : ∀ e ∈ es, e.start ≠ 0)
    (h : Mended es 0 source mended) :
    ∃ d', Document.read mended = .ok d' ∧ Regrown (Kin es source mended) 0 0 [] [] d d' := by
  have hmates : (OpenTree.start source).Mates (.margins es source mended) 0 0 [] []
      (.start mended) := by
    refine ⟨.bottom [], ⟨⟨[], [], rfl, rfl, rfl, rfl, .line hno .nil⟩, h, ⟨0, rfl, rfl⟩,
      fun i t' ht => ?_⟩⟩
    simp [OpenTree.start, Reading.start] at ht
  exact regrown_of_mates hd rfl rfl hmates (fits_start source) (tracks_start source)

section Beginning

variable {es : List Edit} {x x' rest rest' : List Char}
  (hxx : Mended es (-1) ('\n' :: x) ('\n' :: x'))
  (h : Mended es x.length rest rest')
include hxx h

/-- After the blanks that either of two texts begins with, they are abreast. -/
theorem abreast_past : Abreast (.margins es (x ++ rest) (x' ++ rest')) (leading x) (leading x')
    (.past x rest) (.past x' rest') := by
  refine ⟨⟨x, x', by rw [Reading.rest_past], by rw [Reading.rest_past], Reading.place_past x rest,
    Reading.place_past x' rest', hxx⟩, ?_, ⟨0, ?_, ?_⟩, fun i t' ht => ?_⟩
  · rw [Reading.place_past, offset_start_over, Reading.rest_past, Reading.rest_past]
    exact h
  · rw [Reading.next_past, Nat.zero_add]
  · rw [Reading.next_past, Nat.zero_add]
  · have hlt : i + leading x' < (Reading.past x' rest').next :=
      (Array.getElem?_eq_some_iff.mp ht).1
    rw [Reading.next_past] at hlt
    omega

theorem mates_begun : (OpenTree.begun x rest).Mates (.margins es (x ++ rest) (x' ++ rest'))
    (leading x) (leading x') (leadingText (OpenTree.begun x rest).reading.next)
    (leadingText (OpenTree.begun x' rest').reading.next) (.begun x' rest') := by
  have hcut := cut_search_getD steady_endsText h
  rw [← textTail_eq, ← textTail_eq] at hcut
  have hoff : ((Reading.past x rest).place.offset : Int) = x.length := by
    rw [Reading.place_past, offset_start_over]
  refine ⟨.bottom [], Reading.abreast_readStretches (some .htmlText) .htmlText (abreast_past hxx h)
    (by rw [Reading.rest_past, List.take_append_drop])
    (by rw [Reading.rest_past, List.take_append_drop]) ?_ ?_⟩
  · rw [hoff]
    exact hcut.before
  · rw [hoff, List.length_take, Nat.min_eq_left hcut.le]
    exact hcut.after

/-- **A mended text can be read**, whatever becomes of the blanks at its beginning. These are the
first token of a text, and part of the text that its document begins with, if not all of it. -/
theorem read_past {d : Document} (hd : Document.read (x ++ rest) = .ok d)
    (hx : ∀ c ∈ x, isBlank c = true) (hx' : ∀ c ∈ x', isBlank c = true)
    (hrest : ∀ c, rest.head? = some c → isBlank c = false) :
    ∃ d' m, Document.read (x' ++ rest') = .ok d' ∧
      Regrown (Kin es (x ++ rest) (x' ++ rest')) (leading x) (leading x')
        (leadingText (m + leading x)) (leadingText (m + leading x')) d d' := by
  have hrest' : ∀ c, rest'.head? = some c → isBlank c = false :=
    fun c hc => hrest c (h.head_iff.trans hc)
  obtain ⟨hgrow, hfits, htracks⟩ := grow_begun hx hrest
  obtain ⟨hgrow', -⟩ := grow_begun hx' hrest'
  have hmates := mates_begun hxx h
  obtain ⟨m, hm, hm'⟩ := hmates.reading.next
  obtain ⟨d', h1, h2⟩ := regrown_of_mates hd hgrow hgrow' hmates hfits htracks
  rw [leadingText_reverse, leadingText_reverse, hm, hm'] at h2
  exact ⟨d', m, h1, h2⟩

end Beginning

/-- The first `k` tokens of a document are blank. -/
def Document.Vacant (k : Nat) (d : Document) : Prop :=
  ∀ (i : Nat) (t : Token), i < k → d.tokens[i]? = some t → ∀ c ∈ t.text, isBlank c = true

theorem vacant_leading {x rest : List Char} {d : Document} (hd : Document.read (x ++ rest) = .ok d)
    (hx : ∀ c ∈ x, isBlank c = true) (hrest : ∀ c, rest.head? = some c → isBlank c = false) :
    d.Vacant (leading x) := by
  intro i t hi ht c hc
  unfold leading at hi
  split at hi
  · omega
  · next hne =>
    obtain rfl : i = 0 := by omega
    obtain ⟨u, hu, hstart, hstop⟩ := first_of_margin hx hrest hd hne
    rw [ht] at hu
    obtain rfl := Option.some.inj hu
    have hslice := ((tokenized_of_read hd).token 0 t ht).slice
    rw [hstart, hstop, List.drop_zero, Nat.sub_zero, List.take_left' rfl] at hslice
    exact hx c (hslice ▸ hc)

/-- **Every mended text can be read.** Over tokens of each other the tree is the same, but for a
blank token that either may begin with. -/
theorem read_of_mended {es : List Edit} {source mended : List Char} {d : Document}
    (hd : Document.read source = .ok d) (h : Mended es (-1) ('\n' :: source) ('\n' :: mended)) :
    ∃ d' k k' m, Document.read mended = .ok d' ∧ d.Vacant k ∧ d'.Vacant k' ∧
      Regrown (Kin es source mended) k k' (leadingText (m + k)) (leadingText (m + k')) d d' := by
  cases h with
  | char hc => exact absurd rfl hc
  | line hno h =>
    obtain ⟨d', h1, h2⟩ := read_mended hd hno h
    have hnone : ∀ d : Document, d.Vacant 0 := fun _ i _ hi => absurd hi (Nat.not_lt_zero i)
    exact ⟨d', 0, 0, 0, h1, hnone d, hnone d', h2⟩
  | @mend _ e w a b he hstart hstop hw ht h =>
    -- The blanks after the edit belong to the beginning too.
    have hcut := cut_blanks h
    have hblank : ∀ y : List Char, ∀ c ∈ y.take (y.takeWhile isBlank).length, isBlank c = true := by
      intro y c hc
      rw [take_length_takeWhile] at hc
      exact List.mem_takeWhile_imp hc
    have hx : ∀ c ∈ w ++ a.take (a.takeWhile isBlank).length, isBlank c = true := by
      intro c hc
      exact (List.mem_append.mp hc).elim (fun hc => (hw c hc).1) (hblank a c)
    have hx' : ∀ c ∈ e.text ++ b.take (b.takeWhile isBlank).length, isBlank c = true := by
      intro c hc
      exact (List.mem_append.mp hc).elim (fun hc => (ht c hc).1) (hblank b c)
    have hrest : ∀ c, (a.drop (a.takeWhile isBlank).length).head? = some c → isBlank c = false := by
      intro c hc
      rw [drop_length_takeWhile] at hc
      have := List.head?_dropWhile_not isBlank a
      rw [hc] at this
      simpa using this
    have hxx := Mended.mend he hstart hstop hw ht hcut.before
    have hrests : Mended es (w ++ a.take (a.takeWhile isBlank).length).length
        (a.drop (a.takeWhile isBlank).length) (b.drop (b.takeWhile isBlank).length) := by
      convert hcut.after using 1
      rw [List.length_append, List.length_take, Nat.min_eq_left hcut.le]
      omega
    have hsource : w ++ a = w ++ a.take (a.takeWhile isBlank).length ++
        a.drop (a.takeWhile isBlank).length := by rw [List.append_assoc, List.take_append_drop]
    have hmended : e.text ++ b = e.text ++ b.take (b.takeWhile isBlank).length ++
        b.drop (b.takeWhile isBlank).length := by rw [List.append_assoc, List.take_append_drop]
    rw [hsource] at hd ⊢
    rw [hmended]
    obtain ⟨d', m, h1, h2⟩ := read_past hxx hrests hd hx hx' hrest
    have hrest' : ∀ c, (b.drop (b.takeWhile isBlank).length).head? = some c → isBlank c = false :=
      fun c hc => hrest c (hrests.head_iff.trans hc)
    exact ⟨d', _, _, m, h1, vacant_leading hd hx hrest, vacant_leading h1 hx' hrest', h2⟩

end MarkupIndent.Markup
