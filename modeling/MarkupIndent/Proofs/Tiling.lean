import MarkupIndent.Markup.Document
import MarkupIndent.Proofs.Spans

/-!
# The tree tiles its tokens

The nodes of a list span consecutive ranges of tokens without gaps, and inside a node its tags and
children do. A growing tree keeps this for the nodes that are complete at every open level, so it
holds of every document that is read.

* `Node.Fits`, `NodesTile`, `BranchesTile`: nodes in the places that their tokens give them, with
  the names that their tokens say.
* `OpenTree.Fits`: the same for a tree that is still growing.
* `fits_step`: every step keeps it.
* `tokenized_of_read`, `tile_of_read`: the tokens and the tree of a document.
-/

namespace MarkupIndent.Markup

open Text

/-! ## Nodes in their places -/

/-- Each of some tokens begins on a later line than the ones before. -/
def LinesRise (tokens : Array Token) (indices : List Nat) : Prop :=
  indices.Pairwise fun i j =>
    ∀ s t, tokens[i]? = some s → tokens[j]? = some t → s.line < t.line

/-- The lines of tokens that are there do not change when more tokens come. -/
theorem LinesRise.mono {tokens more : Array Token} (he : Extends tokens more) {indices : List Nat}
    (h : LinesRise tokens indices) (hin : ∀ i ∈ indices, ∃ t, tokens[i]? = some t) :
    LinesRise more indices := by
  refine List.Pairwise.imp_of_mem (fun {i j} hi hj hij s t hs ht => ?_) h
  obtain ⟨s', hs'⟩ := hin i hi
  obtain ⟨t', ht'⟩ := hin j hj
  rw [he i s' hs'] at hs
  rw [he j t' ht'] at ht
  cases hs
  cases ht
  exact hij _ _ hs' ht'

/-- Of tokens of a range whose lines rise, each begins on a later line than the ones before. -/
theorem LinesRise.line_lt {tokens : Array Token} {lo n i k : Nat}
    (h : LinesRise tokens (List.range' lo n)) (h1 : lo ≤ i) (h2 : i < k) (h3 : k < lo + n)
    {s t : Token} (hs : tokens[i]? = some s) (ht : tokens[k]? = some t) : s.line < t.line := by
  have hlen : (List.range' lo n).length = n := List.length_range'
  have hrise := List.pairwise_iff_getElem.mp h (i - lo) (k - lo) (by omega) (by omega) (by omega)
  simp only [List.getElem_range', Nat.one_mul] at hrise
  exact hrise s t (by rwa [Nat.add_sub_cancel' h1]) (by rwa [Nat.add_sub_cancel' (by omega)])

mutual

/-- A node spans its own tokens: text between tags is made of tokens of text, any other node of
tags that fit, with children that tile the range between them. The tag that closes an element has
its name, and the tag that closes a block its keyword. The content of a raw block has a token for
each of its lines at most. -/
def Node.Fits (tokens : Array Token) : Node → Prop
  | .text first last => first ≤ last ∧
      ∀ i, first ≤ i → i ≤ last → ∃ t, tokens[i]? = some t ∧ t.kind = .htmlText
  | .comment first last => first = last ∧ Marked tokens first (last + 1)
  | .mustache m => m.Fits tokens
  | .element name tag children none => tag.Fits tokens ∧ children = [] ∧
      Stands tokens tag.name .name name ∧ (tag.selfClosing = true ∨ isVoid (lower name) = true)
  | .element name tag children (some e) =>
      tag.Fits tokens ∧ NodesTile tokens (tag.last + 1) children e.first ∧ e.Fits tokens ∧
      Stands tokens tag.name .name name ∧ Stands tokens (e.first + 1) .name name
  | .raw kind tag content e _ => tag.Fits tokens ∧ tag.last < e.first ∧
      content = List.range' (tag.last + 1) (e.first - (tag.last + 1)) ∧
      (∀ i ∈ content, ∃ t, tokens[i]? = some t ∧ t.kind = .rawText) ∧ e.Fits tokens ∧
      ∃ name, RawKind.ofName? (lower name) = some kind ∧ Stands tokens tag.name .name name ∧
        Stands tokens (e.first + 1) .name name ∧ LinesRise tokens content
  | .control openTag children branches closeTag => openTag.Fits tokens ∧
      (∃ mid, NodesTile tokens (openTag.last + 1) children mid ∧
        BranchesTile tokens mid branches closeTag.first) ∧ closeTag.Fits tokens ∧
      closeTag.keyword = openTag.keyword

/-- Nodes follow each other from one index to another, without gaps. -/
def NodesTile (tokens : Array Token) : (lo : Nat) → List Node → (hi : Nat) → Prop
  | lo, [], hi => lo = hi
  | lo, n :: rest, hi => n.first = lo ∧ n.Fits tokens ∧ NodesTile tokens (n.last + 1) rest hi

/-- Further branches of a control block, each its tag and its children, follow each other. -/
def BranchesTile (tokens : Array Token) : (lo : Nat) → List Branch → (hi : Nat) → Prop
  | lo, [], hi => lo = hi
  | lo, .mk tag children :: rest, hi => tag.first = lo ∧ tag.Fits tokens ∧
      ∃ mid, NodesTile tokens (tag.last + 1) children mid ∧ BranchesTile tokens mid rest hi

end

mutual

theorem Node.Fits.mono {tokens more : Array Token} (he : Extends tokens more) :
    (n : Node) → n.Fits tokens → n.Fits more
  | .text _ _, h => ⟨h.1, fun i h1 h2 => by
      obtain ⟨t, ht, hk⟩ := h.2 i h1 h2
      exact ⟨t, he i t ht, hk⟩⟩
  | .comment _ _, h => ⟨h.1, h.2.mono he⟩
  | .mustache _, h => Mustache.Fits.mono he h
  | .element _ _ _ none, h => ⟨h.1.mono he, h.2.1, h.2.2.1.mono he, h.2.2.2⟩
  | .element _ _ children (some _), h =>
    ⟨h.1.mono he, NodesTile.mono he _ children _ h.2.1, h.2.2.1.mono he, h.2.2.2.1.mono he,
      h.2.2.2.2.mono he⟩
  | .raw _ _ _ _ _, h => by
    obtain ⟨h1, h2, h3, h4, h5, name, h6, h7, h8, h9⟩ := h
    refine ⟨h1.mono he, h2, h3, fun i hi => ?_, h5.mono he, name, h6, h7.mono he, h8.mono he,
      h9.mono he fun i hi => (h4 i hi).imp fun t ht => ht.1⟩
    obtain ⟨t, ht, hk⟩ := h4 i hi
    exact ⟨t, he i t ht, hk⟩
  | .control _ children branches _, h => by
    obtain ⟨h1, ⟨mid, h2, h3⟩, h4, h5⟩ := h
    exact ⟨h1.mono he, ⟨mid, NodesTile.mono he _ children _ h2,
      BranchesTile.mono he _ branches _ h3⟩, h4.mono he, h5⟩

theorem NodesTile.mono {tokens more : Array Token} (he : Extends tokens more) :
    (lo : Nat) → (nodes : List Node) → (hi : Nat) → NodesTile tokens lo nodes hi →
      NodesTile more lo nodes hi
  | _, [], _, h => h
  | _, n :: rest, _, h => ⟨h.1, Node.Fits.mono he n h.2.1, NodesTile.mono he _ rest _ h.2.2⟩

theorem BranchesTile.mono {tokens more : Array Token} (he : Extends tokens more) :
    (lo : Nat) → (branches : List Branch) → (hi : Nat) → BranchesTile tokens lo branches hi →
      BranchesTile more lo branches hi
  | _, [], _, h => h
  | _, .mk _ children :: rest, _, h => by
    obtain ⟨h1, h2, mid, h3, h4⟩ := h
    exact ⟨h1, h2.mono he, mid, NodesTile.mono he _ children _ h3, BranchesTile.mono he _ rest _ h4⟩

end

section Ranges

variable {tokens : Array Token}

mutual

theorem Node.Fits.le : (n : Node) → n.Fits tokens → n.first ≤ n.last
  | .text _ _, h => h.1
  | .comment _ _, h => Nat.le_of_eq h.1
  | .mustache m, h => Nat.le_of_lt (Mustache.Fits.lt (m := m) h)
  | .element _ tag _ none, h => by
    have := h.1.lt
    show tag.first ≤ tag.last
    omega
  | .element _ tag children (some e), h => by
    have h1 := h.1.lt
    have h2 := NodesTile.le _ children _ h.2.1
    have h3 := h.2.2.1.last
    show tag.first ≤ e.last
    omega
  | .raw _ tag _ e _, h => by
    have h1 := h.1.lt
    have h2 := h.2.1
    have h3 := h.2.2.2.2.1.last
    show tag.first ≤ e.last
    omega
  | .control openTag children branches closeTag, h => by
    obtain ⟨h1, ⟨mid, h2, h3⟩, h4, -⟩ := h
    have := h1.lt
    have := NodesTile.le _ children _ h2
    have := BranchesTile.le _ branches _ h3
    have := h4.lt
    show openTag.first ≤ closeTag.last
    omega

theorem NodesTile.le : (lo : Nat) → (nodes : List Node) → (hi : Nat) →
    NodesTile tokens lo nodes hi → lo ≤ hi
  | _, [], _, h => Nat.le_of_eq h
  | lo, n :: rest, hi, h => by
    have h1 := h.1
    have h2 := Node.Fits.le n h.2.1
    have h3 := NodesTile.le _ rest _ h.2.2
    omega

theorem BranchesTile.le : (lo : Nat) → (branches : List Branch) → (hi : Nat) →
    BranchesTile tokens lo branches hi → lo ≤ hi
  | _, [], _, h => Nat.le_of_eq h
  | lo, .mk tag children :: rest, hi, h => by
    obtain ⟨h1, h2, mid, h3, h4⟩ := h
    have := h2.lt
    have := NodesTile.le _ children _ h3
    have := BranchesTile.le _ rest _ h4
    omega

end

theorem NodesTile.append {lo mid hi : Nat} {a b : List Node} (h : NodesTile tokens lo a mid)
    (h' : NodesTile tokens mid b hi) : NodesTile tokens lo (a ++ b) hi := by
  induction a generalizing lo with
  | nil =>
    rw [show lo = mid from h]
    exact h'
  | cons n rest ih => exact ⟨h.1, h.2.1, ih h.2.2⟩

theorem NodesTile.concat {lo hi : Nat} {nodes : List Node} {n : Node}
    (h : NodesTile tokens lo nodes n.first) (hn : n.Fits tokens) (hl : n.last + 1 = hi) :
    NodesTile tokens lo (nodes ++ [n]) hi :=
  h.append ⟨rfl, hn, hl⟩

theorem BranchesTile.concat {lo hi : Nat} {branches : List Branch} {tag : BlockTag}
    {children : List Node} (h : BranchesTile tokens lo branches tag.first) (ht : tag.Fits tokens)
    (hc : NodesTile tokens (tag.last + 1) children hi) :
    BranchesTile tokens lo (branches ++ [.mk tag children]) hi := by
  induction branches generalizing lo with
  | nil => exact ⟨Eq.symm h, ht, hi, hc, rfl⟩
  | cons b rest ih =>
    cases b with
    | mk first inner =>
      obtain ⟨h1, h2, mid, h3, h4⟩ := h
      exact ⟨h1, h2, mid, h3, ih h4⟩

/-- The last of some branches ends where they all end. -/
theorem BranchesTile.of_concat {lo hi : Nat} {branches : List Branch} {tag : BlockTag}
    {children : List Node} (h : BranchesTile tokens lo (branches ++ [.mk tag children]) hi) :
    BranchesTile tokens lo branches tag.first ∧ tag.Fits tokens ∧
      NodesTile tokens (tag.last + 1) children hi := by
  induction branches generalizing lo with
  | nil =>
    obtain ⟨h1, h2, mid, h3, h4⟩ := h
    rw [show mid = hi from h4] at h3
    exact ⟨Eq.symm h1, h2, h3⟩
  | cons b rest ih =>
    cases b with
    | mk first inner =>
      obtain ⟨h1, h2, mid, h3, h4⟩ := h
      obtain ⟨h5, h6, h7⟩ := ih h4
      exact ⟨⟨h1, h2, mid, h3, h5⟩, h6, h7⟩

/-- The tag that opens a block: that of its first branch, which is the last in a list of branches
with the latest first. -/
def firstTag (finished : List Branch) (tag : BlockTag) : BlockTag :=
  (finished.map Branch.tag).getLastD tag

theorem firstTag_cons (b : Branch) (finished : List Branch) (tag : BlockTag) :
    firstTag (b :: finished) tag = firstTag finished b.tag := by
  rw [firstTag, List.map_cons, List.getLastD_cons, firstTag]

/-- A block that is closed spans its tags and branches. -/
theorem fits_closeBlock {lo mid : Nat} {closeTag tag : BlockTag} {children : List Node}
    {later finished : List Branch} (hf : BranchesTile tokens lo finished.reverse tag.first)
    (ht : tag.Fits tokens) (hc : NodesTile tokens (tag.last + 1) children mid)
    (hl : BranchesTile tokens mid later closeTag.first) (he : closeTag.Fits tokens)
    (hk : closeTag.keyword = (firstTag finished tag).keyword) :
    (closeBlock closeTag tag children later finished).Fits tokens ∧
      (closeBlock closeTag tag children later finished).first = lo ∧
      (closeBlock closeTag tag children later finished).last = closeTag.last := by
  induction finished generalizing tag children later mid with
  | nil => exact ⟨⟨ht, ⟨mid, hc, hl⟩, he, hk⟩, Eq.symm hf, rfl⟩
  | cons b earlier ih =>
    cases b with
    | mk first inner =>
      rw [List.reverse_cons] at hf
      obtain ⟨h1, h2, h3⟩ := hf.of_concat
      exact ih h1 h2 h3 ⟨rfl, ht, mid, hc, hl⟩ (firstTag_cons .. ▸ hk)

end Ranges

/-! ## Growing trees -/

/-- The open constructs span the tokens up to `lo`, where the innermost level begins. An element
has the name, and a block the keyword, of the tag that opened it. -/
def FramesFit (tokens : Array Token) : List Frame → (lo : Nat) → Prop
  | [], lo => lo = 0
  | .element name tag _ before :: frames, lo => Inline name ∧ tag.Fits tokens ∧
      Stands tokens tag.name .name name ∧ lo = tag.last + 1 ∧
      ∃ start, FramesFit tokens frames start ∧ NodesTile tokens start before.reverse tag.first
  | .block keyword _ finished tag before :: frames, lo => tag.Fits tokens ∧
      (firstTag finished tag).keyword = keyword ∧ lo = tag.last + 1 ∧
      ∃ start mid, FramesFit tokens frames start ∧ NodesTile tokens start before.reverse mid ∧
        BranchesTile tokens mid finished.reverse tag.first

theorem FramesFit.mono {tokens more : Array Token} (he : Extends tokens more) {frames : List Frame}
    {lo : Nat} (h : FramesFit tokens frames lo) : FramesFit more frames lo := by
  induction frames generalizing lo with
  | nil => exact h
  | cons f rest ih =>
    cases f with
    | element name tag opened before =>
      obtain ⟨h1, h2, h3, h4, start, h5, h6⟩ := h
      exact ⟨h1, h2.mono he, h3.mono he, h4, start, ih h5, h6.mono he⟩
    | block keyword opened finished tag before =>
      obtain ⟨h1, h2, h3, start, mid, h4, h5, h6⟩ := h
      exact ⟨h1.mono he, h2, h3, start, mid, ih h4, h5.mono he, h6.mono he⟩

/-- A growing tree has all tokens that are read in its open constructs and complete nodes. -/
def OpenTree.Fits (t : OpenTree) : Prop :=
  ∃ lo, FramesFit t.reading.tokens t.frames lo ∧
    NodesTile t.reading.tokens lo t.done.reverse t.reading.next

/-- A step of a growing tree: it reads on, and the tree still fits. -/
def OpenTree.Grows (t u : OpenTree) : Prop :=
  (∃ ts, Reading.Reads t.reading ts u.reading) ∧ (t.Fits → u.Fits)

namespace OpenTree

variable {t u v : OpenTree}

theorem Grows.refl (t : OpenTree) : t.Grows t :=
  ⟨⟨[], .done _⟩, id⟩

theorem Grows.trans (h : t.Grows u) (h' : u.Grows v) : t.Grows v := by
  obtain ⟨⟨ts, hts⟩, hfits⟩ := h
  obtain ⟨⟨us, hus⟩, hfits'⟩ := h'
  exact ⟨⟨_, hts.trans hus⟩, fun ht => hfits' (hfits ht)⟩

theorem grows_push {n : Node} {r : Reading} {ts : List Token}
    (h : Reading.Reads t.reading ts r) (hf : n.first = t.reading.next) (hl : n.last + 1 = r.next)
    (hn : n.Fits r.tokens) : t.Grows (t.push n r) := by
  refine ⟨⟨ts, h⟩, ?_⟩
  rintro ⟨lo, h1, h2⟩
  have he := h.extends
  refine ⟨lo, h1.mono he, ?_⟩
  show NodesTile r.tokens lo (n :: t.done).reverse r.next
  rw [List.reverse_cons]
  refine NodesTile.concat ?_ hn hl
  rw [hf]
  exact NodesTile.mono he _ _ _ h2

theorem grows_comment (hs : t.reading.startsWith ['<', '!', '-', '-'] = true)
    (h : t.comment = .ok u) : t.Grows u := by
  unfold comment at h
  split at h
  · cases h
  · next n hn =>
    cases h
    obtain ⟨hle, hsolid⟩ := solid_comment hs hn
    have hm : Reading.ReadsMarkup t.reading (t.reading.emit .comment (n + 7)) :=
      Reading.readsMarkup_emit hle hsolid (by decide)
    have hmarked := hm.marked
    rw [Reading.next_emit] at hmarked
    exact grows_push hm.choose_spec.1 rfl (by simp [Node.last]) ⟨rfl, hmarked⟩

theorem grows_text (hr : t.reading.rest ≠ []) : t.Grows t.text := by
  obtain ⟨ts, h1, h2, h3⟩ := Reading.reads_run (some .htmlText) .htmlText (by simp)
    (fun _ h => .inr h) (textTail t.reading.rest.tail + 1) t.reading
  have hne : ts ≠ [] := h3 (by omega) hr rfl
  have hlen : 0 < ts.length := List.length_pos_iff.mpr hne
  have hnext := h1.next
  have hl := Reading.last_eq (r := t.reading) (s := t.reading.run (some .htmlText) .htmlText
    (textTail t.reading.rest.tail + 1)) (by omega)
  refine grows_push h1 rfl hl ⟨by omega, fun i hi1 hi2 => ?_⟩
  have hsize : t.reading.tokens.size = t.reading.next := rfl
  have hi : i - t.reading.tokens.size < ts.length := by omega
  refine ⟨ts[i - t.reading.tokens.size], ?_, ?_⟩
  · rw [h1.tokens, Array.getElem?_append_right hi1, List.getElem?_toArray,
      List.getElem?_eq_getElem]
  · rcases h2 _ (List.getElem_mem hi) with h | h
    · exact h
    · exact (Option.some.inj h).symm

theorem grows_mustache (hs : t.reading.startsWith ['{'] = true) (h : t.mustache = .ok u) :
    t.Grows u := by
  unfold mustache at h
  obtain ⟨⟨m, r⟩, h1, h⟩ := bind_eq_ok.mp h
  cases h
  obtain ⟨h1, h2, h3, h4⟩ := Reading.reads_readMustache hs h1
  exact grows_push h1.choose_spec.1 h2 h3 h4

theorem grows_raw {kind : RawKind} {tag : StartTag} {name : List Char} {r : Reading}
    (hm : Reading.ReadsMarkup t.reading r) (hf : tag.first = t.reading.next)
    (hl : tag.last + 1 = r.next) (htag : tag.Fits r.tokens) (hname : Inline name)
    (hkind : RawKind.ofName? (lower name) = some kind)
    (hnamed : Stands r.tokens tag.name .name name)
    (h : t.raw kind tag name r = .ok u) : t.Grows u := by
  unfold raw at h
  split at h
  · cases h
  · next n hn =>
    obtain ⟨⟨e, s⟩, h1, h⟩ := bind_eq_ok.mp h
    cases h
    obtain ⟨ts, h2, h3, -⟩ := Reading.reads_run none .rawText (by simp)
      (fun _ h => h) n r
    obtain ⟨⟨h4, h5, h6, h7⟩, hend⟩ :=
      Reading.reads_readEndTag (Reading.startsWith_run hn) hname h1
    obtain ⟨us, h8, -⟩ := h4
    obtain ⟨vs, h9, -⟩ := hm
    have hnext := h2.next
    have hsize : r.tokens.size = r.next := rfl
    refine grows_push ((h9.trans h2).trans h8) hf h6
      ⟨(htag.mono h2.extends).mono h8.extends, by omega, ?_, ?_, h7, name, hkind,
        (hnamed.mono h2.extends).mono h8.extends, hend, ?_⟩
    · rw [hl, h5]
    · intro i hi
      rw [List.mem_range'_1] at hi
      have hlt : i - r.tokens.size < ts.length := by omega
      refine ⟨ts[i - r.tokens.size], ?_, ?_⟩
      · apply h8.getElem?
        rw [h2.tokens, Array.getElem?_append_right (by omega), List.getElem?_toArray,
          List.getElem?_eq_getElem]
      · rcases h3 _ (List.getElem_mem hlt) with h | h
        · exact h
        · cases h
    · obtain ⟨ws, h10, hrise, -⟩ := Reading.lines_readStretches .rawText (r.rest.take n)
        (r.rest.drop n) r (List.take_append_drop n r.rest).symm
      have hts : ws = ts := by
        have := congrArg Array.toList (h10.symm.trans h2.tokens)
        simpa using this
      have htoken : ∀ i ∈ List.range' r.next ((r.run none .rawText n).next - r.next),
          ∃ hi : i - r.tokens.size < ts.length, s.tokens[i]? = some ts[i - r.tokens.size] := by
        intro i hi
        rw [List.mem_range'_1] at hi
        have hlt : i - r.tokens.size < ts.length := by omega
        refine ⟨hlt, h8.getElem? ?_⟩
        rw [h2.tokens, Array.getElem?_append_right (by omega), List.getElem?_toArray,
          List.getElem?_eq_getElem]
      refine List.Pairwise.imp_of_mem (fun {i j} hi hj hij u v hu hv => ?_)
        List.pairwise_lt_range'
      obtain ⟨hi', hti⟩ := htoken i hi
      obtain ⟨hj', htj⟩ := htoken j hj
      rw [hti] at hu
      rw [htj] at hv
      cases hu
      cases hv
      have := (List.mem_range'_1.mp hi).1
      rw [hts] at hrise
      exact List.pairwise_iff_getElem.mp hrise _ _ hi' hj' (by omega)

theorem grows_openElement (hs : t.reading.startsWith ['<'] = true)
    (hn : tagNameLength t.reading.rest.tail ≠ 0) (h : t.openElement = .ok u) : t.Grows u := by
  unfold openElement at h
  obtain ⟨⟨tag, name, r⟩, h1, h⟩ := bind_eq_ok.mp h
  obtain ⟨⟨h1, h2, h3, h4⟩, h5, hnamed⟩ := Reading.reads_readStartTag hs hn h1
  obtain ⟨ts, hts⟩ : ∃ ts, Reading.Reads t.reading ts r := ⟨_, h1.choose_spec.1⟩
  simp only at h
  split at h
  · next kind hkind =>
    split at h
    · next hc =>
      cases h
      exact grows_push hts h2 h3 ⟨h4, rfl, hnamed, .inl hc⟩
    · exact grows_raw h1 h2 h3 h4 h5 hkind hnamed h
  · split at h
    · next hc =>
      cases h
      exact grows_push hts h2 h3 ⟨h4, rfl, hnamed, by simpa using hc⟩
    · cases h
      refine ⟨⟨ts, hts⟩, ?_⟩
      rintro ⟨lo, h6, h7⟩
      have he := hts.extends
      refine ⟨tag.last + 1, ⟨h5, h4, hnamed, rfl, lo, h6.mono he, ?_⟩, h3⟩
      rw [h2]
      exact NodesTile.mono he _ _ _ h7

theorem grows_closeElement (hs : t.reading.startsWith ['<', '/'] = true)
    (h : t.closeElement = .ok u) (ht : t.Fits) : t.Grows u := by
  unfold closeElement at h
  split at h
  · cases h
  · next name tag opened before frames hframes =>
    obtain ⟨⟨e, r⟩, h1, h⟩ := bind_eq_ok.mp h
    cases h
    obtain ⟨lo, hfr, hdone⟩ := ht
    rw [hframes] at hfr
    obtain ⟨h2, h3, hnamed, h4, start, h5, h6⟩ := hfr
    obtain ⟨⟨h7, h8, h9, h10⟩, hend⟩ := Reading.reads_readEndTag hs h2 h1
    refine ⟨⟨_, h7.choose_spec.1⟩, fun _ => ⟨start, h5.mono h7.extends, ?_⟩⟩
    have he := h7.extends
    show NodesTile r.tokens start (Node.element name tag t.done.reverse (some e) :: before).reverse
      r.next
    rw [List.reverse_cons]
    refine NodesTile.concat (NodesTile.mono he _ _ _ h6)
      ⟨h3.mono he, ?_, h10, hnamed.mono he, hend⟩ h9
    rw [h8, ← h4]
    exact NodesTile.mono he _ _ _ hdone
  · cases h

theorem grows_openBlock (hs : t.reading.startsWith ['{', '#'] = true) (h : t.openBlock = .ok u) :
    t.Grows u := by
  unfold openBlock at h
  obtain ⟨⟨tag, r⟩, h1, h⟩ := bind_eq_ok.mp h
  cases h
  obtain ⟨h1, h2, h3, h4⟩ := Reading.reads_readBlockTag rfl hs h1
  refine ⟨⟨_, h1.choose_spec.1⟩, ?_⟩
  rintro ⟨lo, h6, h7⟩
  have he := h1.extends
  refine ⟨tag.last + 1, ⟨h4, rfl, rfl, lo, tag.first, h6.mono he, ?_, rfl⟩, h3⟩
  rw [h2]
  exact NodesTile.mono he _ _ _ h7

theorem grows_nextBranch (hs : t.reading.startsWith ['{', ':'] = true) (h : t.nextBranch = .ok u) :
    t.Grows u := by
  unfold nextBranch at h
  split at h
  · cases h
  · next keyword opened finished tag before frames hframes =>
    obtain ⟨⟨following, r⟩, h1, h⟩ := bind_eq_ok.mp h
    cases h
    obtain ⟨h1, h2, h3, h4⟩ := Reading.reads_readBlockTag rfl hs h1
    refine ⟨⟨_, h1.choose_spec.1⟩, ?_⟩
    rintro ⟨lo, hfr, hdone⟩
    rw [hframes] at hfr
    obtain ⟨h5, hkeyword, h6, start, mid, h7, h8, h9⟩ := hfr
    have he := h1.extends
    refine ⟨following.last + 1, ⟨h4, (firstTag_cons ..).symm ▸ hkeyword, rfl, start, mid,
      h7.mono he, h8.mono he, ?_⟩, h3⟩
    rw [List.reverse_cons, h2]
    refine (BranchesTile.mono he _ _ _ h9).concat (h5.mono he) ?_
    rw [← h6]
    exact NodesTile.mono he _ _ _ hdone
  · cases h

theorem grows_endBlock (hs : t.reading.startsWith ['{', '/'] = true) (h : t.endBlock = .ok u) :
    t.Grows u := by
  unfold endBlock at h
  split at h
  · cases h
  · next keyword opened finished tag before frames hframes =>
    obtain ⟨⟨closeTag, r⟩, h1, h⟩ := bind_eq_ok.mp h
    simp only at h
    split at h
    · cases h
    · next hsame =>
      cases h
      obtain ⟨h1, h2, h3, h4⟩ := Reading.reads_readBlockTag rfl hs h1
      refine ⟨⟨_, h1.choose_spec.1⟩, ?_⟩
      rintro ⟨lo, hfr, hdone⟩
      rw [hframes] at hfr
      obtain ⟨h5, hkeyword, h6, start, mid, h7, h8, h9⟩ := hfr
      have he := h1.extends
      have hc : NodesTile r.tokens (tag.last + 1) t.done.reverse closeTag.first := by
        rw [h2, ← h6]
        exact NodesTile.mono he _ _ _ hdone
      have hlater : BranchesTile r.tokens closeTag.first [] closeTag.first := rfl
      obtain ⟨h10, h11, h12⟩ := fits_closeBlock (BranchesTile.mono he _ _ _ h9)
        (h5.mono he) hc hlater h4 ((not_not.mp hsame).trans hkeyword.symm)
      refine ⟨start, h7.mono he, ?_⟩
      show NodesTile r.tokens start
        (closeBlock closeTag tag t.done.reverse [] finished :: before).reverse r.next
      rw [List.reverse_cons]
      refine NodesTile.concat ?_ h10 (by rw [h12, h3])
      rw [h11]
      exact NodesTile.mono he _ _ _ h8
  · cases h

/-- **Every step reads on and keeps the tree in place.** -/
theorem grows_step (hr : t.reading.rest ≠ []) (h : t.step = .ok u) (ht : t.Fits) : t.Grows u := by
  unfold step at h
  split at h
  · next hs => exact grows_closeElement hs h ht
  split at h
  · next hs => exact grows_nextBranch hs h
  split at h
  · next hs => exact grows_endBlock hs h
  split at h
  · next hs => exact grows_comment hs h
  split at h
  · next hs =>
    simp only [Bool.and_eq_true, bne_iff_ne] at hs
    exact grows_openElement hs.1 hs.2 h
  split at h
  · next hs => exact grows_openBlock hs h
  split at h
  · next hs => exact grows_mustache hs h
  · cases h
    exact grows_text hr

theorem grows_grow (h : t.grow = .ok u) (ht : t.Fits) : t.Grows u ∧ u.reading.rest = [] := by
  fun_induction grow t with
  | case1 t hr =>
    cases h
    exact ⟨.refl u, hr⟩
  | case2 => cases h
  | case3 t c rest hr v hv ih =>
    have hgrows := grows_step (by simp [hr]) hv ht
    obtain ⟨hlater, hend⟩ := ih h (hgrows.2 ht)
    exact ⟨hgrows.trans hlater, hend⟩

end OpenTree

/-! ## Documents -/

theorem fits_start (text : List Char) : (OpenTree.start text).Fits := ⟨0, rfl, rfl⟩

/-- What reading a document comes to. -/
theorem grow_of_read {text : List Char} {d : Document} (h : Document.read text = .ok d) :
    ∃ t, (OpenTree.start text).grow = .ok t ∧ t.frames = [] ∧ d.text = text ∧
      d.tokens = t.reading.tokens ∧ d.nodes = t.done.reverse ∧ d.lines = .ofText text := by
  unfold Document.read at h
  obtain ⟨t, h1, h⟩ := bind_eq_ok.mp h
  split at h
  · next hf =>
    cases h
    exact ⟨t, h1, hf, rfl, rfl, rfl, rfl⟩
  · cases h

theorem exists_of_isOk {text : List Char} (h : (Document.read text).isOk = true) :
    ∃ d, Document.read text = .ok d := by
  cases hd : Document.read text with
  | error e =>
    rw [hd] at h
    cases h
  | ok d => exact ⟨d, rfl⟩

theorem text_of_read {text : List Char} {d : Document} (h : Document.read text = .ok d) :
    d.text = text := by
  obtain ⟨-, -, -, htext, -⟩ := grow_of_read h
  exact htext

/-- **The tokens of a document** are slices of its text in order, and only blanks lie between them
and before and after. -/
theorem tokenized_of_read {text : List Char} {d : Document} (h : Document.read text = .ok d) :
    Tokenized text text.length d.tokens := by
  obtain ⟨t, h1, -, -, h3, -⟩ := grow_of_read h
  obtain ⟨⟨⟨ts, hts⟩, -⟩, hrest⟩ := OpenTree.grows_grow h1 (fits_start text)
  have htracks := tracks_of_reads hts (tracks_start text)
  have hlen : t.reading.place.offset = text.length := by
    have h1 := htracks.le
    have h2 := htracks.rest
    rw [hrest] at h2
    have := congrArg List.length h2
    simp only [List.length_nil, List.length_drop] at this
    omega
  rw [h3, ← hlen]
  exact htracks.tokens

/-- **The tree of a document** tiles its tokens. -/
theorem tile_of_read {text : List Char} {d : Document} (h : Document.read text = .ok d) :
    NodesTile d.tokens 0 d.nodes d.tokens.size := by
  obtain ⟨t, h1, h2, -, h3, h4, -⟩ := grow_of_read h
  obtain ⟨⟨-, hfits⟩, -⟩ := OpenTree.grows_grow h1 (fits_start text)
  obtain ⟨lo, h5, h6⟩ := hfits (fits_start text)
  rw [h2] at h5
  rw [h3, h4]
  rw [show lo = 0 from h5] at h6
  exact h6

end MarkupIndent.Markup
